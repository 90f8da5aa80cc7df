import RegisterMap.Register.Declaration
import RegisterMap.Value.Convert

/-! # Reports

A report lists everything that is known of a register, a bus, a passenger, a generate block or an
address space, as a table of a document.  References to other things are written by a function
`tag`, and the items placed in a space by a function of the same type, so that a reader can choose
between short references and full reports. -/

namespace RegisterMap

instance : ToValue Source.Bounds := ⟨fun b => .list [.text b.high, .text b.low]⟩

instance : ToValue Source.NetKind := ⟨fun k => .int k.index⟩

instance : ToValue Direction := ⟨fun d => .int d.code⟩

instance : ToValue PortKey := ⟨fun k => .text k.name⟩

instance : ToValue PortRow := ⟨fun r => toValue (r.key, r.net, r.range, r.direction)⟩

instance : ToValue Source.Location :=
  ⟨fun l => toValue (l.path, l.line, l.column, l.endLine, l.endColumn)⟩

instance : ToValue Source.BlockName := ⟨fun n => toValue (n.block, n.inner, n.index)⟩

instance : ToValue Source.LoopHead :=
  ⟨fun h => toValue (h.index, h.initial, h.comparison, h.limit, h.step)⟩

instance : ToValue Source.Snippet := ⟨fun s => toValue (String.ofList s.text, s.offset)⟩

instance : ToValue Source.Excerpt := ⟨fun
  | .text s => .text s
  | .unlocated => .bool false
  | .unreadable => .none⟩

namespace Report

open Value (record recordOf)

/-- Range and, if asked for, kind of the net at a place. -/
def ofWidth (piece : Option (List Char)) (offset : Option Int) (withKind : Bool) : Result Value :=
  match piece, offset with
  | none, _ => if withKind then fail .unsetQuantity else .ok .none
  | some _, none => fail .wrongType
  | some piece, some n =>
    if withKind then toValue <$> Source.widthAndKind piece n
    else toValue <$> Source.widthBounds piece n

/-- Depth of the array at a place of a piece of text. -/
def ofDepth (piece : Option (List Char)) (offset : Option Int) : Result Value :=
  match piece, offset with
  | none, _ => .ok .none
  | some _, none => fail .wrongType
  | some piece, some n => toValue <$> Source.depthBounds piece n

/-- How a report refers to an occupant. -/
abbrev Tag := Occupant → Build Value

/-- Report on a generate block. -/
def ofBlock? (id : Option BlockId) : Build Value := do
  match id with
  | none => return .none
  | some id =>
    let b ← id.get
    return recordOf "str loop_index loop_len"
      [toValue b.display, toValue (b.loop.map Loop.place), toValue (b.loop.bind Loop.length)]

/-- Report on a generate loop. -/
def ofLoop (b : Block) : Option Value :=
  b.loop.map fun l => recordOf "str op inc unrolled_size loop_range"
    [toValue b.display, toValue l.comparison.code, toValue (l.stepOp.code, l.step),
      toValue b.unrolledSize, toValue b.loopRange]

/-- Report on a register. -/
def ofRegister (tag : Tag) (id : RegisterId) : Build Value := do
  let r ← id.get
  let always := recordOf "obj size aw dw access label desc meta"
    [← tag (.register id), toValue r.size, toValue r.aw, toValue r.dw, toValue r.access,
      toValue r.label, toValue r.description, toValue r.source]
  if !r.kind.isDeclared then return always
  let net :=
    if r.kind = .memory then record []
    else recordOf "initval strobe write_strobes read_strobes net_type"
      [toValue r.initial, toValue r.strobe, toValue r.writeStrobes, toValue r.readStrobes,
        toValue r.netKind]
  let copies ← r.copies.mapM fun id => tag (.register id)
  let declared := recordOf "range depth alias signed manual_addr domain _netname gen refs"
    [toValue r.range, toValue r.depth, toValue r.otherName, r.signed, toValue r.manualBase,
      toValue r.domain, toValue r.netName, ← ofBlock? r.block, .list copies]
  return always ++ net ++ declared ++
    record (r.blockAw.map fun w => ("block_aw", toValue w)).toList

/-- Report on a bus. -/
def ofBus (id : BusId) : Build Value := do
  let b ← id.get
  return recordOf "name bus base association valid info"
    [toValue b.name, .list (b.items.map fun (k, v) => .list [k, v]), toValue b.base,
      toValue b.association, toValue b.valid,
      toValue (b.keys.map fun k => (k, k.isMandatory, k.direction))]

/-- Report on a passenger. -/
def ofPassenger (tag : Tag) (id : PassengerId) : Build Value := do
  let p ← id.get
  let bus ← p.bus.get
  let copies ← p.copies.mapM fun id => tag (.passenger id)
  let joined ← p.joined.mapM fun id => tag (.space id)
  return recordOf ("obj basename aw true_aw dw block_aw access signed domain association" ++
      " base_list gen refs sub_mr bus")
    [← tag (.passenger id), toValue p.basename, toValue p.aw, toValue p.trueAw,
      toValue bus.dataWidth, toValue p.blockAw, toValue p.access, p.signed, toValue p.domain,
      toValue p.association, toValue p.baseList, ← ofBlock? bus.block, .list copies,
      toValue joined, ← ofBus p.bus]

/-- Report on requests. -/
def ofRequests (tag : Tag) (code : Nat) (requests : List Staged) : Build Value := do
  return .list (← requests.mapM fun x => do
    return .list [← tag x.item, toValue x.addr, toValue x.width, toValue code, toValue x.placed])

/-- Report on a space; `item` writes what is placed. -/
def ofSpace (tag item : Tag) (id : SpaceId) : Build Value := do
  let s ← id.get
  let r := s.region
  let l := s.ledger
  let taken ← r.taken.mapM fun t => do return [toValue t.lo, toValue t.hi, ← item t.item]
  let always := recordOf "label hier aw top base rel map vacant keepout"
    [toValue r.label, toValue (r.path.map Path.names), toValue r.aw, toValue r.extent,
      toValue r.base, toValue r.relativeBase, toValue taken,
      toValue (r.vacant.map fun g => (g.lo, g.hi)), toValue (r.reserved.map fun k => (k.lo, k.hi))]
  if s.kind = .plain then return always
  let staged := recordOf "resolved keepouts explicits entries"
    [toValue l.resolved, ← ofRequests tag 2 l.keepouts, ← ofRequests tag 1 l.explicits,
      ← ofRequests tag 1 l.entries]
  if s.kind = .staged then return always ++ staged
  return always ++ staged ++ recordOf
    "generates explicit_generates domain pseudo_domain bustop toptag declared implicit"
    [← ofRequests tag 1 l.loops, ← ofRequests tag 1 l.explicitLoops, toValue s.domain,
      toValue s.pseudoDomain, toValue s.busTop, toValue s.topTag, toValue s.declared,
      toValue s.implicit]

/-- Registers and passengers with their full reports, anything else by its tag. -/
def full (tag : Tag) : Tag
  | .register id => ofRegister tag id
  | .passenger id => ofPassenger tag id
  | o => tag o

end Report

end RegisterMap
