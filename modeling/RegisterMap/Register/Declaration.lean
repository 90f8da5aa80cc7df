import RegisterMap.AddressSpace.Copy

/-! # Declarations of registers and their copies in loops

What is known of a register only from its source text is read by `RegisterId.readDeclaration`: the
range, the depth of a memory, and the kind of net, which decides an access that was not
specified. -/

namespace RegisterMap

def knownBounds (b : Source.Bounds) : MaybeBounds := (some b.high, some b.low)

/-- The access of a net by its kind, if it was not specified. -/
def Access.ofNetKind? : Source.NetKind → Option Access
  | .reg => some Access.readWrite
  | .wire | .input | .output => some Access.read
  | .inout => none

namespace RegisterId

/-- Read range and kind of a net; was it found? -/
def readNet (id : RegisterId) (source : String) : Build Bool := do
  let (range, kind) ← (← getThe Workspace).files.widthAndKind source
  let r ← id.get
  match range with
  | none =>
    let name ← r.name
    throw (.plain s!"Couldn't find _range of {name}")
  | some range =>
    id.set { r with range := knownBounds range, netKind := kind }
    match r.access == Access.unspecified, kind with
    | true, some kind =>
      match Access.ofNetKind? kind with
      | some access => id.update fun r => { r with access := access }
      | none => Build.say s!"_net_type = {kind.index}"
    | unspecified, _ =>
      if r.access.mayWrite then
        if kind = some .wire then
          let name ← r.name
          throw (.design (s!"Cannot have write access to net {name} of 'wire' type." ++
            s!" See: {source}"))
      else if unspecified then
        id.update fun r => { r with access := Access.readWrite }
        let name ← r.name
        throw (.plain s!"Can't leave the access unspecified: {name}")
    return true

/-- Read range and depth of a memory; were both found? -/
def readMemory (id : RegisterId) (source : String) : Build Bool := do
  let (range, depth) ← (← getThe Workspace).files.widthAndDepth source
  id.update fun r => { r with
    range := (range.map knownBounds).getD r.range
    depth := (depth.map knownBounds).getD r.depth }
  return range.isSome && depth.isSome

/-- Read the declaration from the source, if there is a place. -/
def readDeclaration (id : RegisterId) : Build Bool := do
  let r ← id.get
  match r.source with
  | .none => return false
  | .text source => if r.kind = .memory then id.readMemory source else id.readNet source
  | _ => Build.refuse .wrongType

/-- Take over the declaration of another register: range and depth, or range, access and kind. -/
def takeDeclaration (id other : RegisterId) : Build Unit := do
  let o ← other.get
  if !o.kind.isDeclared then Build.refuse .noSuchField
  if (← id.get).kind = .memory then
    id.update fun r => { r with range := o.range, depth := o.depth }
  else
    id.update fun r => { r with range := o.range, access := o.access }
    if o.kind = .memory then Build.refuse .noSuchField
    id.update fun r => { r with netKind := o.netKind }

def loop? (id : RegisterId) : Build (Option Loop) := do
  match (← id.get).block with
  | none => return none
  | some block => return (← block.get).loop

def inLoop (id : RegisterId) : Build Bool := do return (← id.loop?).isSome

def baseList (id : RegisterId) : Build (List Int) := do (← id.get).baseList (← id.loop?)

/-- One register for each copy of a loop; outside loops itself. -/
def unroll (id : RegisterId) : Build (List RegisterId) := do
  match (← id.get).block with
  | none => return [id]
  | some block =>
    let block ← block.get
    if !block.isLoop then return [id]
    let bases ← id.baseList
    bases.zipIdx.mapM fun (base, n) => do
      let copy ← id.copy
      let name ← (← id.get).name
      copy.update fun r =>
        { r with base := some base, given := some s!"{block.branch}_{name}_{n}" }
      return copy

end RegisterId

namespace PassengerId

def block? (id : PassengerId) : Build (Option Block) := do
  match (← (← id.get).bus.get).block with
  | none => return none
  | some block => return some (← block.get)

def inLoop (id : PassengerId) : Build Bool := do
  return ((← id.block?).map Block.isLoop).getD false

def base (id : PassengerId) : Build (Option Int) := do
  let p ← id.get
  return p.base (← p.bus.get)

/-- Set the host, whose widths must fit. -/
def setHost (id : PassengerId) (host : BusId) : Build Unit := do
  id.update fun p => { p with host := some host }
  let p ← id.get
  p.checkHost (← p.bus.get) (← host.get)

/-- One passenger for each copy of a loop; outside loops itself. -/
def unroll (id : PassengerId) : Build (List PassengerId) := do
  match ← id.block? with
  | none => return [id]
  | some block =>
    if !block.isLoop then return [id]
    let p ← id.get
    p.baseList.zipIdx.mapM fun (base, n) => do
      let copy ← id.copy
      copy.update fun q => { q with ownBase := base, name := s!"{block.branch}_{p.name}_{n}" }
      return copy

end PassengerId

end RegisterMap
