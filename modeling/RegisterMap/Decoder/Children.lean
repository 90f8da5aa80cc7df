import RegisterMap.Decoder.Riders

/-! # Instances in a module

Each instance is attached to the bus through nets of its own: the address with the upper bits cleared,
enables and strobes while it is addressed, and the word that is read from it.  The copies in a loop
share the address; their enables and words stand side by side. -/

namespace RegisterMap.Decoder

/-- The ports that all copies in a loop share. -/
def isShared (key : PortKey) : Bool := [PortKey.clk, .addr, .dout].contains key

/-- The ports that are active only while an instance is addressed. -/
def isGated (key : PortKey) : Bool := [PortKey.we, .wstb, .re, .rstb].contains key

namespace Scope

/-- The net of a port of an instance. -/
def childNet (s : Scope) (c : Child) (row : PortRow) : String :=
  let key := row.key
  let name := s!"{s.ports.netText key}_{c.inst}"
  match s.bus.net? key with
  | none =>
    if key.direction = .output then s!"wire {row.range}{name} = 0; // (unused submod input)"
    else s!"wire {row.range}{name}; // (unused submod output)"
  | some net =>
    let range := if row.range.isEmpty then "" else row.range ++ " "
    if isShared key then s!"wire {range}{name} = {net};"
    else if isGated key then
      match c.loop? with
      | none => s!"wire {range}{name} = {net} & addrhit_{c.inst};"
      | some (block, _) =>
        let size := block.unrolledSize
        s!"wire [{size}-1:0] {name} = {repeated size net} & addrhit_{block.branch}_{c.inst};"
    else if key = .din then
      match c.loop? with
      | none => s!"wire {range}{name};"
      | some (block, _) => s!"wire {block.unrollRange range} {name};"
    else s!"wire {range}{name} = {net}; // extra port?"

/-- The nets of an instance. -/
def childNets (s : Scope) (c : Child) : Result (List Code) := do
  let mask ← maskLine s.bus c.module c.inst c.addrNet c.aw
  let hit ← match c.loop? with
    | some (block, _) => pure s!"wire [{block.unrolledSize}-1:0]  addrhit_{block.branch}_{c.inst};"
    | none =>
      Decoder.hitLine "wire" s!"addrhit_{c.inst}" s.addr (← known c.start) (← s.busAw) c.aw
  let nets := s.rows.map fun row => if row.key = .addr then mask else s.childNet c row
  return .comment s!"submodule {c.inst}" :: (hit :: nets).map fun l => .line .childNets l

/-- The nets of all instances. -/
def allChildNets (s : Scope) : Result (List Code) := do
  let direct ← s.children.mapM s.childNets
  let inBlocks ← s.blockChildren.mapM fun (branch, children) => do
    return .comment s!"Branch {branch}" :: (← children.mapM s.childNets).flatten
  return direct.flatten ++ inBlocks.flatten

/-- The hit signal of an instance inside its loop. -/
def blockChildCode (s : Scope) (branch : String) (c : Child) : Result (List Code) := do
  match c.loop? with
  | none => return []
  | some (_, loop) =>
    let busAw ← s.busAw
    let note ← loopSpanText c.base c.aw loop.index
    let condition ← (← LoopComparator.ofBlocks s.addr s!"{busAw}-1" busAw c.base c.aw loop.index
      (toString (busAw - c.aw))).text
    return [.comment s!"Submodule {c.inst} {c.inst}",
      .line .blockLogic s!"assign addrhit_{branch}_{c.inst}[{loop.index}] = {condition};" note]

end Scope

/-- The connections of an instance's ports to its nets. -/
def portMap (ports : Bus) (rows : List PortRow) (c : Child) : List Code :=
  rows.map fun (row : PortRow) =>
    let range := if row.range.isEmpty then "" else " " ++ row.range
    let copy := match c.loop? with
      | none => ""
      | some (_, loop) =>
        if isShared row.key then ""
        else if row.key = PortKey.din then copySlice loop.index (Value.ofInt? ports.dataWidth).display
        else s!"[{loop.index}]"
    .line .portMap
      s!",.{row.net}({row.net}_{c.inst}{copy}) // {row.direction.peripheralWord}{range}"

/-- The ports of a module. -/
def portList (rows : List PortRow) : List Code :=
  .line .ports "// Ghostbus ports" ::
    rows.map fun row => .line .ports s!",{row.direction.peripheralWord} {row.range} {row.net}"

end RegisterMap.Decoder
