import RegisterMap.Decoder.Logic
import RegisterMap.Design.Basic

/-! # Decoders

A decoder is a tree beside the tree of instances.  A node knows for each bus domain of its instance
what is to be decoded there (`Decoder.Domain`) and where in its parent the instance stands
(`Decoder.Place`).  The copies that a loop makes of an instance are joined to one node, which knows
their addresses. -/

namespace RegisterMap

/-- The addresses of the copies of a loop, and a width that covers them. -/
def PassengerId.gatherCopies (id : PassengerId) : Build Unit := do
  let p ← id.get
  let bases ← p.copies.mapM PassengerId.base
  let more ← Number.bitWidth p.copies.length
  id.set { p with baseList := bases, ownBlockAw := some (more + p.aw), name := p.basename }

/-- The bus of the passenger's host. -/
def PassengerId.hostBus (id : PassengerId) : Build Bus := do
  (← Decoder.known (← id.get).host).get

/-- The passenger with its bus. -/
def PassengerId.rider (id : PassengerId) : Build Decoder.Rider := do
  let p ← id.get
  return ⟨p, ← p.bus.get⟩

/-- The hit signal of a passenger; `outer` is a passenger of the same host. -/
def PassengerId.hitLine (id : PassengerId) (base : Option Int) (outer : Option PassengerId) :
    Build String := do
  let host ← (outer.getD id).hostBus
  return ← (← id.rider).hitLine host base

def PassengerId.maskLine (id : PassengerId) (outer : Option PassengerId) : Build String := do
  let p ← id.get
  let host ← (outer.getD id).hostBus
  return ← Decoder.maskLine host p.name p.inst ((← id.hostBus).netText .addr) p.aw

namespace Decoder

/-- What is decoded in one bus domain of an instance. -/
structure Domain where
  space : SpaceId
  domain : Value
  /-- The bus: the declared one, or the ports of the module. -/
  bus : BusId
  aw : Int
  inst : String
  module : String
  base : Int
  words : List RegisterId := []
  memories : List RegisterId := []
  riders : List (Option Int × PassengerId) := []
  blockWords : Table String (List RegisterId) := []
  blockMemories : Table String (List RegisterId) := []
  blockRiders : Table String (List PassengerId) := []
  /-- The end of the last register. -/
  extent : Int := 0
  localAw : Nat := 0
  reading : String := ""
  writing : String := ""
deriving Inhabited

namespace Domain

def hasBlocks (d : Domain) : Bool :=
  !(d.blockWords.isEmpty && d.blockMemories.isEmpty && d.blockRiders.isEmpty)

/-- The name of the block around a register, noted with what stands there. -/
def branchOf (kind : String) (r : Register) : Build (Option String) :=
  r.block.mapM fun id => do
    let name ← r.name
    let branch := (← id.get).branch
    Build.note s!"{kind} {name} is instantiated within generate block {branch}"
    return branch

/-- Sort an item of a space in. -/
def add (d : Domain) (start stop : Option Int) (item : Occupant) : Build Domain := do
  match item with
  | .register id =>
    let r ← id.get
    match r.kind with
    | .net =>
      let d := match ← branchOf "GBRegister" r with
        | some branch => { d with blockWords := Table.update d.blockWords branch [] (· ++ [id]) }
        | none => { d with words := d.words ++ [id] }
      return { d with extent := max d.extent (← known stop) }
    | .memory =>
      match ← branchOf "GBMemory" r with
      | some branch =>
        return { d with blockMemories := Table.update d.blockMemories branch [] (· ++ [id]) }
      | none => return { d with memories := d.memories ++ [id] }
    | .word | .words => return d
  | .passenger id =>
    id.setHost d.bus
    match ← id.block? with
    | some block =>
      return { d with blockRiders := Table.update d.blockRiders block.branch [] (· ++ [id]) }
    | none => return { d with riders := d.riders ++ [(start, id)] }
  | _ => return d

/-- Join the copies of passengers in loops, unless they stand side by side. -/
def joinRiders (d : Domain) : Build Domain := do
  if (← getThe Workspace).policy.alignedLoops then return d
  let riders ← d.blockRiders.mapM fun (branch, ids) => do
    let leaders ← ids.mapM fun id => do return (← id.get).leader.getD id
    let leaders := leaders.eraseDups
    leaders.forM PassengerId.gatherCopies
    return (branch, leaders)
  return { d with blockRiders := riders }

/-- The refusal of a strobe without a signal. -/
def missingStrobe (net port enable word : String) : Error :=
  let wire (ports : String) (net : String) : String := s!"  (* ghostbus_port='{ports}' *) wire {net};"
  .plain (s!"\n{net} requires a '{port}' signal in the ghostbus. " ++
    "Please define it with the other bus signals, e.g.:\n" ++ wire port port ++
    s!"\nIf your {word}-enable signal is also a strobe (1-cycle long), " ++
    s!"you can define it to also be the '{port}' as in e.g.:\n" ++
    wire s!"{port}, {enable}" s!"{enable}n")

/-- Refuse strobes that the bus cannot drive. -/
def checkStrobes (bus : Bus) (r : Register) : Result Unit := do
  if (bus.net? .wstb).isNone && (r.strobe || !r.writeStrobes.isEmpty) then
    let net ← if r.strobe then r.localName else Text.itemAt r.writeStrobes 0
    .error (missingStrobe net "wstb" "we" "write")
  match r.readStrobes with
  | net :: _ => if (bus.net? .rstb).isNone then .error (missingStrobe net "rstb" "re" "read")
  | [] => return ()

/-- The last bus of a name. -/
def busNamed (busses : List BusId) (name : Value) : Build BusId := do
  let named ← busses.filterM fun id => do return (← id.get).name == name
  match named.getLast? with
  | some id => return id
  | none => Build.refuse .missingKey

/-- The declared bus of the space's domain, or the ports of the module. -/
def busOf (busses : List BusId) (ports : BusId) (s : AddressSpace) : Build BusId :=
  if s.declared.contains s.domain then busNamed busses s.domain else pure ports

/-- The domain of a space, by its items. -/
def ofSpace (busses : List BusId) (ports : BusId) (space : SpaceId) : Build Domain := do
  let s ← space.get
  let bus ← busOf busses ports s
  let path ← known s.region.path
  let d : Domain := {
    space := space, domain := s.domain, bus := bus, aw := s.region.aw, inst := ← path.last,
    module := s.region.label, base := s.region.base }
  space.update fun s => { s with implicit := if s.topTag then [] else [s.domain] }
  let d ← (← space.contents).foldlM (fun d (start, stop, item) => d.add start stop item) d
  let d ← d.joinRiders
  let localAw ← Number.bitWidth d.extent
  let bus ← d.bus.get
  for id in d.words do checkStrobes bus (← id.get)
  let (reading, writing) ← bus.triggers
  return { d with localAw := localAw, reading := reading, writing := writing }

/-- Registers outside blocks, and those in conditions under the names of their nets outside. -/
def outsideLoops (plain : List RegisterId) (inBlocks : Table String (List RegisterId))
    (ending : String) : Build (List RegisterId) := do
  let copies ← inBlocks.mapM fun (branch, ids) => ids.filterMapM fun id => do
    let r ← id.get
    match ← r.block.mapM BlockId.get with
    | none => return none
    | some block =>
      if block.isLoop then return none
      let copy ← id.copy
      let net ← r.localName
      copy.update fun r => { r with given := some s!"{branch}_{net}{ending}" }
      return some copy
  return plain ++ copies.flatten

def allMemories (d : Domain) (ending : String) : Build (List RegisterId) :=
  outsideLoops d.memories d.blockMemories ending

/-- All registers outside loops; none if all stand in blocks. -/
def allWords (d : Domain) (ending : String) : Build (List Register) := do
  if d.words.isEmpty then return []
  (← outsideLoops d.words d.blockWords ending).mapM RegisterId.get

end Domain

/-- Where in its parent an instance stands. -/
inductive Place where
  | root
  | direct (domain : Value) (start : Int)
  /-- In a loop, the first copy at an address in a domain of the parent. -/
  | looped (domain : Value) (branch : String) (start : Int)
deriving Repr, Inhabited

/-- An instance as the generator sees it. -/
structure Node where
  inst : String
  module : String
  block : Option BlockId
  domains : Table Value Domain
  branches : List String
  place : Place := .root
  addresses : Table Value Int := []
deriving Inhabited

namespace Node

def hasBlocks (n : Node) : Bool := n.domains.any fun (_, d) => d.hasBlocks

/-- The domain without a name. -/
def main (n : Node) : Result Domain := Design.requireKey n.domains .none

/-- The node of an instance, without children. -/
def ofInstance (busses : List BusId) (ports : BusId) (i : Instance) : Build Node := do
  let domains ← i.spaces.mapM fun space => do
    let d ← Domain.ofSpace busses ports space
    return (d.domain, d)
  let table := Table.ofPairs domains
  let main ← Design.requireKey table .none
  return {
    inst := main.inst
    module := main.module
    block := i.block
    domains := table
    branches := (domains.flatMap fun (_, d) => Table.keys d.blockRiders).eraseDups }

/-- The node as its parent sees it. -/
def child (n : Node) : Build Child := do
  let main ← n.main
  return {
    inst := n.inst
    module := main.module
    aw := main.aw
    base := main.base
    start := match n.place with
      | .direct _ start => some start
      | _ => none
    addrNet := (← main.bus.get).netText .addr
    block := ← n.block.mapM BlockId.get }

end Node

/-! ### Copies in loops -/

/-- Join the copies `0, …, n - 1` of an instance in a loop to one node. -/
def joinCopies (name : Option String) (copies : List (Int × Tree Node)) : Result (Tree Node) := do
  let indices ← copies.mapM fun (_, t) => do
    return Value.ofOption (fun n => .int n) ((← Source.blockName t.data.inst).bind (·.index))
  if !(← Value.isPermutedRange (.list indices)) then fail .undefinedName
  match name, copies with
  | some name, (_, first) :: _ =>
    let addresses := Table.ofPairs (indices.zip (copies.map Prod.fst))
    return first.setData { first.data with inst := name, addresses := addresses }
  | _, _ => fail .undefinedName

/-- Join the copies of all instances in a loop, equally many of each. -/
def joinLoop (copies : List (Int × Tree Node)) : Result (List (Tree Node)) := do
  let named ← copies.mapM fun copy => do
    return ((← Source.blockName copy.2.data.inst).map (·.inner), copy)
  let groups := Design.groupBy Prod.fst named
  let counts := groups.map fun (_, group) => group.length
  groups.mapM fun (name, group) => do
    let node ← joinCopies name (group.map Prod.snd)
    if counts.head? ≠ some group.length then fail .undefinedName
    return node

/-- The children in one domain: outside loops, then one for each loop. -/
def childrenIn (children : List (Tree Node)) (domain : Value) : Result (List (Tree Node)) := do
  let direct := children.filter fun t =>
    match t.data.place with
    | .direct d _ => d == domain
    | _ => false
  let looped := children.filterMap fun t =>
    match t.data.place with
    | .looped d branch start => if d == domain then some (branch, start, t) else none
    | _ => none
  let joined ← (Design.groupBy (fun (branch, _) => branch) looped).mapM fun (_, group) =>
    joinLoop (group.map Prod.snd)
  return direct ++ joined.flatten

/-! ### The tree -/

/-- The address of a child's space in its parent. -/
def startOf (parent child : Instance) (target : SpaceId) : Build Int := do
  match ← parent.spaceOf child.parentDomain with
  | none =>
    let text ← parent.display
    throw (.plain s!"Failed to find memory by domain {child.parentDomain.display} in {text}")
  | some space =>
    match (← space.contents).find? fun (_, _, item) => item == .space target with
    | some (some start, _, _) => return start
    | _ =>
      let key := Value.ofOption (fun (k : InstanceKey) => .tuple [.text k.inst, .text k.module])
        child.key
      throw (.plain s!"Failed to find start address for {key.display}, {child.labelText}")

/-- The place of an instance in its parent, noted if it is a block. -/
def placeOf (n : Node) (domain : Value) (start : Int) : Build Place := do
  match ← n.block.mapM BlockId.get with
  | none => return .direct domain start
  | some block =>
    let kind := if block.isLoop then "FOR" else "IF"
    Build.note
      s!"DecoderDomainLB {n.inst} is instantiated within generate-{kind} block {block.branch}"
    return if block.isLoop then .looped domain block.branch start else .direct domain start

/-- Join children to a node. -/
def adopt (n : Node) (children : List (Tree Node)) : Build (Tree Node) := do
  let blocks ← children.filterMapM fun t => t.data.block.mapM BlockId.get
  let branches := (n.branches ++ blocks.map Block.branch).eraseDups
  let ordered ← (Table.keys n.domains).mapM fun domain => childrenIn children domain
  return .node { n with branches := branches } ordered.flatten

mutual

/-- The tree of nodes of a tree of instances. -/
def grow (busses : List BusId) (ports : BusId) : InstanceTree → Build (Tree Node)
  | .node i children => do
    let n ← Node.ofInstance busses ports i
    adopt n (← growAll busses ports i children)

/-- The decoders of all children of an instance that have a space. -/
def growAll (busses : List BusId) (ports : BusId) (parent : Instance) :
    List InstanceTree → Build (List (Tree Node))
  | [] => return []
  | t :: ts => do
    match ← t.data.spaceOf .none with
    | none =>
      Build.say s!"Ignoring non-ghostbus module {t.data.labelText}"
      growAll busses ports parent ts
    | some target =>
      let start ← startOf parent t.data target
      let child ← grow busses ports t
      let place ← placeOf child.data t.data.parentDomain start
      let rest ← growAll busses ports parent ts
      return child.setData { child.data with place := place } :: rest

end

/-- The children that stand in a domain. -/
def inDomain (children : List (Tree Node)) (domain : Value) : List (Tree Node) :=
  children.filter fun t =>
    match t.data.place with
    | .direct d _ => d == domain
    | .looped d _ _ => d == domain
    | .root => false

/-- The scope in which the logic of a domain is written. -/
def Domain.scope (d : Domain) (ports : BusId) (children : List (Tree Node)) : Build Scope := do
  let ending ← Scope.endingFor d.domain
  let ws ← getThe Workspace
  let inBlock (id : RegisterId) : Build (Option (Register × Block)) := do
    let r ← id.get
    return (← r.block.mapM BlockId.get).map fun b => (r, b)
  let registers (t : Table String (List RegisterId)) : Build (InBlocks Register) :=
    t.mapM fun (branch, ids) => do return (branch, ← ids.filterMapM inBlock)
  let riders : InBlocks Rider ← d.blockRiders.mapM fun (branch, ids) => do
    return (branch, ← ids.filterMapM fun id => do
      let r ← id.rider
      return (← id.block?).map fun b => (r, b))
  let own := (inDomain children d.domain).map Tree.data
  let direct ← own.filterMapM fun n => do
    match n.place with
    | .direct _ _ => return some (← n.child)
    | _ => return none
  let looped ← own.filterMapM fun n => do
    match n.place with
    | .looped _ branch _ => return some (branch, ← n.child)
    | _ => return none
  return {
    policy := ws.policy
    ending := ending
    bus := ← d.bus.get
    ports := ← ports.get
    rows := ← ports.run Bus.list
    reading := d.reading
    writing := d.writing
    localAw := d.localAw
    hasWords := d.extent ≠ 0
    words := ← d.words.mapM RegisterId.get
    memories := ← d.memories.mapM RegisterId.get
    riders := ← d.riders.mapM fun (start, id) => do return (start, ← id.rider)
    blockWords := ← registers d.blockWords
    blockMemories := ← registers d.blockMemories
    blockRiders := riders
    children := direct
    blockChildren := (Design.groupBy Prod.fst looped).map fun (branch, cs) => (branch, cs.map Prod.snd) }

end Decoder

/-- The logic to be generated for a design. -/
structure Decoder where
  tree : Tree Decoder.Node
  /-- The bus through whose ports the busses enter a module. -/
  ports : BusId
  trace : Bool := false
deriving Inhabited

namespace Decoder

/-- The decoder of a design. -/
def ofTree (tree : InstanceTree) (busses : List BusId) (ports : BusId) (trace : Bool) :
    Build Decoder := do
  return ⟨← grow busses ports tree, ports, trace⟩

/-- The decoder under another name. -/
def rename (d : Decoder) (inst : String) : Decoder :=
  { d with tree := d.tree.setData { d.tree.data with inst := inst } }

end Decoder

end RegisterMap
