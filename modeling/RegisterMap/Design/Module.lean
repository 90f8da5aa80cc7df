import RegisterMap.Netlist
import RegisterMap.Value.Numeric
import RegisterMap.Design.Net
import RegisterMap.Design.LoopGroup

/-! # Modules of a design

A module of the netlist is read in four steps: its instances, its annotated nets, its annotated
memories, and then what can be settled only when all of them are known: strobes, loops, passengers
and busses.  The registers and passengers of each bus domain make an address space of the module.
These spaces are the pattern from which the spaces of all instances of the module are copied. -/

namespace RegisterMap.Design

/-- An instance in a module. -/
structure ModuleInstance where
  domain : Value
  /-- No bus enters the instance through its ports. -/
  isTop : Bool
  block : Option BlockId
deriving Repr, Inhabited

/-- A net that marks the accesses to a register. -/
structure Strobe where
  register : String
  isRead : Bool
deriving Repr, Inhabited

/-- What is read of a module. -/
structure Module where
  name : String
  instances : Table String ModuleInstance := []
  types : Table String Value := []
  spaces : Table Value SpaceId := []
  declared : List Value := []
  strobes : Table String Strobe := []
  loops : LoopGroups := []
  drivers : List BusNet := []
  passengers : List BusNet := []
  /-- Names of the passengers that the busses of domains are joined to. -/
  branches : Table Value Value := []
  busTop : Bool := false
deriving Repr, Inhabited

/-- The range of a module's space. -/
def moduleSpan : Int × Int := (0, Number.twoPow 24)

namespace Module

/-- The space of a domain, made if needed. -/
def spaceFor (m : Module) (domain : Value) : Build (Module × SpaceId) := do
  domain.requireKey
  match Table.get? m.spaces domain with
  | some id => return (m, id)
  | none =>
    let (lo, hi) := moduleSpan
    let id ← SpaceId.make .bus lo hi (some m.name) (some ⟨[m.name], false⟩) domain
    return ({ m with spaces := Table.put m.spaces domain id }, id)

/-- Ask for addresses in the space of a domain. -/
def request (m : Module) (domain : Value) (width : Int) (item : Occupant)
    (addr : Option Int) : Build Module := do
  let (m, id) ← m.spaceFor domain
  let _ ← id.add width item addr
  return m

/-! ### Generate blocks -/

/-- The warning about a nameless generate block. -/
def anonymousText (m : Module) : String :=
  s!"WARNING: Found potentially anonymous generate block in module {m.name}."

/-- Note a block without a name. -/
def noteAnonymous (m : Module) (block : String) : Build Unit := do
  if Source.isAnonymousBlock block then Build.note m.anonymousText

/-- The loop around a place in the source. -/
def readLoop (branch : String) (source : Value) (index : Nat) : Build BlockId := do
  match source with
  | .text place =>
    match ← Block.ofSource (← getThe Workspace).files branch place with
    | none => Build.refuse .noSuchField
    | some b => BlockId.make { b with loop := b.loop.map fun l => { l with place := index } }
  | _ => Build.refuse .wrongType

/-- The generate block that a name says, noted, and the name to go by. -/
def enterBlock (what later : String) (parts : Source.BlockName) (name : String) (source : Value) :
    Build (String × BlockId) := do
  match parts.index with
  | none =>
    Build.note s!"Found {what} {parts.inner} inside a generate-if block {parts.block}"
    return (parts.inner, ← BlockId.make (.condition parts.block))
  | some index =>
    Build.note (s!"Found {what} {parts.inner} inside a generate-for block {parts.block}, " ++
      s!"index {index}{later}")
    return (name, ← readLoop parts.block source index)

/-! ### Instances -/

/-- The name and the block of an instance. -/
def instanceBlock (m : Module) (name : String) (cell : Value) :
    Build (String × Option BlockId) := do
  match ← Source.blockName name with
  | none => return (name, none)
  | some parts =>
    let source ← (← cell.field "attributes").member "src"
    m.noteAnonymous parts.block
    let (name, block) ← enterBlock "instance" "" parts name source
    Build.note (← block.get).display
    return (name, some block)

/-- Read an instance; internal cells are passed over. -/
def readInstance (m : Module) (name : String) (cell : Value) : Build Module := do
  let (name, block) ← m.instanceBlock name cell
  if !Source.isModuleName name then return m
  let a ← Annotations.decode (← cell.field "attributes")
  return { m with
    instances := Table.put m.instances name ⟨a.value .domain, a.isSet .top, block⟩
    types := Table.put m.types name (← cell.field "type") }

/-! ### Nets -/

/-- Enter a register or a memory into its loop, or into the space of its domain. -/
def enterRegister (m : Module) (id : RegisterId) (parts : Option Source.BlockName)
    (isMemory : Bool) : Build Module := do
  let r ← id.get
  match parts with
  | some ⟨block, inner, some index⟩ =>
    if Source.isAnonymousBlock block then Build.say m.anonymousText
    return { m with
      loops := m.loops.add ⟨block, inner, some index⟩ index r.source.text? isMemory id }
  | _ =>
    if isMemory then
      let (m, space) ← m.spaceFor r.domain
      let _ ← id.readDeclaration
      let _ ← space.add r.aw (.register id) r.manualBase
      return m
    else
      let _ ← id.readDeclaration
      m.request r.domain 0 (.register id) r.manualBase

/-- What is known of an annotated net before its use is. -/
structure AnnotatedNet where
  name : String
  net : Value
  annotations : Annotations
  source : Value
  parts : Option Source.BlockName
  block : Option BlockId
  signed : Value

/-- Read a register. -/
def readRegister (m : Module) (n : AnnotatedNet) (access : Access) : Build Module := do
  let a := n.annotations
  let bits ← n.net.field "bits"
  let width ← bits.length
  let initial ← Netlist.constantValue bits
  let r ← Register.create .net (some n.name) width 0 none n.source access none (a.text? .description)
  let id ← RegisterId.make { r with
    initial := initial
    strobe := a.isSet .strobe
    otherName := a.text? .otherName
    signed := n.signed
    domain := a.value .domain
    block := n.block
    manualBase := a.number? .address }
  m.enterRegister id n.parts false

/-- The net of a bus, by its annotation. -/
def busNet (n : AnnotatedNet) (words : List Value) : Build BusNet := do
  let a := n.annotations
  let width ← (← n.net.field "bits").length
  if (← Source.blockName n.name).isSome then
    Build.note s!"Bus {n.name} is instantiated within a Generate Block!"
  let (ports, names) ← splitWords words
  return {
    net := n.name
    width := width
    ports := ports
    names := names
    domain := a.value .domain
    source := n.source
    association := a.value .branch
    block := n.block }

/-- Read a net of a passenger. -/
def readPassengerNet (m : Module) (n : AnnotatedNet) (words : List Value) : Build Module := do
  match n.block with
  | some block =>
    let b ← block.get
    let place := (b.loop.map fun l => s!"at index {l.place} ").getD ""
    let shown := ((Table.get? n.annotations .passenger).getD .none).display
    Build.note s!"  Boy howdy! I found extmod {shown} {place}inside generate block {b.branch}"
  | none => pure ()
  let net ← busNet n words
  return { m with passengers := m.passengers ++
    [{ net with base := n.annotations.number? .address, signed := n.signed }] }

/-- Read a net of a driver. -/
def readDriverNet (m : Module) (n : AnnotatedNet) (words : List Value) : Build Module := do
  let net ← busNet n words
  let domain ← driverDomain net.domain net.names
  return { m with
    busTop := true
    drivers := m.drivers ++ [{ net with domain := domain }]
    declared := if m.declared.contains net.domain then m.declared
      else m.declared ++ [net.domain] }

/-- The first use of a net that is annotated: strobe, register or passenger. -/
def readUse (m : Module) (n : AnnotatedNet) : Build Module := do
  let a := n.annotations
  let strobe (register : String) (isRead : Bool) : Build Module :=
    return { m with strobes := Table.put m.strobes n.name ⟨register, isRead⟩ }
  match a.text? .writeStrobe, a.text? .readStrobe, a.number? .access, a.parts? .passenger with
  | some register, _, _, _ => strobe register false
  | _, some register, _, _ => strobe register true
  | _, _, some access, _ => m.readRegister n access
  | _, _, _, some words => m.readPassengerNet n words
  | _, _, _, _ => return m

/-- The name and the block of a net. -/
def netBlock (m : Module) (name : String) (parts : Option Source.BlockName) (source : Value) :
    Build (String × Option BlockId) := do
  match parts with
  | none => return (name, none)
  | some parts =>
    let (name, block) ← enterBlock "CSR" " and we'll handle it later" parts name source
    if parts.index.isNone then m.noteAnonymous parts.block
    return (name, some block)

/-- Note the passenger that the bus of a domain is joined to. -/
def noteBranch (m : Module) (domain branch : Value) : Result Module := do
  if branch.isNone then return m
  domain.requireKey
  return { m with branches := Table.put m.branches domain branch }

/-- Read a net; one without annotations is passed over. -/
def readNet (m : Module) (name : String) (net : Value) : Build Module := do
  let attributes ← net.field "attributes"
  let a ← Annotations.decode attributes
  if a.isEmpty then return m
  let source ← attributes.member "src"
  let parts ← Source.blockName name
  let (inner, block) ← m.netBlock name parts source
  let n : AnnotatedNet := ⟨inner, net, a, source, parts, block, ← net.member "signed"⟩
  let m ← m.readUse n
  let m ← m.noteBranch (a.value .domain) (a.value .branch)
  match a.parts? .driver with
  | some words => m.readDriverNet n words
  | none => return m

/-! ### Memories -/

/-- The name and the block of a memory. -/
def memoryBlock (m : Module) (name : String) (parts : Option Source.BlockName) (source : Value) :
    Build (String × Option BlockId) := do
  match parts with
  | none => return (name, none)
  | some parts =>
    m.noteAnonymous parts.block
    let (name, block) ← enterBlock "RAM" " which we'll handle later" parts name source
    return (name, some block)

/-- Address width of a number of words. -/
def addressWidth (size : Int) : Result Int :=
  if size ≤ 0 then fail .badValue else .ok (Number.ceilLog2 size.toNat)

/-- Read a memory; it is signed if the net that was looked at last is. -/
def readMemory (lastNet : Option Value) (m : Module) (name : String) (memory : Value) :
    Build Module := do
  let parts ← Source.blockName name
  let attributes ← memory.field "attributes"
  let a ← Annotations.decode attributes
  if a.isEmpty then return m
  let source ← attributes.field "src"
  let (inner, block) ← m.memoryBlock name parts source
  let signed ←
    match lastNet with
    | some net => net.member "signed"
    | none => Build.refuse .unsetQuantity
  if (a.number? .access).isNone then return m
  let width ← (← memory.field "width").toInt
  let aw ← addressWidth (← (← memory.field "size").toInt)
  let r ← Register.create .memory (some inner) width aw none source Access.readWrite none
    (a.text? .description)
  let id ← RegisterId.make { r with
    signed := signed
    domain := a.value .domain
    block := block
    manualBase := a.number? .address }
  m.enterRegister id parts true

/-! ### What is settled at the end -/

/-- Attach a strobe to the register that it is for. -/
def attachStrobe (net : String) (s : Strobe) (item : Occupant) : Build Unit := do
  match item with
  | .register id =>
    let r ← id.get
    if (← r.name) == s.register then
      if r.kind = .memory then Build.refuse .noSuchField
      id.update fun r =>
        if s.isRead then { r with readStrobes := r.readStrobes ++ [net] }
        else { r with writeStrobes := r.writeStrobes ++ [net] }
  | _ => return ()

/-- Tell the registers of their strobes, and the space of its declared bus. -/
def settleSpace (m : Module) (domain : Value) (id : SpaceId) : Build Unit := do
  for (net, s) in m.strobes do
    for (_, _, item) in ← id.contents do attachStrobe net s item
  id.update fun space => { space with
    pseudoDomain := (Table.get? m.branches domain).getD space.pseudoDomain
    busTop := m.busTop }

/-- Ask for addresses for the loops of a module. -/
def settleLoops (m : Module) : Build Module := do
  (← m.loops.settle m.name).foldlM (fun m id => do
    let r ← id.get
    m.request r.domain r.aw (.register id) r.manualBase) m

/-- Ask for addresses for the passengers of a module. -/
def settlePassengers (m : Module) : Build Module := do
  (← readPassengers m.passengers).foldlM (fun m id => do
    let p ← id.get
    m.request p.domain p.aw (.passenger id) (← id.base)) m

/-- Settle what depends on the whole module; its declared busses. -/
def settle (m : Module) : Build (Module × List BusId) := do
  for (domain, id) in m.spaces do m.settleSpace domain id
  let m ← m.settleLoops
  let m ← m.settlePassengers
  return (m, ← driverBusses m.drivers)

/-- A part of a module's description. -/
def part (module : Value) (key : String) : Result (List (String × Value)) := do
  let v ← module.member key
  if v.isNone then return []
  (← v.members).mapM fun (name, x) => do return (← name.keyText, x)

end Module

end RegisterMap.Design
