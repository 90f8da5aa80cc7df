import RegisterMap.Workspace.Basic

/-! # Placing items in an address space

An item that is placed learns its address.  A space that is placed inside another one also learns
its absolute address and its path from the root, and hands both on to the spaces inside it.

Recursion over spaces inside spaces is bounded by the number of spaces (`depthBound`), which no
chain of spaces inside each other exceeds. -/

namespace RegisterMap

/-- A space as it is shown in a message. -/
def AddressSpace.display (s : AddressSpace) : String :=
  match s.region.path with
  | some path => s!"MemoryRegion({path.toValue.display})"
  | none => s!"MemoryRegion({s.region.label})"

/-- An occupant as it is shown in a message. -/
def Workspace.occupantText (ws : Workspace) : Occupant → String
  | .nothing => "None"
  | .number n => toString n
  | .text s => Text.quoted s
  | .space id => ((ws.spaces[id.index]?).map AddressSpace.display).getD ""
  | .register id => (((ws.registers[id.index]?).bind Register.given)).getD ""
  | .passenger id => ((ws.passengers[id.index]?).map Passenger.display).getD ""
  | .bus id => ((ws.busses[id.index]?).map Bus.display).getD ""

/-- A bound on the depth of spaces inside each other. -/
def depthBound : Build Nat := do return (← getThe Workspace).spaces.size + 1

/-- The refusal of a deeper recursion. -/
def tooDeep {α : Type} : Build α := throw (.inconsistency "spaces inside each other")

namespace Occupant

/-- The name of an occupant that has one. -/
def name? : Occupant → Build (Option String)
  | .register id => do return some (← (← id.get).name)
  | .space id => do return some (← id.region).name
  | .passenger id => do return some (← id.get).name
  | .bus id => do
    let name := (← id.get).name
    return if name.isNone then none else some name.display
  | _ => return none

/-- The name of an occupant; only an empty place needs none. -/
def requireName (o : Occupant) : Build (Option String) :=
  match o with
  | .number _ | .text _ => Build.refuse .noSuchField
  | o => o.name?

/-- The generate block around an occupant. -/
def block? : Occupant → Build (Option BlockId)
  | .register id => do return (← id.get).block
  | .space id => do return (← id.get).block
  | .passenger id => do return (← (← id.get).bus.get).block
  | .bus id => do return (← id.get).block
  | _ => return none

def inLoop (o : Occupant) : Build Bool := do
  match ← o.block? with
  | some id => return (← id.get).isLoop
  | none => return false

end Occupant

namespace SpaceId

/-- Run an operation on the region, which may leave traces when it is refused. -/
def onRegion {α : Type} (id : SpaceId) (f : Region Occupant → Region.Outcome Occupant α) :
    Build α := do
  let (region, result) := f (← id.region)
  id.updateRegion fun _ => region
  match result with
  | .ok a => return a
  | .error e => throw (e.toError (← getThe Workspace).occupantText)

/-- Read from the region, or be refused. -/
def readRegion {α : Type} (id : SpaceId)
    (f : Region Occupant → Except (Refusal Occupant) α) : Build α :=
  id.onRegion fun r => (r, f r)

/-- A new address space over `[lo, hi)`; without a label it gets a number. -/
def make (kind : SpaceKind) (lo hi : Int) (label : Option String) (path : Option Path)
    (domain : Value) : Build SpaceId := do
  match Region.create (ρ := Occupant) lo hi "" path with
  | .error e => throw (e.toError (← getThe Workspace).occupantText)
  | .ok region =>
    let ws ← getThe Workspace
    let text := label.getD s!"MemoryRegion{ws.labels.next kind}"
    if label.isNone then modify fun ws => { ws with labels := ws.labels.step kind }
    let space : AddressSpace :=
      { kind := kind, region := { region with label := text }, ledger := kind.ledger,
        domain := domain }
    modifyGet fun ws => (⟨ws.spaces.size⟩, { ws with spaces := ws.spaces.push space })

/-- The range of a space that is made without one. -/
def defaultSpan : Int × Int := (0, Number.twoPow 24)

/-- A new space of a kind. -/
def create (kind : SpaceKind) (span : Option (Int × Int)) (label : Option String)
    (path : Option Path) (domain : Value) : Build SpaceId :=
  let (lo, hi) := span.getD defaultSpan
  make kind lo hi label path domain

/-! ### Paths and absolute addresses -/

/-- `setPath` down to a depth. -/
def setPathUpTo : (fuel : Nat) → SpaceId → Path → Build Unit
  | 0, _, _ => tooDeep
  | fuel + 1, id, path => do
    id.updateRegion fun r => { r with path := some path }.sorted
    let walk := (← id.region).walk
    for entry in walk.entries do
      match entry.item with
      | some (.space inner) =>
        let last ← (← inner.region).shortName
        setPathUpTo fuel inner ⟨path.names ++ [last], false⟩
      | _ => pure ()
    if !walk.complete then Build.refuse .unsetQuantity

/-- Give a space and those inside their paths. -/
def setPath (id : SpaceId) (path : Path) : Build Unit := do setPathUpTo (← depthBound) id path

/-- Take the path of a space away; spaces inside cannot go on from it. -/
def dropPath (id : SpaceId) : Build Unit := do
  id.updateRegion fun r => { r with path := none }.sorted
  let walk := (← id.region).walk
  for entry in walk.entries do
    match entry.item with
    | some (.space inner) =>
      let _ ← (← inner.region).shortName
      Build.refuse .wrongType
    | _ => pure ()
  if !walk.complete then Build.refuse .unsetQuantity

def setPath? (id : SpaceId) (path : Option Path) : Build Unit :=
  match path with
  | some path => id.setPath path
  | none => id.dropPath

/-- `setBase` down to a depth. -/
def setBaseUpTo : (fuel : Nat) → SpaceId → Int → Build Unit
  | 0, _, _ => tooDeep
  | fuel + 1, id, base => do
    id.updateRegion fun r => { r with base := base }
    for slot in (← id.region).taken do
      match slot.item with
      | .space inner => setBaseUpTo fuel inner (base + slot.lo)
      | _ => pure ()

/-- Give a space and those inside their absolute addresses. -/
def setBase (id : SpaceId) (base : Int) : Build Unit := do setBaseUpTo (← depthBound) id base

end SpaceId

namespace Occupant

/-- Tell an occupant its address. -/
def setBase (o : Occupant) (base : Int) : Build Unit :=
  match o with
  | .register id => id.update fun r => { r with base := some base }
  | .passenger id => id.update fun p => { p with ownBase := some base }
  | .bus id => do id.set (← (← id.get).setBase (some base))
  | .space id => do
    id.setBase base
    id.updateRegion fun r => { r with relativeBase := base }
  | _ => return ()

end Occupant

namespace SpaceId

def checkComplete (id : SpaceId) : Build Unit := id.onRegion Region.checkComplete

/-- Place an item, or reserve a block.  In a space with a path, a space needs a path and gets the
joined one. -/
def place (id : SpaceId) (width : Int) (item : Occupant) (addr : Option Int) (purpose : Purpose) :
    Build Int := do
  let base ← id.onRegion fun r => r.place Occupant.isSome width item addr purpose
  let _ ← item.name?
  match (← id.region).path, item with
  | some path, .space inner =>
    match (← inner.region).path with
    | some own => inner.setPath ⟨path.names ++ own.names, false⟩
    | none => Build.refuse .wrongType
  | _, _ => pure ()
  id.checkComplete
  return base

/-- The block that an item takes at an address. -/
def insert (id : SpaceId) (addr width : Int) (purpose : Purpose) (item : Occupant) :
    Build (Int × Int) := do
  let _ ← id.onRegion fun r => r.insert Occupant.isSome addr width purpose item
  return (addr, addr + Number.twoPow width.toNat)

/-- The block that an item takes in the first gap with room. -/
def push (id : SpaceId) (width : Int) (item : Occupant) : Build (Int × Int) := do
  let addr ← id.onRegion fun r => r.push width item
  return (addr, addr + Number.twoPow width.toNat)

/-- Place an item and tell it its address. -/
def addNow (id : SpaceId) (width : Int) (item : Occupant) (addr : Option Int) : Build Int := do
  let base ← id.place width item addr .item
  item.setBase base
  return base

/-- Reserve a block. -/
def reserveNow (id : SpaceId) (addr width : Int) : Build Int :=
  id.place width .nothing (some addr) .reserve

/-- Give a block back, with a report. -/
def removeNow (id : SpaceId) (addr : Int) : Build Bool := do
  let (outcome, report) := (← id.region).remove addr
  report.forM Build.say
  id.onRegion fun _ => outcome

end SpaceId

end RegisterMap
