import RegisterMap.AddressSpace.Stage

/-! # Copies

A copy of a space has copies of the items that are placed in it.  The requests in its ledger are
shared with the space that was copied: the same registers and passengers are meant. -/

namespace RegisterMap

/-- A copy of a register; one without a specified access is reported. -/
def RegisterId.copy (id : RegisterId) : Build RegisterId := do
  let r ← id.get
  let copy ← r.copy
  if r.kind = .net && copy.access == Access.unspecified then
    let name ← r.name
    Build.say s!"copy of {name} with access {r.access} results in UNSPECIFIED ref!"
  RegisterId.make copy

mutual

/-- A copy of a space and of all that is in it, with fuel. -/
def SpaceId.copyUpTo : (fuel : Nat) → SpaceId → Build SpaceId
  | 0, _ => tooDeep
  | fuel + 1, id => do
    let space ← id.get
    let r := space.region
    let new ← SpaceId.make space.kind r.base r.top (some r.label) r.path space.domain
    let taken ← r.taken.mapM fun slot => do return { slot with item := ← Occupant.copyUpTo fuel slot.item }
    new.update fun fresh => { space with
      region := { fresh.region with
        taken := taken
        vacant := r.vacant.map fun g => { g with fixed := false }
        reserved := r.reserved.map fun k => { k with copied := true } }
      ledger := { space.ledger with
        resolved := false, passes := fresh.ledger.passes, passCount := fresh.ledger.passCount } }
    return new

/-- A copy of an item; what cannot be copied is shared. -/
def Occupant.copyUpTo : (fuel : Nat) → Occupant → Build Occupant
  | 0, _ => tooDeep
  | fuel + 1, item =>
    match item with
    | .register id => do return .register (← id.copy)
    | .space id => do return .space (← SpaceId.copyUpTo fuel id)
    | .passenger id => do return .passenger (← PassengerId.copyUpTo fuel id)
    | item => return item

/-- A copy of a passenger, joined to a copy of its space. -/
def PassengerId.copyUpTo : (fuel : Nat) → PassengerId → Build PassengerId
  | 0, _ => tooDeep
  | fuel + 1, id => do
    let p ← id.get
    let _ ← Passenger.create p.name p.bus (← p.bus.get) (some p.basename)
    let joined ← p.joined.mapM (SpaceId.copyUpTo fuel)
    PassengerId.make { p with joined := joined }

end

/-- A copy of a space and of all that is in it. -/
def SpaceId.copy (id : SpaceId) : Build SpaceId := do SpaceId.copyUpTo (4 * (← depthBound)) id

/-- A copy of a passenger. -/
def PassengerId.copy (id : PassengerId) : Build PassengerId := do
  PassengerId.copyUpTo (4 * (← depthBound)) id

end RegisterMap
