import RegisterMap.Number.Sequence
import RegisterMap.AddressSpace.Place

/-! # Staged requests and their resolution

A staged space collects requests in its ledger.  `SpaceId.resolve` places them in passes: blocks to
reserve, items with an address, items in loops, all other items.  Before a space inside another one
is placed, it is resolved and shrunk, so that it takes no more addresses than it needs.

An item in a loop stands for all copies that the loop makes.  With aligned loops the copies are
placed side by side in one block; otherwise they are placed one by one at equal distances. -/

namespace RegisterMap

/-- Where the requests of a ledger stand. -/
inductive Shelf where
  | keepouts
  | explicits
  | entries
  | loops
  | explicitLoops
deriving DecidableEq, Repr, Inhabited

namespace Ledger

/-- The requests on a shelf. -/
def on (l : Ledger) : Shelf → List Staged
  | .keepouts => l.keepouts
  | .explicits => l.explicits
  | .entries => l.entries
  | .loops => l.loops
  | .explicitLoops => l.explicitLoops

/-- Replace the requests on a shelf. -/
def put (l : Ledger) (shelf : Shelf) (requests : List Staged) : Ledger :=
  match shelf with
  | .keepouts => { l with keepouts := requests }
  | .explicits => { l with explicits := requests }
  | .entries => { l with entries := requests }
  | .loops => { l with loops := requests }
  | .explicitLoops => { l with explicitLoops := requests }

/-- Put a request on a shelf. -/
def stage (l : Ledger) (shelf : Shelf) (request : Staged) : Ledger :=
  { l.put shelf (l.on shelf ++ [request]) with resolved := false }

/-- Drop the first request for an address. -/
def dropAt (addr : Int) (requests : List Staged) : List Staged :=
  requests.eraseP fun r => r.addr == some addr

/-- Drop the first request with this address from the three plain shelves. -/
def drop (l : Ledger) (addr : Int) : Ledger :=
  match [Shelf.keepouts, .explicits, .entries].find? fun shelf =>
      (l.on shelf).any fun r => r.addr == some addr with
  | some shelf => l.put shelf (dropAt addr (l.on shelf))
  | none => l

/-- Mark the requests of the three plain shelves as not placed. -/
def reopen (l : Ledger) : Ledger :=
  let clear (requests : List Staged) : List Staged :=
    requests.map fun r => { r with placed := false }
  { l with
    keepouts := clear l.keepouts
    explicits := clear l.explicits
    entries := clear l.entries
    resolved := false }

end Ledger

namespace SpaceId

def stage (id : SpaceId) (shelf : Shelf) (item : Occupant) (addr width : Option Int) :
    Build Unit :=
  id.updateLedger fun l => l.stage shelf ⟨item, addr, width, false⟩

/-- Ask for addresses.  A plain space answers with the address at once. -/
def add (id : SpaceId) (width : Int) (item : Occupant) (addr : Option Int) :
    Build (Option Int) := do
  match (← id.get).kind with
  | .plain => return some (← id.addNow width item addr)
  | kind =>
    let loop ← if kind = .bus then item.inLoop else pure false
    let shelf : Shelf :=
      match loop, addr.isSome with
      | true, true => .explicitLoops
      | true, false => .loops
      | false, true => .explicits
      | false, false => .entries
    id.stage shelf item addr (some width)
    return none

/-- Ask to keep a block free. -/
def keepout (id : SpaceId) (addr width : Int) : Build (Option Int) := do
  match (← id.get).kind with
  | .plain => return some (← id.reserveNow addr width)
  | _ =>
    id.stage .keepouts .nothing (some addr) (some width)
    return none

end SpaceId

namespace Occupant

/-- Address width of an item. -/
def width : Occupant → Build Int
  | .register id => do return (← id.get).aw
  | .space id => id.readRegion fun r => r.width.map Int.ofNat
  | _ => Build.refuse .noSuchField

/-- The address that an item has already. -/
def ownBase : Occupant → Build Int
  | .register id => do
    match (← id.get).base with
    | some base => return base
    | none => Build.refuse .wrongType
  | .space id => do return (← id.region).base
  | _ => Build.refuse .noSuchField

/-- Address width that an item declares, if any. -/
def declaredWidth : Occupant → Build (Option Int)
  | .register id => do return some (← id.get).aw
  | .space id => do return some (← id.region).aw
  | .passenger id => do return some (← id.get).aw
  | .bus id => do return (← id.get).addrWidth
  | _ => return none

end Occupant

namespace SpaceId

/-- Ask for addresses for an item of known width; with `keepBase` at its own address, moved by the
offset. -/
def addOwnItem (id : SpaceId) (item : Occupant) (offset : Option Int) (keepBase : Bool) :
    Build (Option Int) := do
  if item = .space id then throw (.plain "Attempting to add self to own memory map.")
  let width ← item.width
  let own ← if keepBase then some <$> item.ownBase else pure none
  let addr : Option Int :=
    match own, offset with
    | some base, some offset => some (base + offset)
    | own, offset => own.or offset
  id.add width item addr

/-- Ask for addresses for an item; a staged space takes the width that it declares. -/
def addItem (id : SpaceId) (item : Occupant) (offset : Option Int) (keepBase : Bool) :
    Build (Option Int) := do
  match (← id.get).kind with
  | .plain => id.addOwnItem item offset keepBase
  | _ =>
    id.stage (if offset.isSome then .explicits else .entries) item offset (← item.declaredWidth)
    return none

/-- Give back what stands at an address; a staged space forgets the request, too. -/
def remove (id : SpaceId) (addr : Int) : Build Bool := do
  if (← id.get).kind ≠ .plain then id.updateLedger fun l => l.drop addr
  id.removeNow addr

def reset (id : SpaceId) : Build Unit := do
  let region ← id.readRegion Region.reset
  id.updateRegion fun _ => region

/-- Empty the region and open all requests again. -/
def unstage (id : SpaceId) : Build Unit := do
  id.reset
  id.updateLedger Ledger.reopen

/-! ### Bases at equal distances -/

/-- The first base with room from a start on. -/
def availableBase (id : SpaceId) (width start : Int) : Build (Option Int) :=
  id.readRegion fun r => r.availableBase width start

/-- A base and `more` further ones, each the first with room at least `step` above the last. -/
def basesFrom (gaps : List Gap) (w : Nat) (step : Int) : (more : Nat) → Int → Result (List Int)
  | 0, base => .ok [base]
  | more + 1, base =>
    match Gap.firstBase w (base + step) gaps with
    | .ok (some next) => (basesFrom gaps w step more next).map (base :: ·)
    | .ok none => fail .wrongType
    | .error f => fail f

/-- Most blocks that are left out between two bases. -/
def widestStep : Nat := 9

/-- Bases at the least equal distance that works out. -/
def spacedBases (gaps : List Gap) (w more : Nat) (first : Int) : Result (List Int) :=
  let rec search : (blocks : List Nat) → Result (List Int)
    | [] => fail .badValue
    | n :: ns =>
      match basesFrom gaps w (n * Number.twoPow w) more first with
      | .error e => .error e
      | .ok bases =>
        match Number.evenlySpaced bases with
        | .ok true => .ok bases
        | .ok false => search ns
        | .error e => .error e
  search ((List.range widestStep).map (· + 1))

/-- Bases for `count` items of one width. -/
def baseList (id : SpaceId) (width count : Int) (start : Option Int) :
    Build (List (Option Int)) := do
  let start := start.getD 0
  let size ← Number.powerOfTwo width
  if (← getThe Workspace).policy.alignedLoops then
    let full := width + (← Number.bitWidth (count - 1))
    match ← id.availableBase full start with
    | some base => return (List.range count.toNat).map fun (n : Nat) => some (base + n * size)
    | none => if 0 < count then Build.refuse .wrongType else return []
  else
    match ← id.availableBase width start with
    | some base =>
      let bases ← spacedBases (← id.region).vacant width.toNat count.toNat base
      return bases.map some
    | none => if 0 < count then Build.refuse .wrongType else return [none]

end SpaceId

/-! ### Resolution -/

namespace Occupant

/-- The copies that a loop makes of an item. -/
def copies : Occupant → Build (List Occupant)
  | .register id => do return (← id.get).copies.map .register
  | .passenger id => do return (← id.get).copies.map .passenger
  | _ => Build.refuse .noSuchField

/-- Tell an item the width of all copies together. -/
def setBlockAw (o : Occupant) (aw : Int) : Build Unit :=
  match o with
  | .register id => id.update fun r => { r with blockAw := some aw }
  | .passenger id => id.update fun p => { p with ownBlockAw := some aw }
  | _ => return ()

end Occupant

def knownWidth (width : Option Int) : Build Int :=
  match width with
  | some w => return w
  | none => Build.refuse .wrongType

namespace SpaceId

/-- Place all copies of an item side by side in one block. -/
def placeAligned (id : SpaceId) (item : Occupant) (aw blockAw : Int) (copies : List Occupant) :
    Build Int := do
  let base ← id.addNow blockAw item none
  for (copy, n) in copies.zipIdx do
    if n ≠ 0 then copy.setBase (base + n * (← Number.powerOfTwo aw))
  return base

/-- Place copies at equal distances. -/
def placeSpaced (id : SpaceId) (aw length : Int) (start : Option Int) (copies : List Occupant) :
    Build (Option Int) := do
  let bases ← id.baseList aw length start
  for (copy, n) in copies.zipIdx do
    let base ← Text.itemAt bases n
    let placed ← id.addNow aw copy base
    if base ≠ some placed then Build.refuse .undefinedName
  Text.itemAt bases 0

/-- Place the copies of an item in a loop. -/
def placeLoop (id : SpaceId) (request : Staged) (width : Option Int) : Build Staged := do
  let item := request.item
  let name ← item.requireName
  let copies ← item.copies
  let aw ← knownWidth width
  let blockAw := aw + (← Number.bitWidth ((copies.length : Int) - 1))
  item.setBlockAw blockAw
  let block ← entryOf (← item.block?)
  let block ← block.get
  match block.loop.bind Loop.length with
  | none =>
    let shown := (Value.ofText? name).display
    throw (.plain s!"{shown} with {block.display} has loop_len = None!")
  | some length =>
    if request.placed then return request
    let base ←
      if (← getThe Workspace).policy.alignedLoops then
        some <$> id.placeAligned item aw blockAw copies
      else id.placeSpaced aw length request.addr copies
    return ⟨item, base, some aw, true⟩

/-- Place a request unless it is placed. -/
def placeRequest (id : SpaceId) (shelf : Shelf) (request : Staged) (width : Option Int) :
    Build Staged := do
  match shelf with
  | .loops | .explicitLoops => id.placeLoop request width
  | .keepouts =>
    if request.placed then return request
    let aw ← knownWidth width
    let _ ← id.reserveNow (request.addr.getD 0) aw
    return { request with width := some aw, placed := true }
  | .explicits =>
    let _ ← request.item.requireName
    if request.placed then return request
    let aw ← knownWidth width
    let _ ← id.addNow aw request.item request.addr
    return { request with width := some aw, placed := true }
  | .entries =>
    let _ ← request.item.requireName
    if request.placed then return request
    let aw ← knownWidth width
    let base ← id.addNow aw request.item none
    return { request with addr := some base, width := some aw, placed := true }

/-- The shelves that a pass goes over. -/
def shelvesOf : Pass → List Shelf
  | .keepouts => [.keepouts]
  | .explicits => [.explicits]
  | .loops => [.explicitLoops, .loops]
  | .rest => [.entries]

/-- The pass at a place. -/
def passAt (id : SpaceId) (n : Int) : Build Pass := do
  let passes := (← id.get).ledger.passes
  if (passes.length : Int) < n then
    throw (.plain (s!"MemoryRegionStager has no resolve pass {n} " ++
      s!"(only have {passes.length})"))
  Text.itemAt passes n

mutual

/-- Run the passes of a space that is not resolved. -/
def resolveUpTo : (fuel : Nat) → SpaceId → Build Unit
  | 0, _ => tooDeep
  | fuel + 1, id => do
    let ledger := (← id.get).ledger
    if ledger.resolved then return ()
    for n in List.range ledger.passCount do
      runPassUpTo fuel id (← id.passAt n)
    id.updateLedger fun l => { l with resolved := true }

/-- Settle and place the requests of a pass. -/
def runPassUpTo : (fuel : Nat) → SpaceId → Pass → Build Unit
  | 0, _, _ => tooDeep
  | fuel + 1, id, pass =>
    for shelf in shelvesOf pass do
      for n in List.range ((← id.get).ledger.on shelf).length do
        match ((← id.get).ledger.on shelf)[n]? with
        | none => pure ()
        | some request =>
          let width ← settleUpTo fuel request.item request.width
          let request ← id.placeRequest shelf request width
          id.updateLedger fun l => l.put shelf ((l.on shelf).set n request)

/-- Resolve and shrink an item that is a space; the width of the item. -/
def settleUpTo : (fuel : Nat) → Occupant → Option Int → Build (Option Int)
  | 0, _, _ => tooDeep
  | fuel + 1, item, width => do
    match item with
    | .space inner =>
      if (← inner.get).kind ≠ .plain then resolveUpTo fuel inner
      shrinkUpTo fuel inner
      item.declaredWidth
    | .register _ | .passenger _ | .bus _ => item.declaredWidth
    | _ => return width

/-- Reduce a space to the addresses that it needs; a staged one is resolved first. -/
def shrinkUpTo : (fuel : Nat) → SpaceId → Build Unit
  | 0, _ => tooDeep
  | fuel + 1, id => do
    if (← id.get).kind ≠ .plain then resolveUpTo fuel id
    id.onRegion Region.shrink

end

/-- Depth to which requests are followed. -/
def resolveBound : Build Nat := do return 4 * (← depthBound)

/-- Place all requests. -/
def resolve (id : SpaceId) : Build Unit := do resolveUpTo (← resolveBound) id

def runPass (id : SpaceId) (pass : Pass) : Build Unit := do runPassUpTo (← resolveBound) id pass

def shrink (id : SpaceId) : Build Unit := do shrinkUpTo (← resolveBound) id

/-- Add a pass behind the others. -/
def addPass (id : SpaceId) (pass : Pass) : Build Unit :=
  id.updateLedger fun l => { l with passes := l.passes ++ [pass] }

/-- Replace the pass at a place; a negative place counts from the end. -/
def setPass (id : SpaceId) (n : Int) (pass : Pass) : Build Unit := do
  let passes := (← id.get).ledger.passes
  let _ ← Text.itemAt passes n
  id.updateLedger fun l => { l with passes := passes.set (Text.clampPlace passes.length n) pass }

/-! ### What a space holds -/

/-- Number of addresses up to the last taken one. -/
def size (id : SpaceId) : Build Int := do
  if (← id.region).taken.isEmpty then return 0
  id.onRegion fun r => (r.sorted, .ok r.highAddr)

/-- The items with their ranges; before the resolution of a staged space, its requests outside loops. -/
def contents (id : SpaceId) : Build (List (Option Int × Option Int × Occupant)) := do
  let space ← id.get
  if space.kind ≠ .plain && !space.ledger.resolved then
    return (space.ledger.explicits ++ space.ledger.entries).map fun r => (r.addr, none, r.item)
  else return space.region.taken.map fun s => (some s.lo, some s.hi, s.item)

end SpaceId

end RegisterMap
