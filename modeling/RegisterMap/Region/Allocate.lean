import RegisterMap.Region.Basic

/-! # Allocation in a region

Automatic placement takes the lowest aligned block of the first gap that has room
(`Region.push`).  Placement at an address takes the block there, if all of it is vacant
(`Region.insert`).  A slot is given back by `Region.remove`, which joins the freed range with the
gaps that touch it.  `Region.shrink` and `Region.grow` change the number of addresses. -/

namespace RegisterMap

/-- What a block is taken for. -/
inductive Purpose where
  | item
  | reserve
  /-- No purpose that a region knows. -/
  | other (code : Int)
deriving DecidableEq, Repr, Inhabited

def Purpose.ofCode (code : Int) : Purpose :=
  if code == 1 then item else if code == 2 then reserve else other code

namespace Gap

/-- Take `[lo, hi)` out of a gap: what is left below and above it. -/
def carve (g : Gap) (lo hi : Int) : Except Fault (List Gap) :=
  if g.lo < lo then
    if g.fixed then .error .wrongType
    else .ok (⟨g.lo, lo, false⟩ :: if hi < g.hi then [⟨hi, g.hi, false⟩] else [])
  else .ok (if hi < g.hi then [⟨hi, g.hi, false⟩] else [])

/-- Take the first aligned block of `2 ^ w` addresses out of the gaps. -/
def takeFirst (w : Nat) : List Gap → Except Fault (Option (Int × List Gap))
  | [] => .ok none
  | g :: gs =>
    let start := Number.alignUp g.lo w
    if !Number.quotientFits g.lo w then .error .tooLarge
    else if Number.twoPow w ≤ g.hi - start then
      match g.carve start (start + Number.twoPow w) with
      | .ok left => .ok (some (start, left ++ gs))
      | .error f => .error f
    else
      match takeFirst w gs with
      | .ok (some (start, gs)) => .ok (some (start, g :: gs))
      | .ok none => .ok none
      | .error f => .error f

/-- Take `[lo, hi)` out of the first gap with the given ends. -/
def takeFrom (ends : Int × Int) (lo hi : Int) : List Gap → Except Fault (Option (List Gap))
  | [] => .ok none
  | g :: gs =>
    if g.lo = ends.1 ∧ g.hi = ends.2 then
      match g.carve lo hi with
      | .ok left => .ok (some (left ++ gs))
      | .error f => .error f
    else
      match takeFrom ends lo hi gs with
      | .ok (some gs) => .ok (some (g :: gs))
      | .ok none => .ok none
      | .error f => .error f

/-- The first aligned block from `start` on. -/
def firstBase (w : Nat) (start : Int) : List Gap → Except Fault (Option Int)
  | [] => .ok none
  | g :: gs =>
    if g.hi ≤ start then firstBase w start gs
    else
      let base := Number.alignUp (max g.lo start) w
      if !Number.quotientFits (max g.lo start) w then .error .tooLarge
      else if Number.twoPow w ≤ g.hi - base then .ok (some base)
      else firstBase w start gs

/-! ### Giving a range back -/

/-- How a freed range joins the gaps; the number is that of the gap below. -/
inductive Joining where
  /-- A new gap before all others. -/
  | front
  /-- The first gap starts where the range ends. -/
  | firstDown
  /-- A new gap between two others. -/
  | between (n : Nat)
  /-- The range fills the space between two gaps. -/
  | bridge (n : Nat)
  /-- The gap below ends where the range starts. -/
  | belowUp (n : Nat)
  /-- The gap above starts where the range ends. -/
  | aboveDown (n : Nat)
deriving DecidableEq, Repr, Inhabited

/-- How `[lo, hi)` joins the gaps from place `n` on. -/
def joiningFrom (lo hi : Int) : (n : Nat) → List Gap → Option Joining
  | _, [] => none
  | n, g :: gs =>
    let next : Int := (gs.head?.map Gap.lo).getD (-1)
    if n = 0 ∧ hi < g.lo then some .front
    else if n = 0 ∧ hi = g.lo then some .firstDown
    else if g.hi < lo ∧ hi < next then some (.between n)
    else if lo = g.hi ∧ hi = next then some (.bridge n)
    else if lo = g.hi then some (.belowUp n)
    else if hi = next then some (.aboveDown n)
    else joiningFrom lo hi (n + 1) gs

def joining? (lo hi : Int) (gaps : List Gap) : Option Joining := joiningFrom lo hi 0 gaps

/-- The gaps after the range has joined them, if it can. -/
def join (lo hi : Int) (gaps : List Gap) : Joining → Option (List Gap)
  | .front => some (⟨lo, hi, true⟩ :: gaps)
  | .firstDown =>
    match gaps with
    | g :: gs => some (⟨lo, g.hi, true⟩ :: gs)
    | [] => none
  | .between n => some (gaps.take (n + 1) ++ ⟨lo, hi, true⟩ :: gaps.drop (n + 1))
  | .bridge n =>
    match gaps.drop n with
    | g :: g' :: gs => some (gaps.take n ++ ⟨g.lo, g'.hi, true⟩ :: gs)
    | _ => none
  | .belowUp n =>
    match gaps.drop n with
    | g :: gs => some (gaps.take n ++ ⟨g.lo, hi, true⟩ :: gs)
    | _ => none
  | .aboveDown n =>
    match gaps.drop n with
    | g :: g' :: gs => some (gaps.take n ++ g :: ⟨lo, g'.hi, true⟩ :: gs)
    | _ => none

def rangeText (lo hi : Int) : String := s!"(0x{Number.hex lo}, 0x{Number.hex hi})"

/-- Ends of the gap at a place, or `-1`. -/
def endsAt (gaps : List Gap) (n : Nat) : Int × Int :=
  match gaps[n]? with
  | some g => (g.lo, g.hi)
  | none => (-1, -1)

/-- The place of the gap that is joined. -/
def Joining.place : Joining → Nat
  | .front | .firstDown => 0
  | .between n | .bridge n | .belowUp n | .aboveDown n => n

/-- The report of a joining: the gaps and what is done. -/
def Joining.report (lo hi : Int) (gaps : List Gap) (j : Joining) : String × String :=
  let n := j.place
  let here := endsAt gaps n
  let next := endsAt gaps (n + 1)
  let text (ends : Int × Int) : String := rangeText ends.1 ends.2
  (s!"this_entry = {text here}; next_entry = {text next}",
   match j with
   | .front => s!"vacate 0: adding {rangeText lo hi} to the start"
   | .firstDown => s!"vacate 1 replacing {text here} with {rangeText lo here.2}"
   | .between _ => s!"vacate 2 inserting {rangeText lo hi} after {text here}"
   | .bridge _ =>
     s!"vacate 3 replacing {text here} with {rangeText here.1 next.2} and deleting {text next}"
   | .belowUp _ => s!"vacate 4 replacing {text here} with {rangeText here.1 hi}"
   | .aboveDown _ => s!"vacate 5 replacing {text next} with {rangeText lo next.2}")

end Gap

namespace Region

variable {ρ : Type}

/-- May a block of `2 ^ width` addresses start here? -/
def vet (r : Region ρ) (addr width : Int) : Except (Refusal ρ) Unit := do
  let w ← exponent width
  if addr < 0 then .error (.negative addr)
  if addr % Number.twoPow w ≠ 0 then .error (.unaligned addr width)
  if r.top < addr + Number.twoPow w then .error (.outOfBounds (Number.twoPow w) addr r.base r.top)

/-- Place an item in the first gap with room. -/
def push (r : Region ρ) (width : Int) (item : ρ) : Outcome ρ Int :=
  match exponent width with
  | .error e => (r, .error e)
  | .ok w =>
    match Gap.takeFirst w r.vacant with
    | .error f => (r, refuse f)
    | .ok none => (r, .error (.noRoom r.label width))
    | .ok (some (start, gaps)) =>
      ({ r with vacant := gaps, taken := r.taken ++ [⟨start, start + Number.twoPow w, item⟩] }, .ok start)

/-- The gap that holds `[lo, hi)`, if `lo` is first found in one. -/
def fit (w : Walk ρ) (lo hi : Int) : Except (Refusal ρ) (Option (Int × Int)) := do
  match ← findEntry (·.holds lo) w with
  | none => return none
  | some e =>
    if e.kind ≠ .vacant then .error (.occupied lo e.lo e.hi)
    else if e.hi < hi then .error (.overlaps lo hi e.hi)
    else return some (e.lo, e.hi)

/-- Why no range holds `lo`. -/
def misfit (es : List (Entry ρ)) (hasItem : ρ → Bool) (lo hi : Int) : Refusal ρ :=
  match es.filter (·.meets lo hi) with
  | [] => .outside lo hi
  | e :: es =>
    let last := (e :: es).getLast?.getD e
    let items := (e.item.map hasItem).getD false || (last.item.map hasItem).getD false
    .doesNotFit lo hi (es.length + 1) e.lo last.hi items

/-- Take or reserve a block. -/
def occupy (r : Region ρ) (lo hi : Int) (purpose : Purpose) (item : ρ) : Outcome ρ Int :=
  match purpose with
  | .item => ({ r with taken := r.taken ++ [⟨lo, hi, item⟩] }, .ok lo)
  | .reserve => ({ r with reserved := r.reserved ++ [⟨lo, hi, false⟩] }, .ok lo)
  | .other code => (r, .error (.invalidPurpose code))

/-- Place an item at an address, or reserve the block there. -/
def insert (r : Region ρ) (hasItem : ρ → Bool) (addr width : Int) (purpose : Purpose) (item : ρ) :
    Outcome ρ Int :=
  match r.vet addr width with
  | .error e => (r, .error e)
  | .ok () =>
    let hi := addr + Number.twoPow width.toNat
    let r := r.sorted
    match fit r.walk addr hi with
    | .error e => (r, .error e)
    | .ok none => (r, .error (misfit r.walk.entries hasItem addr hi))
    | .ok (some ends) =>
      match Gap.takeFrom ends addr hi r.vacant with
      | .error f => (r, refuse f)
      | .ok none => (r, .ok addr)
      | .ok (some gaps) => { r with vacant := gaps }.occupy addr hi purpose item

/-- Place an item at an address, or in the first gap with room. -/
def place (r : Region ρ) (hasItem : ρ → Bool) (width : Int) (item : ρ) (addr : Option Int)
    (purpose : Purpose) : Outcome ρ Int :=
  match addr with
  | none => r.push width item
  | some addr => r.insert hasItem addr width purpose item

/-- The lowest aligned base from `start` on with `2 ^ width` vacant addresses. -/
def availableBase (r : Region ρ) (width start : Int) : Except (Refusal ρ) (Option Int) := do
  ofFault (Gap.firstBase (← exponent width) start r.vacant)

/-- Take off the slot at an address. -/
def dropSlot (addr : Int) : List (Slot ρ) → Option (Slot ρ × List (Slot ρ))
  | [] => none
  | s :: ss =>
    if s.lo = addr then some (s, ss)
    else (dropSlot addr ss).map fun (found, rest) => (found, s :: rest)

/-- Give the slot at an address back, with a report; has one joined the gaps? -/
def remove (r : Region ρ) (addr : Int) : Outcome ρ Bool × List String :=
  match dropSlot addr r.taken with
  | none => ((r, .ok false), [])
  | some (slot, rest) =>
    let r := { r with taken := rest }
    let heading := s!"Trying to vacate {Gap.rangeText slot.lo slot.hi}"
    match Gap.joining? slot.lo slot.hi r.vacant with
    | none => (completed (r, .ok false), [heading])
    | some j =>
      let (about, done) := j.report slot.lo slot.hi r.vacant
      match Gap.join slot.lo slot.hi r.vacant j with
      | none => ((r, refuse .outOfRange), [heading, about])
      | some gaps => (completed ({ r with vacant := gaps }, .ok true), [heading, about, done])

/-- Cut the last gap at the end of the region. -/
def cutLast (extent : Int) (gaps : List Gap) : List Gap :=
  match gaps.getLast? with
  | none => gaps
  | some g =>
    if extent < g.hi then
      if extent = g.lo then gaps.dropLast else gaps.dropLast ++ [⟨g.lo, extent, false⟩]
    else gaps

/-- Reduce the addresses to the least power of two that holds all slots, at least two with slots. -/
def shrink (r : Region ρ) : Outcome ρ Unit :=
  let r := r.sorted
  let high := r.highAddr
  if 0 < high then
    match bits (ρ := ρ) (if high = 1 then 1 else high - 1) with
    | .error e => (r, .error e)
    | .ok w =>
      completed
        ({ r with extent := Number.twoPow w, aw := w, vacant := cutLast (Number.twoPow w) r.vacant }, .ok ())
  else completed ({ r with extent := 0, aw := 0, vacant := cutLast 0 r.vacant }, .ok ())

/-- Extend the region up to the address `high`; the address width stays. -/
def grow (r : Region ρ) (high : Int) (absolute : Bool) : Outcome ρ Unit :=
  match bits (ρ := ρ) (if absolute then high - r.base else high) with
  | .error e => (r, .error e)
  | .ok w =>
    let high := if absolute then high else r.base + high
    if high < r.top then (r, .error (.cannotGrow r.base r.top high))
    else
      let r := { r with extent := Number.twoPow w }
      match r.vacant.getLast? with
      | none => (r, refuse .outOfRange)
      | some g => completed ({ r with vacant := r.vacant.dropLast ++ [⟨g.lo, Number.twoPow w, true⟩] }, .ok ())

end Region

end RegisterMap
