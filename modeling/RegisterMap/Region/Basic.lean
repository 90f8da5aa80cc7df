import RegisterMap.Number.Double
import RegisterMap.Number.Numeral
import RegisterMap.Value.Printer

/-! # Address regions

A region hands out ranges of addresses.  Every address of a region is in one of three states.

* **Taken.**  A `Slot` is a range that an item occupies.
* **Vacant.**  A `Gap` is a range that is free.  A gap that came back by a release, or that was
  extended by growing, is *fixed*: its upper end cannot be moved down any more.
* **Reserved.**  A `Reserve` is a range that is kept free of items.

Addresses count from the start of the region; `base` is the absolute address of that start.  The
three lists of ranges are kept in the order of the requests; `Region.sorted` brings slots and gaps
into ascending order, and `Region.walk` visits all ranges by merging the three lists. -/

namespace RegisterMap

/-- Path of instance names from the root to a region. -/
structure Path where
  names : List String
  trimmed : Bool := false
deriving DecidableEq, Repr, Inhabited

namespace Path

def dotted (p : Path) : String := Text.join "." p.names

/-- The last name of a path. -/
def last (p : Path) : Result String :=
  match p.names.getLast? with
  | some name => .ok name
  | none => fail .outOfRange

/-- The path of a value: a list is a trimmed one, a tuple any other. -/
def ofValue? : Value → Option Path
  | .list names => some ⟨names.map Value.display, true⟩
  | .tuple names => some ⟨names.map Value.display, false⟩
  | _ => none

/-- A trimmed path as a list, any other as a tuple. -/
def toValue (p : Path) : Value :=
  let names := p.names.map Value.text
  if p.trimmed then .list names else .tuple names

end Path

/-- A range that an item has. -/
structure Slot (ρ : Type) where
  lo : Int
  hi : Int
  item : ρ
deriving DecidableEq, Repr, Inhabited

/-- A vacant range; one that is `fixed` cannot be cut at its end. -/
structure Gap where
  lo : Int
  hi : Int
  fixed : Bool := false
deriving DecidableEq, Repr, Inhabited

/-- A range that is kept free. -/
structure Reserve where
  lo : Int
  hi : Int
  copied : Bool := false
deriving DecidableEq, Repr, Inhabited

/-- What a range is used for. -/
inductive EntryKind where
  | vacant
  | taken
  | reserved
deriving DecidableEq, Repr, Inhabited

/-- A range as a walk over a region meets it. -/
structure Entry (ρ : Type) where
  lo : Int
  hi : Int
  item : Option ρ
  kind : EntryKind
  copied : Bool := false
deriving DecidableEq, Repr, Inhabited

def Entry.holds {ρ : Type} (e : Entry ρ) (addr : Int) : Bool := e.lo ≤ addr && addr < e.hi

/-- Do the ranges have an address in common? -/
def Entry.meets {ρ : Type} (e : Entry ρ) (lo hi : Int) : Bool :=
  if e.lo ≤ lo then lo < e.hi else e.lo < hi

def Slot.entry {ρ : Type} (s : Slot ρ) : Entry ρ := ⟨s.lo, s.hi, some s.item, .taken, false⟩

def Gap.entry {ρ : Type} (g : Gap) : Entry ρ := ⟨g.lo, g.hi, none, .vacant, false⟩

def Reserve.entry {ρ : Type} (k : Reserve) : Entry ρ := ⟨k.lo, k.hi, none, .reserved, k.copied⟩

/-- The ranges that a walk meets, and whether it has come to the end. -/
structure Walk (ρ : Type) where
  entries : List (Entry ρ)
  complete : Bool
deriving DecidableEq, Repr, Inhabited

def Walk.cons {ρ : Type} (e : Entry ρ) (w : Walk ρ) : Walk ρ := ⟨e :: w.entries, w.complete⟩

/-- Merge slots, gaps and reserved ranges by their starts; it stops at a reserved range in front of a
slot when no gap is left. -/
def Walk.merge {ρ : Type} : List (Slot ρ) → List Gap → List Reserve → Walk ρ
  | [], [], [] => ⟨[], true⟩
  | m :: ms, [], [] => .cons m.entry (merge ms [] [])
  | [], v :: vs, [] => .cons v.entry (merge [] vs [])
  | m :: ms, v :: vs, [] =>
    if m.lo < v.lo then .cons m.entry (merge ms (v :: vs) [])
    else .cons v.entry (merge (m :: ms) vs [])
  | [], [], k :: ks => .cons k.entry (merge [] [] ks)
  | [], v :: vs, k :: ks =>
    if k.lo < v.lo then .cons k.entry (merge [] (v :: vs) ks)
    else .cons v.entry (merge [] vs (k :: ks))
  | m :: ms, [], k :: ks =>
    if k.lo < m.lo then ⟨[], false⟩ else .cons m.entry (merge ms [] (k :: ks))
  | m :: ms, v :: vs, k :: ks =>
    if k.lo < min m.lo v.lo then .cons k.entry (merge (m :: ms) (v :: vs) ks)
    else if m.lo < min k.lo v.lo then .cons m.entry (merge ms (v :: vs) (k :: ks))
    else .cons v.entry (merge (m :: ms) vs (k :: ks))
termination_by ms vs ks => ms.length + vs.length + ks.length

/-- A region of addresses whose items have type `ρ`. -/
structure Region (ρ : Type) where
  span : Int × Int
  base : Int
  /-- Address of the start inside the enclosing region. -/
  relativeBase : Int
  aw : Int
  extent : Int
  taken : List (Slot ρ)
  vacant : List Gap
  reserved : List Reserve
  path : Option Path
  label : String
  inset : Int
deriving Repr, Inhabited

/-- Why a region refuses a request. -/
inductive Refusal (ρ : Type) where
  | fault (fault : Fault)
  | negative (addr : Int)
  | unaligned (addr width : Int)
  | outOfBounds (size addr base top : Int)
  | occupied (addr lo hi : Int)
  | overlaps (lo hi at_ : Int)
  | outside (lo hi : Int)
  | doesNotFit (lo hi : Int) (count : Nat) (first last : Int) (items : Bool)
  | invalidPurpose (code : Int)
  | noRoom (label : String) (width : Int)
  | cannotGrow (base top high : Int)
  | notFromZero (name : String) (lo hi : Int)
  | notContiguous (name : String) (lo1 hi1 lo2 hi2 : Int)
  | broken (label : String) (last : Entry ρ) (width : Int)
deriving Repr, Inhabited

namespace Refusal

open Number (hex)

variable {ρ : Type}

def entryText (itemText : ρ → String) (e : Entry ρ) : String :=
  let parts := [toString e.lo, toString e.hi, (e.item.map itemText).getD "None"]
  if e.copied then "[" ++ Text.join ", " parts ++ "]" else Value.tupleText parts

/-- The text of a refusal. -/
def text (itemText : ρ → String) : Refusal ρ → String
  | fault _ => ""
  | negative addr => s!"Address must be unsigned, not {addr}"
  | unaligned addr width => s!"Address 0x{hex addr} is not aligned to width {width}"
  | outOfBounds size addr base top =>
    s!"Adding element of size {size} rooted at address 0x{hex addr} " ++
      s!"would exceed bounds of memory region [0x{hex base}->0x{hex top})"
  | occupied addr lo hi =>
    s!"Address 0x{hex addr} falls within occupied element spanning 0x{hex lo} to 0x{hex hi}"
  | overlaps lo hi at_ =>
    s!"Element spanning addresses [0x{hex lo}->0x{hex hi}) overlaps with occupied address 0x{hex at_}"
  | outside lo hi => s!"It appears [0x{hex lo}->0x{hex hi}) is outside our boundaries?!"
  | doesNotFit lo hi count first last items =>
    s!"Could not fit [0x{hex lo}->0x{hex hi}) into memory map. " ++
      s!"It overlaps with {count} entries, spanning [0x{hex first}->0x{hex last})" ++
      (if items then " (\x7bstart_ref\x7d->\x7bstop_ref\x7d)" else "")
  | invalidPurpose code => s!"Invalid type {code} to add to memory"
  | noRoom label width => s!"{label} has no room for memory of width {width}"
  | cannotGrow base top high =>
    s!"Memory region currently spans [0x{hex base}, 0x{hex top})." ++
      s!" Cannot grow to 0x{hex high}."
  | notFromZero name lo hi => s!"MemoryRegion({name}) does not begin at zero! ({lo}, {hi})"
  | notContiguous name lo1 hi1 lo2 hi2 =>
    s!"MemoryRegion({name}) entries are not contiguous ({lo1}, {hi1}), ({lo2}, {hi2})"
  | broken label last width =>
    s!"{label} Memory map has broken. last_entry = {entryText itemText last}, self.width = {width}"

/-- The numbers that a refusal writes in decimal. -/
def decimals : Refusal ρ → List Int
  | negative addr => [addr]
  | unaligned _ width => [width]
  | outOfBounds size _ _ _ => [size]
  | invalidPurpose code => [code]
  | noRoom _ width => [width]
  | notFromZero _ lo hi => [lo, hi]
  | notContiguous _ lo1 hi1 lo2 hi2 => [lo1, hi1, lo2, hi2]
  | broken _ last width => [last.lo, last.hi, width]
  | _ => []

/-- The refusal as an error; a number may be too long to be written. -/
def toError (itemText : ρ → String) : Refusal ρ → Error
  | fault f => .fault f
  | r => if r.decimals.all Number.isWritable then .plain (r.text itemText) else .fault .badValue

end Refusal

namespace Region

variable {ρ α : Type}

/-- A region after a request, and the answer or the refusal. -/
abbrev Outcome (ρ α : Type) := Region ρ × Except (Refusal ρ) α

def refuse (f : Fault) : Except (Refusal ρ) α := .error (.fault f)

def ofFault : Except Fault α → Except (Refusal ρ) α
  | .ok a => .ok a
  | .error f => .error (.fault f)

/-- Bits of an address, as a refusal where there are none. -/
def bits (v : Int) : Except (Refusal ρ) Nat :=
  if v + 1 ≤ 0 then refuse .badValue else .ok (Number.ceilLog2 (v + 1).toNat)

def exponent (width : Int) : Except (Refusal ρ) Nat := ofFault (Number.exponent width)

/-- A new region over `[lo, hi)`, which must have addresses. -/
def create (lo hi : Int) (label : String) (path : Option Path) : Except (Refusal ρ) (Region ρ) := do
  let w ← bits (hi - lo - 1)
  return { span := (lo, hi), base := lo, relativeBase := lo, aw := w, extent := Number.twoPow w,
           taken := [], vacant := [⟨lo, hi, false⟩], reserved := [], path := path,
           label := label, inset := 0 }

/-- Start over with no items, at the same address. -/
def reset (r : Region ρ) : Except (Refusal ρ) (Region ρ) := do
  let fresh ← create r.span.1 r.span.2 r.label r.path
  return { fresh with relativeBase := r.relativeBase, inset := r.inset }

/-- Absolute address behind the last one. -/
def top (r : Region ρ) : Int := r.base + r.extent

def width (r : Region ρ) : Except (Refusal ρ) Nat := bits (r.extent - 1)

/-- Dotted path, or the label of a region without path. -/
def name (r : Region ρ) : String :=
  match r.path with
  | some p => p.dotted
  | none => r.label

/-- Last name of the path, or the label. -/
def shortName (r : Region ρ) : Result String :=
  match r.path with
  | some p => p.last
  | none => .ok r.label

/-- Insert before the first range that does not start lower. -/
def insertBy (lo : α → Int) (a : α) : List α → List α
  | [] => [a]
  | b :: bs => if lo a ≤ lo b then a :: b :: bs else b :: insertBy lo a bs

/-- Slots and gaps in ascending order, those with one start as they were. -/
def sorted (r : Region ρ) : Region ρ :=
  { r with
    taken := r.taken.foldr (insertBy Slot.lo) []
    vacant := r.vacant.foldr (insertBy Gap.lo) [] }

/-- The ranges in order. -/
def walk (r : Region ρ) : Walk ρ := Walk.merge r.taken r.vacant r.reserved

/-! ### Completeness -/

/-- Do the entries follow each other from zero on? -/
def contiguous (name : String) : Option (Entry ρ) → List (Entry ρ) → Except (Refusal ρ) Unit
  | _, [] => .ok ()
  | none, e :: es =>
    if e.lo ≠ 0 then .error (.notFromZero name e.lo e.hi) else contiguous name (some e) es
  | some last, e :: es =>
    if last.hi ≠ e.lo then .error (.notContiguous name last.lo last.hi e.lo e.hi)
    else contiguous name (some e) es

/-- Check that the ranges of a sorted region cover its addresses once. -/
def check (r : Region ρ) : Except (Refusal ρ) Unit := do
  let w := r.walk
  contiguous r.name none w.entries
  if !w.complete then refuse .unsetQuantity
  match w.entries.getLast? with
  | none => return ()
  | some last =>
    let width ← r.width
    if last.hi ≠ Number.twoPow width then .error (.broken r.label last width)

/-- Sort the region and check it. -/
def checkComplete (r : Region ρ) : Outcome ρ Unit :=
  let r := r.sorted
  (r, r.check)

/-- Check the region after a request that went through. -/
def completed (o : Outcome ρ α) : Outcome ρ α :=
  match o with
  | (r, .ok a) =>
    let (r, checked) := r.checkComplete
    (r, checked.map fun _ => a)
  | o => o

/-! ### Looking up -/

/-- All ranges, or a refusal when the walk stops short. -/
def entries (r : Region ρ) : Outcome ρ (List (Entry ρ)) :=
  let r := r.sorted
  let w := r.walk
  (r, if w.complete then .ok w.entries else refuse .unsetQuantity)

/-- The first range with the property, if the walk gets there. -/
def findEntry (p : Entry ρ → Bool) (w : Walk ρ) : Except (Refusal ρ) (Option (Entry ρ)) :=
  match w.entries.find? p with
  | some e => .ok (some e)
  | none => if w.complete then .ok none else refuse .unsetQuantity

/-- The range that holds an address. -/
def entryAt (r : Region ρ) (addr : Int) : Outcome ρ (Option (Entry ρ)) :=
  let r := r.sorted
  (r, findEntry (·.holds addr) r.walk)

/-- The ranges that meet `[lo, hi)`. -/
def overlap (r : Region ρ) (lo hi : Int) : Outcome ρ (List (Entry ρ)) :=
  let (r, es) := r.entries
  (r, es.map fun es => es.filter (·.meets lo hi))

/-- The end of the last slot, or zero. -/
def highAddr (r : Region ρ) : Int := ((r.sorted.taken.getLast?).map Slot.hi).getD 0

def isEmpty (r : Region ρ) : Bool := r.highAddr == 0

end Region

end RegisterMap
