import RegisterMap.Workspace.Basic

/-! # Ordering by dependencies

A table of dependencies says of each of its keys which item has to come after it.  The order is
found by moving one item at a time until nothing is out of place. -/

namespace RegisterMap.Dependency

/-- Dependencies: each key comes before its value. -/
structure Rules (α : Type) where
  table : Table α α
  /-- Items that stand for nothing: they ask for no move. -/
  isBlank : α → Bool := fun _ => false
  /-- Items that can be looked up in the table; the others end the search. -/
  isKey : α → Bool := fun _ => true

variable {α : Type} [BEq α]

/-- Add an item that is not there yet. -/
def addNew (xs : List α) (x : α) : List α := if xs.contains x then xs else xs ++ [x]

/-- All items, for each dependency the later one first. -/
def Rules.items (rules : Rules α) : List α :=
  rules.table.foldl (fun xs rule => addNew (addNew xs rule.2) rule.1) []

/-- Move the item at one place to another, counted after its removal. -/
def move (xs : List α) (source target : Nat) : List α :=
  match xs[source]? with
  | some x => (xs.eraseIdx source).insertIdx (min target (xs.length - 1)) x
  | none => xs

namespace Rules

/-- The move that the item at a place asks for: of the item that has to come after it, or of the one
before it. -/
def moveAt (rules : Rules α) (xs : List α) (n : Nat) : Option (List α) := do
  let here ← xs[n]?
  let late : Option (List α) := do
    let after ← (Table.get? rules.table here).filter fun x => !rules.isBlank x
    let place ← xs.findIdx? (· == after)
    if place < n then some (move xs place (n + 1)) else none
  match late with
  | some moved => some moved
  | none => do
    let rule ← (rules.table.find? fun rule => rule.2 == here).filter fun rule =>
      !rules.isBlank rule.1
    let place ← xs.findIdx? (· == rule.1)
    if n < place then some (move xs place n) else none

/-- The first move that an item asks for. -/
def firstMove (rules : Rules α) (xs : List α) : Option (List α) :=
  (List.range (xs.takeWhile rules.isKey).length).findSome? (rules.moveAt xs)

/-- The orders after each move. -/
def passes (rules : Rules α) : (fuel : Nat) → List α → List (List α)
  | 0, _ => []
  | fuel + 1, xs =>
    match rules.firstMove xs with
    | some moved => moved :: rules.passes fuel moved
    | none => []

/-- A bound on the moves of a search that ends: no order comes up twice. -/
def passBound (rules : Rules α) : Nat := Nat.pow rules.items.length rules.items.length

/-- The orders that a search goes through. -/
def orders (rules : Rules α) : List (List α) :=
  rules.items :: rules.passes rules.passBound rules.items

/-- The order in which a search ends. -/
def last (rules : Rules α) : List α := rules.orders.getLast?.getD []

end Rules

/-- The order that respects all dependencies. -/
def order (table : Table α α) : List α := Rules.last { table := table }

/-- The order of values that respects all dependencies.  The start and the order after each pass may be
printed. -/
def orderValues (table : Table Value Value) (report : Bool) : Build (List Value) := do
  let rules : Rules Value := ⟨table, Value.isNone, Value.isKey⟩
  let orders := rules.orders
  let last := orders.getLast?.getD []
  let complete := last.all Value.isKey
  if report then
    let shown (xs : List Value) : String := (Value.list xs).display
    Build.say s!"    Starting with {shown rules.items}"
    let passes := orders.drop 1 ++ if complete then [last] else []
    for (xs, n) in passes.zipIdx do Build.say s!"    pass {n}: {shown xs}"
  if !complete then Build.refuse .wrongType
  return last

end RegisterMap.Dependency
