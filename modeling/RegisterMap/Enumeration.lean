import RegisterMap.Text.Cut
import RegisterMap.Value.Basic

/-! # Numbered names

A list of names that are numbered from a base on, with a cursor that goes over the numbers or over
names together with numbers. -/

namespace RegisterMap

/-- Numbered names with a cursor. -/
structure Enumeration where
  names : List String
  base : Int
  paired : Bool := false
  /-- Place of the cursor, once it was set. -/
  cursor : Option Nat := none
deriving DecidableEq, Repr, Inhabited

namespace Enumeration

/-- The number of a name, the last one if it is repeated. -/
def number? (e : Enumeration) (name : String) : Option Int :=
  (e.names.zipIdx.findRev? fun entry => entry.1 == name).map fun entry => e.base + entry.2

/-- The number of a listed name, or a setting. -/
def lookup? (e : Enumeration) (name : String) : Option Value :=
  match e.number? name with
  | some n => some (.int n)
  | none =>
    if name == "_offset" then some (.int e.base)
    else if name == "_strs" then some (.list (e.names.map .text))
    else if name == "_items" then some (.bool e.paired)
    else if name == "_ix" then e.cursor.map fun n => .int n
    else none

/-- What is known under a name. -/
def lookup (e : Enumeration) (name : String) : Result Value :=
  match e.lookup? name with
  | some v => .ok v
  | none => fail .noSuchField

/-- The name of a number; below the base it counts from the end. -/
def nameOf (e : Enumeration) (n : Int) : Result String := Text.itemAt e.names (n - e.base)

def rewind (e : Enumeration) : Enumeration := { e with cursor := some 0 }

/-- Set the cursor to the start, for pairs. -/
def rewindPaired (e : Enumeration) : Enumeration := { e with cursor := some 0, paired := true }

def item (e : Enumeration) (name : String) : String × Int := (name, (e.number? name).getD e.base)

/-- The item at the cursor; the end also ends the pairing. -/
def next (e : Enumeration) : Enumeration × Result (Option (String × Int)) :=
  match e.cursor with
  | none => (e, fail .noSuchField)
  | some n =>
    match e.names[n]? with
    | none => ({ e with paired := false }, .ok none)
    | some name => ({ e with cursor := some (n + 1) }, .ok (some (e.item name)))

def all (e : Enumeration) : Enumeration × List (String × Int) :=
  ({ e with cursor := some e.names.length, paired := false }, e.names.map e.item)

end Enumeration

end RegisterMap
