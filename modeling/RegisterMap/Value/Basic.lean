import RegisterMap.Number.Decimal
import RegisterMap.Table

/-! # Values of a data document

Netlists and register maps are documents of nested values: nothing, truth values, numbers, texts,
sequences and tables in insertion order.  A sequence is a list or a tuple; the two are compared and
shown differently. -/

namespace RegisterMap

/-- Values of the documents that are read and written. -/
inductive Value where
  | none
  | bool (b : Bool)
  | int (n : Int)
  /-- A number with a fraction or an exponent. -/
  | real (x : Double)
  | text (s : String)
  | list (items : List Value)
  | tuple (items : List Value)
  | table (members : List (Value × Value))
deriving Repr, Inhabited

namespace Value

/-- The integer that a number or a truth value stands for. -/
def number? : Value → Option Int
  | bool b => some (if b then 1 else 0)
  | int n => some n
  | _ => Option.none

def integer? : Value → Option Int
  | real x => x.toInt?
  | v => v.number?

mutual
/-- Are two values equal?  A truth value is a number. -/
def same : Value → Value → Bool
  | none, none => true
  | real x, real y => x.same y
  | bool a, v => v.integer? == some (if a then 1 else 0)
  | int a, v => v.integer? == some a
  | real x, v => x.toInt?.isSome && x.toInt? == v.integer?
  | text a, text b => a == b
  | list xs, list ys => sameAll xs ys
  | tuple xs, tuple ys => sameAll xs ys
  | table xs, table ys => xs.length == ys.length && sameMembers xs ys
  | _, _ => false

def sameAll : List Value → List Value → Bool
  | [], [] => true
  | x :: xs, y :: ys => same x y && sameAll xs ys
  | _, _ => false

/-- Does every member of the first table stand in the second? -/
def sameMembers : List (Value × Value) → List (Value × Value) → Bool
  | [], _ => true
  | (k, v) :: rest, ys => (ys.any fun (k', v') => same k k' && same v v') && sameMembers rest ys
end

instance : BEq Value := ⟨same⟩

def text? : Value → Option String
  | text s => some s
  | _ => Option.none

def items? : Value → Option (List Value)
  | list xs | tuple xs => some xs
  | _ => Option.none

def members? : Value → Option (List (Value × Value))
  | table kvs => some kvs
  | _ => Option.none

def isTable : Value → Bool
  | table _ => true
  | _ => false

def isNone : Value → Bool
  | none => true
  | _ => false

/-- The first value that is there. -/
def firstGiven (vs : List Value) : Value := (vs.find? fun v => !v.isNone).getD none

/-- Does the value count as true in a condition? -/
def truthy : Value → Bool
  | none => false
  | bool b => b
  | int n => n != 0
  | real x => x.isNonzero
  | text s => !s.isEmpty
  | list xs | tuple xs => !xs.isEmpty
  | table kvs => !kvs.isEmpty

def ofOption {α : Type} (f : α → Value) : Option α → Value
  | some a => f a
  | Option.none => none

def ofText? (s : Option String) : Value := ofOption text s

def ofInt? (n : Option Int) : Value := ofOption int n

/-! ### Reading tables

`field` is for a member that must be there, `member?` for one that may be missing.  What is no
table has no members: asking it for one by key is an error of type, asking it for its members by
name is an error of field. -/

/-- The member of a table, which must be there. -/
def field (v : Value) (key : String) : Result Value :=
  match v with
  | table kvs =>
    match Table.get? kvs (text key) with
    | some x => .ok x
    | Option.none => fail .missingKey
  | _ => fail .wrongType

/-- The member of a table, or nothing. -/
def member? (v : Value) (key : String) : Result (Option Value) :=
  match v with
  | table kvs => .ok (Table.get? kvs (text key))
  | _ => fail .noSuchField

/-- The member of a table, or nothing. -/
def member (v : Value) (key : String) : Result Value := do
  return (← v.member? key).getD none

/-- The members of a table. -/
def members (v : Value) : Result (List (Value × Value)) :=
  match v with
  | table kvs => .ok kvs
  | _ => fail .noSuchField

/-- Sequences and tables of a list of nothing else. -/
def containers (vs : List Value) : Result (List Value) :=
  if vs.all fun v => v.isTable || v.items?.isSome then .ok vs else fail .noSuchField

/-- Number of items of a sequence, a table or a text. -/
def length : Value → Result Nat
  | text s => .ok s.length
  | list xs | tuple xs => .ok xs.length
  | table kvs => .ok kvs.length
  | _ => fail .wrongType

/-- What a loop visits: items, keys or characters. -/
def visited : Value → Result (List Value)
  | text s => .ok (s.toList.map fun c => text (String.singleton c))
  | list xs | tuple xs => .ok xs
  | table kvs => .ok (Table.keys kvs)
  | _ => fail .wrongType

/-- The first item that is there. -/
def firstItem (v : Value) : Result Value := do return firstGiven (← v.visited)

/-- The items other than the empty text. -/
def dropBlank (v : Value) : Result (List Value) := do
  return (← v.visited).filter fun
    | text s => !s.isEmpty
    | _ => true

mutual
/-- Can the value be a key?  Lists and tables cannot. -/
def isKey : Value → Bool
  | list _ | table _ => false
  | tuple xs => areKeys xs
  | _ => true

def areKeys : List Value → Bool
  | [] => true
  | x :: xs => isKey x && areKeys xs
end

def requireKey (v : Value) : Result Unit := if v.isKey then .ok () else fail .wrongType

/-- The key of a table as a text; other keys are refused. -/
def keyText : Value → Result String
  | text s => .ok s
  | _ => fail .wrongType

mutual
/-- A deep copy of a table; a repeated key keeps its first place and last value. -/
def normalize : Value → Value
  | table kvs => table (Table.ofPairs (normalizeMembers kvs))
  | list xs => list (normalizeAll xs)
  | tuple xs => tuple (normalizeAll xs)
  | v => v

def normalizeAll : List Value → List Value
  | [] => []
  | x :: xs => normalize x :: normalizeAll xs

def normalizeMembers : List (Value × Value) → List (Value × Value)
  | [] => []
  | (k, v) :: rest => (k, normalize v) :: normalizeMembers rest
end

end Value

end RegisterMap
