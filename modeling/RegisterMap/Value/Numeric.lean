import RegisterMap.Number.Numeral
import RegisterMap.Number.Sequence
import RegisterMap.Value.Basic

/-! # Numbers in a document

Reading a value as a number, and questions about lists of values that should be numbers.  A value of
another type is refused where a number is needed. -/

namespace RegisterMap.Value

/-- The integer of a number, a truth value or a numeral. -/
def toInt : Value → Result Int
  | int n => .ok n
  | bool b => .ok (if b then 1 else 0)
  | real x =>
    match x.truncate with
    | .ok n => .ok n
    | .error f => fail f
  | text s => Number.readDecimal s
  | _ => fail .wrongType

/-- The number of a value, or a refusal. -/
def requireNumber (v : Value) : Result Int :=
  match v.number? with
  | some n => .ok n
  | Option.none => fail .wrongType

/-- Are the items of a list `0, …, n - 1` in some order? -/
def isPermutedRange (v : Value) : Result Bool :=
  match v with
  | list [] => .ok true
  | list [v] => .ok (v == int 0)
  | list vs =>
    if vs.all fun v => v.text?.isSome || v.items?.isSome then
      if vs.all fun v => v.text?.isSome then .ok false
      else if vs.all fun v => v.items?.isSome then .ok false
      else fail .wrongType
    else return Number.isPermutedRange (← vs.mapM requireNumber)
  | _ => fail .noSuchField

/-- The items at the places `0, 1, …` of a sequence or a text. -/
def placed : Value → Result (List Value)
  | table _ => fail .missingKey
  | v => v.visited

/-- Are the items numbers at equal distances, as far as they are looked at? -/
def evenlySpaced (v : Value) : Result Bool := do
  Number.evenlySpacedBy (fun a b => do return (← a.requireNumber) - (← b.requireNumber)) (← v.placed)

/-- Are the items alike, as the rule says? -/
def areAlike (rule : List Value → Bool) (v : Value) : Result Bool := do
  if (← v.length) ≤ 1 then return true
  return rule (← v.placed)

def areSame : Value → Result Bool := areAlike allSame

def areSameOrNone : Value → Result Bool := areAlike (allSameOrEmpty isNone)

mutual

/-- Numbers in hexadecimal, also those of a sequence. -/
def hexadecimal : Value → Result Value
  | list vs => return list (← hexadecimalAll vs)
  | tuple vs => return list (← hexadecimalAll vs)
  | text s => if s.isEmpty then .ok (list []) else fail .wrongType
  | table [] => .ok (list [])
  | v => return text (Number.hexMarked (← v.requireNumber))

def hexadecimalAll : List Value → Result (List Value)
  | [] => .ok []
  | v :: vs => do
    let first ← hexadecimal v
    return first :: (← hexadecimalAll vs)

end

end RegisterMap.Value
