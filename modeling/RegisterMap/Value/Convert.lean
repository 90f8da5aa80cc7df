import RegisterMap.Text.Cut
import RegisterMap.Value.Basic

/-! # Writing things into documents

`ToValue` says how a thing is written as a value of a document.  Pairs are tuples; a pair whose
second part is a pair is one longer tuple. -/

namespace RegisterMap

/-- Things that can be written into a document. -/
class ToValue (α : Type) where
  toValue : α → Value

export ToValue (toValue)

section

variable {α β : Type} [ToValue α] [ToValue β]

instance : ToValue Value := ⟨id⟩

instance : ToValue Unit := ⟨fun _ => .none⟩

instance : ToValue Bool := ⟨.bool⟩

instance : ToValue Int := ⟨.int⟩

instance : ToValue Nat := ⟨fun n => .int n⟩

instance : ToValue String := ⟨.text⟩

instance : ToValue (Option α) := ⟨Value.ofOption toValue⟩

instance : ToValue (List α) := ⟨fun xs => .list (xs.map toValue)⟩

instance : ToValue (α × β) := ⟨fun p =>
  match toValue p.2 with
  | .tuple vs => .tuple (toValue p.1 :: vs)
  | v => .tuple [toValue p.1, v]⟩

end

namespace Value

def record (fields : List (String × Value)) : Value :=
  .table (fields.map fun (name, v) => (.text name, v))

/-- A table whose names are the words of a text, in order. -/
def recordOf (names : String) (values : List Value) : Value :=
  record ((Text.split ' ' names).zip values)

/-- The first key under which a table holds a value. -/
def keyOf (members : List (Value × Value)) (v : Value) (otherwise : Value) : Value :=
  ((members.find? fun kv => kv.2 == v).map Prod.fst).getD otherwise

/-- The members of two tables one after the other. -/
def append : Value → Value → Value
  | table xs, table ys => table (xs ++ ys)
  | v, _ => v

instance : Append Value := ⟨append⟩

end Value

end RegisterMap
