import RegisterMap.Number.Numeral
import RegisterMap.Text.Cut
import RegisterMap.Text.Pattern

/-! # Names in a netlist

A netlist names what stands inside a generate block by the block and the inner name, `block.inner`
or `block[3].inner`, and a module with parameters by a mark, a digest and the module's own name.
These are the readers of such names. -/

namespace RegisterMap.Source

open Text

/-- The parts of a name inside a generate block. -/
structure BlockName where
  block : String
  inner : String
  index : Option Nat
deriving DecidableEq, Repr, Inhabited

def blockPattern : Pattern :=
  [.field 1 (fun c => c != '.' && c != '$')] ++ Pattern.literal "." ++ [.field 1 isWordChar]

def indexPattern : Pattern :=
  [.field 1 isWordChar] ++ Pattern.literal "[" ++ [.field 1 isDecimal] ++ Pattern.literal "]"

/-- The parts of a name inside a generate block; a long index is refused. -/
def blockName (name : String) : Result (Option BlockName) :=
  match blockPattern.fieldsAtStart name with
  | some [block, inner] =>
    match indexPattern.fieldsAtStart block with
    | some [block, index] =>
      (Number.ofDigits index.toList).map fun n => some ⟨block, inner, some n⟩
    | _ => .ok (some ⟨block, inner, none⟩)
  | _ => .ok none

/-- The part of a name inside its generate block, or all of it. -/
def innerName (name : String) : Result String := do
  return ((← blockName name).map BlockName.inner).getD name

/-- The name that the reader gives to a nameless generate block. -/
def isAnonymousBlock (block : String) : Bool :=
  (Pattern.matchStart (Pattern.literal "genblk" ++ [.run 1 isDecimal]) block.toList).isSome

/-- A mark, a word and a separator of internal names. -/
def internalPattern : Pattern :=
  Pattern.literal "$" ++ [.field 1 isWordChar, .one fun c => c == '$' || c == '\\']

/-- The name of a module or an instance, and no internal one. -/
def isModuleName (name : String) : Bool :=
  match internalPattern.fieldsAtStart name with
  | some fields => fields == ["paramod"]
  | none => true

/-- A module name behind a digest of its parameters. -/
def digestPattern : Pattern :=
  Pattern.literal "$" ++ [.field 1 isWordChar] ++ Pattern.literal "$" ++ [.field 1 isHexDigit] ++
    Pattern.literal "\\" ++ [.field 1 isWordChar]

def parameterPattern : Pattern :=
  Pattern.literal "$" ++ [.field 1 isWordChar] ++ Pattern.literal "\\" ++
    [.field 1 (· != '\\')] ++ Pattern.literal "\\" ++ [.field 1 (· != '\\')]

/-- The module's own name, without mark and parameters. -/
def moduleName (key : String) : String :=
  match digestPattern.fieldsAtStart key with
  | some [_, _, name] => name
  | _ =>
    match parameterPattern.fieldsAtStart key with
    | some [_, name, _] => name
    | _ => key

/-- A label with its block, as one name. -/
def flatLabel (label : String) : Result String := do
  match ← blockName label with
  | none => return label
  | some ⟨block, inner, none⟩ => return block ++ "_" ++ inner
  | some ⟨block, inner, some index⟩ => return block ++ "_" ++ toString index ++ "_" ++ inner

def flatPath (labels : List String) : Result String := do
  return join "." (← labels.mapM flatLabel)

end RegisterMap.Source
