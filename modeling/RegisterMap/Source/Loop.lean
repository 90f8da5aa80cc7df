import RegisterMap.Source.Comment
import RegisterMap.Source.Location

/-! # Reading the head of a generate loop

A loop is recognised by its head `generate for (i = a; i < b; i = i + c)`.  Of all heads in a text
the last one counts.  The index must be the same name in all its places. -/

namespace RegisterMap.Source

open Text

/-- The parts of a loop's head. -/
structure LoopHead where
  index : String
  initial : String
  comparison : String
  limit : String
  step : String
deriving DecidableEq, Repr, Inhabited

def isComparison (c : Char) : Bool := c == '=' || c == '<' || c == '>' || c == '!'

def isOperator (c : Char) : Bool := c == '+' || c == '-' || c == '*' || c == '/'

def gap : Pattern := [.run 0 isBlank]

def space : Pattern := [.run 1 isBlank]

def word : Pattern := [.field 1 isWordChar]

def upToSemicolon : Pattern := [.field 1 (· != ';')] ++ Pattern.literal ";"

/-- The head of a generate loop. -/
def loopPattern : Pattern :=
  Pattern.literal "generate" ++ space ++ Pattern.literal "for" ++ space ++ Pattern.literal "(" ++
    gap ++ word ++ gap ++ Pattern.literal "=" ++ gap ++ upToSemicolon ++
    gap ++ word ++ gap ++ [.field 1 isComparison] ++ gap ++ upToSemicolon ++
    gap ++ word ++ gap ++ Pattern.literal "=" ++ gap ++ word ++ gap ++
    [.field 1 isOperator] ++ gap ++ word ++ Pattern.literal ")"

/-- The last loop head in a text. -/
def lastLoopHead (s : String) : Result (Option LoopHead) :=
  match (loopPattern.findAll (stripComments s)).getLast? with
  | some [index, initial, index2, comparison, limit, index3, index4, operator, step] =>
    if index == index2 && index == index3 && index == index4 then
      .ok (some ⟨index, strip initial, comparison, limit, operator ++ step⟩)
    else fail .undefinedName
  | _ => .ok none

/-- The last loop head in the file of a place. -/
def Files.loopHead (fs : Files) (place : String) : Result (Option LoopHead) := do
  match ← fs.upTo place with
  | .text s => lastLoopHead s
  | _ => fail .wrongType

end RegisterMap.Source
