import RegisterMap.Source.Comment
import RegisterMap.Source.Files

/-! # Macro names in source text

A macro is used by a grave accent and its name.  Outside comments, `macroNames` lists the names that
start with the library's mark. -/

namespace RegisterMap.Source

open Text

def macroMark : Char := Char.ofNat 0x60

/-- Names after the mark; one at the very end of the text does not count, and what ends a name starts
no other. -/
def namesAfterMarks : (name : Option (List Char)) → List Char → List (List Char)
  | _, [] => []
  | none, c :: cs => namesAfterMarks (if c == macroMark then some [] else none) cs
  | some name, c :: cs =>
    if isAlphanumeric c || c == '_' then namesAfterMarks (some (c :: name)) cs
    else name.reverse :: namesAfterMarks none cs

/-- Start of every macro name that matters. -/
def macroStart : String := "GHOSTBUS"

/-- The macros that a text uses. -/
def macroNames (s : String) : List String :=
  ((namesAfterMarks none (stripFrom (.code false) s.toList)).map String.ofList).filter
    fun name => startsWith name macroStart

def Files.macroNames (fs : Files) (path : String) : Result (List String) := do
  return Source.macroNames (← fs.read path)

end RegisterMap.Source
