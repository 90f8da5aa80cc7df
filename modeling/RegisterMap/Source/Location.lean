import RegisterMap.Number.Numeral
import RegisterMap.Source.Files
import RegisterMap.Source.Mark
import RegisterMap.Source.Declaration
import RegisterMap.Text.Pattern

/-! # Places in source files

A netlist says where each net is declared: `path:line.column-line.column`.  From that place, a
piece of the file around it is read (`Files.snippet`), or the file from its start (`Files.upTo`),
and the declaration is read from the piece. -/

namespace RegisterMap.Source

open Text

/-- A stretch of a source file; lines and columns count from one. -/
structure Location where
  path : String
  line : Nat
  column : Nat
  endLine : Nat
  endColumn : Nat
deriving DecidableEq, Repr, Inhabited

/-- `line.column`, where any character stands for the point. -/
def positionPattern : Pattern := [.field 1 isDecimal, .one (· != '\n'), .field 1 isDecimal]

/-- `path:line.column-line.column`. -/
def locationPattern : Pattern :=
  [.field 1 (· != ':')] ++ Pattern.literal ":" ++ positionPattern ++ Pattern.literal "-" ++
    positionPattern

/-- Read a location at the start of a text; long numbers are refused. -/
def Location.parse (s : String) : Result (Option Location) :=
  match locationPattern.fieldsAtStart s with
  | some [path, l1, c1, l2, c2] => do
    let number (t : String) : Result Nat := Number.ofDigits t.toList
    return some ⟨path, ← number l1, ← number c1, ← number l2, ← number c2⟩
  | _ => .ok none

/-- A piece of a file, and the place in it where the name stands. -/
structure Snippet where
  text : List Char
  offset : Int
deriving DecidableEq, Repr, Inhabited

/-- The piece of a text around a position: from `size / 2` octets before it on, up to `size`
characters.  The position counts octets back from the end of its line. -/
def snippetAt (size : Nat) (text : List Char) (line column : Nat) : Result (Option Snippet) := do
  let (mark, current) := Mark.afterLines text line
  let place : Int := mark.code - (1 + ((unifyLineEnds current).length : Int) - column)
  let half : Int := size / 2
  match Mark.ofCode? (place - half).toNat with
  | none => fail .tooLarge
  | some start =>
    return (← start.textFrom text).map fun piece => ⟨piece.take size, min place half⟩

def snippetSize : Nat := 1024

/-- The piece of a file around a place, if both are found. -/
def Files.snippet (fs : Files) (place : String) : Result (Option Snippet) := do
  match ← Location.parse place with
  | none => return none
  | some loc =>
    match ← fs.text? loc.path with
    | none => return none
    | some text => snippetAt snippetSize text.toList loc.line loc.column

/-- The start of a file. -/
inductive Excerpt where
  /-- The place is not understood. -/
  | unlocated
  | unreadable
  | text (s : String)
deriving DecidableEq, Repr, Inhabited

/-- The lines of a file up to a place, the last one cut behind the column. -/
def Files.upTo (fs : Files) (place : String) : Result Excerpt := do
  match ← Location.parse place with
  | none => return .unlocated
  | some loc =>
    match ← fs.text? loc.path with
    | none => return .unreadable
    | some text =>
      let lines := (rawLines (unifyLineEnds text.toList)).zipIdx
      return .text (String.ofList (lines.flatMap fun (line, n) =>
        if n + 1 = loc.line then line.take loc.column else line))

/-! ### Declarations at a place -/

/-- Range and kind of the net at a place. -/
def Files.widthAndKind (fs : Files) (place : String) :
    Result (Option Bounds × Option NetKind) := do
  match ← fs.snippet place with
  | some snippet => Source.widthAndKind snippet.text snippet.offset
  | none => fail .unsetQuantity

/-- Range of the net at a place. -/
def Files.widthBounds (fs : Files) (place : String) : Result (Option Bounds) := do
  match ← fs.snippet place with
  | some snippet => Source.widthBounds snippet.text snippet.offset
  | none => return none

def Files.depthBounds (fs : Files) (place : String) : Result (Option Bounds) := do
  match ← fs.snippet place with
  | some snippet => Source.depthBounds snippet.text snippet.offset
  | none => return none

/-- Range and depth at a place. -/
def Files.widthAndDepth (fs : Files) (place : String) :
    Result (Option Bounds × Option Bounds) := do
  match ← fs.snippet place with
  | some snippet =>
    return (← Source.widthBounds snippet.text snippet.offset,
      ← Source.depthBounds snippet.text snippet.offset)
  | none => return (none, none)

/-- What is declared at a place in the source. -/
def Files.widthDepthKind (fs : Files) (place : String) :
    Result (Option Bounds × Option Bounds × Option NetKind) := do
  match ← fs.snippet place with
  | some snippet =>
    let (width, kind) ← Source.widthAndKind snippet.text snippet.offset
    return (width, ← Source.depthBounds snippet.text snippet.offset, kind)
  | none => fail .unsetQuantity

def Files.widthText (fs : Files) (place : String) : Result (Option String) := do
  return (← fs.widthBounds place).map fun bounds => bounds.high ++ "+1"

end RegisterMap.Source
