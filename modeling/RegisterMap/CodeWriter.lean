import RegisterMap.Workspace.Basic

/-! # Writing hardware source

A writer collects lines of code, each moved in by the depth of the blocks around it.  With `trace`
every piece of code ends with a comment that names what asked for it. -/

namespace RegisterMap

open Text

/-- A text that is written line by line, in blocks. -/
structure CodeWriter where
  trace : Bool := false
  lines : Array String := #[]
  indent : Int := 0
deriving DecidableEq, Repr, Inhabited

namespace CodeWriter

def blockIndent : Int := 2

def withComment (s comment : String) : String :=
  if comment.isEmpty then s else s ++ " /* " ++ comment ++ " */"

/-- Move a line in; a line of blanks stays as it is. -/
def indented (w : CodeWriter) (line : String) : String :=
  if (strip line).isEmpty then line else blanks w.indent ++ line

/-- Add lines at the present depth. -/
def addLines (w : CodeWriter) (s : String) : CodeWriter :=
  { w with lines := (split '\n' s).foldl (fun ls l => ls.push (w.indented l)) w.lines }

/-- Add code.  `origin` is what asks for it. -/
def add (w : CodeWriter) (origin s : String) (comment : String := "") : CodeWriter :=
  let s := withComment s comment
  w.addLines (if w.trace && !s.isEmpty then s ++ " /* " ++ origin ++ "[] */" else s)

def addComment (w : CodeWriter) (s : String) : CodeWriter := w.addLines ("/* " ++ s ++ " */")

/-- Replace a line. -/
def setLine (w : CodeWriter) (n : Int) (line : String) : Result CodeWriter := do
  let _ ← itemAt w.lines.toList n
  return { w with lines := w.lines.setIfInBounds (clampPlace w.lines.size n) line }

def text (w : CodeWriter) : String := join "\n" w.lines.toList

def write (w : CodeWriter) (file folder : String) : Build Unit := do
  Build.write (Source.joinPath folder file) (w.text ++ "\n")
  Build.say s!"Wrote to {file}"

/-- Move the following lines by columns, but not left of the margin. -/
def shift (w : CodeWriter) (columns : Int) : Result CodeWriter :=
  let indent := w.indent + columns
  if indent < 0 then .error (.plain s!"Negative indent {indent}!")
  else .ok { w with indent := indent }

def deeper (w : CodeWriter) (times : Int := 1) : Result CodeWriter := w.shift (times * blockIndent)

def shallower (w : CodeWriter) (times : Int := 1) : Result CodeWriter :=
  w.shift (-(times * blockIndent))

/-- Open a block. -/
def openBlock (w : CodeWriter) (origin head : String) (comment : String := "") :
    Result CodeWriter :=
  (w.add origin head comment).deeper

def initial (w : CodeWriter) (origin : String) (comment : String := "") : Result CodeWriter :=
  w.openBlock origin "initial begin" comment

def always (w : CodeWriter) (origin signal : String) (comment : String := "") :
    Result CodeWriter :=
  w.openBlock origin s!"always {signal} begin" comment

def alwaysAt (w : CodeWriter) (origin condition : String) (comment : String := "") :
    Result CodeWriter :=
  w.always origin s!"@({condition})" comment

def alwaysAtClock (w : CodeWriter) (origin clock : String) (rising : Bool := true)
    (comment : String := "") : Result CodeWriter :=
  let edge := if rising then "posedge" else "negedge"
  w.alwaysAt origin s!"{edge} {clock}" comment

def ifBlock (w : CodeWriter) (origin condition : String) (comment : String := "") :
    Result CodeWriter :=
  w.openBlock origin s!"if ({condition}) begin" comment

/-- End the last block. -/
def close (w : CodeWriter) (origin : String) (comment : String := "") : Result CodeWriter := do
  let w ← w.shallower
  return w.add origin "end" comment

/-- End the last block and open one for another case. -/
def elseIfBlock (w : CodeWriter) (origin condition : String) (comment : String := "") :
    Result CodeWriter := do
  let w ← w.shallower
  w.openBlock origin s!"end else if ({condition}) begin" comment

/-- End the last block and open one for all other cases. -/
def elseBlock (w : CodeWriter) (origin : String) (comment : String := "") :
    Result CodeWriter := do
  let w ← w.shallower
  w.openBlock origin "end else begin" comment

end CodeWriter

end RegisterMap
