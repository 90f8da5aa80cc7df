/-! # Removing comments

`stripComments` removes block comments and line comments.  It looks at the text through a window
of two characters, which moves on by one.  Two rules follow from that: a block comment may end with
the star that opened it, and the last window is not looked at, so a comment that opens with the
last two characters stays. -/

namespace RegisterMap.Source

/-- Where the window stands. -/
inductive CommentMode where
  /-- Outside comments; `skip` says that the first character of the window ends a comment. -/
  | code (skip : Bool)
  | block
  | line
deriving DecidableEq, Repr

/-- The text outside comments from the window on. -/
def stripFrom : CommentMode → List Char → List Char
  | .code skip, a :: b :: c :: cs =>
    if a == '/' && b == '*' then stripFrom .block (b :: c :: cs)
    else if a == '/' && b == '/' then stripFrom .line (b :: c :: cs)
    else if skip then stripFrom (.code false) (b :: c :: cs)
    else a :: stripFrom (.code false) (b :: c :: cs)
  | .block, a :: b :: c :: cs =>
    if a == '*' && b == '/' then stripFrom (.code true) (b :: c :: cs)
    else stripFrom .block (b :: c :: cs)
  | .line, a :: b :: c :: cs =>
    if a == '\n' || b == '\n' then stripFrom (.code false) (b :: c :: cs)
    else stripFrom .line (b :: c :: cs)
  | .code skip, cs => if skip then cs.drop 1 else cs
  | _, _ => []

/-- A text without its comments. -/
def stripComments (s : String) : String := String.ofList (stripFrom (.code false) s.toList)

end RegisterMap.Source
