import RegisterMap.Text.CharClass

/-! # Cutting and joining texts

Cuts of a text between two places, where a negative place counts from the end; pieces of a text
between separators; lines with their ends; and texts set in columns. -/

namespace RegisterMap.Text

/-- A place among `n` items, from the end if negative, brought into `0, …, n`. -/
def clampPlace (n : Nat) (i : Int) : Nat :=
  if i < 0 then (i + n).toNat else min i.toNat n

/-- The items from place `lo` to place `hi`. -/
def slice {α : Type} (xs : List α) (lo hi : Int) : List α :=
  let n := xs.length
  let lo := clampPlace n lo
  let hi := clampPlace n hi
  (xs.drop lo).take (hi - lo)

/-- The item at a place, from the end if negative. -/
def itemAt? {α : Type} (xs : List α) (i : Int) : Option α :=
  if i < 0 then
    if -i ≤ xs.length then xs[(i + xs.length).toNat]? else none
  else xs[i.toNat]?

/-- The item at a place; a place outside is refused. -/
def itemAt {α : Type} (xs : List α) (i : Int) : Result α :=
  match itemAt? xs i with
  | some x => .ok x
  | none => fail .outOfRange

/-- The pieces between occurrences of a character. -/
def splitChars (sep : Char) : List Char → List (List Char)
  | [] => [[]]
  | c :: cs =>
    if c == sep then [] :: splitChars sep cs
    else
      match splitChars sep cs with
      | [] => [[c]]
      | p :: ps => (c :: p) :: ps

def split (sep : Char) (s : String) : List String :=
  (splitChars sep s.toList).map String.ofList

def join (sep : String) (ss : List String) : String := sep.intercalate ss

def replaceChar (old : Char) (new : Char) (s : String) : String :=
  String.ofList (s.toList.map fun c => if c == old then new else c)

def startsWith (s start : String) : Bool := start.toList.isPrefixOf s.toList

/-- The text without a start that it must have. -/
def dropStart? (s start : String) : Option String :=
  if startsWith s start then some (String.ofList (s.toList.drop start.length)) else none

def hasChar (s : String) (c : Char) : Bool := s.toList.contains c

def blanks (n : Int) : String := String.ofList (List.replicate n.toNat ' ')

/-- A line of one character. -/
def rule (c : Char) (n : Nat) : String := String.ofList (List.replicate n c)

/-- The text in the middle of `width` columns, odd blanks to the right. -/
def centre (width : Nat) (s : String) : String :=
  let gap := width - s.length
  let left := gap / 2
  rule ' ' left ++ s ++ rule ' ' (gap - left)

/-- The text at the right end of `width` columns. -/
def alignRight (width : Nat) (s : String) : String := rule ' ' (width - s.length) ++ s

/-- Every line end becomes a single line feed. -/
def unifyLineEnds : List Char → List Char
  | [] => []
  | '\r' :: '\n' :: cs => '\n' :: unifyLineEnds cs
  | '\r' :: cs => '\n' :: unifyLineEnds cs
  | c :: cs => c :: unifyLineEnds cs

/-- The lines of a text, each with its line end. -/
def rawLines : List Char → List (List Char)
  | [] => []
  | '\n' :: cs => ['\n'] :: rawLines cs
  | '\r' :: '\n' :: cs => ['\r', '\n'] :: rawLines cs
  | '\r' :: cs => ['\r'] :: rawLines cs
  | c :: cs =>
    match rawLines cs with
    | [] => [[c]]
    | l :: ls => (c :: l) :: ls

def octets : List Char → Nat
  | [] => 0
  | c :: cs => c.utf8Size + octets cs

/-- The text from an octet on, which must not cut a character. -/
def fromOctet : Nat → List Char → Result (List Char)
  | 0, cs => .ok cs
  | _ + 1, [] => .ok []
  | n + 1, c :: cs => if c.utf8Size ≤ n + 1 then fromOctet (n + 1 - c.utf8Size) cs
                      else fail .undecodableText
termination_by _ cs => cs.length

theorem unifyLineEnds_of_no_return {cs : List Char} (h : '\r' ∉ cs) : unifyLineEnds cs = cs := by
  fun_induction unifyLineEnds cs with
  | case1 => rfl
  | case2 cs ih => simp at h
  | case3 cs ih => simp at h
  | case4 c cs _ _ ih => simp_all

end RegisterMap.Text
