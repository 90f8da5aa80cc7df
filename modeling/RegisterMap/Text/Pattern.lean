/-! # Patterns of runs

A pattern is a list of pieces: a single character of a class, or a run of characters of a class.  A
run takes as many characters as it can and gives them back one at a time when the rest of the
pattern does not fit.  The text of some runs is a field of the match.

* `Pattern.matchStart` fits a pattern to the start of a text and gives the fields and the rest.
* `Pattern.findAll` gives the fields of all matches, from left to right and without overlap. -/

namespace RegisterMap.Text

/-- A part of a pattern; fields are given out. -/
inductive Piece where
  | one (p : Char → Bool)
  | run (least : Nat) (p : Char → Bool)
  | field (least : Nat) (p : Char → Bool)

/-- Pieces that fit one behind the other. -/
abbrev Pattern := List Piece

namespace Pattern

def literal (s : String) : Pattern := s.toList.map fun c => .one (· == c)

/-- Try the cuts after `n`, `n - 1`, …, `least` characters; the first that is accepted wins. -/
def longestCut {β : Type} (accept : List Char → Option β) (least : Nat) (cs : List Char) :
    Nat → Option (List Char × β)
  | 0 => if least = 0 then (accept cs).map fun r => ([], r) else none
  | n + 1 =>
    if n + 1 < least then none
    else
      match accept (cs.drop (n + 1)) with
      | some r => some (cs.take (n + 1), r)
      | none => longestCut accept least cs n

/-- Fit a pattern to the start of a text: its fields, and the rest. -/
def matchStart : Pattern → List Char → Option (List (List Char) × List Char)
  | [] => fun cs => some ([], cs)
  | .one p :: ps => fun
    | [] => none
    | c :: cs => if p c then matchStart ps cs else none
  | .run least p :: ps => fun cs =>
    (longestCut (matchStart ps) least cs (cs.takeWhile p).length).map Prod.snd
  | .field least p :: ps => fun cs =>
    (longestCut (matchStart ps) least cs (cs.takeWhile p).length).map
      fun (text, fields, rest) => (text :: fields, rest)

def fieldsAtStart (p : Pattern) (s : String) : Option (List String) :=
  (matchStart p s.toList).map fun (fields, _) => fields.map String.ofList

/-- The fields of all matches, left to right without overlap, with fuel. -/
def findAllFrom (p : Pattern) : (fuel : Nat) → List Char → List (List (List Char))
  | 0, _ => []
  | _, [] => []
  | fuel + 1, c :: cs =>
    match matchStart p (c :: cs) with
    | some (fields, rest) =>
      fields :: findAllFrom p fuel (if rest.length < (c :: cs).length then rest else cs)
    | none => findAllFrom p fuel cs

/-- The fields of all matches of a pattern. -/
def findAll (p : Pattern) (s : String) : List (List String) :=
  let cs := s.toList
  (findAllFrom p cs.length cs).map fun fields => fields.map String.ofList

end Pattern

end RegisterMap.Text
