import RegisterMap.Text.Cut

/-! # Reading a declaration

Around the name of a net, its declaration is read as text: backward from the name for the range and
the keyword of the declaration, forward from the name for the depth of an array.  Bounds are kept
as they are written, since they may hold parameters. -/

namespace RegisterMap.Source

open Text

/-- The kind of a net. -/
inductive NetKind where
  | reg
  | wire
  | input
  | output
  | inout
deriving DecidableEq, Repr, Inhabited

namespace NetKind

/-- The kinds in the order in which their keywords are looked for. -/
def all : List NetKind := [.reg, .wire, .input, .output, .inout]

def keyword : NetKind → String
  | reg => "reg"
  | wire => "wire"
  | input => "input"
  | output => "output"
  | inout => "inout"

/-- The place of a kind in `NetKind.all`. -/
def index : NetKind → Nat
  | reg => 0
  | wire => 1
  | input => 2
  | output => 3
  | inout => 4

/-- Length of the longest keyword. -/
def window : Nat := 6

end NetKind

/-- Does the word stand here as a whole word? -/
def wordHere (word : List Char) (afterWord : Bool) (cs : List Char) : Bool :=
  !afterWord && word.isPrefixOf cs &&
    match cs.drop word.length with
    | [] => true
    | c :: _ => !isWordChar c

/-- Does the word stand somewhere as a whole word? -/
def hasWord (word : List Char) : (afterWord : Bool) → List Char → Bool
  | _, [] => false
  | afterWord, c :: cs => wordHere word afterWord (c :: cs) || hasWord word (isWordChar c) cs

/-- The first kind whose keyword stands in the text as a whole word. -/
def keywordIn? (cs : List Char) : Option NetKind :=
  NetKind.all.find? fun kind => hasWord kind.keyword.toList false cs

/-- The characters that the search for a keyword looks at, some read as blanks. -/
def keywordWindow (cs : List Char) : List Char :=
  stripChars ((cs.take NetKind.window).map fun c => if c == '\n' || c == '.' then ' ' else c)

/-- What the walk back from a name has found. -/
structure RangeSearch where
  /-- Brackets that are open, seen from the right. -/
  level : Int := 0
  /-- Place of the last closing bracket outside all others. -/
  close : Nat := 0
  /-- Text between the last pair of brackets. -/
  range : Option (List Char) := none
deriving Repr, Inhabited

/-- Walk back over `before` (nearest first) to the range or, with `wantKind`, to the keyword; `after`
is what was visited. -/
def walkBack (wantKind : Bool) : RangeSearch → (before after : List Char) →
    Result (Option (List Char) × Option NetKind)
  | found, [], _ => .ok (found.range, none)
  | found, c :: before, after =>
    let place := before.length
    let here := c :: after
    let next (found : RangeSearch) : Result (Option (List Char) × Option NetKind) :=
      if place = 0 then
        .error (.plain ("Reached 0 looking for a keyword from netname " ++
          "\x7bsnippet[offset:offset+10]\x7d"))
      else walkBack wantKind found before here
    match (if found.level == 0 then keywordIn? (keywordWindow here) else none) with
    | some kind => .ok (some (found.range.getD "0:0".toList), some kind)
    | none =>
      if c == ']' then
        next { found with
          level := found.level + 1
          close := if found.level == 0 then place else found.close }
      else if c == '[' then
        if found.level - 1 == 0 then
          let range := after.take (found.close - (place + 1))
          if wantKind then next { found with level := 0, range := some range }
          else .ok (some range, none)
        else next { found with level := found.level - 1 }
      else next found

/-- The range in front of the name at `offset`, `0:0` without one, and the kind. -/
def findRange (snippet : List Char) (offset : Int) (wantKind : Bool) :
    Result (Option (List Char) × Option NetKind) :=
  if offset < 0 then .ok (none, none)
  else if snippet.length ≤ offset.toNat then fail .outOfRange
  else
    let n := offset.toNat + 1
    walkBack wantKind {} (snippet.take n).reverse (snippet.drop n)

/-- The places from `offset` on with their characters; negative ones count from the end. -/
def placesFrom (snippet : List Char) (offset : Int) : Result (List (Int × Char)) :=
  let n := snippet.length
  if offset < 0 then
    if n < offset.natAbs then fail .outOfRange
    else
      let tail := snippet.drop (n - offset.natAbs)
      .ok ((tail.zipIdx.map fun (c, i) => (offset + i, c)) ++
        snippet.zipIdx.map fun (c, i) => ((i : Int), c))
  else .ok ((snippet.drop offset.toNat).zipIdx.map fun (c, i) => (offset + i, c))

/-- Walk forward to the first outer pair of brackets, or to a semicolon. -/
def walkForward (snippet : List Char) : (level start : Int) → List (Int × Char) →
    Option (List Char)
  | _, _, [] => none
  | level, start, (place, c) :: rest =>
    if c == '[' then
      walkForward snippet (level + 1) (if level == 0 then place else start) rest
    else if c == ']' then
      if level - 1 == 0 then some (slice snippet (start + 1) place)
      else walkForward snippet (level - 1) start rest
    else if c == ';' then none
    else walkForward snippet level start rest

/-- The text between the brackets behind the name at `offset`. -/
def findDepth (snippet : List Char) (offset : Int) : Result (Option (List Char)) := do
  return walkForward snippet 0 0 (← placesFrom snippet offset)

/-- The ends of a range, as they are written. -/
structure Bounds where
  high : String
  low : String
deriving DecidableEq, Repr, Inhabited

/-- The first two parts of a text between colons. -/
def boundsOf (range : List Char) : Option Bounds :=
  match splitChars ':' range with
  | high :: low :: _ => some ⟨String.ofList high, String.ofList low⟩
  | _ => none

/-- The text of a range as bounds. -/
def boundsOf? : Option (List Char) → Result (Option Bounds)
  | some range => .ok (boundsOf range)
  | none => fail .noSuchField

/-- Bounds of the range of the net at `offset`, and its kind. -/
def widthAndKind (snippet : List Char) (offset : Int) : Result (Option Bounds × Option NetKind) := do
  let (range, kind) ← findRange snippet offset true
  return (← boundsOf? range, kind)

/-- Bounds of the range of the net at `offset`. -/
def widthBounds (snippet : List Char) (offset : Int) : Result (Option Bounds) := do
  let (range, _) ← findRange snippet offset false
  boundsOf? range

/-- Bounds of the depth of the array at `offset`. -/
def depthBounds (snippet : List Char) (offset : Int) : Result (Option Bounds) := do
  boundsOf? (← findDepth snippet offset)

end RegisterMap.Source
