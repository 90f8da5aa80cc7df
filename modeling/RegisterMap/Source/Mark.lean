import RegisterMap.Number.Decimal
import RegisterMap.Text.Cut

/-! # Marks in a text file

A reader of lines marks its place by a number, and places before and after it are found by adding
and subtracting octets.  Mostly the number just counts octets.  But a return may be the first half
of a line end, so the reader holds it back until it sees what follows.  A mark next to a return
therefore says more, in fields of the number: where to start, whether a return is held back, and how
many octets to take in and characters to leave out before reading on.

The reader takes in pieces of `pieceOctets` octets and knows only how many characters it has given
out of the last piece.  To find the octet of its place it starts from a guess by proportion, steps
back until it is not past the place, and goes on from there character by character.  A return right
behind the place gives out no character, so a guess behind that return is as good as one before it.

* `Mark.afterLines` is the mark behind the first lines of a text.
* `Mark.ofCode?` reads the fields of a number.
* `Mark.textFrom` reads on from a mark. -/

namespace RegisterMap.Source

open Text

/-- A place in a text file where reading can go on. -/
structure Mark where
  octet : Int
  /-- A return is held back. -/
  held : Bool := false
  /-- Octets to take in first. -/
  feed : Nat := 0
  skip : Nat := 0
  /-- The end of the file was seen behind what is taken in. -/
  ended : Bool := false
deriving DecidableEq, Repr, Inhabited

namespace Mark

/-- The first bits of the fields, and the bit behind them all. -/
def heldBit : Nat := 64
def feedBit : Nat := 96
def skipBit : Nat := 128
def endedBit : Nat := 160
def topBit : Nat := 168

/-- The number of a mark. -/
def code (m : Mark) : Int :=
  let bit (b : Bool) : Nat := if b then 1 else 0
  m.octet + ((bit m.held * Number.twoPow heldBit + m.feed * Number.twoPow feedBit +
    m.skip * Number.twoPow skipBit + bit m.ended * Number.twoPow endedBit : Nat) : Int)

/-- The bits of a number from one place to another. -/
def bitsFrom (code first last : Nat) : Nat :=
  code / Number.twoPow first % Number.twoPow (last - first)

/-- The mark of a number: its octet is signed, and its second field is one bit. -/
def ofCode? (code : Nat) : Option Mark :=
  if Number.twoPow topBit ≤ code then none
  else
    let octet : Int := bitsFrom code 0 heldBit
    some {
      octet := if Number.twoPow (heldBit - 1) ≤ octet.toNat then octet - Number.twoPow heldBit
        else octet
      held := bitsFrom code heldBit feedBit % 2 == 1
      feed := bitsFrom code feedBit skipBit
      skip := bitsFrom code skipBit endedBit
      ended := bitsFrom code endedBit topBit != 0 }

/-! ### Reading on -/

/-- The characters within a number of octets. -/
def within : Nat → List Char → List Char
  | _, [] => []
  | n, c :: cs => if c.utf8Size ≤ n then c :: within (n - c.utf8Size) cs else []

/-- The characters given out for those taken in; a return at the end is held back. -/
def givenOut (cs : List Char) : List Char :=
  unifyLineEnds (if cs.getLast? == some '\r' then cs.dropLast else cs)

/-- The text from a mark on, with line ends made alike, if the mark leads there. -/
def textFrom (m : Mark) (text : List Char) : Result (Option (List Char)) := do
  if m.octet < 0 then return none
  let rest ← fromOctet m.octet.toNat text
  let start := if m.held then ['\r'] else []
  let taken := within m.feed rest
  if m.ended && m.skip != 0 then
    let first := unifyLineEnds (start ++ taken)
    if first.length < m.skip then return none
    return some ((first ++ unifyLineEnds (rest.drop taken.length)).drop m.skip)
  else
    if (givenOut (start ++ taken)).length < m.skip then return none
    return some ((unifyLineEnds (start ++ rest)).drop m.skip)

theorem textFrom_octet (n : Nat) (text : List Char) :
    textFrom { octet := n } text = (fromOctet n text).map fun rest => some (unifyLineEnds rest) := by
  cases h : fromOctet n text <;> simp [textFrom, h, Except.map, bind, Except.bind, pure, Except.pure]

/-! ### The place behind some lines -/

/-- A file is read in pieces of this size. -/
def pieceOctets : Nat := 8192

/-- A return at the end waits for the next piece. -/
def holds (cs : List Char) : Bool := cs.getLast? == some '\r'

/-- Where a search for a place starts: characters passed over and to give out. -/
structure Start where
  passed : List Char
  remaining : Nat
deriving Repr, Inhabited

/-- Step back from a guess of octets, in steps that double, until it cuts no character and is not past
the place. -/
def stepBack (held : List Char) (cs : List Char) (remaining : Nat) :
    (fuel guess step : Nat) → Start
  | 0, _, _ => ⟨[], remaining⟩
  | fuel + 1, guess, step =>
    let passed := within guess cs
    let given := (givenOut (held ++ passed)).length
    if remaining < given then stepBack held cs remaining fuel (guess - step) (step * 2)
    else if octets passed < guess then stepBack held cs remaining fuel (octets passed) 1
    else ⟨passed, remaining - given⟩

/-- Go on from a start until all characters are given out; the mark may cut a held line end. -/
def goOn (octet : Nat) (held : Bool) : (remaining : Nat) → List Char → Mark
  | 0, _ => { octet := octet, held := held }
  | remaining, [] => { octet := octet, held := held, skip := remaining, ended := true }
  | remaining, c :: cs =>
    let seen := (if held then ['\r'] else []) ++ [c]
    let given := (givenOut seen).length
    if remaining < given then
      { octet := octet, held := held, feed := c.utf8Size, skip := remaining }
    else goOn (octet + c.utf8Size) (holds seen) (remaining - given) cs

/-- Part of a number of octets by proportion, in double precision. -/
def proportion (octets chars part : Nat) : Nat :=
  match Double.nearest false octets chars with
  | .finite _ m e =>
    let unit := Double.powerQuotient 2 e
    match Double.truncate (Double.nearest false (m * part * unit.1) unit.2) with
    | .ok n => n.toNat
    | .error _ => 0
  | _ => 0

/-- The mark where `chars` characters of a piece have been given out. -/
def inPiece (text : List Char) (piece chars : Nat) : Mark :=
  let before := within (piece * pieceOctets) text
  let after := within ((piece + 1) * pieceOctets) text
  let given := (givenOut before).length
  let remaining := chars - given
  let held := if holds before then ['\r'] else []
  let rest := text.drop before.length
  let size := min pieceOctets (octets text - piece * pieceOctets)
  let guess := proportion size ((givenOut after).length - given) remaining
  let start := stepBack held rest remaining guess guess 1
  goOn (octets before + octets start.passed) (holds (held ++ start.passed)) start.remaining
    (rest.drop start.passed.length)

/-- The mark behind the first lines of a text, and the last of them. -/
def afterLines (text : List Char) (count : Nat) : Mark × List Char :=
  let lines := (rawLines text).take count
  let read := lines.flatten
  let line := if lines.length < count then [] else lines.getLast?.getD []
  let ends := line.getLast? == some '\n' || holds line
  let size := octets read
  if !ends then ({ octet := size }, line)
  else
    let chars := (unifyLineEnds read).length
    let piece := (size - 1) / pieceOctets
    let isGiven (piece : Nat) : Bool :=
      chars ≤ (givenOut (within ((piece + 1) * pieceOctets) text)).length
    if isGiven piece then (inPiece text piece chars, line)
    else if isGiven (piece + 1) then (inPiece text (piece + 1) chars, line)
    else ({ octet := size, held := true, skip := 1, ended := true }, line)

end Mark

end RegisterMap.Source
