import RegisterMap.Number.Double
import RegisterMap.Text.CharClass

/-! # Numerals

Writing numbers in hexadecimal, with and without padding, and reading numbers in a base.  A
numeral may stand between blanks and has a sign, digits of any script and single low lines between
digits; in base two the mark `0b` may stand in front of the digits.  A decimal numeral has at most
`maxDigits` digits. -/

namespace RegisterMap.Number

def hexDigits (n : Nat) : String := String.ofList (Nat.toDigits 16 n)

/-- Hexadecimal text of an integer, with its sign. -/
def hex : Int → String
  | .ofNat n => hexDigits n
  | .negSucc n => "-" ++ hexDigits (n + 1)

/-- Hexadecimal text with the mark `0x`. -/
def hexMarked : Int → String
  | .ofNat n => "0x" ++ hexDigits n
  | .negSucc n => "-0x" ++ hexDigits (n + 1)

/-- Hexadecimal text with zeros in front, of `width` at least. -/
def hexPadded (width : Nat) : Int → String
  | .ofNat n => pad width (hexDigits n)
  | .negSucc n => "-" ++ pad (width - 1) (hexDigits (n + 1))
where
  pad (width : Nat) (s : String) : String :=
    String.ofList (List.replicate (width - s.length) '0') ++ s

/-- A sized hexadecimal constant: the width, and the digits that fit into it. -/
def sizedConstant (value width : Int) : Result String :=
  if width < 0 then fail .badValue
  else if width < memoryBits then
    .ok (toString width ++ "'h" ++ hexPadded (width.toNat / 4) value)
  else if width < twoPow 65 then fail .outOfMemory
  else fail .badValue

/-! ### Decimal numerals of limited length -/

/-- The most digits of a decimal numeral. -/
def maxDigits : Nat := 4300

/-- Does the number have few enough digits to be written? -/
def isWritable (n : Int) : Bool := n.natAbs < Nat.pow 10 maxDigits

/-- The number of decimal digits, not too many. -/
def ofDigits (cs : List Char) : Result Nat :=
  if maxDigits < cs.length then fail .badValue else .ok (Text.decimalOfDigits cs)

/-! ### Reading numerals -/

/-- The plain form of a blank or a digit of any script. -/
def plainChar? (c : Char) : Option Char :=
  if c.toNat < 127 then some c
  else if Text.isBlank c then some ' '
  else (Text.decimalValue c).map Nat.digitChar

def isPlainBlank (c : Char) : Bool := c == ' ' || (9 ≤ c.toNat && c.toNat ≤ 13)

/-- Drop plain blanks at both ends. -/
def stripPlain (cs : List Char) : List Char :=
  ((cs.dropWhile isPlainBlank).reverse.dropWhile isPlainBlank).reverse

def digitValue (base : Nat) (c : Char) : Option Nat :=
  if c.isDigit then
    let d := c.toNat - '0'.toNat
    if d < base then some d else none
  else none

/-- Digits with single low lines between them; did a digit stand last? -/
def readDigits (base : Nat) : (acc : Nat) → (afterDigit : Bool) → List Char → Option Nat
  | acc, afterDigit, [] => if afterDigit then some acc else none
  | acc, afterDigit, '_' :: cs =>
    if afterDigit then
      match cs with
      | [] => none
      | c :: cs =>
        match digitValue base c with
        | some d => readDigits base (acc * base + d) true cs
        | none => none
    else none
  | acc, _, c :: cs =>
    match digitValue base c with
    | some d => readDigits base (acc * base + d) true cs
    | none => none

/-- Drop the mark of base two, and a low line behind it. -/
def dropMark (base : Nat) : List Char → List Char
  | '0' :: b :: cs =>
    if base == 2 && (b == 'b' || b == 'B') then
      match cs with
      | '_' :: cs => cs
      | cs => cs
    else '0' :: b :: cs
  | cs => cs

/-- Read a numeral in plain characters. -/
def readPlain? (base : Nat) (cs : List Char) : Option Int :=
  match stripPlain cs with
  | '-' :: cs => (readDigits base 0 false (dropMark base cs)).map fun n => -(n : Int)
  | '+' :: cs => (readDigits base 0 false (dropMark base cs)).map fun n => (n : Int)
  | cs => (readDigits base 0 false (dropMark base cs)).map fun n => (n : Int)

/-- Read a numeral in a base of at most ten. -/
def readInt? (base : Nat) (s : String) : Option Int :=
  (s.toList.mapM plainChar?).bind (readPlain? base)

def readDecimal (s : String) : Result Int :=
  if maxDigits < (s.toList.filter Text.isDecimal).length then fail .badValue
  else
    match readInt? 10 s with
    | some n => .ok n
    | none => fail .badValue

def readBinary (s : String) : Result Int :=
  match readInt? 2 s with
  | some n => .ok n
  | none => fail .badValue

end RegisterMap.Number
