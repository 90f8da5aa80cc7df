import RegisterMap.Error
import RegisterMap.Text.CharRanges

/-! # Character classes

The classes that the scanners use know every script: a word character is a letter, a number or the
low line; a decimal digit belongs to any run of ten digits.  ASCII is decided by comparison, all
else by the tables of `RegisterMap.Text.CharRanges`. -/

namespace RegisterMap.Text

/-- Is the code point `n` behind the start inside the class?  Lengths of runs outside and inside
alternate. -/
def inside : (table : List Nat) → (n : Nat) → Bool
  | out :: run :: rest, n =>
    if n < out then false else n < out + run || inside rest (n - (out + run))
  | _, _ => false

def inRuns (table : List Nat) (code : Nat) : Bool := inside table (code - 0x80)

def isAscii (c : Char) : Bool := c.toNat < 0x80

/-- A letter or a number of any script. -/
def isAlphanumeric (c : Char) : Bool :=
  if isAscii c then c.isAlphanum else inRuns alphanumericRuns c.toNat

/-- A character of a word: a letter, a number or the low line. -/
def isWordChar (c : Char) : Bool := c == '_' || isAlphanumeric c

def isNumeric (c : Char) : Bool :=
  if isAscii c then c.isDigit else inRuns numericRuns c.toNat

/-- A blank of any script. -/
def isBlank (c : Char) : Bool :=
  if isAscii c then
    (9 ≤ c.toNat && c.toNat ≤ 13) || (28 ≤ c.toNat && c.toNat ≤ 32)
  else inRuns blankRuns c.toNat

/-- A character that is shown as it is in quoted text. -/
def isPrintable (c : Char) : Bool :=
  if isAscii c then 32 ≤ c.toNat && c.toNat ≤ 126 else inRuns printableRuns c.toNat

/-- The value of a decimal digit of any script. -/
def decimalValue (c : Char) : Option Nat :=
  if isAscii c then
    if c.isDigit then some (c.toNat - '0'.toNat) else none
  else
    (decimalZeros.find? fun z => decide (z ≤ c.toNat) && decide (c.toNat < z + 10)).map
      fun z => c.toNat - z

def isDecimal (c : Char) : Bool := (decimalValue c).isSome

def isHexDigit (c : Char) : Bool :=
  c.isDigit || ('a' ≤ c && c ≤ 'f') || ('A' ≤ c && c ≤ 'F')

def decimalOfDigits (cs : List Char) : Nat :=
  cs.foldl (fun n c => n * 10 + (decimalValue c).getD 0) 0

/-- Drop blanks at both ends. -/
def stripChars (cs : List Char) : List Char :=
  ((cs.dropWhile isBlank).reverse.dropWhile isBlank).reverse

def strip (s : String) : String := String.ofList (stripChars s.toList)

end RegisterMap.Text
