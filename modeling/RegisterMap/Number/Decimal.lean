import RegisterMap.Number.Double

/-! # Numbers with a fraction

A document may hold numbers with a fraction or an exponent.  They are kept in double precision: a
mantissa of 53 bits at most times a power of two.

* `Double.ofDecimal` is the nearest such number to a decimal, halves going to the even mantissa.
* `Double.shortest` gives the fewest decimal digits that lead back to the number, and of those the
  nearest.
* `Double.text` writes them: positions for numbers from `0.0001` up to `10 ^ 16`, and an exponent of
  two digits at least for all others. -/

namespace RegisterMap

/-- A number in double precision. -/
inductive Double where
  | finite (negative : Bool) (mantissa : Nat) (exponent : Int)
  | infinite (negative : Bool)
  | undefined
deriving DecidableEq, Repr, Inhabited

namespace Double

open Number

def leastExponent : Int := -1074

def greatestExponent : Int := 971

/-- A power as a quotient. -/
def powerQuotient (base : Nat) (e : Int) : Nat × Nat :=
  if e < 0 then (1, Nat.pow base e.natAbs) else (Nat.pow base e.natAbs, 1)

/-- The nearest integer to a quotient, halves to even. -/
def roundQuotient (a b : Nat) : Nat :=
  let c := a / b
  let rest := 2 * (a % b)
  if b < rest || (rest == b && c % 2 == 1) then c + 1 else c

/-- Is the quotient `a / b` at least `p`? -/
def quotientAtLeast (a b : Nat) (p : Nat × Nat) : Bool := p.1 * b ≤ a * p.2

/-- The nearest number to a quotient. -/
def nearest (negative : Bool) (a b : Nat) : Double :=
  if a == 0 then finite negative 0 leastExponent
  else
    let bits : Int := (a.log2 : Int) - b.log2
    let top := if quotientAtLeast a b (powerQuotient 2 bits) then bits else bits - 1
    let e := max leastExponent (top + 1 - significantBits)
    let unit := powerQuotient 2 e
    let m := roundQuotient (a * unit.2) (b * unit.1)
    let (m, e) := if m == twoPow significantBits then (m / 2, e + 1) else (m, e)
    if greatestExponent < e then infinite negative else finite negative m e

/-- Orders of magnitude beyond which every decimal is zero or infinite. -/
def decimalBound : Int := 400

/-- The nearest number to `digits * 10 ^ places`. -/
def ofDecimal (negative : Bool) (digits : Nat) (places : Int) : Double :=
  let order : Int := (Nat.toDigits 10 digits).length + places
  if digits == 0 || order < -decimalBound then finite negative 0 leastExponent
  else if decimalBound < order then infinite negative
  else
    let unit := powerQuotient 10 places
    nearest negative (digits * unit.1) unit.2

def signed (negative : Bool) (n : Nat) : Int := if negative then -(n : Int) else n

/-- The number without its fraction. -/
def truncate : Double → Except Fault Int
  | finite negative m e =>
    let unit := powerQuotient 2 e
    .ok (signed negative (m * unit.1 / unit.2))
  | infinite _ => .error .tooLarge
  | undefined => .error .badValue

/-- The integer that the number is, if it is one. -/
def toInt? : Double → Option Int
  | finite negative m e =>
    let unit := powerQuotient 2 e
    if m * unit.1 % unit.2 == 0 then some (signed negative (m * unit.1 / unit.2)) else none
  | _ => none

/-- Are two numbers equal? -/
def same (x y : Double) : Bool := x == y || (x.toInt?.isSome && x.toInt? == y.toInt?)

def isNonzero (x : Double) : Bool := x.toInt? != some 0

/-! ### Decimal text -/

/-- The `d` with `10 ^ d ≤ m * 2 ^ e < 10 ^ (d + 1)`. -/
def decade (m : Nat) (e : Int) : Int :=
  let unit := powerQuotient 2 e
  let reaches (d : Int) : Bool := quotientAtLeast (m * unit.1) unit.2 (powerQuotient 10 d)
  let guess := (((m.log2 : Int) + e) * 30103).fdiv 100000
  if reaches (guess + 1) then guess + 1 else if reaches guess then guess else guess - 1

/-- Of the multiples of `10 ^ place` around `m * 2 ^ e` the nearest that leads back. -/
def multipleAt (m : Nat) (e place : Int) : Option Nat :=
  let ten := powerQuotient 10 place
  let quarter := powerQuotient 2 (e - 2)
  let step := ten.1 * quarter.2
  let value := 4 * m * (quarter.1 * ten.2)
  let below := if m == twoPow (significantBits - 1) && leastExponent < e then 1 else 2
  let low := (4 * m - below) * (quarter.1 * ten.2)
  let high := (4 * m + 2) * (quarter.1 * ten.2)
  let leadsBack (c : Nat) : Bool :=
    if m % 2 == 0 then low ≤ c * step && c * step ≤ high else low < c * step && c * step < high
  let c := value / step
  match leadsBack c, leadsBack (c + 1) with
  | true, true => some (roundQuotient value step)
  | true, false => some c
  | false, true => some (c + 1)
  | false, false => none

/-- Most digits that are needed. -/
def mostDigits : Nat := 17

/-- The fewest digits that lead back to `m * 2 ^ e`, with their power of ten. -/
def shortest (m : Nat) (e : Int) : Nat × Int :=
  let d := decade m e
  ((List.range mostDigits).findSome? fun (n : Nat) =>
    let place := d - n
    (multipleAt m e place).map fun c => (c, place)).getD (0, 0)

/-- Digits without zeros at the end. -/
def trimZeros (cs : List Char) : List Char := (cs.reverse.dropWhile (· == '0')).reverse

def zeros (n : Nat) : List Char := List.replicate n '0'

/-- A finite number other than zero, without its sign. -/
def finiteText (m : Nat) (e : Int) : List Char :=
  let (c, place) := shortest m e
  let all := Nat.toDigits 10 c
  let point : Int := all.length + place
  let digits := trimZeros all
  if point ≤ -4 || 16 < point then
    let power := point - 1
    let exponent := Nat.toDigits 10 power.natAbs
    let fraction := if digits.length ≤ 1 then [] else '.' :: digits.drop 1
    digits.take 1 ++ fraction ++ ['e', if power < 0 then '-' else '+'] ++
      zeros (2 - exponent.length) ++ exponent
  else if point ≤ 0 then ['0', '.'] ++ zeros point.natAbs ++ digits
  else if digits.length ≤ point then digits ++ zeros (point.natAbs - digits.length) ++ ['.', '0']
  else digits.take point.natAbs ++ '.' :: digits.drop point.natAbs

/-- The shortest text of a number. -/
def text : Double → String
  | finite negative m e =>
    (if negative then "-" else "") ++ if m == 0 then "0.0" else String.ofList (finiteText m e)
  | infinite negative => if negative then "-inf" else "inf"
  | undefined => "nan"

end Double

end RegisterMap
