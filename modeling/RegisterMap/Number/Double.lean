import RegisterMap.Error
import RegisterMap.Number.Power

/-! # Numbers in double precision

Widths and aligned starts are computed in double precision: an operand is first rounded to 53
significant bits, halves going to the even neighbour, and the quotient or logarithm is rounded the
same way.  The operands are naturals or integers and every divisor is a power of two, so all of it
has an exact description in integers.

* `roundSignificand n` is the nearest number to `n` with 53 significant bits.
* `ceilQuotient a w` is the ceiling of `a / 2 ^ w`; `quotientFits a w` tells whether the quotient is
  within the range of double precision.
* `bitWidth v` is the ceiling of the binary logarithm of `v + 1`: the number of address bits that
  the addresses `0, …, v` need. -/

namespace RegisterMap.Number

def significantBits : Nat := 53

/-- The nearest number with 53 significant bits, halves to even. -/
def roundSignificand (n : Nat) : Nat :=
  if n < twoPow significantBits then n
  else
    let shift := n.log2 + 1 - significantBits
    let quotient := n / twoPow shift
    let rest := n % twoPow shift
    let half := twoPow (shift - 1)
    let up := half < rest || (rest == half && quotient % 2 == 1)
    (if up then quotient + 1 else quotient) * twoPow shift

/-- `roundSignificand` of an integer, which keeps its sign. -/
def roundInt : Int → Int
  | .ofNat n => .ofNat (roundSignificand n)
  | .negSucc n => -(.ofNat (roundSignificand (n + 1)))

/-- Exponent from which on down a quotient is rounded to zero. -/
def underflowBits : Nat := 1075

/-- Ceiling of the rounded quotient `a / 2 ^ w`. -/
def ceilQuotient (a : Int) (w : Nat) : Int :=
  if underflowBits ≤ w ∧ a.natAbs ≤ twoPow (w - underflowBits) then 0
  else -((-(roundInt a)).fdiv (twoPow w))

/-- Exponent of the first power of two out of range. -/
def overflowBits : Nat := 1024

/-- Is the quotient `a / 2 ^ w` in range? -/
def quotientFits (a : Int) (w : Nat) : Bool :=
  roundSignificand a.natAbs < twoPow (overflowBits + w)

/-- The least multiple of `2 ^ w` from `a` on, if the quotient is exact. -/
def alignUp (a : Int) (w : Nat) : Int := twoPow w * ceilQuotient a w

/-- The number of units in one in which logarithms are given: `10 ^ 30`. -/
def lnUnits : Nat := 1000000000000000000000000000000

/-- The natural logarithm of two in such units. -/
def lnTwo : Nat := 693147180559945309417232121458

/-- Does the logarithm of `2 ^ k + m` round to `k`?  It does when `log (1 + m / 2 ^ k)` is below half a
unit in the last place of `k`, rounded first for numbers out of range. -/
def logRoundsDown (k m : Nat) : Bool :=
  let halfUnits := twoPow (k.log2 + 1) + if overflowBits ≤ k then 1 else 0
  m * lnUnits * twoPow (significantBits + 1) < lnTwo * halfUnits * twoPow k

/-- The rounded binary logarithm, rounded up. -/
def ceilLog2 (n : Nat) : Nat :=
  let x := roundSignificand n
  let k := x.log2
  let m := x - twoPow k
  if m == 0 || logRoundsDown k m then k else k + 1

/-- Number of bits that the addresses `0, …, v` need. -/
def bitWidth (v : Int) : Result Nat :=
  if v + 1 ≤ 0 then fail .badValue else .ok (ceilLog2 (v + 1).toNat)

/-- Bits beyond which a number does not fit into memory. -/
def memoryBits : Nat := twoPow 40

/-- Bits beyond which a length is not counted. -/
def countableBits : Nat := 30 * (twoPow 61 - 7)

/-- A width as the exponent of a power of two that fits into memory. -/
def exponent (w : Int) : Except Fault Nat :=
  if w < 0 then .error .badValue
  else if w < memoryBits then .ok w.toNat
  else if w < countableBits then .error .outOfMemory
  else .error .tooLarge

def powerOfTwo (w : Int) : Result Int :=
  match exponent w with
  | .ok w => .ok (twoPow w)
  | .error f => fail f

/-- Is the address a multiple of `2 ^ w`? -/
def isAligned (base : Int) (w : Nat) : Bool := base % (twoPow w : Int) == 0

def checkAligned (base w : Int) : Result Bool :=
  match exponent w with
  | .ok w => .ok (isAligned base w)
  | .error f => fail f

theorem roundSignificand_of_lt {n : Nat} (h : n < twoPow significantBits) :
    roundSignificand n = n := by
  simp [roundSignificand, h]

end RegisterMap.Number
