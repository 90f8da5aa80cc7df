import Mathlib.Data.Nat.Log
import Mathlib.Tactic.Linarith
import Mathlib.Tactic.NormNum
import Mathlib.Tactic.Ring
import RegisterMap.Number.Double

/-! # Where double precision is exact

Aligned starts and address widths are computed in double precision.  On the addresses of a region
they are exact.

* Below `2 ^ 53` an operand is not rounded, so `alignUp a w` is the least multiple of `2 ^ w` from `a`
  on, unless the quotient is so small that it is rounded to zero (`alignUp_of_fits`, `alignUp_le`).
* Up to `2 ^ 48` the width of a number of addresses is its binary logarithm, rounded up
  (`ceilLog2_eq_clog`); beyond that a width is never so small that it would fit a region by mistake
  (`le_two_pow_ceilLog2`). -/

namespace RegisterMap.Number

variable {n w : Nat} {a : Int}

theorem twoPow_eq (n : Nat) : twoPow n = 2 ^ n := rfl

theorem natCast_twoPow (n : Nat) : ((twoPow n : Nat) : Int) = 2 ^ n := by
  rw [twoPow_eq]; push_cast; rfl

theorem two_pow_pos (n : Nat) : (0 : Int) < 2 ^ n := by positivity

/-! ### Aligned starts -/

theorem roundInt_of_lt (h0 : 0 ≤ a) (h : a < 2 ^ 53) : roundInt a = a := by
  obtain ⟨n, rfl⟩ := Int.eq_ofNat_of_zero_le h0
  have hn : n < twoPow significantBits := by
    rw [twoPow_eq, significantBits]
    exact_mod_cast h
  show Int.ofNat (roundSignificand n) = _
  rw [roundSignificand_of_lt hn]
  rfl

/-- A quotient rounded to zero belongs to a block that ends at no address below `2 ^ 53`. -/
theorem ceilQuotient_of_lt (h0 : 0 ≤ a) (h : a < 2 ^ 53) (hw : w ≤ 53) :
    ceilQuotient a w = -((-a) / 2 ^ w) := by
  unfold ceilQuotient
  rw [if_neg (by unfold underflowBits; omega), roundInt_of_lt h0 h, natCast_twoPow,
    Int.fdiv_eq_ediv_of_nonneg _ (two_pow_pos w).le]

/-- The aligned start of a block that fits below `2 ^ 53` is a multiple of its size from `a` on. -/
theorem alignUp_of_fits {b : Int} (h0 : 0 ≤ a) (h : a < 2 ^ 53) (hb : b ≤ 2 ^ 53)
    (hfit : 2 ^ w ≤ b - alignUp a w) : a ≤ alignUp a w ∧ (2 ^ w : Int) ∣ alignUp a w := by
  have hdvd : (2 ^ w : Int) ∣ alignUp a w := by
    unfold alignUp
    rw [natCast_twoPow]
    exact dvd_mul_right _ _
  refine ⟨?_, hdvd⟩
  rcases Nat.lt_or_ge 53 w with hw | hw
  · -- the block is larger than all addresses together, so its start would have to be negative
    exfalso
    have hneg : alignUp a w < 0 := by
      have hp : (2 : Int) ^ 53 < 2 ^ w := pow_lt_pow_right₀ (by norm_num) hw
      omega
    have hq : 0 ≤ ceilQuotient a w := by
      unfold ceilQuotient
      split
      · exact le_refl _
      · rw [roundInt_of_lt h0 h, natCast_twoPow, Int.fdiv_eq_ediv_of_nonneg _ (two_pow_pos w).le]
        have := Int.ediv_le_ediv (two_pow_pos w) (show -a ≤ 0 by omega)
        rw [Int.zero_ediv] at this
        omega
    unfold alignUp at hneg
    rw [natCast_twoPow] at hneg
    have := mul_nonneg (two_pow_pos w).le hq
    omega
  · unfold alignUp
    rw [ceilQuotient_of_lt h0 h hw, natCast_twoPow]
    have h1 := Int.mul_ediv_self_le (x := -a) (two_pow_pos w).ne'
    linarith

/-- No multiple of the block's size from `a` on comes before the aligned start, below `2 ^ 53`. -/
theorem alignUp_le {b : Int} (h0 : 0 ≤ a) (hab : a ≤ b) (hdvd : (2 ^ w : Int) ∣ b)
    (hb : b + 2 ^ w ≤ 2 ^ 53) : alignUp a w ≤ b := by
  have hpos := two_pow_pos w
  have hw : w ≤ 53 := by
    by_contra hc
    have : (2 : Int) ^ 53 < 2 ^ w := pow_lt_pow_right₀ (by norm_num) (by omega)
    omega
  obtain ⟨c, rfl⟩ := hdvd
  unfold alignUp
  rw [ceilQuotient_of_lt h0 (by omega) hw, natCast_twoPow]
  refine mul_le_mul_of_nonneg_left ?_ hpos.le
  have : -c ≤ (-a) / 2 ^ w := by
    rw [Int.le_ediv_iff_mul_le hpos, neg_mul, mul_comm]
    omega
  omega

theorem quotientFits_of_lt (h0 : 0 ≤ a) (h : a < 2 ^ 53) (w : Nat) : quotientFits a w = true := by
  obtain ⟨k, rfl⟩ := Int.eq_ofNat_of_zero_le h0
  have hk : k < twoPow significantBits := by
    rw [twoPow_eq, significantBits]
    exact_mod_cast h
  unfold quotientFits
  rw [Int.natAbs_natCast, roundSignificand_of_lt hk, decide_eq_true_eq, twoPow_eq]
  refine lt_of_lt_of_le hk ?_
  rw [twoPow_eq]
  exact Nat.pow_le_pow_right (by omega) (by unfold significantBits overflowBits; omega)

/-! ### Widths -/

theorem logRoundsDown_of_le {k m : Nat} (hk : k ≤ 48) (hm : 0 < m) : logRoundsDown k m = false := by
  unfold logRoundsDown
  rw [if_neg (by unfold overflowBits; omega), decide_eq_false_iff_not, Nat.not_lt]
  have hlog : k.log2 ≤ 5 := by
    by_contra hc
    have h6 : 2 ^ 6 ≤ k := by
      rcases Nat.eq_zero_or_pos k with rfl | hpos
      · rw [Nat.log2_zero] at hc; omega
      · exact (Nat.le_log2 hpos.ne').mp (by omega)
    omega
  simp only [twoPow_eq, significantBits, Nat.add_zero]
  have h1 : 2 ^ (k.log2 + 1) ≤ 2 ^ 6 := Nat.pow_le_pow_right (by omega) (by omega)
  have h2 : 2 ^ k ≤ 2 ^ 48 := Nat.pow_le_pow_right (by omega) hk
  calc lnTwo * 2 ^ (k.log2 + 1) * 2 ^ k
      ≤ lnTwo * 2 ^ 6 * 2 ^ 48 := Nat.mul_le_mul (Nat.mul_le_mul_left _ h1) h2
    _ ≤ 1 * lnUnits * 2 ^ 54 := by unfold lnTwo lnUnits; norm_num
    _ ≤ m * lnUnits * 2 ^ 54 := Nat.mul_le_mul_right _ (Nat.mul_le_mul_right _ hm)

/-- The width of a number of addresses up to `2 ^ 48` is its logarithm, rounded up. -/
theorem ceilLog2_eq_clog (h0 : 0 < n) (h : n ≤ 2 ^ 48) : ceilLog2 n = Nat.clog 2 n := by
  have hround : roundSignificand n = n := by
    apply roundSignificand_of_lt
    rw [twoPow_eq, significantBits]
    exact lt_of_le_of_lt h (by norm_num)
  have hlow : 2 ^ n.log2 ≤ n := Nat.log2_self_le h0.ne'
  have hhigh : n < 2 ^ (n.log2 + 1) := Nat.lt_log2_self
  have hk : n.log2 ≤ 48 := by
    by_contra hc
    have : 2 ^ 49 ≤ 2 ^ n.log2 := Nat.pow_le_pow_right (by omega) (by omega)
    omega
  unfold ceilLog2
  simp only [hround, twoPow_eq]
  rcases Nat.eq_or_lt_of_le hlow with he | hlt
  · rw [show n - 2 ^ n.log2 = 0 by omega]
    simp only [beq_self_eq_true, Bool.true_or, if_true]
    conv_rhs => rw [← he]
    rw [Nat.clog_pow _ _ (by omega)]
  · have hm : 0 < n - 2 ^ n.log2 := by omega
    rw [logRoundsDown_of_le hk hm, if_neg (by simp; omega)]
    symm
    apply le_antisymm
    · exact (Nat.clog_le_iff_le_pow (by omega)).mpr hhigh.le
    · exact (Nat.lt_clog_iff_pow_lt (by omega)).mpr hlt

theorem le_roundSignificand (h : 2 ^ 53 ≤ n) : 2 ^ 52 ≤ roundSignificand n := by
  have hpos : 0 < n := by omega
  have hlog : 53 ≤ n.log2 := (Nat.le_log2 hpos.ne').mpr h
  have hq : 2 ^ 52 ≤ n / twoPow (n.log2 + 1 - significantBits) := by
    rw [twoPow_eq, significantBits, Nat.le_div_iff_mul_le (by positivity), ← pow_add]
    calc 2 ^ (52 + (n.log2 + 1 - 53)) = 2 ^ n.log2 := by congr 1; omega
      _ ≤ n := Nat.log2_self_le hpos.ne'
  unfold roundSignificand
  rw [if_neg (by rw [twoPow_eq, significantBits]; omega)]
  dsimp only
  refine le_trans ?_ (Nat.le_mul_of_pos_right _ (twoPow_pos _))
  split_ifs
  · exact Nat.le_succ_of_le hq
  · exact hq

/-- A width that is small enough covers its addresses, however many they are. -/
theorem le_two_pow_ceilLog2 (h : ceilLog2 n ≤ 47) : n ≤ 2 ^ ceilLog2 n := by
  rcases Nat.eq_zero_or_pos n with rfl | hpos
  · exact Nat.zero_le _
  rcases Nat.lt_or_ge (2 ^ 48) n with hbig | hsmall
  · exfalso
    have hround : 2 ^ 48 ≤ roundSignificand n := by
      rcases Nat.lt_or_ge n (2 ^ 53) with hlt | hge
      · rw [roundSignificand_of_lt (by rw [twoPow_eq, significantBits]; exact hlt)]
        exact hbig.le
      · exact le_trans (by norm_num) (le_roundSignificand hge)
    have hlog : 48 ≤ (roundSignificand n).log2 := (Nat.le_log2 (by omega)).mpr hround
    have hle : (roundSignificand n).log2 ≤ ceilLog2 n := by
      unfold ceilLog2
      dsimp only
      split_ifs <;> omega
    omega
  · rw [ceilLog2_eq_clog hpos hsmall]
    exact Nat.le_pow_clog (by omega) n

theorem exponent_eq_ok {w : Int} {k : Nat} (h : exponent w = .ok k) : w = k := by
  unfold exponent at h
  split at h
  · cases h
  · split at h
    · cases h; omega
    · split at h <;> cases h

theorem exponent_of_lt (h : w < memoryBits) : exponent (w : Int) = .ok w := by
  unfold exponent
  rw [if_neg (by omega), if_pos (by exact_mod_cast h), Int.toNat_natCast]

theorem exponent_of_le (h : w ≤ 32) : exponent (w : Int) = .ok w := by
  apply exponent_of_lt
  rw [memoryBits, twoPow_eq]
  omega

theorem exponent_of_ge (h : memoryBits ≤ w) : ∃ f, exponent (w : Int) = .error f := by
  unfold exponent
  rw [if_neg (by omega), if_neg (by exact_mod_cast not_lt.mpr h)]
  split
  · exact ⟨_, rfl⟩
  · exact ⟨_, rfl⟩

theorem powerOfTwo_eq_ok {w p : Int} (h : powerOfTwo w = .ok p) : 0 ≤ w ∧ p = 2 ^ w.toNat := by
  unfold powerOfTwo at h
  cases he : exponent w with
  | error f => rw [he] at h; cases h
  | ok k =>
    rw [he] at h
    obtain rfl := exponent_eq_ok he
    obtain rfl := Except.ok.inj h
    exact ⟨by omega, by rw [natCast_twoPow, Int.toNat_natCast]⟩

end RegisterMap.Number
