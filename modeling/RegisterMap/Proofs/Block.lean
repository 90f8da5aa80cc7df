import Mathlib.Tactic.Linarith
import Mathlib.Tactic.Ring
import RegisterMap.Block
import RegisterMap.Proofs.Source.Expression
import RegisterMap.Proofs.Workspace.Run

/-! # The unrolled size of a loop

The body of a loop is run as often as the comparison in its head holds (`Loop.RunsFor`).  Where the
comparison and the step go in one direction, that is the span of the index divided by the step and
rounded up.  The unrolled size is written as an expression that rounds down, so it is the number of runs
if and only if the step divides the span (`unrolledSize_counts_iff`). -/

namespace RegisterMap

open Expression

/-- The comparison of two numbers. -/
def Comparison.Holds : Comparison → Int → Int → Prop
  | .eq, a, b => a = b
  | .ne, a, b => a ≠ b
  | .gt, a, b => b < a
  | .ge, a, b => b ≤ a
  | .lt, a, b => a < b
  | .le, a, b => a ≤ b

def StepOp.apply (k : Int) : StepOp → Int → Int
  | .add, i => i + k
  | .sub, i => i - k
  | .mul, i => i * k
  | .div, i => i.tdiv k

namespace Loop

/-- The index after `j` runs of the body. -/
def indexAfter (l : Loop) (first k : Int) (j : Nat) : Int := (l.stepOp.apply k)^[j] first

/-- From the index `first` on, in steps of `k`, the body is run exactly `n` times. -/
structure RunsFor (l : Loop) (first last k : Int) (n : Nat) : Prop where
  goes_on : ∀ j < n, l.comparison.Holds (l.indexAfter first k j) last
  ends : ¬ l.comparison.Holds (l.indexAfter first k n) last

/-- The index is counted up to the limit, or down to it. -/
def Counts (l : Loop) : Prop :=
  (l.comparison = .lt ∨ l.comparison = .le) ∧ l.stepOp = .add ∨
    (l.comparison = .gt ∨ l.comparison = .ge) ∧ l.stepOp = .sub

/-- How far the index goes. -/
def span (l : Loop) (first last : Int) : Int :=
  (if l.stepOp = .add then last - first else first - last) + if l.comparison.isWeak then 1 else 0

variable {l : Loop} {first last k : Int} {n : Nat}

theorem indexAfter_add (h : l.stepOp = .add) (j : Nat) : l.indexAfter first k j = first + j * k := by
  unfold indexAfter
  rw [h]
  induction j with
  | zero => simp
  | succ j ih =>
    rw [Function.iterate_succ_apply', ih]
    unfold StepOp.apply
    push_cast
    ring

theorem indexAfter_sub (h : l.stepOp = .sub) (j : Nat) : l.indexAfter first k j = first - j * k := by
  unfold indexAfter
  rw [h]
  induction j with
  | zero => simp
  | succ j ih =>
    rw [Function.iterate_succ_apply', ih]
    unfold StepOp.apply
    push_cast
    ring

theorem holds_indexAfter_iff (hc : l.Counts) (j : Nat) :
    l.comparison.Holds (l.indexAfter first k j) last ↔ j * k < l.span first last := by
  unfold span
  rcases hc with ⟨hcmp, hop⟩ | ⟨hcmp, hop⟩
  · rw [indexAfter_add hop, if_pos hop]
    rcases hcmp with hcmp | hcmp <;> simp [hcmp, Comparison.Holds, Comparison.isWeak] <;> omega
  · rw [indexAfter_sub hop, if_neg (by rw [hop]; decide)]
    rcases hcmp with hcmp | hcmp <;> simp [hcmp, Comparison.Holds, Comparison.isWeak] <;> omega

/-- The body is run as often as the step goes into the span, rounded up. -/
theorem runsFor_of_span (hc : l.Counts) (hk : 0 < k) (hlo : ((n : Int) - 1) * k < l.span first last)
    (hhi : l.span first last ≤ n * k) : l.RunsFor first last k n where
  goes_on j hj := by
    rw [holds_indexAfter_iff hc]
    have : (j : Int) * k ≤ (n - 1) * k := Int.mul_le_mul_of_nonneg_right (by omega) hk.le
    omega
  ends := by
    rw [holds_indexAfter_iff hc]
    omega

/-- The runs of a loop end, one more than the quotient if the step leaves a rest. -/
theorem exists_runsFor (hc : l.Counts) (hk : 0 < k) (hspan : 0 < l.span first last) :
    ∃ n : Nat, l.RunsFor first last k n ∧
      (n : Int) = l.span first last / k + if k ∣ l.span first last then 0 else 1 := by
  have hsum := Int.mul_ediv_add_emod (l.span first last) k
  have hquot : 0 ≤ l.span first last / k := Int.ediv_nonneg hspan.le hk.le
  have hrest := Int.emod_nonneg (l.span first last) hk.ne'
  have hrest' := Int.emod_lt_of_pos (l.span first last) hk
  lift l.span first last / k to Nat using hquot with q hq
  by_cases hd : k ∣ l.span first last
  · have h0 := Int.emod_eq_zero_of_dvd hd
    rw [if_pos hd]
    refine ⟨q, runsFor_of_span hc hk ?_ ?_, by omega⟩ <;> linarith
  · have h0 : l.span first last % k ≠ 0 := fun h => hd (Int.dvd_of_emod_eq_zero h)
    rw [if_neg hd]
    refine ⟨q + 1, runsFor_of_span hc hk ?_ ?_, by omega⟩ <;> push_cast
    · have : 0 < l.span first last % k := by omega
      linarith
    · linarith

/-! ### The expression -/

variable {names : Names} {upper lower step : String} {a b : Int}

theorem operand_counted (hu : Operand names upper a) (hl : Operand names lower b) (weak : Bool) :
    let less := if lower == "0" then "" else "-" ++ lower
    let more := if weak then "+1" else ""
    Operand names (if less == "" && more == "" then upper else "(" ++ upper ++ less ++ more ++ ")")
      (a - b + if weak then 1 else 0) := by
  intro less more
  have hdiff : value names (upper ++ less) = some (a - b) := by
    by_cases h0 : lower = "0"
    · subst h0
      obtain rfl := hl.unique operand_zero
      simpa [less] using hu.value
    · have := value_append_sub hu.value hl
      rw [String.append_assoc] at this
      simpa [less, h0] using this
  cases weak with
  | true =>
    have hsum := operand_bracketed (value_append_add hdiff operand_one)
    simpa [more, String.append_assoc] using hsum
  | false =>
    by_cases h0 : lower = "0"
    · subst h0
      obtain rfl := hl.unique operand_zero
      simpa [less, more] using hu
    · simpa [less, more, h0, String.append_assoc] using operand_bracketed hdiff

theorem operand_perStep {count : String} (hc : Operand names count a) (hs : Operand names step k) (hk : k ≠ 0) :
    Operand names (if step == "1" then count else "(" ++ count ++ "/" ++ step ++ ")") (a.tdiv k) := by
  by_cases h1 : step = "1"
  · subst h1
    obtain rfl := hs.unique operand_one
    simpa using hc
  · have hquot := operand_bracketed (value_append_div hc hs hk)
    simpa [h1, String.append_assoc] using hquot

/-- The unrolled size is the span divided by the step, and rounded down. -/
theorem value_unrolledSize (hc : l.Counts) (hfirst : Operand names l.initial first)
    (hlast : Operand names l.limit last) (hstep : Operand names l.step k) (hk : k ≠ 0) :
    ∃ size, l.unrolledSize = .ok size ∧ value names size = some ((l.span first last).tdiv k) := by
  unfold unrolledSize span
  rcases hc with ⟨-, hop⟩ | ⟨-, hop⟩
  · rw [hop]
    exact ⟨_, rfl, (operand_perStep (operand_counted hlast hfirst l.comparison.isWeak) hstep hk).value⟩
  · rw [hop]
    exact ⟨_, rfl, (operand_perStep (operand_counted hfirst hlast l.comparison.isWeak) hstep hk).value⟩

end Loop

theorem Block.forLoop_ok {branch index initial comparison limit step : String} {block : Block}
    (h : forLoop branch index initial comparison limit step = .ok block) :
    ∃ l, block = ⟨branch, some l⟩ ∧ l.initial = initial ∧ l.limit = limit ∧
      Comparison.parse comparison = .ok l.comparison ∧ StepOp.parse step = .ok (l.stepOp, l.step) := by
  obtain ⟨c, hc, h1⟩ := Result.bind_ok h
  obtain ⟨⟨op, k⟩, hop, h2⟩ := Result.bind_ok h1
  obtain ⟨size, -, h3⟩ := Result.bind_ok h2
  cases h3
  exact ⟨_, rfl, rfl, rfl, hc, hop⟩

/-- A loop that is counted up or down to its limit in positive steps, and run at least once.  Its
unrolled size is the span of the index divided by the step and rounded down, the number of runs is
rounded up, so they are equal if and only if the step divides the span. -/
theorem unrolledSize_counts_iff {branch index initial comparison limit step : String} {block : Block} {l : Loop}
    {names : Names} {first last k : Int}
    (h : Block.forLoop branch index initial comparison limit step = .ok block) (hl : block.loop = some l)
    (hfirst : Operand names initial first) (hlast : Operand names limit last)
    (hstep : Operand names l.step k) (hk : 0 < k) (hc : l.Counts) (honce : l.comparison.Holds first last) :
    ∃ n : Nat, l.RunsFor first last k n ∧
      value names block.unrolledSize = some (l.span first last / k) ∧
      (n : Int) = l.span first last / k + (if k ∣ l.span first last then 0 else 1) ∧
      (value names block.unrolledSize = some (n : Int) ↔ k ∣ l.span first last) := by
  obtain ⟨l', rfl, rfl, rfl, -⟩ := Block.forLoop_ok h
  obtain rfl := Option.some.inj hl
  obtain ⟨size, hsize, hvalue⟩ := Loop.value_unrolledSize hc hfirst hlast hstep hk.ne'
  have hspan : 0 < l'.span first last := by
    have := (Loop.holds_indexAfter_iff hc (k := k) 0).mp honce
    simpa using this
  rw [Int.tdiv_eq_ediv_of_nonneg hspan.le] at hvalue
  have hblock : Block.unrolledSize ⟨branch, some l'⟩ = size := by
    unfold Block.unrolledSize
    simp only [hsize]
  obtain ⟨n, hruns, hn⟩ := Loop.exists_runsFor hc hk hspan
  refine ⟨n, hruns, by rw [hblock, hvalue], hn, ?_⟩
  rw [hblock, hvalue, hn, Option.some.injEq]
  split
  · next hd => simp [hd]
  · next hd =>
      simp only [hd, iff_false]
      omega

/-- The index goes from minus one up to two in steps of two. -/
def oddSpan : Loop := ⟨"N", "-1", .lt, "2", .add, "2", none, 0⟩

/-- The body is run for the indices minus one and one, but the size is `3/2`. -/
theorem unrolledSize_counts_iff_oddSpan :
    Block.forLoop "g" "N" "-1" "<" "2" "+2" = .ok ⟨"g", some oddSpan⟩ ∧ oddSpan.Counts ∧
      oddSpan.comparison.Holds (-1) 2 ∧ oddSpan.RunsFor (-1) 2 2 2 ∧
      value (fun _ => none) (Block.unrolledSize ⟨"g", some oddSpan⟩) = some 1 := by
  have hfirst : Operand (fun _ => none) "-1" (-1) := operand_one.neg
  have htwo : Operand (fun _ => none) "2" 2 :=
    operand_word (show tokens "2" = [.word ['2']] by decide) rfl
  have hloop : Block.forLoop "g" "N" "-1" "<" "2" "+2" = .ok ⟨"g", some oddSpan⟩ := by decide
  have hcounts : oddSpan.Counts := .inl ⟨.inl rfl, rfl⟩
  have honce : oddSpan.comparison.Holds (-1) 2 := show (-1 : Int) < 2 by decide
  obtain ⟨n, hruns, hvalue, hn, -⟩ :=
    unrolledSize_counts_iff hloop rfl hfirst htwo htwo (by decide) hcounts honce
  have hspan : oddSpan.span (-1) 2 = 3 := by decide
  rw [hspan] at hvalue hn
  obtain rfl : n = 2 := by
    rw [if_neg (by decide)] at hn
    omega
  exact ⟨hloop, hcounts, honce, hruns, hvalue⟩

end RegisterMap
