import RegisterMap.Proofs.Region.Sound

/-! # First fit

The search for a base and automatic placement go over the gaps one by one.  The gaps ascend, so the
first of them with room gives the least base of all (`Gap.firstBase_isFirst`).  Placement does the same
search anew, together with the cut that it makes (`Gap.takeFirst_base`): it takes the block at that
base, or is refused (`Region.Sound.push_of_some`, `Region.Sound.push_of_none`). -/

namespace RegisterMap

variable {ρ : Type}

/-- The least number with the property, none if there is none. -/
def IsFirst (p : Int → Prop) : Option Int → Prop
  | some b => p b ∧ ∀ b', p b' → b ≤ b'
  | none => ∀ b, ¬ p b

theorem IsFirst.congr {p q : Int → Prop} (h : ∀ b, p b ↔ q b) {found : Option Int}
    (hp : IsFirst p found) : IsFirst q found := by
  cases found with
  | some b => exact ⟨(h b).mp hp.1, fun b' hb' => hp.2 b' ((h b').mpr hb')⟩
  | none => exact fun b hb => hp b ((h b).mpr hb)

theorem IsFirst.unique {p : Int → Prop} {found found' : Option Int} (h : IsFirst p found)
    (h' : IsFirst p found') : found = found' := by
  cases found with
  | some b =>
    cases found' with
    | some b' => exact congrArg some (le_antisymm (h.2 b' h'.1) (h'.2 b h.1))
    | none => exact absurd h.1 (h' b)
  | none =>
    cases found' with
    | some b' => exact absurd h'.1 (h b')
    | none => rfl

namespace Gap

/-- A gap that ends before `start` or is too small from there on has no room. -/
theorem no_room {g : Gap} {w : Nat} {start b : Int} (h0 : 0 ≤ start) (hhi : g.hi ≤ 2 ^ 53)
    (hsmall : g.hi ≤ start ∨ g.hi - Number.alignUp (max g.lo start) w < 2 ^ w) (hb : start ≤ b)
    (hdvd : (2 ^ w : Int) ∣ b) : ¬ (g.lo ≤ b ∧ b + 2 ^ w ≤ g.hi) := by
  rintro ⟨hglo, hghi⟩
  have hpos := Number.two_pow_pos w
  have hle : Number.alignUp (max g.lo start) w ≤ b :=
    Number.alignUp_le (by omega) (by omega) hdvd (by omega)
  omega

/-- **The search finds the least base** with room from `start` on. -/
theorem firstBase_isFirst {gaps : List Gap} (hb : ∀ g ∈ gaps, 0 ≤ g.lo ∧ g.lo < g.hi ∧ g.hi ≤ 2 ^ 53)
    (ha : Apart gaps) (w : Nat) {start : Int} (h0 : 0 ≤ start) :
    ∃ found, firstBase w start gaps = .ok found ∧ IsFirst (HasRoom gaps w start) found := by
  induction gaps with
  | nil =>
    refine ⟨none, rfl, fun b hroom => ?_⟩
    obtain ⟨-, -, g, hg, -⟩ := hroom
    cases hg
  | cons g gs ih =>
    obtain ⟨hlo, hlt, htop⟩ := hb g List.mem_cons_self
    obtain ⟨hbelow, ha'⟩ := List.pairwise_cons.mp ha
    obtain ⟨found, hfound, hfirst⟩ := ih (fun x hx => hb x (List.mem_cons_of_mem _ hx)) ha'
    -- a gap without room leaves the search to the gaps behind it
    have hskip : (g.hi ≤ start ∨ g.hi - Number.alignUp (max g.lo start) w < 2 ^ w) →
        IsFirst (HasRoom (g :: gs) w start) found := by
      intro hsmall
      refine hfirst.congr fun b => and_congr_right fun hs => and_congr_right fun hdvd => ?_
      rw [List.exists_mem_cons_iff, or_iff_right (no_room h0 htop hsmall hs hdvd)]
    unfold firstBase
    split
    · exact ⟨found, hfound, hskip (.inl ‹_›)⟩
    · rename_i hend
      have hfits := Number.quotientFits_of_lt (a := max g.lo start) (by omega) (by omega) w
      simp only [hfits, Bool.not_true, Bool.false_eq_true, if_false, Number.natCast_twoPow]
      split
      · rename_i hroom
        obtain ⟨hstart, hdvd⟩ := Number.alignUp_of_fits (by omega) (by omega) htop hroom
        refine ⟨_, rfl, ⟨by omega, hdvd, g, List.mem_cons_self, by omega, by omega⟩, ?_⟩
        rintro b ⟨hs, hdvd', g', hg', hlo', hhi'⟩
        have hpos := Number.two_pow_pos w
        rcases List.mem_cons.mp hg' with rfl | hg'
        · exact Number.alignUp_le (by omega) (by omega) hdvd' (by omega)
        · have := hbelow g' hg'
          omega
      · exact ⟨found, hfound, hskip (.inr (by omega))⟩

theorem takeFirst_base {gaps : List Gap} (hb : ∀ g ∈ gaps, 0 ≤ g.lo ∧ g.lo < g.hi ∧ g.hi ≤ 2 ^ 53)
    (hf : ∀ g ∈ gaps, g.fixed = false) (w : Nat) :
    (takeFirst w gaps).map (Option.map Prod.fst) = firstBase w 0 gaps := by
  induction gaps with
  | nil => rfl
  | cons g gs ih =>
    obtain ⟨hlo, hlt, -⟩ := hb g List.mem_cons_self
    have ih := ih (fun x hx => hb x (List.mem_cons_of_mem _ hx))
      fun x hx => hf x (List.mem_cons_of_mem _ hx)
    unfold takeFirst firstBase
    rw [if_neg (by omega : ¬ g.hi ≤ 0), max_eq_left hlo]
    dsimp only
    split
    · rfl
    split
    · rw [carve_eq_ok.mpr ⟨fun _ => hf g List.mem_cons_self, rfl⟩]
      rfl
    · rw [← ih]
      cases takeFirst w gs with
      | error f => rfl
      | ok found =>
        cases found with
        | none | some found => rfl

end Gap

namespace Region

theorem exponent_of_lt {w : Nat} (hw : w < Number.memoryBits) : exponent (ρ := ρ) w = .ok w := by
  unfold exponent
  rw [Number.exponent_of_lt hw]
  rfl

variable {r : Region ρ} {n w : Nat}

theorem push_of_exponent {width : Int} (hw : exponent (ρ := ρ) width = .ok w) (item : ρ) :
    r.push width item = match Gap.takeFirst w r.vacant with
      | .error f => (r, refuse f)
      | .ok none => (r, .error (.noRoom r.label width))
      | .ok (some (start, gaps)) =>
        ({ r with vacant := gaps }).occupy start (start + 2 ^ w) .item item := by
  unfold push
  rw [hw]
  cases hfound : Gap.takeFirst w r.vacant with
      | error f => simp only [hfound]
      | ok found =>
        cases found with
            | none => simp only [hfound]
            | some cut => simp only [hfound, occupy, Number.natCast_twoPow]

namespace Sound

section

variable (h : r.Sound n) (hn : n ≤ 53)

include h hn

/-- The answer to a search is the least block that is offered. -/
theorem availableBase_isFirst (hw : w < Number.memoryBits) {start : Int} (h0 : 0 ≤ start) :
    ∃ found, r.availableBase w start = .ok found ∧ IsFirst (r.Offers w start) found := by
  obtain ⟨found, hfound, hfirst⟩ :=
    Gap.firstBase_isFirst (fun g hg => h.gap_bounds hn hg) h.tiled.apart w h0
  refine ⟨found, ?_, hfirst.congr fun b => h.tiled.offers_iff.symm⟩
  unfold availableBase
  rw [exponent_of_lt hw]
  show ofFault (Gap.firstBase w start r.vacant) = .ok found
  rw [hfound]
  rfl

theorem takeFirst_isFirst (w : Nat) :
    ∃ found, Gap.takeFirst w r.vacant = .ok found ∧
      IsFirst (r.Offers w 0) (found.map Prod.fst) := by
  obtain ⟨found, hfound, hfirst⟩ :=
    Gap.firstBase_isFirst (fun g hg => h.gap_bounds hn hg) h.tiled.apart w (le_refl 0)
  rw [← Gap.takeFirst_base (fun g hg => h.gap_bounds hn hg) h.movable w] at hfound
  cases ht : Gap.takeFirst w r.vacant with
  | error f =>
    rw [ht] at hfound
    cases hfound
  | ok taken =>
    rw [ht] at hfound
    obtain rfl : taken.map Prod.fst = found := Except.ok.inj hfound
    exact ⟨taken, rfl, hfirst.congr fun b => h.tiled.offers_iff.symm⟩

/-- Automatic placement takes the least block that is offered. -/
theorem push_of_some (hw : w < Number.memoryBits) (item : ρ) {b : Int}
    (hfirst : IsFirst (r.Offers w 0) (some b)) :
    ∃ r', r.push w item = (r', .ok b) ∧ r.Takes r' ⟨b, b + 2 ^ w, item⟩ := by
  obtain ⟨found, htake, hfound⟩ := h.takeFirst_isFirst hn w
  cases found with
  | none => exact absurd hfirst.1 (hfound b)
  | some found =>
    obtain ⟨start, gaps⟩ := found
    obtain rfl : start = b := Option.some.inj (hfound.unique hfirst)
    obtain ⟨hc, -⟩ := Gap.takeFirst_carved (fun g hg => h.gap_bounds hn hg) htake
    have hpos := Number.two_pow_pos w
    refine ⟨_, ?_, h.tiled.takes_occupy hc (by omega) item⟩
    rw [push_of_exponent (exponent_of_lt hw), htake]
    rfl

/-- Where no block is offered, automatic placement is refused and changes nothing. -/
theorem push_of_none (hw : w < Number.memoryBits) (item : ρ)
    (hfirst : IsFirst (r.Offers w 0) none) : r.push w item = (r, .error (.noRoom r.label w)) := by
  obtain ⟨found, htake, hfound⟩ := h.takeFirst_isFirst hn w
  cases found with
  | some found => exact absurd hfound.1 (hfirst _)
  | none =>
    rw [push_of_exponent (exponent_of_lt hw), htake]

end

end Sound

/-! ### Blocks whose size cannot be written down -/

theorem exponent_of_ge (hw : Number.memoryBits ≤ w) : ∃ e, exponent (ρ := ρ) w = .error e := by
  obtain ⟨f, hf⟩ := Number.exponent_of_ge hw
  refine ⟨.fault f, ?_⟩
  unfold exponent
  rw [hf]
  rfl

theorem push_of_exponent_error {width : Int} {e : Refusal ρ} (hw : exponent (ρ := ρ) width = .error e)
    (item : ρ) : r.push width item = (r, .error e) := by
  unfold push
  rw [hw]

theorem availableBase_of_exponent_error {width : Int} {e : Refusal ρ}
    (hw : exponent (ρ := ρ) width = .error e) (start : Int) : r.availableBase width start = .error e := by
  unfold availableBase
  rw [hw]
  rfl

end Region

end RegisterMap
