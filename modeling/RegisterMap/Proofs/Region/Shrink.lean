import RegisterMap.Proofs.Region.Reserved

/-! # Shrinking

A region without reserved ranges shrinks to the least power of two that holds its slots, and to nothing
if it has none.  Only the last gap is cut (`cutLast`); it is the only one that can reach behind the
slots, so what is left tiles the smaller region (`Sound.cut`).  Shrinking is always granted and, done
twice, changes nothing more (`Sound.shrink_of_slots`, `Sound.shrink_of_empty`). -/

namespace RegisterMap.Region

open List

variable {ρ : Type} {r : Region ρ} {n w : Nat}

/-! ### The last gap -/

theorem cutLast_of_le {gaps : List Gap} {top : Int} (h : ∀ g ∈ gaps, g.hi ≤ top) :
    cutLast top gaps = gaps := by
  unfold cutLast
  cases hl : gaps.getLast? with
  | none => rfl
  | some g => exact if_neg (not_lt.mpr (h g (mem_of_getLast? hl)))

theorem cutLast_carved {before : List Gap} {g : Gap} {top : Int} (hlo : g.lo ≤ top) (hlt : top < g.hi) :
    Gap.Carved (before ++ [g]) top g.hi (cutLast top (before ++ [g])) := by
  refine ⟨before, g, [], rfl, hlo, le_refl _, ?_⟩
  unfold cutLast
  rw [getLast?_append_of_ne_nil _ (cons_ne_nil g []), getLast?_singleton]
  simp only [if_pos hlt, dropLast_concat, Gap.above, lt_irrefl, if_false, append_nil]
  by_cases heq : top = g.lo
  · simp [heq, Gap.below]
  · rw [if_neg heq, Gap.below, if_pos (by omega)]

namespace Sound

theorem vacant_eq_append (h : r.Sound n) {g : Gap} (hg : g ∈ r.vacant) (hhi : g.hi = 2 ^ n) :
    ∃ before, r.vacant = before ++ [g] := by
  obtain ⟨before, after, hsplit⟩ := append_of_mem hg
  cases after with
  | nil => exact ⟨before, hsplit⟩
  | cons g' after =>
    have hapart : (before ++ g :: g' :: after).Pairwise fun a b => a.hi < b.lo := hsplit ▸ h.tiled.apart
    have hlt : g.hi < g'.lo :=
      (pairwise_cons.mp (pairwise_append.mp hapart).2.1).1 g' mem_cons_self
    have := h.tiled.gap_bounds (g := g') (by rw [hsplit]; simp)
    omega

/-- The last gap is cut so that the vacant addresses behind the new end are gone. -/
theorem cutLast_vacant (h : r.Sound n) (hk : r.reserved = []) (hw : w < n)
    (hle : ∀ s ∈ r.taken, s.hi ≤ 2 ^ w) :
    Gap.Carved r.vacant (2 ^ w) (2 ^ n) (cutLast (2 ^ w) r.vacant) := by
  have hlt : (2 : Int) ^ w < 2 ^ n := pow_lt_pow_right₀ (by norm_num) hw
  have hpos := Number.two_pow_pos w
  -- the addresses behind the slots are in one gap
  obtain ⟨g, hg, hlo, hhi⟩ := h.tiled.apart.exists_gap hlt fun addr h1 h2 => by
    rcases (h.ready hk).slot_or_gap (by omega) h2 with ⟨s, hs, -, hs2⟩ | hgap
    · have := hle s hs
      omega
    · exact hgap
  have hhi : g.hi = 2 ^ n := le_antisymm (h.tiled.gap_bounds hg).2.2 hhi
  obtain ⟨before, hvacant⟩ := h.vacant_eq_append hg hhi
  rw [hvacant, ← hhi]
  exact cutLast_carved hlo (by omega)

/-- **What is left of a region that is cut behind its slots is sound.** -/
theorem cut (h : r.Sound n) (hk : r.reserved = []) (hw : w ≤ n) (hle : ∀ s ∈ r.taken, s.hi ≤ 2 ^ w) :
    ({ r with extent := 2 ^ w, aw := w, vacant := cutLast (2 ^ w) r.vacant } : Region ρ).Sound w := by
  rcases hw.lt_or_eq with hw | rfl
  · have hlt : (2 : Int) ^ w < 2 ^ n := pow_lt_pow_right₀ (by norm_num) hw
    have hpos := Number.two_pow_pos w
    have hc := h.cutLast_vacant hk hw hle
    have hgaps := hc.nonempty fun g hg => (h.tiled.gap_bounds hg).2.1
    refine ⟨⟨?_, h.tiled.taken_block, h.tiled.reserved_block, hc.apart hlt h.tiled.apart⟩,
      hc.movable h.movable, rfl, h.base⟩
    rw [append_nil]
    refine ⟨fun e he => ?_, fun addr => ?_⟩
    · simp only [ranges, hk, map_nil, append_nil, mem_append, mem_map] at he
      rcases he with ⟨s, hs, rfl⟩ | ⟨g, hg, rfl⟩
      · exact (h.tiled.slot_bounds hs).2.1
      · exact hgaps g hg
    · have hcov := hc.coverage (ρ := ρ) hlt addr
      have hone := h.tiled.ranges.once addr
      rw [coverage_ranges] at hone ⊢
      dsimp only
      split at hcov <;> split at hone <;> split <;> omega
  · rw [cutLast_of_le fun g hg => (h.tiled.gap_bounds hg).2.2]
    exact ⟨⟨h.tiled.tiles, h.tiled.taken_block, h.tiled.reserved_block, h.tiled.apart⟩, h.movable, rfl,
      h.base⟩

/-! ### The highest slot -/

theorem hi_le_highAddr (h : r.Sound n) (hn : n ≤ 48) {s : Slot ρ} (hs : s ∈ r.taken) :
    s.hi ≤ r.highAddr := by
  -- the address width plays no part
  have htiled : ({ r with aw := n } : Region ρ).Tiled n :=
    ⟨h.tiled.tiles, h.tiled.taken_block, h.tiled.reserved_block, h.tiled.apart⟩
  exact (htiled.spaced hn rfl).hi_le_highAddr hs

theorem exists_highest (h : r.Sound n) (hn : n ≤ 48) (hne : r.taken ≠ []) :
    ∃ s ∈ r.taken, r.highAddr = s.hi ∧ ∀ s' ∈ r.taken, s'.hi ≤ s.hi := by
  obtain ⟨s0, hs0⟩ := exists_mem_of_ne_nil _ hne
  have hpos := h.tiled.slot_bounds hs0
  have hle := h.hi_le_highAddr hn hs0
  rcases r.highAddr_mem with h0 | ⟨s, hs, he⟩
  · omega
  · exact ⟨s, hs, he, fun s' hs' => he ▸ h.hi_le_highAddr hn hs'⟩

end Sound

theorem highAddr_sorted (r : Region ρ) : r.sorted.highAddr = r.highAddr := by
  unfold highAddr
  rw [r.sorted_sorted]

/-! ### The new width -/

theorem bits_of_nonneg {v : Int} (h0 : 0 ≤ v) (hv : v + 1 ≤ 2 ^ 48) :
    bits (ρ := ρ) v = .ok (Nat.clog 2 (v + 1).toNat) := by
  have hle : (v + 1).toNat ≤ 2 ^ 48 := by omega
  unfold bits
  rw [if_neg (by omega), Number.ceilLog2_eq_clog (by omega) hle]

theorem bits_high {high : Int} (h0 : 0 < high) (hhigh : high ≤ 2 ^ 48) :
    ∃ w : Nat, bits (ρ := ρ) (if high = 1 then 1 else high - 1) = .ok w ∧
      (2 : Int) ^ w = max 2 (2 ^ Nat.clog 2 high.toNat) := by
  refine ⟨_, bits_of_nonneg (by split <;> omega) (by split <;> omega), ?_⟩
  by_cases hone : high = 1
  · subst hone
    have htwo : Nat.clog 2 2 = 1 := Nat.clog_eq_one le_rfl le_rfl
    simp [htwo]
  · rw [if_neg hone, sub_add_cancel]
    have hclog : 0 < Nat.clog 2 high.toNat := Nat.clog_pos (by norm_num) (by omega)
    have htwo : (2 : Int) ^ 1 ≤ 2 ^ Nat.clog 2 high.toNat := pow_le_pow_right₀ (by norm_num) hclog
    omega

/-! ### Shrinking -/

theorem completed_of_check (h : r.sorted.check = .ok ()) :
    completed (r, .ok ()) = (r.sorted, .ok ()) := by
  simp only [completed, checkComplete, h]
  rfl

theorem shrink_of_bits (hpos : 0 < r.highAddr)
    (hbits : bits (ρ := ρ) (if r.highAddr = 1 then 1 else r.highAddr - 1) = .ok w) :
    r.shrink = completed ({ r.sorted with
      extent := 2 ^ w, aw := w, vacant := cutLast (2 ^ w) r.sorted.vacant }, .ok ()) := by
  unfold shrink
  simp only [r.highAddr_sorted, if_pos hpos, hbits, Number.natCast_twoPow]

/-- A region that is sorted and has the width that it needs is not changed by shrinking. -/
theorem Sound.shrink_self (h : r.Sound w) (hk : r.reserved = []) (hn : w ≤ 48) (hsorted : r.sorted = r)
    (haw : r.aw = w) (hpos : 0 < r.highAddr)
    (hbits : bits (ρ := ρ) (if r.highAddr = 1 then 1 else r.highAddr - 1) = .ok w) :
    r.shrink = (r, .ok ()) := by
  have hcheck := (h.check_iff hn).mpr (isOrderly_of_nil hk)
  have hsame : ({ r with extent := 2 ^ w, aw := w, vacant := cutLast (2 ^ w) r.vacant } : Region ρ) = r := by
    rw [cutLast_of_le fun g hg => (h.tiled.gap_bounds hg).2.2, ← h.extent, ← haw]
  rw [shrink_of_bits hpos hbits, hsorted, hsame, completed_of_check hcheck, hsorted]

/-- **Shrinking a region with slots** is granted, keeps them, leaves the least power of two that holds
them, at least two, and done twice it changes nothing more. -/
theorem Sound.shrink_of_slots (h : r.Sound n) (hk : r.reserved = []) (h1 : 1 ≤ n) (hn : n ≤ 48)
    (hne : r.taken ≠ []) :
    ∃ (r' : Region ρ) (w : Nat), r.shrink = (r', .ok ()) ∧ r'.taken.Perm r.taken ∧ r'.Sound w ∧
      r'.reserved = [] ∧ r'.aw = w ∧ (2 : Int) ^ w = max 2 (2 ^ Nat.clog 2 r.highAddr.toNat) ∧
      r'.shrink = (r', .ok ()) := by
  obtain ⟨top, htop, hhigh, -⟩ := h.exists_highest hn hne
  have hbounds := h.tiled.slot_bounds htop
  have hpow : (2 : Int) ^ n ≤ 2 ^ 48 := pow_le_pow_right₀ (by norm_num) hn
  have hpos : 0 < r.highAddr := by omega
  obtain ⟨w, hbits, hw⟩ := bits_high (ρ := ρ) hpos (by omega)
  have hclog : r.highAddr ≤ 2 ^ Nat.clog 2 r.highAddr.toNat := by
    have := Nat.le_pow_clog (b := 2) (by norm_num) r.highAddr.toNat
    have hcast : r.highAddr = (r.highAddr.toNat : Int) := (Int.toNat_of_nonneg hpos.le).symm
    rw [hcast, Int.toNat_natCast]
    exact_mod_cast this
  have hwn : w ≤ n := by
    have hle : r.highAddr.toNat ≤ 2 ^ n := by
      have : r.highAddr ≤ ((2 ^ n : Nat) : Int) := by
        push_cast
        omega
      omega
    have htwo : (2 : Int) ^ 1 ≤ 2 ^ n := pow_le_pow_right₀ (by norm_num) h1
    have hpow : (2 : Int) ^ Nat.clog 2 r.highAddr.toNat ≤ 2 ^ n :=
      pow_le_pow_right₀ (by norm_num) (Nat.clog_le_of_le_pow hle)
    by_contra hlt
    have : (2 : Int) ^ n < 2 ^ w := pow_lt_pow_right₀ (by norm_num) (by omega)
    omega
  have hcut : ({ r.sorted with
      extent := 2 ^ w, aw := w, vacant := cutLast (2 ^ w) r.sorted.vacant } : Region ρ).Sound w := by
    refine h.sorted.cut hk hwn fun s hs => ?_
    have := h.hi_le_highAddr hn (r.sorted_taken_perm.mem_iff.mp hs)
    omega
  generalize hr1 : ({ r.sorted with
    extent := 2 ^ w, aw := w, vacant := cutLast (2 ^ w) r.sorted.vacant } : Region ρ) = r1 at hcut
  have hk1 : r1.reserved = [] := by
    rw [← hr1]
    exact hk
  have htaken : r1.sorted.taken = r.sorted.taken := by
    rw [← hr1]
    show r.sorted.sorted.taken = r.sorted.taken
    rw [r.sorted_sorted]
  have hhigh1 : r1.sorted.highAddr = r.highAddr := by
    unfold highAddr
    rw [r1.sorted_sorted, htaken]
  refine ⟨r1.sorted, w, ?_, htaken ▸ r.sorted_taken_perm, hcut.sorted, hk1, ?_, hw, ?_⟩
  · rw [shrink_of_bits hpos hbits, hr1]
    exact completed_of_check ((hcut.check_iff (by omega)).mpr (isOrderly_of_nil hk1))
  · rw [← hr1]
    rfl
  · refine hcut.sorted.shrink_self hk1 (by omega) r1.sorted_sorted ?_ ?_ ?_
    · rw [← hr1]
      rfl
    · rwa [hhigh1]
    · rwa [hhigh1]

theorem Sound.vacant_of_empty (h : r.Sound n) (hk : r.reserved = []) (hn : n ≤ 48) (ht : r.taken = []) :
    r.vacant = [⟨0, 2 ^ n, false⟩] := by
  obtain ⟨r0, -, hfresh⟩ := create_two_pow (ρ := ρ) hn "" none
  have hsame := (h.ready hk).vacant_eq hfresh.ready (by simp [ht, hfresh.taken])
  exact hsame.trans hfresh.vacant

theorem highAddr_of_empty (ht : r.taken = []) : r.highAddr = 0 := by
  rcases r.highAddr_mem with h0 | ⟨s, hs, -⟩
  · exact h0
  · rw [ht] at hs
    cases hs

theorem sorted_of_empty (ht : r.taken = []) (hv : r.vacant = []) : r.sorted = r := by
  have htaken : r.sorted.taken = r.taken := by
    rw [ht]
    exact perm_nil.mp (ht ▸ r.sorted_taken_perm)
  have hvacant : r.sorted.vacant = r.vacant := by
    rw [hv]
    exact perm_nil.mp (hv ▸ r.sorted_vacant_perm)
  show ({ r with taken := r.sorted.taken, vacant := r.sorted.vacant } : Region ρ) = r
  rw [htaken, hvacant]

theorem check_of_empty (ht : r.taken = []) (hv : r.vacant = []) (hk : r.reserved = []) :
    r.check = .ok () := by
  have hwalk : r.walk = ⟨[], true⟩ := by
    rw [walk, ht, hv, hk, Walk.merge]
  unfold check
  rw [hwalk]
  rfl

theorem shrink_of_high (hhigh : r.highAddr = 0) :
    r.shrink = completed ({ r.sorted with
      extent := 0, aw := 0, vacant := cutLast 0 r.sorted.vacant }, .ok ()) := by
  unfold shrink
  simp only [r.highAddr_sorted, hhigh, lt_irrefl, if_false]

/-- **Shrinking a region without slots** is granted and leaves nothing. -/
theorem Sound.shrink_of_empty (h : r.Sound n) (hk : r.reserved = []) (hn : n ≤ 48) (ht : r.taken = []) :
    ∃ r' : Region ρ, r.shrink = (r', .ok ()) ∧ r'.taken = [] ∧ r'.vacant = [] ∧ r'.reserved = [] ∧
      r'.extent = 0 ∧ r'.aw = 0 ∧ r'.shrink = (r', .ok ()) := by
  have htaken : r.sorted.taken = [] := perm_nil.mp (ht ▸ r.sorted_taken_perm)
  have hvacant : cutLast 0 r.sorted.vacant = [] := by
    rw [h.tiled.sorted_vacant, h.vacant_of_empty hk hn ht]
    simp [cutLast]
  have hstep := shrink_of_high (highAddr_of_empty ht)
  rw [hvacant] at hstep
  generalize hr1 : ({ r.sorted with extent := 0, aw := 0, vacant := [] } : Region ρ) = r1 at hstep
  have ht1 : r1.taken = [] := hr1 ▸ htaken
  have hv1 : r1.vacant = [] := hr1 ▸ rfl
  have hk1 : r1.reserved = [] := hr1 ▸ hk
  have hs1 : r1.sorted = r1 := sorted_of_empty ht1 hv1
  have hdone : completed (r1, .ok ()) = (r1, .ok ()) := by
    rw [completed_of_check (by rw [hs1]; exact check_of_empty ht1 hv1 hk1), hs1]
  refine ⟨r1, hstep.trans hdone, ht1, hv1, hk1, hr1 ▸ rfl, hr1 ▸ rfl, ?_⟩
  have hagain := shrink_of_high (highAddr_of_empty ht1)
  rw [hs1, hv1] at hagain
  have hsame : ({ r1 with extent := 0, aw := 0, vacant := cutLast 0 [] } : Region ρ) = r1 := by
    subst hr1
    rfl
  rw [hagain, hsame, hdone]

end RegisterMap.Region
