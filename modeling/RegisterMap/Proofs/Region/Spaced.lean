import RegisterMap.Proofs.Region.Tiling

/-! # Slots in their region

The slots of a region are *spaced* when they are aligned blocks without a common address, all of them
below `2 ^ aw`.  The ranges of a tiled region are spaced, and shrinking a region keeps its slots and
finds the least address width that covers them (`Spaced.shrink`), which depends on nothing but the ends
of the slots (`Snug.aw_eq`). -/

namespace RegisterMap.Region

open List

variable {ρ : Type} {r r' : Region ρ} {n : Nat}

/-- The slots are aligned blocks below `2 ^ aw`, and no two of them have an address in common. -/
structure Spaced (r : Region ρ) : Prop where
  block : ∀ s ∈ r.taken, IsBlock s.lo s.hi
  apart : r.taken.Pairwise fun a b => a.hi ≤ b.lo ∨ b.hi ≤ a.lo
  inside : ∃ w : Nat, w ≤ 48 ∧ r.aw = w ∧ ∀ s ∈ r.taken, 0 ≤ s.lo ∧ s.hi ≤ 2 ^ w

theorem isBlock_lt {lo hi : Int} (h : IsBlock lo hi) : lo < hi := by
  obtain ⟨w, rfl, -⟩ := h
  have := Number.two_pow_pos w
  omega

theorem Tiled.slots_apart (h : r.Tiled n) : r.taken.Pairwise fun a b => a.hi ≤ b.lo ∨ b.hi ≤ a.lo := by
  have hne : ∀ e ∈ r.taken.map Slot.entry, e.lo < e.hi := fun e he =>
    h.ranges.nonempty e (mem_append_left _ (mem_append_left _ he))
  have hc : ∀ addr, coverage (r.taken.map Slot.entry) addr ≤ 1 := fun addr => by
    have := h.ranges.coverage_le_one addr
    rw [coverage_ranges] at this
    omega
  exact pairwise_map.mp (pairwise_of_coverage hne hc)

theorem Tiled.spaced (h : r.Tiled n) (hn : n ≤ 48) (haw : r.aw = n) : r.Spaced where
  block := h.taken_block
  apart := h.slots_apart
  inside := ⟨n, hn, haw, fun _ hs => ⟨(h.slot_bounds hs).1, (h.slot_bounds hs).2.2⟩⟩

theorem Spaced.disjoint (h : r.Spaced) {a b : Slot ρ} (ha : a ∈ r.taken) (hb : b ∈ r.taken)
    (hne : a ≠ b) : a.hi ≤ b.lo ∨ b.hi ≤ a.lo := by
  have : Std.Symm fun a b : Slot ρ => a.hi ≤ b.lo ∨ b.hi ≤ a.lo := ⟨fun _ _ h => Or.symm h⟩
  exact h.apart.forall ha hb hne

theorem Spaced.of_perm (h : r.Spaced) (hp : r'.taken.Perm r.taken) (haw : r'.aw = r.aw) :
    r'.Spaced where
  block s hs := h.block s (hp.mem_iff.mp hs)
  apart := (hp.pairwise_iff fun {_ _} h => Or.symm h).mpr h.apart
  inside := by
    obtain ⟨w, hw, he, hb⟩ := h.inside
    exact ⟨w, hw, haw.trans he, fun s hs => hb s (hp.mem_iff.mp hs)⟩

/-! ### Placement -/

/-- The region has one slot more, and it stands where it stood. -/
structure Gains (r r' : Region ρ) (slot : Slot ρ) : Prop where
  taken : r'.taken.Perm (slot :: r.taken)
  base : r'.base = r.base
  relativeBase : r'.relativeBase = r.relativeBase
  aw : r'.aw = r.aw

theorem Gains.sorted {slot : Slot ρ} (h : r.Gains r' slot) : r.Gains r'.sorted slot :=
  ⟨r'.sorted_taken_perm.trans h.taken, h.base, h.relativeBase, h.aw⟩

theorem insert_base {hasItem : ρ → Bool} {addr width base : Int} {purpose : Purpose} {item : ρ}
    (h : r.insert hasItem addr width purpose item = (r', .ok base)) : base = addr := by
  unfold insert at h
  split at h
  · cases h
  · dsimp only at h
    split at h
    · cases h
    · cases h
    · split at h
      · cases h
      · cases h
        rfl
      · unfold occupy at h
        split at h
        · cases h
          rfl
        · cases h
          rfl
        · cases h

theorem place_eq_ok {hasItem : ρ → Bool} {width : Int} {item : ρ} {addr : Option Int} {base : Int}
    (h : r.place hasItem width item addr .item = (r', .ok base)) :
    ∃ w : Nat, width = w ∧ r.Gains r' ⟨base, base + 2 ^ w, item⟩ := by
  cases addr with
  | none =>
    have h : r.push width item = (r', .ok base) := h
    rcases r.push_cases width item with ⟨e, he⟩ | ⟨w, start, gaps, hw, -, he⟩
    · rw [he] at h
      cases h
    · rw [he] at h
      cases h
      exact ⟨w, hw, perm_append_singleton _ _, rfl, rfl, rfl⟩
  | some addr =>
    have h : r.insert hasItem addr width .item item = (r', .ok base) := h
    rcases r.insert_cases hasItem addr width .item item with
      ⟨e, he⟩ | ⟨e, he⟩ | ⟨w, gaps, hw, -, -, -, he⟩
    · rw [he] at h
      cases h
    · rw [he] at h
      cases h
    · rw [he] at h
      cases h
      exact ⟨w, hw, (perm_append_singleton _ _).trans (r.sorted_taken_perm.cons _), rfl, rfl, rfl⟩

/-! ### Shrinking -/

theorem Spaced.hi_le_highAddr (h : r.Spaced) {s : Slot ρ} (hs : s ∈ r.taken) : s.hi ≤ r.highAddr := by
  have hs' : s ∈ r.sorted.taken := r.sorted_taken_perm.mem_iff.mpr hs
  have hasc := r.sorted_taken_ascending
  unfold highAddr
  cases hl : r.sorted.taken.getLast? with
  | none =>
    rw [getLast?_eq_none_iff.mp hl] at hs'
    cases hs'
  | some last =>
    simp only [Option.map_some, Option.getD_some]
    have hlast : last ∈ r.taken := r.sorted_taken_perm.mem_iff.mp (mem_of_getLast? hl)
    have hle : s.lo ≤ last.lo := by
      obtain ⟨front, hfront⟩ := getLast?_eq_some_iff.mp hl
      rw [hfront] at hs' hasc
      rcases mem_append.mp hs' with hm | hm
      · exact (pairwise_append.mp hasc).2.2 s hm last mem_cons_self
      · rw [mem_singleton.mp hm]
    by_cases he : s = last
    · rw [he]
    · have hlt := isBlock_lt (h.block last hlast)
      have hlt' := isBlock_lt (h.block s hs)
      rcases h.disjoint hs hlast he with hd | hd <;> omega

theorem highAddr_mem (r : Region ρ) : r.highAddr = 0 ∨ ∃ s ∈ r.taken, r.highAddr = s.hi := by
  unfold highAddr
  cases hl : r.sorted.taken.getLast? with
  | none => exact .inl rfl
  | some last =>
    exact .inr ⟨last, r.sorted_taken_perm.mem_iff.mp (mem_of_getLast? hl), rfl⟩

theorem completed_eq_ok {α : Type} {r0 : Region ρ} {a b : α}
    (h : completed (r0, .ok a) = (r', .ok b)) : r' = r0.sorted := by
  unfold completed checkComplete at h
  exact (congrArg Prod.fst h).symm

theorem shrink_keeps {u : Unit} (h : r.shrink = (r', .ok u)) :
    r'.taken.Perm r.taken ∧ r'.path = r.path ∧ r'.reserved = r.reserved := by
  unfold shrink at h
  dsimp only at h
  split at h
  · split at h
    · cases h
    · obtain rfl := completed_eq_ok h
      exact ⟨(sorted_taken_perm _).trans r.sorted_taken_perm, rfl, rfl⟩
  · obtain rfl := completed_eq_ok h
    exact ⟨(sorted_taken_perm _).trans r.sorted_taken_perm, rfl, rfl⟩

theorem bits_eq_ok {v : Int} {w : Nat} (h : bits (ρ := ρ) v = .ok w) (hv : v + 1 ≤ 2 ^ 48) :
    w ≤ 48 ∧ v + 1 ≤ 2 ^ w ∧ (0 < v → 0 < w ∧ 2 ^ (w - 1) < v + 1) := by
  unfold bits at h
  split at h
  · cases h
  · rename_i hpos
    obtain rfl := Except.ok.inj h
    have hnat : ((v + 1).toNat : Int) = v + 1 := Int.toNat_of_nonneg (by omega)
    have hle : (v + 1).toNat ≤ 2 ^ 48 := by
      have : ((v + 1).toNat : Int) ≤ ((2 ^ 48 : Nat) : Int) := by
        rw [hnat]
        exact hv
      exact_mod_cast this
    rw [Number.ceilLog2_eq_clog (by omega) hle]
    refine ⟨Nat.clog_le_of_le_pow hle, ?_, fun hv0 => ?_⟩
    · have := Nat.le_pow_clog (b := 2) (by norm_num) (v + 1).toNat
      rw [← hnat]
      exact_mod_cast this
    · have h1 : 1 < (v + 1).toNat := by omega
      have hlt := Nat.pow_pred_clog_lt_self (b := 2) (by norm_num) h1
      refine ⟨Nat.clog_pos (by norm_num) h1, ?_⟩
      rw [← hnat]
      exact_mod_cast hlt

/-- The address width is the least one above zero that covers the slots, of which there are some. -/
def Snug (r : Region ρ) : Prop :=
  r.taken ≠ [] ∧ ∃ w : Nat, r.aw = w ∧ 0 < w ∧ (∀ s ∈ r.taken, s.hi ≤ 2 ^ w) ∧
    (1 < w → ∃ s ∈ r.taken, 2 ^ (w - 1) < s.hi)

theorem Snug.of_perm (h : r.Snug) (hp : r'.taken.Perm r.taken) (haw : r'.aw = r.aw) : r'.Snug := by
  obtain ⟨hne, w, hw, hpos, hle, hlt⟩ := h
  refine ⟨fun he => hne (nil_perm.mp (he ▸ hp)), w, haw.trans hw, hpos,
    fun s hs => hle s (hp.mem_iff.mp hs), fun h1 => ?_⟩
  obtain ⟨s, hs, hs'⟩ := hlt h1
  exact ⟨s, hp.mem_iff.mpr hs, hs'⟩

theorem Snug.aw_eq {σ : Type} {q : Region σ} (h : r.Snug) (hq : q.Snug)
    (hrq : ∀ s ∈ r.taken, ∃ s' ∈ q.taken, s'.hi = s.hi)
    (hqr : ∀ s ∈ q.taken, ∃ s' ∈ r.taken, s'.hi = s.hi) : r.aw = q.aw := by
  obtain ⟨-, w, hw, hpos, hle, hlt⟩ := h
  obtain ⟨-, v, hv, hpos', hle', hlt'⟩ := hq
  have hmono : ∀ {a b : Nat}, a < b → (2 : Int) ^ a ≤ 2 ^ (b - 1) := fun hab =>
    pow_le_pow_right₀ (by norm_num) (by omega)
  have hwv : ¬ w < v := fun hc => by
    obtain ⟨s, hs, hgt⟩ := hlt' (by omega)
    obtain ⟨s', hs', he⟩ := hqr s hs
    have := hle s' hs'
    have := hmono hc
    omega
  have hvw : ¬ v < w := fun hc => by
    obtain ⟨s, hs, hgt⟩ := hlt (by omega)
    obtain ⟨s', hs', he⟩ := hrq s hs
    have := hle' s' hs'
    have := hmono hc
    omega
  omega

/-- Shrinking keeps the slots, and the new width covers them and no more. -/
theorem Spaced.shrink (h : r.Spaced) (hs : r.shrink = (r', .ok ())) :
    r'.taken.Perm r.taken ∧ r'.base = r.base ∧ r'.relativeBase = r.relativeBase ∧ r'.Spaced ∧
      (r.taken ≠ [] → r'.Snug) := by
  have hhigh : r.sorted.highAddr = r.highAddr := by
    unfold highAddr
    rw [r.sorted_sorted]
  obtain ⟨w0, hwide, -, hinside⟩ := h.inside
  have hbound : r.highAddr ≤ 2 ^ 48 := by
    rcases r.highAddr_mem with h0 | ⟨s, hs, he⟩
    · rw [h0]
      positivity
    · have hpow : (2 : Int) ^ w0 ≤ 2 ^ 48 := pow_le_pow_right₀ (by norm_num) hwide
      have := (hinside s hs).2
      omega
  unfold Region.shrink at hs
  simp only [hhigh] at hs
  split at hs
  · rename_i hpos
    cases hb : bits (ρ := ρ) (if r.highAddr = 1 then 1 else r.highAddr - 1) with
    | error e => rw [hb] at hs; cases hs
    | ok w =>
      rw [hb] at hs
      obtain rfl := completed_eq_ok hs
      obtain ⟨hw, hcover, hleast⟩ := bits_eq_ok hb (by split <;> omega)
      obtain ⟨hw0, hleast⟩ := hleast (by split <;> omega)
      have hcover : r.highAddr ≤ 2 ^ w := by
        split at hcover <;> omega
      have hperm : ({ r.sorted with
          extent := Number.twoPow w, aw := w,
          vacant := cutLast (Number.twoPow w) r.sorted.vacant } : Region ρ).sorted.taken.Perm
            r.taken := (sorted_taken_perm _).trans r.sorted_taken_perm
      have hle : ∀ s ∈ r.taken, s.hi ≤ 2 ^ w := fun s hs => (h.hi_le_highAddr hs).trans hcover
      refine ⟨hperm, rfl, rfl, ?_, fun hne => ⟨fun he => hne (he ▸ hperm).nil_eq.symm, ?_⟩⟩
      · exact ⟨fun s hs => h.block s (hperm.mem_iff.mp hs),
          (hperm.pairwise_iff fun {_ _} h => Or.symm h).mpr h.apart,
          w, hw, rfl, fun s hs => ⟨(hinside s (hperm.mem_iff.mp hs)).1, hle s (hperm.mem_iff.mp hs)⟩⟩
      · refine ⟨w, rfl, hw0, fun s hs => hle s (hperm.mem_iff.mp hs), fun h1 => ?_⟩
        have htwo : (2 : Int) ≤ 2 ^ (w - 1) := by
          calc (2 : Int) = 2 ^ 1 := by norm_num
            _ ≤ 2 ^ (w - 1) := pow_le_pow_right₀ (by norm_num) (by omega)
        rcases r.highAddr_mem with h0 | ⟨s, hs, he⟩
        · omega
        · refine ⟨s, hperm.mem_iff.mpr hs, ?_⟩
          split at hleast <;> omega
  · rename_i hneg
    obtain rfl := completed_eq_ok hs
    have hperm : ({ r.sorted with
        extent := 0, aw := 0, vacant := cutLast 0 r.sorted.vacant } : Region ρ).sorted.taken.Perm
          r.taken := (sorted_taken_perm _).trans r.sorted_taken_perm
    -- a slot would end above zero
    have hnil : ∀ s ∈ r.taken, False := fun s hs => by
      have hlt := isBlock_lt (h.block s hs)
      have h0 := (hinside s hs).1
      have := h.hi_le_highAddr hs
      omega
    refine ⟨hperm, rfl, rfl, ?_, fun hne => ?_⟩
    · exact ⟨fun s hs => (hnil s (hperm.mem_iff.mp hs)).elim,
        (hperm.pairwise_iff fun {_ _} h => Or.symm h).mpr h.apart,
        0, by omega, rfl, fun s hs => (hnil s (hperm.mem_iff.mp hs)).elim⟩
    · obtain ⟨s, hs⟩ := exists_mem_of_ne_nil _ hne
      exact (hnil s hs).elim

/-! ### Tight regions -/

/-- The address width is the least one that covers the slots, and zero without slots. -/
structure Tight (r : Region ρ) : Prop where
  snug : r.taken ≠ [] → r.Snug
  empty : r.taken = [] → r.aw = 0

theorem Tight.of_perm (h : r.Tight) (hp : r'.taken.Perm r.taken) (haw : r'.aw = r.aw) : r'.Tight where
  snug hne := (h.snug fun he => hne (perm_nil.mp (he ▸ hp))).of_perm hp haw
  empty he := haw.trans (h.empty (nil_perm.mp (he ▸ hp)))

theorem Tight.aw_eq {σ : Type} {q : Region σ} (h : r.Tight) (hq : q.Tight)
    (hrq : ∀ s ∈ r.taken, ∃ s' ∈ q.taken, s'.hi = s.hi)
    (hqr : ∀ s ∈ q.taken, ∃ s' ∈ r.taken, s'.hi = s.hi) : r.aw = q.aw := by
  by_cases hr : r.taken = []
  · have hnil : q.taken = [] := by
      rw [eq_nil_iff_forall_not_mem]
      intro s hs
      obtain ⟨s', hs', -⟩ := hqr s hs
      rw [hr] at hs'
      cases hs'
    rw [h.empty hr, hq.empty hnil]
  · have hne : q.taken ≠ [] := by
      obtain ⟨s, hs⟩ := exists_mem_of_ne_nil _ hr
      obtain ⟨s', hs', -⟩ := hrq s hs
      exact ne_nil_of_mem hs'
    exact (h.snug hr).aw_eq (hq.snug hne) hrq hqr

theorem Spaced.shrink_tight (h : r.Spaced) (hs : r.shrink = (r', .ok ())) : r'.Tight := by
  obtain ⟨hperm, -, -, -, hsnug⟩ := h.shrink hs
  refine ⟨fun hne => hsnug fun he => hne (perm_nil.mp (he ▸ hperm)), fun he => ?_⟩
  have hnil : r.taken = [] := nil_perm.mp (he ▸ hperm)
  have hhigh : r.sorted.highAddr = 0 := by
    rcases r.sorted.highAddr_mem with h0 | ⟨s, hm, -⟩
    · exact h0
    · have hmem := r.sorted_taken_perm.mem_iff.mp hm
      rw [hnil] at hmem
      cases hmem
  unfold Region.shrink at hs
  simp only [hhigh, lt_self_iff_false, if_false] at hs
  obtain rfl := completed_eq_ok hs
  rfl

end RegisterMap.Region
