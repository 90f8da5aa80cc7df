import RegisterMap.Proofs.Region.Sound

/-! # Reserved ranges

Slots and gaps are sorted before a walk, reserved ranges are not, and a walk that has met all gaps
stops at a reserved range with a slot behind it.  So a region that was tiled correctly may still fail
its check.  It passes exactly if its reserved ranges are *orderly* (`Tiled.check_iff`): they were
reserved in ascending order, and behind each of them that has a slot behind it an address is vacant. -/

namespace RegisterMap

variable {ρ : Type}

/-- The reserved ranges ascend, and behind each with a slot behind it an address is vacant, all by
first addresses. -/
def Orderly (slots reserved : List Int) (vacant : Int → Prop) : Prop :=
  reserved.Pairwise (· ≤ ·) ∧ ∀ k ∈ reserved, ∀ s ∈ slots, k < s → ∃ addr, k < addr ∧ vacant addr

theorem Orderly.congr {slots slots' reserved : List Int} {vacant vacant' : Int → Prop}
    (hs : ∀ s, s ∈ slots ↔ s ∈ slots') (hv : ∀ addr, vacant addr ↔ vacant' addr) :
    Orderly slots reserved vacant ↔ Orderly slots' reserved vacant' := by
  simp only [Orderly, hs, hv]

namespace Region

variable {r : Region ρ} {n : Nat}

/-- First addresses of the slots. -/
def slotStarts (r : Region ρ) : List Int := r.taken.map Slot.lo

/-- First addresses of the reserved ranges, as they were reserved. -/
def reservedStarts (r : Region ρ) : List Int := r.reserved.map Reserve.lo

/-- The reserved ranges of the region are orderly. -/
def IsOrderly (r : Region ρ) : Prop := Orderly r.slotStarts r.reservedStarts r.IsVacant

theorem reserve_mem_ranges {k : Reserve} (h : k ∈ r.reserved) : k.entry ∈ r.ranges :=
  List.mem_append_right _ (List.mem_map_of_mem h)

theorem isOrderly_of_nil (hk : r.reserved = []) : r.IsOrderly := by
  have hnil : r.reservedStarts = [] := by rw [reservedStarts, hk, List.map_nil]
  unfold IsOrderly
  rw [hnil]
  exact ⟨List.Pairwise.nil, by simp⟩

theorem isOrderly_sorted : r.sorted.IsOrderly ↔ r.IsOrderly := by
  have hres : r.sorted.reservedStarts = r.reservedStarts := rfl
  unfold IsOrderly
  rw [hres]
  exact Orderly.congr (fun s => (r.sorted_taken_perm.map Slot.lo).mem_iff) r.isVacant_sorted

/-! ### Walks over reserved ranges -/

section

variable (h : r.Tiled n)

include h

theorem Tiled.slot_ne_reserve {s : Slot ρ} {k : Reserve} (hs : s ∈ r.taken)
    (hk : k ∈ r.reserved) : s.lo ≠ k.lo := by
  intro heq
  have hls := h.ranges.nonempty _ (slot_mem_ranges hs)
  have hlk := h.ranges.nonempty _ (reserve_mem_ranges hk)
  have : s.entry = k.entry := by
    have hstart : s.entry.lo ≤ s.lo ∧ s.lo < s.entry.hi := ⟨le_refl _, hls⟩
    exact h.ranges.eq_of_holds (slot_mem_ranges hs) (reserve_mem_ranges hk) hstart ⟨heq.ge, heq ▸ hlk⟩
  cases congrArg Entry.kind this

/-- A gap behind a reserved range is a vacant address behind it. -/
theorem Tiled.exists_gap_iff {k : Reserve} (hk : k ∈ r.reserved) :
    (∃ g ∈ r.vacant, k.lo < g.lo) ↔ ∃ addr, k.lo < addr ∧ r.IsVacant addr := by
  constructor
  · rintro ⟨g, hg, hlt⟩
    exact ⟨g.lo, hlt, g, hg, le_refl _, (h.gap_bounds hg).2.1⟩
  · rintro ⟨addr, hlt, g, hg, hlo, hhi⟩
    refine ⟨g, hg, ?_⟩
    -- otherwise the gap would hold the first address of the reserved range
    by_contra hge
    have hlk := h.ranges.nonempty _ (reserve_mem_ranges hk)
    have : (g.entry : Entry ρ) = k.entry := by
      have hstart : (g.entry : Entry ρ).lo ≤ k.lo ∧ k.lo < (g.entry : Entry ρ).hi :=
        ⟨not_lt.mp hge, by simp only [Gap.entry]; omega⟩
      exact h.ranges.eq_of_holds (gap_mem_ranges hg) (reserve_mem_ranges hk) hstart ⟨le_refl _, hlk⟩
    cases congrArg Entry.kind this

theorem Tiled.backed_iff :
    Walk.Backed r.sorted.taken r.sorted.vacant r.sorted.reserved ↔
      ∀ k ∈ r.reservedStarts, ∀ s ∈ r.slotStarts, k < s → ∃ addr, k < addr ∧ r.IsVacant addr := by
  unfold Walk.Backed reservedStarts slotStarts
  simp only [List.forall_mem_map]
  refine forall₂_congr fun k hk => ?_
  rw [← h.exists_gap_iff hk]
  simp only [r.sorted_taken_perm.mem_iff, r.sorted_vacant_perm.mem_iff]

theorem Tiled.ascending (hk : r.reservedStarts.Pairwise (· ≤ ·)) :
    Walk.Ascending r.sorted.taken r.sorted.vacant r.sorted.reserved where
  slots := r.sorted_taken_ascending
  gaps := r.sorted_vacant_ascending
  reserves := List.pairwise_map.mp hk
  distinct _ hs _ hk := h.slot_ne_reserve (r.sorted_taken_perm.mem_iff.mp hs) hk

theorem Tiled.complete_walk (ho : r.IsOrderly) : r.sorted.walk.complete = true :=
  (Walk.complete_merge_iff (h.ascending ho.1)).mpr (h.backed_iff.mpr ho.2)

/-- What a walk over orderly ranges meets: every range once, in ascending order. -/
theorem Tiled.walk_entries (ho : r.IsOrderly) :
    r.sorted.walk.entries.Perm r.ranges ∧
      r.sorted.walk.entries.Pairwise fun a b => a.lo ≤ b.lo :=
  ⟨(Walk.merge_perm _ _ _ (h.complete_walk ho)).trans r.sorted_ranges_perm,
    Walk.merge_ascending (h.ascending ho.1)⟩

/-! ### The check -/

/-- **A tiled region passes the check exactly if its reserved ranges are orderly.** -/
theorem Tiled.check_iff (hn : n ≤ 48) (he : r.extent = 2 ^ n) :
    r.sorted.check = .ok () ↔ r.IsOrderly := by
  have hwidth : r.sorted.width = .ok n := width_two_pow hn he
  rw [check_eq_ok_iff hwidth]
  constructor
  · rintro ⟨hc, hcomplete, hlast⟩
    have hperm : r.sorted.walk.entries.Perm r.ranges :=
      (Walk.merge_perm _ _ _ hcomplete).trans r.sorted_ranges_perm
    obtain ⟨hasc, -⟩ := ascending_of_contiguous r.sorted.name none
      (fun e he => h.ranges.nonempty e (hperm.mem_iff.mp he)) hc
    -- the reserved ranges come in the walk as they come in the list
    have hkeep := hasc.filter fun e => decide (e.kind = .reserved)
    rw [show r.sorted.walk = Walk.merge _ _ _ from rfl, Walk.filter_reserved_merge _ _ _ hcomplete]
      at hkeep
    have hk : r.reservedStarts.Pairwise (· ≤ ·) := List.pairwise_map.mpr (List.pairwise_map.mp hkeep :)
    exact ⟨hk, h.backed_iff.mp ((Walk.complete_merge_iff (h.ascending hk)).mp hcomplete)⟩
  · intro ho
    obtain ⟨hperm, hasc⟩ := h.walk_entries ho
    obtain ⟨hc, hlast⟩ := contiguous_of_tiles r.sorted.name none (h.ranges.perm hperm.symm) hasc
    exact ⟨hc, h.complete_walk ho, hlast⟩

end

theorem Sound.check_iff (h : r.Sound n) (hn : n ≤ 48) : r.sorted.check = .ok () ↔ r.IsOrderly :=
  h.tiled.check_iff hn h.extent

/-- Listing the ranges of an orderly region gives each of them once, in ascending order. -/
theorem Tiled.entries_of_orderly (h : r.Tiled n) (ho : r.IsOrderly) :
    ∃ es, r.entries = (r.sorted, .ok es) ∧ es.Perm r.ranges ∧ es.Pairwise fun a b => a.hi ≤ b.lo := by
  obtain ⟨hperm, hasc⟩ := h.walk_entries ho
  refine ⟨r.sorted.walk.entries, ?_, hperm, ?_⟩
  · unfold entries
    simp only [h.complete_walk ho, if_true]
  · have htiles := h.ranges.perm hperm.symm
    have hdisjoint := pairwise_of_coverage htiles.nonempty htiles.coverage_le_one
    refine (hasc.and hdisjoint).imp_of_mem fun ha hb hab => ?_
    have := htiles.nonempty _ ha
    have := htiles.nonempty _ hb
    omega

/-! ### Blocks that are put to their purpose -/

/-- What stays vacant when the block of `2 ^ w` addresses at `addr` is used. -/
def LeavesVacant (r : Region ρ) (addr : Int) (w : Nat) (a : Int) : Prop :=
  r.IsVacant a ∧ ¬ (addr ≤ a ∧ a < addr + 2 ^ w)

/-- A new slot keeps the region orderly unless its block was needed behind a reserved range. -/
theorem Takes.isOrderly_iff {r' : Region ρ} {addr : Int} {w : Nat} {item : ρ}
    (h : r.Takes r' ⟨addr, addr + 2 ^ w, item⟩) :
    r'.IsOrderly ↔ Orderly (addr :: r.slotStarts) r.reservedStarts (r.LeavesVacant addr w) := by
  have hstarts : r'.reservedStarts = r.reservedStarts := congrArg (List.map Reserve.lo) h.reserved
  unfold IsOrderly
  rw [hstarts]
  exact Orderly.congr (fun s => (h.taken.map Slot.lo).mem_iff) h.vacant

/-- A new reserved range keeps the region orderly if it is the last one and was not needed behind
another. -/
theorem Reserves.isOrderly_iff {r' : Region ρ} {addr : Int} {w : Nat}
    (h : r.Reserves r' ⟨addr, addr + 2 ^ w, false⟩) :
    r'.IsOrderly ↔ Orderly r.slotStarts (r.reservedStarts ++ [addr]) (r.LeavesVacant addr w) := by
  have hstarts : r'.reservedStarts = r.reservedStarts ++ [addr] := by
    rw [reservedStarts, h.reserved, List.map_append]
    rfl
  unfold IsOrderly
  rw [hstarts]
  exact Orderly.congr (fun s => (h.taken.map Slot.lo).mem_iff) h.vacant

end Region

end RegisterMap
