import RegisterMap.Proofs.Region.Walk
import Mathlib.Data.List.Sort

/-! # Placement keeps the tiling

Every address of a region is taken, vacant or reserved, and in one of these states only.  Placement
edits the three lists in place, and a request may be refused before or after the edit; the tiling
survives both (`Accounted.place`).

* `Accounted r lost n`: the ranges of `r` tile `[0, 2 ^ n)` together with ranges that were lost, taken
  and reserved ranges are aligned blocks, and the gaps ascend without touching.
* `Tiled r n` is the case in which nothing was lost.

A request on a region either leaves the ranges as they are, up to their order, or carves one block out
of one gap (`push_cases`, `insert_cases`). -/

namespace RegisterMap.Region

open List

variable {ρ α : Type} {r : Region ρ} {n : Nat} {lost : List (Entry ρ)} {lo width : Int} {s : Slot ρ}
  {g : Gap} {purpose : Purpose}

/-- The ranges of a region tile `[0, 2 ^ n)` together with the lost ones. -/
structure Accounted (r : Region ρ) (lost : List (Entry ρ)) (n : Nat) : Prop where
  tiles : Tiles (r.ranges ++ lost) 0 (2 ^ n)
  taken_block : ∀ s ∈ r.taken, IsBlock s.lo s.hi
  reserved_block : ∀ k ∈ r.reserved, IsBlock k.lo k.hi
  apart : Gap.Apart r.vacant

/-- The ranges of a region tile `[0, 2 ^ n)`. -/
abbrev Tiled (r : Region ρ) (n : Nat) : Prop := r.Accounted [] n

theorem Tiled.ranges (h : r.Tiled n) : Tiles r.ranges 0 (2 ^ n) := by
  have := h.tiles
  rwa [append_nil] at this

theorem coverage_ranges (r : Region ρ) (addr : Int) :
    coverage r.ranges addr = coverage (r.taken.map Slot.entry) addr +
      coverage (r.vacant.map (Gap.entry (ρ := ρ))) addr +
      coverage (r.reserved.map (Reserve.entry (ρ := ρ))) addr := by
  unfold ranges
  rw [coverage_append, coverage_append]

theorem slot_mem_ranges (h : s ∈ r.taken) : s.entry ∈ r.ranges :=
  mem_append_left _ (mem_append_left _ (mem_map_of_mem h))

theorem gap_mem_ranges (h : g ∈ r.vacant) : g.entry ∈ r.ranges :=
  mem_append_left _ (mem_append_right _ (mem_map_of_mem h))

theorem Accounted.gap_bounds (h : r.Accounted lost n) (hg : g ∈ r.vacant) :
    0 ≤ g.lo ∧ g.lo < g.hi ∧ g.hi ≤ 2 ^ n := by
  have hmem : g.entry ∈ r.ranges ++ lost := mem_append_left _ (gap_mem_ranges hg)
  have hlt := h.tiles.nonempty _ hmem
  have hb := h.tiles.bounds hmem
  exact ⟨hb.1, hlt, hb.2⟩

theorem Accounted.slot_bounds (h : r.Accounted lost n) (hs : s ∈ r.taken) :
    0 ≤ s.lo ∧ s.lo < s.hi ∧ s.hi ≤ 2 ^ n := by
  have hmem : s.entry ∈ r.ranges ++ lost := mem_append_left _ (slot_mem_ranges hs)
  have hlt := h.tiles.nonempty _ hmem
  have hb := h.tiles.bounds hmem
  exact ⟨hb.1, hlt, hb.2⟩

/-! ### Sorting -/

theorem insertBy_eq (lo : α → Int) : insertBy lo = List.orderedInsert fun a b => lo a ≤ lo b := by
  funext a bs
  induction bs with
  | nil => rfl
  | cons b bs ih => simp only [insertBy, orderedInsert_cons, ih]

theorem foldr_insertBy (lo : α → Int) (xs : List α) :
    xs.foldr (insertBy lo) [] = xs.insertionSort fun a b => lo a ≤ lo b := by
  rw [insertBy_eq]
  rfl

theorem foldr_insertBy_perm (lo : α → Int) (xs : List α) : (xs.foldr (insertBy lo) []).Perm xs := by
  rw [foldr_insertBy]
  exact perm_insertionSort _ _

theorem sorted_taken_perm (r : Region ρ) : r.sorted.taken.Perm r.taken := foldr_insertBy_perm _ _

theorem sorted_vacant_perm (r : Region ρ) : r.sorted.vacant.Perm r.vacant := foldr_insertBy_perm _ _

theorem sorted_ranges_perm (r : Region ρ) : r.sorted.ranges.Perm r.ranges :=
  ((r.sorted_taken_perm.map _).append (r.sorted_vacant_perm.map _)).append_right _

theorem foldr_insertBy_ascending (lo : α → Int) (xs : List α) :
    (xs.foldr (insertBy lo) []).Pairwise fun a b => lo a ≤ lo b := by
  have : Std.Total fun a b : α => lo a ≤ lo b := ⟨fun _ _ => le_total _ _⟩
  have : IsTrans α fun a b => lo a ≤ lo b := ⟨fun _ _ _ => le_trans⟩
  rw [foldr_insertBy]
  exact pairwise_insertionSort _ xs

theorem foldr_insertBy_of_ascending {lo : α → Int} {xs : List α}
    (h : xs.Pairwise fun a b => lo a ≤ lo b) : xs.foldr (insertBy lo) [] = xs := by
  rw [foldr_insertBy, h.insertionSort_eq]

theorem sorted_taken_ascending (r : Region ρ) : r.sorted.taken.Pairwise fun a b => a.lo ≤ b.lo :=
  foldr_insertBy_ascending Slot.lo r.taken

theorem sorted_vacant_ascending (r : Region ρ) : r.sorted.vacant.Pairwise fun a b => a.lo ≤ b.lo :=
  foldr_insertBy_ascending Gap.lo r.vacant

theorem sorted_vacant (hne : ∀ g ∈ r.vacant, g.lo < g.hi) (ha : Gap.Apart r.vacant) :
    r.sorted.vacant = r.vacant := by
  apply foldr_insertBy_of_ascending
  apply ha.imp_of_mem
  intro g g' hg _ hlt
  have := hne g hg
  omega

theorem sorted_sorted (r : Region ρ) : r.sorted.sorted = r.sorted := by
  show ({ r.sorted with
    taken := r.sorted.taken.foldr (insertBy Slot.lo) []
    vacant := r.sorted.vacant.foldr (insertBy Gap.lo) [] } : Region ρ) = r.sorted
  rw [foldr_insertBy_of_ascending r.sorted_taken_ascending,
    foldr_insertBy_of_ascending r.sorted_vacant_ascending]

theorem Accounted.sorted_vacant (h : r.Accounted lost n) : r.sorted.vacant = r.vacant :=
  Region.sorted_vacant (fun _ hg => (h.gap_bounds hg).2.1) h.apart

theorem Accounted.sorted_of_ascending (h : r.Accounted lost n)
    (hasc : r.taken.Pairwise fun a b => a.lo ≤ b.lo) : r.sorted = r := by
  have htaken : r.sorted.taken = r.taken := foldr_insertBy_of_ascending hasc
  show ({ r with taken := r.sorted.taken, vacant := r.sorted.vacant } : Region ρ) = r
  rw [htaken, h.sorted_vacant]

theorem Accounted.sorted (h : r.Accounted lost n) : r.sorted.Accounted lost n where
  tiles := h.tiles.perm (r.sorted_ranges_perm.symm.append_right _)
  taken_block s hs := h.taken_block s (r.sorted_taken_perm.mem_iff.mp hs)
  reserved_block := h.reserved_block
  apart := by rw [h.sorted_vacant]; exact h.apart

/-! ### What a request can do -/

theorem isBlock_of_dvd {w : Nat} (h : (2 ^ w : Int) ∣ lo) : IsBlock lo (lo + 2 ^ w) :=
  ⟨w, rfl, h⟩

theorem exponent_eq_ok {w : Nat} (h : exponent (ρ := ρ) width = .ok w) :
    Number.exponent width = .ok w := by
  unfold exponent ofFault at h
  split at h
  · cases h; assumption
  · cases h

theorem vet_eq_ok {addr : Int} (h : r.vet addr width = .ok ()) :
    ∃ w : Nat, width = w ∧ 0 ≤ addr ∧ (2 ^ w : Int) ∣ addr ∧ addr + 2 ^ w ≤ r.top := by
  unfold vet at h
  cases hw : exponent (ρ := ρ) width with
  | error e => rw [hw] at h; cases h
  | ok w =>
    rw [hw] at h
    simp only [bind, Except.bind, pure, Except.pure, Number.natCast_twoPow] at h
    have h1 : ¬ addr < 0 := by
      intro hc
      rw [if_pos hc] at h
      cases h
    rw [if_neg h1] at h
    have h2 : addr % 2 ^ w = 0 := by
      by_contra hc
      rw [if_pos hc] at h
      cases h
    rw [if_neg (by simpa using h2)] at h
    have h3 : ¬ r.top < addr + 2 ^ w := by
      intro hc
      rw [if_pos hc] at h
      cases h
    exact ⟨w, Number.exponent_eq_ok (exponent_eq_ok hw), by omega, Int.dvd_of_emod_eq_zero h2,
      by omega⟩

theorem fit_eq_some {walk : Walk ρ} {hi : Int} {ends : Int × Int}
    (h : fit walk lo hi = .ok (some ends)) :
    ∃ e ∈ walk.entries, e.kind = .vacant ∧ ends = (e.lo, e.hi) ∧ e.lo ≤ lo ∧ lo < e.hi ∧
      hi ≤ e.hi := by
  unfold fit findEntry at h
  simp only [bind, Except.bind, pure, Except.pure] at h
  cases hf : walk.entries.find? (fun e => e.holds lo) with
  | none =>
    rw [hf] at h
    by_cases hc : walk.complete = true
    · simp [hc] at h
    · simp [hc, refuse] at h
  | some e =>
    rw [hf] at h
    have hmem := mem_of_find?_eq_some hf
    have hholds := Entry.holds_iff.mp (by simpa using find?_some hf)
    simp only at h
    split at h
    · cases h
    · rename_i hk
      split at h
      · cases h
      · rename_i hhi
        obtain rfl := Option.some.inj (Except.ok.inj h)
        exact ⟨e, hmem, not_not.mp hk, rfl, hholds.1, hholds.2, by omega⟩

theorem takeFrom_ne_none {gaps : List Gap} (hg : g ∈ gaps) (lo hi : Int) :
    Gap.takeFrom (g.lo, g.hi) lo hi gaps ≠ .ok none := by
  induction gaps with
  | nil => cases hg
  | cons g' gs ih =>
    unfold Gap.takeFrom
    split
    · cases g'.carve lo hi <;> simp
    · rename_i hends
      have hmem : g ∈ gs := by
        rcases mem_cons.mp hg with rfl | hg
        · exact absurd ⟨rfl, rfl⟩ hends
        · exact hg
      have := ih hmem
      cases ht : Gap.takeFrom (g.lo, g.hi) lo hi gs with
      | error f => simp
      | ok found =>
        cases found with
        | none => exact absurd ht this
        | some gs' => simp

theorem gap_of_walk {e : Entry ρ} (he : e ∈ r.walk.entries) (hk : e.kind = .vacant) :
    ∃ g ∈ r.vacant, e = g.entry := by
  have := Walk.subset_merge _ _ _ he
  simp only [mem_append, mem_map] at this
  rcases this with (⟨s, -, rfl⟩ | ⟨g, hg, rfl⟩) | ⟨k, -, rfl⟩
  · cases hk
  · exact ⟨g, hg, rfl⟩
  · cases hk

theorem occupy_vacant (r : Region ρ) (lo hi : Int) (purpose : Purpose) (item : ρ) :
    (r.occupy lo hi purpose item).1.vacant = r.vacant := by
  cases purpose <;> rfl

theorem push_cases (r : Region ρ) (width : Int) (item : ρ) :
    (∃ e, r.push width item = (r, .error e)) ∨
    ∃ (w : Nat) (start : Int) (gaps : List Gap), width = w ∧
      Gap.takeFirst w r.vacant = .ok (some (start, gaps)) ∧
      r.push width item = ({ r with vacant := gaps }).occupy start (start + 2 ^ w) .item item := by
  unfold push
  cases hw : exponent (ρ := ρ) width with
  | error e => exact .inl ⟨e, rfl⟩
  | ok w =>
    simp only
    cases ht : Gap.takeFirst w r.vacant with
    | error f => exact .inl ⟨_, rfl⟩
    | ok found =>
      match found with
      | none => exact .inl ⟨_, rfl⟩
      | some (start, gaps) =>
        refine .inr ⟨w, start, gaps, Number.exponent_eq_ok (exponent_eq_ok hw), ht, ?_⟩
        simp only [occupy, Number.natCast_twoPow]

/-- Placement at an address is refused with a change of order at most, or carves the block there out of
a gap. -/
theorem insert_cases (r : Region ρ) (hasItem : ρ → Bool) (addr width : Int) (purpose : Purpose)
    (item : ρ) :
    (∃ e, r.insert hasItem addr width purpose item = (r, .error e)) ∨
    (∃ e, r.insert hasItem addr width purpose item = (r.sorted, .error e)) ∨
    ∃ (w : Nat) (gaps : List Gap), width = w ∧ 0 ≤ addr ∧ (2 ^ w : Int) ∣ addr ∧
      Gap.Carved r.sorted.vacant addr (addr + 2 ^ w) gaps ∧
      r.insert hasItem addr width purpose item =
        ({ r.sorted with vacant := gaps }).occupy addr (addr + 2 ^ w) purpose item := by
  unfold insert
  cases hv : r.vet addr width with
  | error e => exact .inl ⟨e, rfl⟩
  | ok _ =>
    obtain ⟨w, rfl, h0, hdvd, -⟩ := vet_eq_ok hv
    right
    simp only [Int.toNat_natCast, Number.natCast_twoPow]
    cases hf : fit r.sorted.walk addr (addr + 2 ^ w) with
    | error e => exact .inl ⟨e, rfl⟩
    | ok found =>
      cases found with
      | none => exact .inl ⟨_, rfl⟩
      | some ends =>
        obtain ⟨e, he, hk, rfl, hlo, hlt, hhi⟩ := fit_eq_some hf
        obtain ⟨g, hg, rfl⟩ := gap_of_walk he hk
        simp only
        cases ht : Gap.takeFrom ((g.entry (ρ := ρ)).lo, (g.entry (ρ := ρ)).hi) addr
            (addr + 2 ^ w) r.sorted.vacant with
        | error f => exact .inl ⟨_, rfl⟩
        | ok left =>
          cases left with
          | none => exact absurd ht (takeFrom_ne_none hg _ _)
          | some gaps =>
            exact .inr ⟨w, gaps, rfl, h0, hdvd, Gap.takeFrom_carved hlo hhi ht, rfl⟩

theorem place_frame (r : Region ρ) (hasItem : ρ → Bool) (width : Int) (item : ρ) (addr : Option Int)
    (purpose : Purpose) :
    (r.place hasItem width item addr purpose).1.extent = r.extent ∧
      (r.place hasItem width item addr purpose).1.base = r.base ∧
      (purpose = .item → (r.place hasItem width item addr purpose).1.reserved = r.reserved) := by
  cases addr with
  | none =>
    show (r.push width item).1.extent = r.extent ∧ (r.push width item).1.base = r.base ∧
      (purpose = .item → (r.push width item).1.reserved = r.reserved)
    rcases r.push_cases width item with ⟨e, he⟩ | ⟨w, start, gaps, -, -, he⟩
    · rw [he]
      exact ⟨rfl, rfl, fun _ => rfl⟩
    · rw [he]
      exact ⟨rfl, rfl, fun _ => rfl⟩
  | some addr =>
    show (r.insert hasItem addr width purpose item).1.extent = r.extent ∧
      (r.insert hasItem addr width purpose item).1.base = r.base ∧
      (purpose = .item → (r.insert hasItem addr width purpose item).1.reserved = r.reserved)
    rcases r.insert_cases hasItem addr width purpose item with
      ⟨e, he⟩ | ⟨e, he⟩ | ⟨w, gaps, -, -, -, -, he⟩
    · rw [he]
      exact ⟨rfl, rfl, fun _ => rfl⟩
    · rw [he]
      exact ⟨rfl, rfl, fun _ => rfl⟩
    · rw [he]
      cases purpose with
      | item => exact ⟨rfl, rfl, fun _ => rfl⟩
      | reserve | other code => exact ⟨rfl, rfl, by simp⟩

theorem mem_taken_place {hasItem : ρ → Bool} {item : ρ} {addr : Option Int}
    (hs : s ∈ (r.place hasItem width item addr purpose).1.taken) : s ∈ r.taken ∨ s.item = item := by
  have hoccupy : ∀ {r : Region ρ} {lo hi : Int} {purpose : Purpose},
      s ∈ (r.occupy lo hi purpose item).1.taken → s ∈ r.taken ∨ s.item = item := by
    intro r lo hi purpose hs
    cases purpose with
    | item =>
      rcases mem_append.mp hs with hs | hs
      · exact .inl hs
      · obtain rfl := mem_singleton.mp hs
        exact .inr rfl
    | reserve | other code => exact .inl hs
  cases addr with
  | none =>
    have hs : s ∈ (r.push width item).1.taken := hs
    rcases r.push_cases width item with ⟨e, he⟩ | ⟨w, start, gaps, -, -, he⟩
    · rw [he] at hs
      exact .inl hs
    · rw [he] at hs
      exact hoccupy (r := { r with vacant := gaps }) hs
  | some addr =>
    have hs : s ∈ (r.insert hasItem addr width purpose item).1.taken := hs
    rcases r.insert_cases hasItem addr width purpose item with
      ⟨e, he⟩ | ⟨e, he⟩ | ⟨w, gaps, -, -, -, -, he⟩
    · rw [he] at hs
      exact .inl hs
    · rw [he] at hs
      exact .inl (r.sorted_taken_perm.mem_iff.mp hs)
    · rw [he] at hs
      exact (hoccupy (r := { r.sorted with vacant := gaps }) hs).imp_left
        r.sorted_taken_perm.mem_iff.mp

/-! ### Requests keep the tiling -/

section

variable (h : r.Accounted lost n)

include h

/-- Carving a block out of a gap and taking or reserving it keeps the tiling. -/
theorem Accounted.occupy {hi : Int} {gaps : List Gap}
    (hc : Gap.Carved r.vacant lo hi gaps) (hb : IsBlock lo hi) (item : ρ)
    (hp : purpose = .item ∨ purpose = .reserve) :
    (({ r with vacant := gaps }).occupy lo hi purpose item).1.Accounted lost n := by
  obtain ⟨w, hw, hdvd⟩ := hb
  have hlt : lo < hi := by
    have := Number.two_pow_pos w
    omega
  have hgaps : ∀ g ∈ gaps, g.lo < g.hi := hc.nonempty fun g hg => (h.gap_bounds hg).2.1
  have hcov : ∀ addr, coverage (gaps.map (Gap.entry (ρ := ρ))) addr +
      (if lo ≤ addr ∧ addr < hi then 1 else 0) = coverage (r.vacant.map Gap.entry) addr :=
    fun addr => hc.coverage hlt addr
  have hnew : ∀ e ∈ gaps.map (Gap.entry (ρ := ρ)), e.lo < e.hi := by
    intro e he
    obtain ⟨g, hg, rfl⟩ := mem_map.mp he
    exact hgaps g hg
  have hold : ∀ e ∈ r.ranges ++ lost, e.lo < e.hi := h.tiles.nonempty
  rcases hp with rfl | rfl
  · refine ⟨h.tiles.replace ?_ ?_, ?_, h.reserved_block, hc.apart hlt h.apart⟩
    · intro e he
      simp only [Region.occupy, ranges, map_append, mem_append, map_singleton, mem_singleton] at he
      rcases he with (((he | rfl) | he) | he) | he
      · exact hold e (by simp only [ranges, mem_append]; tauto)
      · exact hlt
      · exact hnew e he
      · exact hold e (by simp only [ranges, mem_append]; tauto)
      · exact hold e (by simp only [mem_append]; tauto)
    · intro addr
      have := hcov addr
      simp only [Region.occupy, coverage_append, coverage_ranges, map_append,
        map_singleton, coverage_cons, coverage_nil, Slot.entry]
      omega
    · intro s hs
      rcases mem_append.mp hs with hs | hs
      · exact h.taken_block s hs
      · obtain rfl := mem_singleton.mp hs
        exact ⟨w, hw, hdvd⟩
  · refine ⟨h.tiles.replace ?_ ?_, h.taken_block, ?_, hc.apart hlt h.apart⟩
    · intro e he
      simp only [Region.occupy, ranges, map_append, mem_append, map_singleton, mem_singleton] at he
      rcases he with ((he | he) | he | rfl) | he
      · exact hold e (by simp only [ranges, mem_append]; tauto)
      · exact hnew e he
      · exact hold e (by simp only [ranges, mem_append]; tauto)
      · exact hlt
      · exact hold e (by simp only [mem_append]; tauto)
    · intro addr
      have := hcov addr
      simp only [Region.occupy, coverage_append, coverage_ranges, map_append,
        map_singleton, coverage_cons, coverage_nil, Reserve.entry]
      omega
    · intro k hk
      rcases mem_append.mp hk with hk | hk
      · exact h.reserved_block k hk
      · obtain rfl := mem_singleton.mp hk
        exact ⟨w, hw, hdvd⟩

theorem Accounted.push (hn : n ≤ 53) (width : Int) (item : ρ) :
    (r.push width item).1.Accounted lost n := by
  have hgaps : ∀ g ∈ r.vacant, 0 ≤ g.lo ∧ g.lo < g.hi ∧ g.hi ≤ 2 ^ 53 := by
    intro g hg
    have hb := h.gap_bounds hg
    have htop : (2 : Int) ^ n ≤ 2 ^ 53 := pow_le_pow_right₀ (by norm_num) hn
    omega
  rcases r.push_cases width item with ⟨e, he⟩ | ⟨w, start, gaps, -, ht, he⟩
  · rw [he]
    exact h
  · rw [he]
    obtain ⟨hc, hdvd⟩ := Gap.takeFirst_carved hgaps ht
    exact h.occupy hc (isBlock_of_dvd hdvd) item (.inl rfl)

theorem Accounted.insert (hasItem : ρ → Bool) (addr width : Int)
    (item : ρ) (hp : purpose = .item ∨ purpose = .reserve) :
    (r.insert hasItem addr width purpose item).1.Accounted lost n := by
  rcases r.insert_cases hasItem addr width purpose item with
    ⟨e, he⟩ | ⟨e, he⟩ | ⟨w, gaps, -, -, hdvd, hc, he⟩
  · rw [he]
    exact h
  · rw [he]
    exact h.sorted
  · rw [he]
    exact h.sorted.occupy hc (isBlock_of_dvd hdvd) item hp

/-- **A request keeps the tiling**, whether it is granted or refused. -/
theorem Accounted.place (hn : n ≤ 53) (hasItem : ρ → Bool) (width : Int)
    (item : ρ) (addr : Option Int) (hp : purpose = .item ∨ purpose = .reserve) :
    (r.place hasItem width item addr purpose).1.Accounted lost n := by
  cases addr with
  | none => exact h.push hn width item
  | some addr => exact h.insert hasItem addr width item hp

end

/-! ### New regions -/

theorem bits_two_pow (hn : n ≤ 48) : bits (ρ := ρ) (2 ^ n - 1) = .ok n := by
  unfold bits
  have hpos := Number.two_pow_pos n
  rw [if_neg (by omega)]
  have hnat : ((2 : Int) ^ n - 1 + 1).toNat = 2 ^ n := by
    rw [show (2 : Int) ^ n - 1 + 1 = ((2 ^ n : Nat) : Int) by push_cast; ring]
    exact Int.toNat_natCast _
  rw [hnat, Number.ceilLog2_eq_clog (by positivity) (Nat.pow_le_pow_right (by omega) hn),
    Nat.clog_pow _ _ (by omega)]

/-- A region over `[0, 2 ^ n)` that is vacant as a whole. -/
structure Fresh (r : Region ρ) (n : Nat) : Prop where
  base : r.base = 0
  relativeBase : r.relativeBase = 0
  aw : r.aw = n
  extent : r.extent = 2 ^ n
  taken : r.taken = []
  vacant : r.vacant = [⟨0, 2 ^ n, false⟩]
  reserved : r.reserved = []

theorem create_two_pow (hn : n ≤ 48) (label : String) (path : Option Path) :
    ∃ r : Region ρ, create 0 (2 ^ n) label path = .ok r ∧ r.Fresh n := by
  unfold create
  rw [sub_zero, bits_two_pow hn]
  exact ⟨_, rfl, rfl, rfl, rfl, by simp only [Number.natCast_twoPow], rfl, rfl, rfl⟩

theorem Fresh.tiled (h : r.Fresh n) : r.Tiled n := by
  have hpos := Number.two_pow_pos n
  refine ⟨⟨?_, ?_⟩, by simp [h.taken], by simp [h.reserved], by simp [h.vacant, Gap.Apart]⟩
  · simp [ranges, h.taken, h.vacant, h.reserved, Gap.entry]
  · intro addr
    rw [append_nil, coverage_ranges, h.taken, h.vacant, h.reserved, map_singleton, coverage_cons]
    simp only [map_nil, coverage_nil, Nat.zero_add, Nat.add_zero]
    exact if_congr Iff.rfl rfl rfl

/-! ### The check of a region -/

theorem width_two_pow (hn : n ≤ 48) (he : r.extent = 2 ^ n) : r.width = .ok n := by
  unfold width
  rw [he]
  exact bits_two_pow hn

/-- A region passes the check exactly if the walk meets every range, one behind the other, up to the
end. -/
theorem check_eq_ok_iff (hw : r.width = .ok n) :
    r.check = .ok () ↔ contiguous r.name none r.walk.entries = .ok () ∧ r.walk.complete = true ∧
      ∀ e ∈ r.walk.entries.getLast?, e.hi = 2 ^ n := by
  unfold check
  simp only [bind, Except.bind, hw, Number.natCast_twoPow]
  cases contiguous r.name none r.walk.entries with
  | error e => simp
  | ok u =>
    cases r.walk.complete with
    | false => simp [refuse]
    | true =>
      cases r.walk.entries.getLast? with
      | none => simp [pure, Except.pure]
      | some last =>
        by_cases hlast : last.hi = 2 ^ n
        · simp [hlast, pure, Except.pure]
        · simp [hlast]

theorem complete_walk (hk : r.reserved = []) : r.sorted.walk.complete = true := by
  unfold walk
  rw [show r.sorted.reserved = [] from hk]
  exact Walk.complete_merge _ _

/-- Without reserved ranges a region passes the check exactly if it has no ranges or they tile its
addresses. -/
theorem check_sorted_iff (hn : n ≤ 48) (hk : r.reserved = []) (he : r.extent = 2 ^ n)
    (hne : ∀ e ∈ r.ranges, e.lo < e.hi) :
    r.sorted.check = .ok () ↔ r.ranges = [] ∨ Tiles r.ranges 0 (2 ^ n) := by
  have hcomplete : r.sorted.walk.complete = true := complete_walk hk
  have hperm : r.sorted.walk.entries.Perm r.ranges :=
    (Walk.merge_perm _ _ _ hcomplete).trans r.sorted_ranges_perm
  have hk' : r.sorted.reserved = [] := hk
  have hasc : r.sorted.walk.entries.Pairwise fun a b => a.lo ≤ b.lo :=
    Walk.merge_ascending ⟨r.sorted_taken_ascending, r.sorted_vacant_ascending,
      by simp [hk'], by simp [hk']⟩
  have hwidth : r.sorted.width = .ok n := width_two_pow hn he
  rw [check_eq_ok_iff hwidth]
  constructor
  · rintro ⟨hc, -, hlast⟩
    by_cases hnil : r.sorted.walk.entries = []
    · left
      rw [hnil] at hperm
      exact nil_perm.mp hperm
    · right
      obtain ⟨-, ht⟩ := tiles_of_contiguous r.sorted.name none
        (fun e he => hne e (hperm.mem_iff.mp he)) hc hlast (fun h => absurd h hnil)
      exact ht.perm hperm
  · rintro (hnil | ht)
    · rw [hnil] at hperm
      rw [perm_nil.mp hperm]
      exact ⟨rfl, hcomplete, by simp⟩
    · obtain ⟨hc, hlast⟩ := contiguous_of_tiles r.sorted.name none (ht.perm hperm.symm) hasc
      exact ⟨hc, hcomplete, hlast⟩

end RegisterMap.Region
