import RegisterMap.Proofs.Region.Vacancy

/-! # Regions that are asked for blocks

A region over `[0, 2 ^ n)` is *sound* when its ranges tile its addresses and all its gaps can be cut
(`Region.Sound`); it stays so whatever is asked for (`Sound.place`).  Which blocks it has to give is a
matter of single addresses (`Region.Offers`): a block whose addresses are all vacant lies in one gap,
because gaps do not touch (`Accounted.offers_iff`).  Where a walk over the region is complete, a block
at an address is taken exactly if it is offered (`Sound.insert_of_offers`, `insert_of_not_offers`). -/

namespace RegisterMap

variable {ρ : Type}

namespace Gap

/-- One of the gaps holds the address. -/
def Holds (gaps : List Gap) (addr : Int) : Prop := ∃ g ∈ gaps, g.lo ≤ addr ∧ addr < g.hi

/-- An aligned block of `2 ^ w` addresses at `b`, no lower than `start`, lies in one of the gaps. -/
def HasRoom (gaps : List Gap) (w : Nat) (start b : Int) : Prop :=
  start ≤ b ∧ (2 ^ w : Int) ∣ b ∧ ∃ g ∈ gaps, g.lo ≤ b ∧ b + 2 ^ w ≤ g.hi

/-- A range whose addresses are all in gaps is in one gap. -/
theorem Apart.exists_gap {gaps : List Gap} (ha : Apart gaps) {lo hi : Int} (hlt : lo < hi)
    (h : ∀ addr, lo ≤ addr → addr < hi → Holds gaps addr) : ∃ g ∈ gaps, g.lo ≤ lo ∧ hi ≤ g.hi := by
  obtain ⟨g, hg, hlo, hhi⟩ := h lo (le_refl _) hlt
  refine ⟨g, hg, hlo, ?_⟩
  by_contra hshort
  -- the address behind the gap would be in a gap that touches it
  obtain ⟨g', hg', hlo', hhi'⟩ := h g.hi (by omega) (by omega)
  have hne : g ≠ g' := by
    rintro rfl
    omega
  have hsep : gaps.Pairwise fun a b => a.hi < b.lo ∨ b.hi < a.lo := ha.imp .inl
  have : Std.Symm fun a b : Gap => a.hi < b.lo ∨ b.hi < a.lo := ⟨fun _ _ h => Or.symm h⟩
  have := hsep.forall hg hg' hne
  omega

end Gap

namespace Region

variable {r r' : Region ρ} {n : Nat} {lost : List (Entry ρ)} {hasItem : ρ → Bool} {hi lo : Int}
  {gaps : List Gap}

def IsVacant (r : Region ρ) (addr : Int) : Prop := Gap.Holds r.vacant addr

/-- The block of `2 ^ w` addresses at `b` is aligned, vacant as a whole and no lower than `start`. -/
structure Offers (r : Region ρ) (w : Nat) (start b : Int) : Prop where
  from_start : start ≤ b
  aligned : (2 ^ w : Int) ∣ b
  vacant : ∀ addr, b ≤ addr → addr < b + 2 ^ w → r.IsVacant addr

/-- A block is offered exactly if one gap has room for it. -/
theorem Accounted.offers_iff (h : r.Accounted lost n) {w : Nat} {start b : Int} :
    r.Offers w start b ↔ Gap.HasRoom r.vacant w start b := by
  have hpos := Number.two_pow_pos w
  constructor
  · rintro ⟨hs, hdvd, hfree⟩
    exact ⟨hs, hdvd, h.apart.exists_gap (by omega) hfree⟩
  · rintro ⟨hs, hdvd, g, hg, hlo, hhi⟩
    exact ⟨hs, hdvd, fun addr h1 h2 => ⟨g, hg, by omega, by omega⟩⟩

theorem Accounted.isVacant_of_carved (h : r.Accounted lost n)
    (hc : Gap.Carved r.vacant lo hi gaps) (hlt : lo < hi) (addr : Int) :
    Gap.Holds gaps addr ↔ r.IsVacant addr ∧ ¬ (lo ≤ addr ∧ addr < hi) := by
  have hcov := hc.coverage (ρ := ρ) hlt addr
  have hone := h.tiles.coverage_le_one addr
  rw [coverage_append, coverage_ranges] at hone
  have hnew : 0 < coverage (gaps.map (Gap.entry (ρ := ρ))) addr ↔ Gap.Holds gaps addr :=
    Gap.coverage_gaps_pos
  have hold : 0 < coverage (r.vacant.map (Gap.entry (ρ := ρ))) addr ↔ r.IsVacant addr :=
    Gap.coverage_gaps_pos
  rw [← hnew, ← hold]
  split at hcov <;> omega

/-- The block of `2 ^ w` addresses at `addr` is aligned, inside `[0, 2 ^ n)` and clear of all slots. -/
def IsFree (r : Region ρ) (n : Nat) (addr : Int) (w : Nat) : Prop :=
  Within n addr w ∧
    ∀ s ∈ r.taken, ∀ a, addr ≤ a ∧ a < addr + 2 ^ w → ¬ (s.lo ≤ a ∧ a < s.hi)

/-- The region has one slot more, on addresses that were vacant, and is else the same. -/
structure Takes (r r' : Region ρ) (slot : Slot ρ) : Prop where
  taken : r'.taken.Perm (slot :: r.taken)
  vacant : ∀ addr, r'.IsVacant addr ↔ r.IsVacant addr ∧ ¬ (slot.lo ≤ addr ∧ addr < slot.hi)
  reserved : r'.reserved = r.reserved

theorem isVacant_sorted (r : Region ρ) (addr : Int) : r.sorted.IsVacant addr ↔ r.IsVacant addr := by
  unfold IsVacant Gap.Holds
  simp only [r.sorted_vacant_perm.mem_iff]

theorem Takes.sorted {slot : Slot ρ} (h : r.Takes r' slot) : r.Takes r'.sorted slot :=
  ⟨r'.sorted_taken_perm.trans h.taken, fun addr => (r'.isVacant_sorted addr).trans (h.vacant addr),
    h.reserved⟩

theorem Takes.of_sorted {slot : Slot ρ} (h : r.sorted.Takes r' slot) : r.Takes r' slot :=
  ⟨h.taken.trans (r.sorted_taken_perm.cons _),
    fun addr => (h.vacant addr).trans (and_congr_left fun _ => r.isVacant_sorted addr), h.reserved⟩

theorem Accounted.takes_occupy (h : r.Accounted lost n)
    (hc : Gap.Carved r.vacant lo hi gaps) (hlt : lo < hi) (item : ρ) :
    r.Takes (({ r with vacant := gaps }).occupy lo hi .item item).1 ⟨lo, hi, item⟩ :=
  ⟨List.perm_append_singleton _ _, fun addr => h.isVacant_of_carved hc hlt addr, rfl⟩

/-- The region has one reserved range more, on addresses that were vacant, and is else the same. -/
structure Reserves (r r' : Region ρ) (k : Reserve) : Prop where
  taken : r'.taken.Perm r.taken
  vacant : ∀ addr, r'.IsVacant addr ↔ r.IsVacant addr ∧ ¬ (k.lo ≤ addr ∧ addr < k.hi)
  reserved : r'.reserved = r.reserved ++ [k]

theorem Reserves.of_sorted {k : Reserve} (h : r.sorted.Reserves r' k) : r.Reserves r' k :=
  ⟨h.taken.trans r.sorted_taken_perm,
    fun addr => (h.vacant addr).trans (and_congr_left fun _ => r.isVacant_sorted addr), h.reserved⟩

theorem Accounted.reserves_occupy (h : r.Accounted lost n)
    (hc : Gap.Carved r.vacant lo hi gaps) (hlt : lo < hi) (item : ρ) :
    r.Reserves (({ r with vacant := gaps }).occupy lo hi .reserve item).1 ⟨lo, hi, false⟩ :=
  ⟨List.Perm.refl _, fun addr => h.isVacant_of_carved hc hlt addr, rfl⟩

/-! ### Soundness -/

/-- A region over `[0, 2 ^ n)`, wherever it stands, whose ranges tile it and whose gaps can be cut. -/
structure Sound (r : Region ρ) (n : Nat) : Prop where
  tiled : r.Tiled n
  movable : ∀ g ∈ r.vacant, g.fixed = false
  extent : r.extent = 2 ^ n
  base : 0 ≤ r.base

theorem Fresh.sound (h : r.Fresh n) : r.Sound n where
  tiled := h.tiled
  movable := h.ready.movable
  extent := h.extent
  base := h.base.ge

namespace Sound

variable {addr : Int} {w : Nat}

section

variable (h : r.Sound n)

include h

theorem sorted : r.sorted.Sound n where
  tiled := h.tiled.sorted
  movable g hg := h.movable g (r.sorted_vacant_perm.mem_iff.mp hg)
  extent := h.extent
  base := h.base

theorem gap_bounds (hn : n ≤ 53) {g : Gap} (hg : g ∈ r.vacant) :
    0 ≤ g.lo ∧ g.lo < g.hi ∧ g.hi ≤ 2 ^ 53 := by
  have hb := h.tiled.gap_bounds hg
  have htop : (2 : Int) ^ n ≤ 2 ^ 53 := pow_le_pow_right₀ (by norm_num) hn
  omega

theorem place (hn : n ≤ 53) (hasItem : ρ → Bool) (width : Int) (item : ρ)
    (addr : Option Int) {purpose : Purpose} (hp : purpose = .item ∨ purpose = .reserve) :
    (r.place hasItem width item addr purpose).1.Sound n := by
  obtain ⟨hextent, hbase, -⟩ := r.place_frame hasItem width item addr purpose
  exact ⟨h.tiled.place hn hasItem width item addr hp,
    h.tiled.movable_place hn h.movable hasItem width item addr purpose,
    hextent.trans h.extent, hbase.symm ▸ h.base⟩

/-- Where a region stands plays no part for what is vacant in it. -/
theorem ready (hk : r.reserved = []) : ({ r with base := 0 } : Region ρ).Ready n where
  reserved := hk
  base := rfl
  extent := h.extent
  movable := h.movable
  tiled := ⟨h.tiled.tiles, h.tiled.taken_block, h.tiled.reserved_block, h.tiled.apart⟩

/-- Without reserved ranges the blocks that are offered are the free ones. -/
theorem offers_iff_free (hk : r.reserved = []) :
    r.Offers w 0 addr ↔ r.IsFree n addr w := by
  have hpos := Number.two_pow_pos w
  rw [h.tiled.offers_iff]
  constructor
  · rintro ⟨h0, hdvd, g, hg, hlo, hhi⟩
    have hb := h.tiled.gap_bounds hg
    refine ⟨⟨h0, hdvd, by omega⟩, fun s hs a ha => ?_⟩
    have := h.tiled.slot_gap hs hg
    omega
  · rintro ⟨hw, hfree⟩
    refine ⟨hw.1, hw.2.1, (h.ready hk).exists_gap hw fun s hs => ?_⟩
    -- else the higher one of the two starts would be in both ranges
    have := hfree s hs (max addr s.lo)
    have := h.tiled.slot_bounds hs
    omega

theorem width_le (hoffer : r.Offers w 0 addr) : w ≤ n := by
  obtain ⟨h0, -, g, hg, hlo, hhi⟩ := h.tiled.offers_iff.mp hoffer
  obtain ⟨-, -, hgtop⟩ := h.tiled.gap_bounds hg
  by_contra hc
  have : (2 : Int) ^ n < 2 ^ w := pow_lt_pow_right₀ (by norm_num) (by omega)
  omega

end

/-! ### Blocks at an address -/

variable (h : r.Sound n) (hn : n ≤ 32) (hwalk : r.sorted.walk.complete = true) (hasItem : ρ → Bool)
  (item : ρ) (hoffer : r.Offers w 0 addr)

include h hn hwalk hoffer

/-- A block that is offered is carved out of its gap, where a walk is complete. -/
theorem insert_of_offers (purpose : Purpose) :
    ∃ gaps, Gap.Carved r.vacant addr (addr + 2 ^ w) gaps ∧
      r.insert hasItem addr w purpose item =
        ({ r.sorted with vacant := gaps }).occupy addr (addr + 2 ^ w) purpose item := by
  obtain ⟨h0, hdvd, g, hg, hlo, hhi⟩ := h.tiled.offers_iff.mp hoffer
  obtain ⟨-, -, hgtop⟩ := h.tiled.gap_bounds hg
  have hpos := Number.two_pow_pos w
  have hwn : w ≤ n := h.width_le hoffer
  have hvet : r.vet addr w = .ok () := by
    refine vet_of_aligned (by omega) h0 hdvd ?_
    have := h.base
    unfold top
    rw [h.extent]
    omega
  have hfit := h.tiled.fit_of_complete hwalk hg hlo (by omega : addr < addr + 2 ^ w) hhi
  have hunique : ∀ g' ∈ r.sorted.vacant, g'.lo = g.lo → g' = g := by
    intro g' hg' he
    rw [h.tiled.sorted_vacant] at hg'
    exact h.tiled.apart.eq_of_lo (fun g hg => (h.tiled.gap_bounds hg).2.1) hg' hg he
  obtain ⟨-, hok⟩ := takeFrom_of_mem (by rw [h.tiled.sorted_vacant]; exact hg) hunique addr (addr + 2 ^ w)
  obtain ⟨gaps, hgaps⟩ := hok _ (Gap.carve_eq_ok.mpr ⟨fun _ => h.movable g hg, rfl⟩)
  have hcarved := Gap.takeFrom_carved hlo hhi hgaps
  rw [h.tiled.sorted_vacant] at hcarved
  refine ⟨gaps, hcarved, ?_⟩
  rw [insert, hvet]
  simp only [Int.toNat_natCast, Number.natCast_twoPow, hfit, hgaps]

theorem insert_takes :
    ∃ r', r.insert hasItem addr w .item item = (r', .ok addr) ∧
      r.Takes r' ⟨addr, addr + 2 ^ w, item⟩ := by
  obtain ⟨gaps, hcarved, hinsert⟩ := h.insert_of_offers hn hwalk hasItem item hoffer .item
  rw [← h.tiled.sorted_vacant] at hcarved
  have hpos := Number.two_pow_pos w
  exact ⟨_, hinsert, (h.tiled.sorted.takes_occupy hcarved (by omega) item).of_sorted⟩

theorem insert_reserves :
    ∃ r', r.insert hasItem addr w .reserve item = (r', .ok addr) ∧
      r.Reserves r' ⟨addr, addr + 2 ^ w, false⟩ := by
  obtain ⟨gaps, hcarved, hinsert⟩ := h.insert_of_offers hn hwalk hasItem item hoffer .reserve
  rw [← h.tiled.sorted_vacant] at hcarved
  have hpos := Number.two_pow_pos w
  exact ⟨_, hinsert, (h.tiled.sorted.reserves_occupy hcarved (by omega) item).of_sorted⟩

end Sound

/-- A block that is not offered is refused, and nothing but the order of slots changes. -/
theorem insert_of_not_offers (h : r.Tiled n) (purpose : Purpose) (item : ρ) {addr : Int} {w : Nat}
    (hoffer : ¬ r.Offers w 0 addr) :
    ∃ e, r.insert hasItem addr w purpose item = (r, .error e) ∨
      r.insert hasItem addr w purpose item = (r.sorted, .error e) := by
  rcases r.insert_cases hasItem addr w purpose item with
    ⟨e, he⟩ | ⟨e, he⟩ | ⟨w', gaps, hw, h0, hdvd, ⟨before, g, after, hv, hlo, hhi, -⟩, -⟩
  · exact ⟨e, .inl he⟩
  · exact ⟨e, .inr he⟩
  · refine absurd (h.offers_iff.mpr ?_) hoffer
    obtain rfl : w = w' := by exact_mod_cast hw
    refine ⟨h0, hdvd, g, ?_, hlo, hhi⟩
    rw [← h.sorted_vacant, hv]
    simp

end Region

end RegisterMap
