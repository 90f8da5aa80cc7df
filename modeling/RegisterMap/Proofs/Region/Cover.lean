import Mathlib.Data.List.Pairwise
import Mathlib.Data.List.Perm.Basic
import Mathlib.Tactic.Linarith
import RegisterMap.Proofs.Number.Exact
import RegisterMap.Region.Allocate

/-! # Ranges that cover an interval

A list of ranges *tiles* an interval when every address of the interval lies in exactly one range of
the list and no range goes beyond the interval (`Tiles`).  How often an address is covered adds up
along a list and does not depend on the order of the list, so a range may be replaced by pieces that
cover the same addresses (`Tiles.replace`), and two different ranges of a tiling have no address in
common (`Tiles.disjoint`). -/

namespace RegisterMap

open List

variable {ρ : Type} {addr : Int} {es : List (Entry ρ)}

/-- `[lo, hi)` has a power of two of addresses and starts at a multiple of their number. -/
def IsBlock (lo hi : Int) : Prop := ∃ w : Nat, hi = lo + 2 ^ w ∧ (2 ^ w : Int) ∣ lo

def coverage (es : List (Entry ρ)) (addr : Int) : Nat := es.countP fun e => e.holds addr

/-- The ranges are not empty, and hold each address of `[bot, top)` once and no other. -/
structure Tiles (es : List (Entry ρ)) (bot top : Int) : Prop where
  nonempty : ∀ e ∈ es, e.lo < e.hi
  once : ∀ addr, coverage es addr = if bot ≤ addr ∧ addr < top then 1 else 0

theorem Entry.holds_iff {e : Entry ρ} : e.holds addr = true ↔ e.lo ≤ addr ∧ addr < e.hi := by
  simp [Entry.holds]

@[simp] theorem coverage_nil (addr : Int) : coverage ([] : List (Entry ρ)) addr = 0 := rfl

theorem coverage_cons (e : Entry ρ) (es : List (Entry ρ)) (addr : Int) :
    coverage (e :: es) addr = (if e.lo ≤ addr ∧ addr < e.hi then 1 else 0) + coverage es addr := by
  unfold coverage
  rw [countP_cons, Nat.add_comm]
  simp only [Entry.holds_iff]

theorem coverage_append (es es' : List (Entry ρ)) (addr : Int) :
    coverage (es ++ es') addr = coverage es addr + coverage es' addr :=
  countP_append

theorem coverage_perm {es' : List (Entry ρ)} (h : es.Perm es') (addr : Int) :
    coverage es addr = coverage es' addr :=
  h.countP_eq _

theorem coverage_pos : 0 < coverage es addr ↔ ∃ e ∈ es, e.lo ≤ addr ∧ addr < e.hi := by
  unfold coverage
  simp only [countP_pos_iff, Entry.holds_iff]

/-- Two ranges at different places of a list that hold one address cover it twice. -/
theorem two_le_coverage {e e' : Entry ρ} (he : e ∈ es)
    (he' : e' ∈ es) (hne : e ≠ e') (h : e.lo ≤ addr ∧ addr < e.hi)
    (h' : e'.lo ≤ addr ∧ addr < e'.hi) : 2 ≤ coverage es addr := by
  obtain ⟨before, after, rfl⟩ := append_of_mem he
  have hrest : e' ∈ before ++ after := by
    simp only [mem_append, mem_cons] at he' ⊢
    rcases he' with hb | rfl | ha
    · exact .inl hb
    · exact absurd rfl hne
    · exact .inr ha
  have hpos : 0 < coverage (before ++ after) addr := coverage_pos.mpr ⟨e', hrest, h'⟩
  rw [coverage_append] at hpos
  rw [coverage_append, coverage_cons, if_pos h]
  omega

theorem pairwise_of_coverage (hne : ∀ e ∈ es, e.lo < e.hi)
    (hc : ∀ addr, coverage es addr ≤ 1) : es.Pairwise fun a b => a.hi ≤ b.lo ∨ b.hi ≤ a.lo := by
  induction es with
  | nil => exact List.Pairwise.nil
  | cons e es ih =>
    have hlt := hne e mem_cons_self
    refine pairwise_cons.mpr ⟨fun x hx => ?_, ?_⟩
    · have hlt' := hne x (mem_cons_of_mem _ hx)
      by_contra hn
      have hpos : 0 < coverage es (max e.lo x.lo) :=
        coverage_pos.mpr ⟨x, hx, by omega, by omega⟩
      have hone := hc (max e.lo x.lo)
      rw [coverage_cons, if_pos (by omega)] at hone
      omega
    · refine ih (fun x hx => hne x (mem_cons_of_mem _ hx)) fun addr => ?_
      have := hc addr
      rw [coverage_cons] at this
      omega

namespace Tiles

variable {es es' : List (Entry ρ)} {bot top : Int} {e : Entry ρ} {addr : Int}

section

variable (h : Tiles es bot top)

include h

theorem perm (hp : es.Perm es') : Tiles es' bot top :=
  ⟨fun e he => h.nonempty e (hp.mem_iff.mpr he), fun addr => by rw [← coverage_perm hp, h.once]⟩

/-- Ranges that cover every address as often as those of a tiling tile the same interval. -/
theorem replace (hne : ∀ e ∈ es', e.lo < e.hi) (hc : ∀ addr, coverage es' addr = coverage es addr) :
    Tiles es' bot top :=
  ⟨hne, fun addr => by rw [hc, h.once]⟩

theorem coverage_le_one (addr : Int) : coverage es addr ≤ 1 := by
  rw [h.once]
  split <;> omega

theorem mem_interval (he : e ∈ es) (ha : e.lo ≤ addr ∧ addr < e.hi) : bot ≤ addr ∧ addr < top := by
  have hpos : 0 < coverage es addr := coverage_pos.mpr ⟨e, he, ha⟩
  rw [h.once] at hpos
  by_contra hc
  rw [if_neg hc] at hpos
  omega

theorem bounds (he : e ∈ es) : bot ≤ e.lo ∧ e.hi ≤ top := by
  have hlt := h.nonempty e he
  have h1 : bot ≤ e.lo ∧ e.lo < top := h.mem_interval he ⟨le_refl _, hlt⟩
  have h2 : bot ≤ e.hi - 1 ∧ e.hi - 1 < top := h.mem_interval he ⟨by omega, by omega⟩
  omega

theorem exists_mem (ha : bot ≤ addr ∧ addr < top) : ∃ e ∈ es, e.lo ≤ addr ∧ addr < e.hi := by
  apply coverage_pos.mp
  rw [h.once, if_pos ha]
  exact Nat.one_pos

theorem eq_of_holds {e' : Entry ρ} (he : e ∈ es) (he' : e' ∈ es) (ha : e.lo ≤ addr ∧ addr < e.hi)
    (ha' : e'.lo ≤ addr ∧ addr < e'.hi) : e = e' := by
  by_contra hne
  have h2 := two_le_coverage he he' hne ha ha'
  have h1 := h.coverage_le_one addr
  omega

theorem disjoint {e' : Entry ρ} (he : e ∈ es) (he' : e' ∈ es) (hne : e ≠ e') :
    e.hi ≤ e'.lo ∨ e'.hi ≤ e.lo := by
  have hlt := h.nonempty e he
  have hlt' := h.nonempty e' he'
  by_contra hc
  have h1 : e.lo ≤ max e.lo e'.lo ∧ max e.lo e'.lo < e.hi := by omega
  have h2 : e'.lo ≤ max e.lo e'.lo ∧ max e.lo e'.lo < e'.hi := by omega
  exact hne (h.eq_of_holds he he' h1 h2)

end

/-- What is left of a tiling without a first range at its start. -/
theorem tail (h : Tiles (e :: es) bot top) (hlo : e.lo = bot) : Tiles es e.hi top := by
  refine ⟨fun x hx => h.nonempty x (mem_cons_of_mem _ hx), ?_⟩
  intro addr
  have hlt := h.nonempty e mem_cons_self
  have htop := (h.bounds (e := e) mem_cons_self).2
  have hone := h.once addr
  rw [coverage_cons] at hone
  by_cases h1 : e.lo ≤ addr ∧ addr < e.hi
  · rw [if_pos h1, if_pos (by omega)] at hone
    rw [if_neg (by omega)]
    omega
  · rw [if_neg h1] at hone
    by_cases h2 : bot ≤ addr ∧ addr < top
    · rw [if_pos h2] at hone
      rw [if_pos (by omega)]
      omega
    · rw [if_neg h2] at hone
      rw [if_neg (by omega)]
      omega

theorem of_nil (h : Tiles ([] : List (Entry ρ)) bot top) : top ≤ bot := by
  by_contra hc
  have := h.once bot
  rw [if_pos (by omega)] at this
  cases this

end Tiles

/-! ### Carving a range out of a gap -/

namespace Gap

variable {hi lo : Int} {gaps gaps' : List Gap} {g : Gap}

/-- What is left of a gap below an address. -/
def below (g : Gap) (lo : Int) : List Gap := if g.lo < lo then [⟨g.lo, lo, false⟩] else []

/-- What is left of a gap from an address on. -/
def above (g : Gap) (hi : Int) : List Gap := if hi < g.hi then [⟨hi, g.hi, false⟩] else []

theorem carve_eq_ok {left : List Gap} : g.carve lo hi = .ok left ↔
      (g.lo < lo → g.fixed = false) ∧ left = g.below lo ++ g.above hi := by
  unfold carve below above
  by_cases h : g.lo < lo
  · by_cases hf : g.fixed = true
    · simp [h, hf]
    · simp only [if_pos h, if_neg hf]
      constructor
      · rintro ⟨⟩
        exact ⟨fun _ => by simpa using hf, rfl⟩
      · rintro ⟨-, rfl⟩
        rfl
  · simp only [if_neg h]
    constructor
    · rintro ⟨⟩
      exact ⟨fun hc => absurd hc h, rfl⟩
    · rintro ⟨-, rfl⟩
      rfl

/-- `[lo, hi)` lies in one of the gaps, and `gaps'` is what is left of them without it. -/
def Carved (gaps : List Gap) (lo hi : Int) (gaps' : List Gap) : Prop :=
  ∃ before g after, gaps = before ++ g :: after ∧ g.lo ≤ lo ∧ hi ≤ g.hi ∧
    gaps' = before ++ (g.below lo ++ g.above hi) ++ after

theorem Carved.cons (g : Gap) (h : Carved gaps lo hi gaps') :
    Carved (g :: gaps) lo hi (g :: gaps') := by
  obtain ⟨before, g', after, rfl, hlo, hhi, rfl⟩ := h
  exact ⟨g :: before, g', after, rfl, hlo, hhi, rfl⟩

theorem takeFirst_carved {w : Nat} {start : Int}
    (hb : ∀ g ∈ gaps, 0 ≤ g.lo ∧ g.lo < g.hi ∧ g.hi ≤ 2 ^ 53)
    (h : takeFirst w gaps = .ok (some (start, gaps'))) :
    Carved gaps start (start + 2 ^ w) gaps' ∧ (2 ^ w : Int) ∣ start := by
  induction gaps generalizing gaps' with
  | nil => cases h
  | cons g gs ih =>
    obtain ⟨h0, hlt, htop⟩ := hb g mem_cons_self
    unfold takeFirst at h
    simp only [Number.natCast_twoPow] at h
    split at h
    · cases h
    split at h
    · rename_i _ hfit
      obtain ⟨hle, hdvd⟩ := Number.alignUp_of_fits h0 (by omega) htop hfit
      cases hc : g.carve (Number.alignUp g.lo w) (Number.alignUp g.lo w + 2 ^ w) with
      | error f => rw [hc] at h; cases h
      | ok left =>
        rw [hc] at h
        obtain ⟨rfl, rfl⟩ := Prod.mk.inj (Option.some.inj (Except.ok.inj h))
        obtain ⟨-, rfl⟩ := carve_eq_ok.mp hc
        exact ⟨⟨[], g, gs, rfl, hle, by omega, by simp⟩, hdvd⟩
    · cases ht : takeFirst w gs with
      | error f => rw [ht] at h; cases h
      | ok found =>
        rw [ht] at h
        match found, h with
        | some (start', gs'), h =>
          obtain ⟨rfl, rfl⟩ := Prod.mk.inj (Option.some.inj (Except.ok.inj h))
          obtain ⟨hcarved, hdvd⟩ := ih (fun g' hg' => hb g' (mem_cons_of_mem _ hg')) ht
          exact ⟨hcarved.cons g, hdvd⟩

theorem takeFrom_carved {ends : Int × Int}
    (hlo : ends.1 ≤ lo) (hhi : hi ≤ ends.2) (h : takeFrom ends lo hi gaps = .ok (some gaps')) :
    Carved gaps lo hi gaps' := by
  induction gaps generalizing gaps' with
  | nil => cases h
  | cons g gs ih =>
    unfold takeFrom at h
    split at h
    · rename_i hends
      cases hc : g.carve lo hi with
      | error f => rw [hc] at h; cases h
      | ok left =>
        rw [hc] at h
        obtain rfl := Option.some.inj (Except.ok.inj h)
        obtain ⟨-, rfl⟩ := carve_eq_ok.mp hc
        exact ⟨[], g, gs, rfl, by omega, by omega, by simp⟩
    · cases ht : takeFrom ends lo hi gs with
      | error f => rw [ht] at h; cases h
      | ok found =>
        rw [ht] at h
        match found, h with
        | some gs', h =>
          obtain rfl := Option.some.inj (Except.ok.inj h)
          exact (ih ht).cons g

/-- The gap without a block and the block cover what the gap covered. -/
theorem coverage_below_above (hlo : g.lo ≤ lo) (hlt : lo < hi) (hhi : hi ≤ g.hi) (addr : Int) :
    coverage ((g.below lo ++ g.above hi).map (Gap.entry (ρ := ρ))) addr +
        (if lo ≤ addr ∧ addr < hi then 1 else 0) =
      if g.lo ≤ addr ∧ addr < g.hi then 1 else 0 := by
  have hbelow : coverage ((g.below lo).map (Gap.entry (ρ := ρ))) addr =
      if g.lo ≤ addr ∧ addr < lo then 1 else 0 := by
    unfold below
    split
    · rw [map_singleton, coverage_cons, coverage_nil]
      rfl
    · rw [if_neg (by omega), map_nil, coverage_nil]
  have habove : coverage ((g.above hi).map (Gap.entry (ρ := ρ))) addr =
      if hi ≤ addr ∧ addr < g.hi then 1 else 0 := by
    unfold above
    split
    · rw [map_singleton, coverage_cons, coverage_nil]
      rfl
    · rw [if_neg (by omega), map_nil, coverage_nil]
  rw [map_append, coverage_append, hbelow, habove]
  split_ifs <;> omega

theorem Carved.coverage (h : Carved gaps lo hi gaps') (hlt : lo < hi) (addr : Int) :
    RegisterMap.coverage (gaps'.map (Gap.entry (ρ := ρ))) addr +
        (if lo ≤ addr ∧ addr < hi then 1 else 0) =
      RegisterMap.coverage (gaps.map (Gap.entry (ρ := ρ))) addr := by
  obtain ⟨before, g, after, rfl, hlo, hhi, rfl⟩ := h
  have hg := coverage_below_above (ρ := ρ) hlo hlt hhi addr
  have hentry : RegisterMap.coverage [g.entry (ρ := ρ)] addr =
      if g.lo ≤ addr ∧ addr < g.hi then 1 else 0 := by
    rw [coverage_cons, coverage_nil]
    rfl
  have hsplit : (before ++ g :: after).map (Gap.entry (ρ := ρ)) =
      before.map Gap.entry ++ ([g.entry] ++ after.map Gap.entry) := by simp
  rw [hsplit, map_append, map_append]
  simp only [coverage_append] at hg ⊢
  rw [hentry]
  omega

theorem Carved.nonempty (h : Carved gaps lo hi gaps')
    (hne : ∀ g ∈ gaps, g.lo < g.hi) : ∀ g ∈ gaps', g.lo < g.hi := by
  obtain ⟨before, g, after, rfl, hlo, hhi, rfl⟩ := h
  intro x hx
  simp only [below, above, mem_append] at hx
  rcases hx with (hb | hb | ha) | ha
  · exact hne x (by simp [hb])
  · split at hb
    · obtain rfl := mem_singleton.mp hb
      assumption
    · cases hb
  · split at ha
    · obtain rfl := mem_singleton.mp ha
      assumption
    · cases ha
  · exact hne x (by simp [ha])

/-- The gaps ascend and no two of them touch. -/
def Apart (gaps : List Gap) : Prop := gaps.Pairwise fun g g' => g.hi < g'.lo

theorem Apart.eq_of_lo (ha : Apart gaps) (hne : ∀ g ∈ gaps, g.lo < g.hi)
    {g' : Gap} (hg : g ∈ gaps) (hg' : g' ∈ gaps) (he : g.lo = g'.lo) : g = g' := by
  by_contra hc
  have hsep : gaps.Pairwise fun a b => a.hi < b.lo ∨ b.hi < a.lo := ha.imp fun h => .inl h
  have : Std.Symm fun a b : Gap => a.hi < b.lo ∨ b.hi < a.lo := ⟨fun _ _ h => Or.symm h⟩
  have hlt := hne g hg
  have hlt' := hne g' hg'
  rcases hsep.forall hg hg' hc with h | h <;> omega

theorem Carved.apart (h : Carved gaps lo hi gaps') (hlt : lo < hi) (ha : Apart gaps) : Apart gaps' := by
  obtain ⟨before, g, after, rfl, hlo, hhi, rfl⟩ := h
  unfold Apart at ha ⊢
  rw [pairwise_append, pairwise_cons] at ha
  obtain ⟨hbefore, ⟨hg, hafter⟩, hcross⟩ := ha
  have hpiece : ∀ x ∈ g.below lo ++ g.above hi, g.lo ≤ x.lo ∧ x.hi ≤ g.hi := by
    intro x hx
    simp only [below, above, mem_append] at hx
    rcases hx with hx | hx
    · split at hx
      · obtain rfl := mem_singleton.mp hx
        exact ⟨le_refl _, by simp only; omega⟩
      · cases hx
    · split at hx
      · obtain rfl := mem_singleton.mp hx
        exact ⟨by simp only; omega, le_refl _⟩
      · cases hx
  have hpieces : (g.below lo ++ g.above hi).Pairwise fun x y => x.hi < y.lo := by
    unfold below above
    split <;> split <;> simp [hlt]
  refine pairwise_append.mpr ⟨pairwise_append.mpr ⟨hbefore, hpieces, ?_⟩, hafter, ?_⟩
  · intro x hx y hy
    have h1 := hcross x hx g mem_cons_self
    have h2 := hpiece y hy
    omega
  · intro x hx y hy
    rcases mem_append.mp hx with hx | hx
    · exact hcross x hx y (mem_cons_of_mem _ hy)
    · have h1 := hpiece x hx
      have h2 := hg y hy
      omega

end Gap

end RegisterMap
