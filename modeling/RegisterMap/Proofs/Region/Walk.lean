import RegisterMap.Proofs.Region.Cover

/-! # Walks over a region

A walk meets ranges of the region only (`Walk.subset_merge`), and when it is complete it meets each of
them once (`Walk.merge_perm`).  It goes through ascending lists in ascending order
(`Walk.merge_ascending`), and it is complete exactly if behind every reserved range with a slot behind
it there is a gap as well (`Walk.complete_merge_iff`).  Ascending ranges that tile the addresses of a
region pass the check of completeness (`contiguous_of_tiles`), and no others do
(`tiles_of_contiguous`). -/

namespace RegisterMap

open List

variable {ρ : Type}

/-- All ranges of a region. -/
def Region.ranges (r : Region ρ) : List (Entry ρ) :=
  r.taken.map Slot.entry ++ r.vacant.map Gap.entry ++ r.reserved.map Reserve.entry

theorem le_of_ascending {α : Type} {f : α → Int} {x : α} {xs : List α}
    (h : (x :: xs).Pairwise fun a b => f a ≤ f b) {b : Int} (hb : b ≤ f x) : ∀ y ∈ x :: xs, b ≤ f y :=
  forall_mem_cons.mpr ⟨hb, fun y hy => hb.trans ((pairwise_cons.mp h).1 y hy)⟩

namespace Walk

section

variable (ms : List (Slot ρ)) (vs : List Gap) (ks : List Reserve)

include ms vs ks

/-- A walk meets ranges of the region, each once, and all if it is complete. -/
theorem merge_split :
    ∃ rest, ((merge ms vs ks).entries ++ rest).Perm
        (ms.map Slot.entry ++ vs.map Gap.entry ++ ks.map Reserve.entry) ∧
      ((merge ms vs ks).complete = true → rest = []) := by
  have hmid : ∀ {e : Entry ρ} {xs as bs cs : List (Entry ρ)}, xs.Perm (as ++ bs ++ cs) →
      (e :: xs).Perm (as ++ (e :: bs) ++ cs) := by
    intro e xs as bs cs h
    refine (h.cons e).trans ?_
    rw [append_assoc, append_assoc, cons_append]
    exact perm_middle.symm
  have hend : ∀ {e : Entry ρ} {xs as cs : List (Entry ρ)}, xs.Perm (as ++ cs) →
      (e :: xs).Perm (as ++ (e :: cs)) :=
    fun h => (h.cons _).trans perm_middle.symm
  fun_induction merge ms vs ks with
  | case1 => exact ⟨[], List.Perm.refl _, fun _ => rfl⟩
  | case2 m ms ih | case3 v vs ih | case4 m ms v vs hlt ih | case6 k ks ih
  | case8 v vs k ks hlt ih | case10 m ms k ks hlt ih | case12 m ms v vs k ks hlt hlt' ih =>
    obtain ⟨rest, hp, hc⟩ := ih
    exact ⟨rest, hp.cons _, hc⟩
  | case5 m ms v vs hlt ih | case13 m ms v vs k ks hlt hlt' ih =>
    obtain ⟨rest, hp, hc⟩ := ih
    exact ⟨rest, hmid hp, hc⟩
  | case7 v vs k ks hlt ih | case11 m ms v vs k ks hlt ih =>
    obtain ⟨rest, hp, hc⟩ := ih
    exact ⟨rest, hend hp, hc⟩
  | case9 m ms k ks hlt => exact ⟨_, List.Perm.refl _, fun h => by cases h⟩

theorem subset_merge :
    (merge ms vs ks).entries ⊆
      ms.map Slot.entry ++ vs.map Gap.entry ++ ks.map Reserve.entry := by
  obtain ⟨rest, hp, -⟩ := merge_split ms vs ks
  exact fun e he => hp.subset (mem_append_left _ he)

theorem merge_perm (h : (merge ms vs ks).complete = true) :
    (merge ms vs ks).entries.Perm (ms.map Slot.entry ++ vs.map Gap.entry ++ ks.map Reserve.entry) := by
  obtain ⟨rest, hp, hc⟩ := merge_split ms vs ks
  rwa [hc h, append_nil] at hp

end

/-- The merged lists ascend, and no slot starts where a reserved range does. -/
structure Ascending (ms : List (Slot ρ)) (vs : List Gap) (ks : List Reserve) : Prop where
  slots : ms.Pairwise fun a b => a.lo ≤ b.lo
  gaps : vs.Pairwise fun a b => a.lo ≤ b.lo
  reserves : ks.Pairwise fun a b => a.lo ≤ b.lo
  distinct : ∀ m ∈ ms, ∀ k ∈ ks, m.lo ≠ k.lo

variable {ms : List (Slot ρ)} {vs : List Gap} {ks : List Reserve} {m : Slot ρ} {v : Gap} {k : Reserve}

theorem Ascending.dropSlot (h : Ascending (m :: ms) vs ks) : Ascending ms vs ks :=
  ⟨h.slots.of_cons, h.gaps, h.reserves, fun x hx => h.distinct x (mem_cons_of_mem _ hx)⟩

theorem Ascending.dropGap (h : Ascending ms (v :: vs) ks) : Ascending ms vs ks :=
  ⟨h.slots, h.gaps.of_cons, h.reserves, h.distinct⟩

theorem Ascending.dropReserve (h : Ascending ms vs (k :: ks)) : Ascending ms vs ks :=
  ⟨h.slots, h.gaps, h.reserves.of_cons, fun x hx y hy => h.distinct x hx y (mem_cons_of_mem _ hy)⟩

theorem cons_ascending {e : Entry ρ} (hm : ∀ m ∈ ms, e.lo ≤ m.lo) (hv : ∀ v ∈ vs, e.lo ≤ v.lo)
    (hk : ∀ k ∈ ks, e.lo ≤ k.lo)
    (h : (merge ms vs ks).entries.Pairwise fun a b => a.lo ≤ b.lo) :
    (cons e (merge ms vs ks)).entries.Pairwise fun a b => a.lo ≤ b.lo := by
  refine pairwise_cons.mpr ⟨fun x hx => ?_, h⟩
  have := subset_merge ms vs ks hx
  simp only [mem_append, mem_map] at this
  rcases this with (⟨m, hm', rfl⟩ | ⟨v, hv', rfl⟩) | ⟨k, hk', rfl⟩
  · exact hm m hm'
  · exact hv v hv'
  · exact hk k hk'

/-- A walk over ascending lists is ascending, as far as it goes. -/
theorem merge_ascending (h : Ascending ms vs ks) :
    (merge ms vs ks).entries.Pairwise fun a b => a.lo ≤ b.lo := by
  fun_induction merge ms vs ks with
  | case1 | case9 => exact List.Pairwise.nil
  | case2 m ms ih =>
    exact cons_ascending (pairwise_cons.mp h.slots).1 (by simp) (by simp) (ih h.dropSlot)
  | case3 v vs ih =>
    exact cons_ascending (by simp) (pairwise_cons.mp h.gaps).1 (by simp) (ih h.dropGap)
  | case4 m ms v vs hlt ih =>
    exact cons_ascending (pairwise_cons.mp h.slots).1 (le_of_ascending h.gaps hlt.le) (by simp)
      (ih h.dropSlot)
  | case5 m ms v vs hlt ih =>
    exact cons_ascending (le_of_ascending h.slots (not_lt.mp hlt)) (pairwise_cons.mp h.gaps).1
      (by simp) (ih h.dropGap)
  | case6 k ks ih =>
    exact cons_ascending (by simp) (by simp) (pairwise_cons.mp h.reserves).1 (ih h.dropReserve)
  | case7 v vs k ks hlt ih =>
    exact cons_ascending (by simp) (le_of_ascending h.gaps hlt.le)
      (pairwise_cons.mp h.reserves).1 (ih h.dropReserve)
  | case8 v vs k ks hlt ih =>
    exact cons_ascending (by simp) (pairwise_cons.mp h.gaps).1
      (le_of_ascending h.reserves (not_lt.mp hlt)) (ih h.dropGap)
  | case10 m ms k ks hlt ih =>
    exact cons_ascending (pairwise_cons.mp h.slots).1 (by simp)
      (le_of_ascending h.reserves (not_lt.mp hlt)) (ih h.dropSlot)
  | case11 m ms v vs k ks hlt ih =>
    exact cons_ascending (le_of_ascending h.slots (by simp only [Reserve.entry]; omega))
      (le_of_ascending h.gaps (by simp only [Reserve.entry]; omega))
      (pairwise_cons.mp h.reserves).1 (ih h.dropReserve)
  | case12 m ms v vs k ks hlt hlt' ih =>
    exact cons_ascending (pairwise_cons.mp h.slots).1
      (le_of_ascending h.gaps (by simp only [Slot.entry]; omega))
      (le_of_ascending h.reserves (by simp only [Slot.entry]; omega)) (ih h.dropSlot)
  | case13 m ms v vs k ks hlt hlt' ih =>
    have hne := h.distinct m mem_cons_self k mem_cons_self
    exact cons_ascending (le_of_ascending h.slots (by simp only [Gap.entry]; omega))
      (pairwise_cons.mp h.gaps).1
      (le_of_ascending h.reserves (by simp only [Gap.entry]; omega)) (ih h.dropGap)

/-- Every reserved range with a slot behind it also has a gap behind it. -/
def Backed (ms : List (Slot ρ)) (vs : List Gap) (ks : List Reserve) : Prop :=
  ∀ k ∈ ks, ∀ m ∈ ms, k.lo < m.lo → ∃ v ∈ vs, k.lo < v.lo

theorem backed_cons_slot (hm : ∀ k ∈ ks, m.lo ≤ k.lo) : Backed (m :: ms) vs ks ↔ Backed ms vs ks := by
  refine forall₂_congr fun k hk => ?_
  rw [forall_mem_cons]
  exact and_iff_right fun hlt => absurd hlt (not_lt.mpr (hm k hk))

theorem backed_cons_gap (hv : ∀ k ∈ ks, v.lo ≤ k.lo) : Backed ms (v :: vs) ks ↔ Backed ms vs ks := by
  refine forall₂_congr fun k hk => forall₂_congr fun m _ => imp_congr_right fun _ => ?_
  rw [exists_mem_cons_iff]
  exact or_iff_right (not_lt.mpr (hv k hk))

theorem backed_cons_reserve (hk : ∃ v ∈ vs, k.lo < v.lo) :
    Backed ms vs (k :: ks) ↔ Backed ms vs ks := by
  unfold Backed
  rw [forall_mem_cons]
  exact and_iff_right fun _ _ _ => hk

/-- A walk over ascending lists is complete exactly if behind every reserved range with a slot behind
it there is a gap. -/
theorem complete_merge_iff (h : Ascending ms vs ks) :
    (merge ms vs ks).complete = true ↔ Backed ms vs ks := by
  fun_induction merge ms vs ks with
  | case1 => simp [Backed]
  | case2 m ms ih | case4 m ms v vs hlt ih => exact (ih h.dropSlot).trans (by simp [Backed])
  | case3 v vs ih => exact (ih h.dropGap).trans (by simp [Backed])
  | case5 m ms v vs hlt ih => exact (ih h.dropGap).trans (by simp [Backed])
  | case6 k ks ih | case7 v vs k ks hlt ih => exact (ih h.dropReserve).trans (by simp [Backed])
  | case8 v vs k ks hlt ih => exact (ih h.dropGap).trans (by simp [Backed])
  | case9 m ms k ks hlt =>
    refine iff_of_false (by simp) fun hall => ?_
    obtain ⟨v, hv, -⟩ := hall k mem_cons_self m mem_cons_self hlt
    cases hv
  | case10 m ms k ks hlt ih =>
    exact (ih h.dropSlot).trans (backed_cons_slot (le_of_ascending h.reserves (not_lt.mp hlt))).symm
  | case11 m ms v vs k ks hlt ih =>
    exact (ih h.dropReserve).trans (backed_cons_reserve ⟨v, mem_cons_self, by omega⟩).symm
  | case12 m ms v vs k ks hlt hlt' ih =>
    exact (ih h.dropSlot).trans (backed_cons_slot (le_of_ascending h.reserves (by omega))).symm
  | case13 m ms v vs k ks hlt hlt' ih =>
    have hne := h.distinct m mem_cons_self k mem_cons_self
    exact (ih h.dropGap).trans (backed_cons_gap (le_of_ascending h.reserves (by omega))).symm

theorem complete_merge (ms : List (Slot ρ)) (vs : List Gap) : (merge ms vs []).complete = true := by
  generalize hk : ([] : List Reserve) = ks
  fun_induction merge ms vs ks <;> simp_all [cons]

/-- The reserved ranges of a walk that is complete come in the order of the list. -/
theorem filter_reserved_merge (ms : List (Slot ρ)) (vs : List Gap) (ks : List Reserve)
    (h : (merge ms vs ks).complete = true) :
    (merge ms vs ks).entries.filter (fun e => e.kind = .reserved) = ks.map Reserve.entry := by
  fun_induction merge ms vs ks <;> simp_all [cons, Slot.entry, Gap.entry, Reserve.entry]

end Walk

/-! ### The check of completeness -/

namespace Region

theorem contiguous_cons {name : String} {last : Option (Entry ρ)} {e : Entry ρ} {es : List (Entry ρ)} :
    contiguous name last (e :: es) = .ok () ↔
      last.elim 0 Entry.hi = e.lo ∧ contiguous name (some e) es = .ok () := by
  cases last with
  | none | some l =>
    rw [contiguous]
    split
    · exact iff_of_false (by simp) fun h => by simp_all
    · exact (and_iff_right (by simp_all)).symm

section

variable (name : String) (last : Option (Entry ρ))

include name last

/-- Ascending ranges that tile an interval follow each other up to its end. -/
theorem contiguous_of_tiles {es : List (Entry ρ)} {top : Int}
    (ht : Tiles es (last.elim 0 Entry.hi) top) (ha : es.Pairwise fun a b => a.lo ≤ b.lo) :
    contiguous name last es = .ok () ∧ ∀ e ∈ es.getLast?, e.hi = top := by
  induction es generalizing last with
  | nil => exact ⟨by cases last <;> rfl, by simp⟩
  | cons e es ih =>
    obtain ⟨ha1, ha2⟩ := pairwise_cons.mp ha
    have hlt := ht.nonempty e mem_cons_self
    have hb := ht.bounds (e := e) mem_cons_self
    -- the range that holds the first address of the interval is the first one
    have hlo : e.lo = last.elim 0 Entry.hi := by
      obtain ⟨x, hx, hxa⟩ := ht.exists_mem ⟨le_refl _, by omega⟩
      have hxb := ht.bounds hx
      rcases mem_cons.mp hx with rfl | hx
      · omega
      · have := ha1 x hx
        omega
    obtain ⟨hc, htop⟩ := ih (some e) (ht.tail hlo) ha2
    refine ⟨contiguous_cons.mpr ⟨hlo.symm, hc⟩, ?_⟩
    cases es with
    | nil =>
      have := (ht.tail hlo).of_nil
      intro x hx
      obtain rfl : e = x := by simpa using hx
      omega
    | cons e' es => rwa [getLast?_cons_cons]

/-- Ranges that are not empty and follow each other tile the interval between their ends. -/
theorem tiles_of_contiguous {es : List (Entry ρ)} {top : Int}
    (hne : ∀ e ∈ es, e.lo < e.hi) (hc : contiguous name last es = .ok ())
    (htop : ∀ e ∈ es.getLast?, e.hi = top) (hnil : es = [] → top = last.elim 0 Entry.hi) :
    last.elim 0 Entry.hi ≤ top ∧ Tiles es (last.elim 0 Entry.hi) top := by
  induction es generalizing last with
  | nil =>
    obtain rfl := hnil rfl
    refine ⟨le_refl _, by simp, fun addr => ?_⟩
    rw [coverage_nil, if_neg (by omega)]
  | cons e es ih =>
    have hlt := hne e mem_cons_self
    obtain ⟨hlo, hc'⟩ := contiguous_cons.mp hc
    have htop' : ∀ x ∈ es.getLast?, x.hi = top := by
      cases es with
      | nil => simp
      | cons e' es => rwa [getLast?_cons_cons] at htop
    have hnil' : es = [] → top = e.hi := by
      rintro rfl
      exact (htop e (by simp)).symm
    obtain ⟨hle, htiles⟩ := ih (some e) (fun x hx => hne x (mem_cons_of_mem _ hx)) hc' htop' hnil'
    simp only [Option.elim_some] at hle htiles
    refine ⟨by omega, hne, fun addr => ?_⟩
    rw [coverage_cons, htiles.once]
    split_ifs <;> omega

theorem ascending_of_contiguous {es : List (Entry ρ)}
    (hne : ∀ e ∈ es, e.lo < e.hi) (hc : contiguous name last es = .ok ()) :
    es.Pairwise (fun a b => a.lo ≤ b.lo) ∧ ∀ e ∈ es, last.elim 0 Entry.hi ≤ e.lo := by
  induction es generalizing last with
  | nil => simp
  | cons e es ih =>
    have hlt := hne e mem_cons_self
    obtain ⟨hlo, hc'⟩ := contiguous_cons.mp hc
    obtain ⟨hasc, hbehind⟩ := ih (some e) (fun x hx => hne x (mem_cons_of_mem _ hx)) hc'
    have hle : ∀ x ∈ es, e.lo ≤ x.lo := fun x hx => hlt.le.trans (hbehind x hx)
    exact ⟨pairwise_cons.mpr ⟨hle, hasc⟩,
      forall_mem_cons.mpr ⟨hlo.le, fun x hx => hlo.le.trans (hle x hx)⟩⟩

end

end Region

end RegisterMap
