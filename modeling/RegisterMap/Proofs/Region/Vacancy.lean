import RegisterMap.Proofs.Region.Release
import RegisterMap.Proofs.Region.Series

/-! # What is vacant

Gaps that ascend without touching are known by the addresses that they cover
(`Gap.eq_of_coverage`).  In a region that items are placed in and nothing else (`Region.Ready`) the
vacant addresses are those of no slot, so slots determine gaps (`Ready.vacant_eq`).

A block at an address is placed exactly if it is aligned, inside the region and apart from all slots
(`Ready.insert_iff`).  None of that depends on an order: placements at addresses may be made in any
order, and those without an address that follow find the same gaps (`placeAll_perm`). -/

namespace RegisterMap

open List

variable {ρ : Type}

namespace Gap

variable {gs : List Gap}

theorem Apart.lo_le {g x : Gap} (ha : Apart (g :: gs)) (hne : ∀ y ∈ g :: gs, y.lo < y.hi)
    (hx : x ∈ g :: gs) : g.lo ≤ x.lo := by
  rcases mem_cons.mp hx with rfl | hx
  · exact le_refl _
  · have hlt := (pairwise_cons.mp ha).1 x hx
    have := hne g mem_cons_self
    omega

theorem coverage_gaps_pos {addr : Int} :
    0 < coverage (gs.map (Gap.entry (ρ := ρ))) addr ↔ ∃ g ∈ gs, g.lo ≤ addr ∧ addr < g.hi := by
  rw [coverage_pos]
  constructor
  · rintro ⟨e, he, h⟩
    obtain ⟨g, hg, rfl⟩ := mem_map.mp he
    exact ⟨g, hg, h⟩
  · rintro ⟨g, hg, h⟩
    exact ⟨g.entry, mem_map_of_mem hg, h⟩

/-- Of two lists of gaps with the same addresses, neither starts before the other; and if they start at
one address, neither first gap ends behind the other. -/
theorem Apart.head_le {g g' : Gap} {gs' : List Gap} (ha' : Apart (g' :: gs'))
    (hlt : g.lo < g.hi) (hne' : ∀ y ∈ g' :: gs', y.lo < y.hi)
    (hc : ∀ addr, coverage ((g :: gs).map (Gap.entry (ρ := ρ))) addr =
      coverage ((g' :: gs').map (Gap.entry (ρ := ρ))) addr) :
    g'.lo ≤ g.lo ∧ (g.lo = g'.lo → g.hi ≤ g'.hi) := by
  have covered : ∀ addr, g.lo ≤ addr → addr < g.hi → ∃ x ∈ g' :: gs', x.lo ≤ addr ∧ addr < x.hi := by
    intro addr hlo hhi
    have hpos : 0 < coverage ((g :: gs).map (Gap.entry (ρ := ρ))) addr :=
      coverage_gaps_pos.mpr ⟨g, mem_cons_self, hlo, hhi⟩
    rw [hc] at hpos
    exact coverage_gaps_pos.mp hpos
  constructor
  · obtain ⟨x, hx, hlo, -⟩ := covered g.lo (le_refl _) hlt
    exact (ha'.lo_le hne' hx).trans hlo
  · intro heq
    by_contra hend
    have hlt' := hne' g' mem_cons_self
    -- the address behind the first gap would be in a gap that touches it
    obtain ⟨x, hx, hlo, hhi⟩ := covered g'.hi (by omega) (by omega)
    rcases mem_cons.mp hx with rfl | hx
    · omega
    · have := (pairwise_cons.mp ha').1 x hx
      omega

theorem eq_of_coverage {gs' : List Gap} (ha : Apart gs) (ha' : Apart gs')
    (hne : ∀ g ∈ gs, g.lo < g.hi) (hne' : ∀ g ∈ gs', g.lo < g.hi) (hf : ∀ g ∈ gs, g.fixed = false)
    (hf' : ∀ g ∈ gs', g.fixed = false)
    (hc : ∀ addr, coverage (gs.map (Gap.entry (ρ := ρ))) addr =
      coverage (gs'.map (Gap.entry (ρ := ρ))) addr) : gs = gs' := by
  induction gs generalizing gs' with
  | nil =>
    cases gs' with
    | nil => rfl
    | cons g' gs' =>
      have hlt := hne' g' mem_cons_self
      have hpos : 0 < coverage ((g' :: gs').map (Gap.entry (ρ := ρ))) g'.lo :=
        coverage_gaps_pos.mpr ⟨g', mem_cons_self, le_refl _, hlt⟩
      rw [← hc] at hpos
      exact absurd hpos (Nat.lt_irrefl 0)
  | cons g gs ih =>
    cases gs' with
    | nil =>
      have hlt := hne g mem_cons_self
      have hpos : 0 < coverage ((g :: gs).map (Gap.entry (ρ := ρ))) g.lo :=
        coverage_gaps_pos.mpr ⟨g, mem_cons_self, le_refl _, hlt⟩
      rw [hc] at hpos
      exact absurd hpos (Nat.lt_irrefl 0)
    | cons g' gs' =>
      obtain ⟨hlo, hhi⟩ := ha'.head_le (hne g mem_cons_self) hne' hc
      obtain ⟨hlo', hhi'⟩ :=
        ha.head_le (hne' g' mem_cons_self) hne fun addr => (hc addr).symm
      have hfirst : g = g' := by
        have h1 : g.lo = g'.lo := le_antisymm hlo' hlo
        have h2 : g.hi = g'.hi := le_antisymm (hhi h1) (hhi' h1.symm)
        have h3 : g.fixed = g'.fixed :=
          (hf g mem_cons_self).trans (hf' g' mem_cons_self).symm
        cases g
        cases g'
        simp_all
      subst hfirst
      refine congrArg (g :: ·) (ih (pairwise_cons.mp ha).2 (pairwise_cons.mp ha').2
        (fun x hx => hne x (mem_cons_of_mem _ hx)) (fun x hx => hne' x (mem_cons_of_mem _ hx))
        (fun x hx => hf x (mem_cons_of_mem _ hx)) (fun x hx => hf' x (mem_cons_of_mem _ hx))
        fun addr => ?_)
      have := hc addr
      rw [map_cons, map_cons, coverage_cons, coverage_cons] at this
      omega

theorem Carved.movable {gaps gaps' : List Gap} {lo hi : Int} (h : Carved gaps lo hi gaps')
    (hf : ∀ g ∈ gaps, g.fixed = false) : ∀ g ∈ gaps', g.fixed = false := by
  obtain ⟨before, g, after, rfl, -, -, rfl⟩ := h
  intro x hx
  simp only [below, above, mem_append] at hx
  rcases hx with (hb | hb | ha) | ha
  · exact hf x (by simp [hb])
  · split at hb
    · rw [mem_singleton.mp hb]
    · cases hb
  · split at ha
    · rw [mem_singleton.mp ha]
    · cases ha
  · exact hf x (by simp [ha])

end Gap

/-- Two slots have no address in common. -/
def Slot.Clear (a b : Slot ρ) : Prop := a.hi ≤ b.lo ∨ b.hi ≤ a.lo

instance (a b : Slot ρ) : Decidable (a.Clear b) := inferInstanceAs (Decidable (_ ∨ _))

theorem Slot.Clear.symm {a b : Slot ρ} (h : a.Clear b) : b.Clear a := Or.symm h

namespace Region

variable {r r' : Region ρ} {n : Nat} {hasItem : ρ → Bool} {width : Int} {item : ρ}
  {addr : Option Int} {p : Region ρ} {os : List (Order ρ)}

/-- A region over `[0, 2 ^ n)` in which items may stand and nothing else was done. -/
structure Ready (r : Region ρ) (n : Nat) : Prop extends r.Whole n where
  tiled : r.Tiled n
  movable : ∀ g ∈ r.vacant, g.fixed = false

theorem Fresh.ready (h : r.Fresh n) : r.Ready n where
  reserved := h.reserved
  base := h.base
  extent := h.extent
  tiled := h.tiled
  movable := by simp [h.vacant]

/-- Gaps that can be cut can be cut after a request, whether it is granted or refused. -/
theorem Tiled.movable_place (h : r.Tiled n) (hn : n ≤ 53) (hm : ∀ g ∈ r.vacant, g.fixed = false)
    (hasItem : ρ → Bool) (width : Int) (item : ρ) (addr : Option Int) (purpose : Purpose) :
    ∀ g ∈ (r.place hasItem width item addr purpose).1.vacant, g.fixed = false := by
  cases addr with
  | none =>
    show ∀ g ∈ (r.push width item).1.vacant, g.fixed = false
    rcases r.push_cases width item with ⟨e, he⟩ | ⟨w, start, gaps, -, ht, he⟩
    · rw [he]
      exact hm
    · rw [he]
      have hgaps : ∀ g ∈ r.vacant, 0 ≤ g.lo ∧ g.lo < g.hi ∧ g.hi ≤ 2 ^ 53 := by
        intro g hg
        have hb := h.gap_bounds hg
        have htop : (2 : Int) ^ n ≤ 2 ^ 53 := pow_le_pow_right₀ (by norm_num) hn
        omega
      exact (Gap.takeFirst_carved hgaps ht).1.movable hm
  | some addr =>
    show ∀ g ∈ (r.insert hasItem addr width purpose item).1.vacant, g.fixed = false
    have hsorted : ∀ g ∈ r.sorted.vacant, g.fixed = false :=
      fun g hg => hm g (r.sorted_vacant_perm.mem_iff.mp hg)
    rcases r.insert_cases hasItem addr width purpose item with
      ⟨e, he⟩ | ⟨e, he⟩ | ⟨w, gaps, -, -, -, hc, he⟩
    · rw [he]
      exact hm
    · rw [he]
      exact hsorted
    · rw [he, occupy_vacant]
      exact hc.movable hsorted

namespace Ready

theorem sorted (h : r.Ready n) : r.sorted.Ready n where
  toWhole := h.toWhole.sorted
  tiled := h.tiled.sorted
  movable g hg := h.movable g (r.sorted_vacant_perm.mem_iff.mp hg)

theorem place (h : r.Ready n) (hn : n ≤ 53) (hasItem : ρ → Bool) (width : Int) (item : ρ)
    (addr : Option Int) : (r.place hasItem width item addr .item).1.Ready n where
  toWhole := h.toWhole.place hasItem width item addr
  tiled := h.tiled.place hn hasItem width item addr (.inl rfl)
  movable := h.tiled.movable_place hn h.movable hasItem width item addr .item

theorem check (h : r.Ready n) (hn : n ≤ 48) : r.sorted.check = .ok () :=
  (check_sorted_iff hn h.reserved h.extent (fun e he => h.tiled.ranges.nonempty e he)).mpr
    (.inr h.tiled.ranges)

theorem vacant_eq (h : r.Ready n) (h' : r'.Ready n) (ht : r.taken.Perm r'.taken) :
    r.vacant = r'.vacant := by
  refine Gap.eq_of_coverage (ρ := ρ) h.tiled.apart h'.tiled.apart (fun g hg => (h.tiled.gap_bounds hg).2.1)
    (fun g hg => (h'.tiled.gap_bounds hg).2.1) h.movable h'.movable fun addr => ?_
  have hone := h.tiled.ranges.once addr
  have hone' := h'.tiled.ranges.once addr
  rw [coverage_ranges, h.reserved] at hone
  rw [coverage_ranges, h'.reserved, ← coverage_perm (ht.map Slot.entry)] at hone'
  omega

end Ready

theorem taken_of_refused {e : Refusal ρ}
    (h : r.place hasItem width item addr .item = (r', .error e)) : r'.taken.Perm r.taken := by
  cases addr with
  | none =>
    have h : r.push width item = (r', .error e) := h
    rcases r.push_cases width item with ⟨e', he⟩ | ⟨w, start, gaps, -, -, he⟩
    · rw [he] at h
      cases h
      exact List.Perm.refl _
    · rw [he] at h
      cases h
  | some addr =>
    have h : r.insert hasItem addr width .item item = (r', .error e) := h
    rcases r.insert_cases hasItem addr width .item item with
      ⟨e', he⟩ | ⟨e', he⟩ | ⟨w, gaps, -, -, -, -, he⟩
    · rw [he] at h
      cases h
      exact List.Perm.refl _
    · rw [he] at h
      cases h
      exact r.sorted_taken_perm
    · rw [he] at h
      cases h

/-- A refused placement is refused again, and then changes nothing. -/
theorem place_refused_again {e : Refusal ρ}
    (h : r.place hasItem width item addr .item = (r', .error e)) :
    r'.place hasItem width item addr .item = (r', .error e) := by
  cases addr with
  | none =>
    have h : r.push width item = (r', .error e) := h
    show r'.push width item = (r', .error e)
    rcases r.push_cases width item with ⟨e', he⟩ | ⟨w, start, gaps, -, -, he⟩
    · rw [he] at h
      cases h
      exact he
    · rw [he] at h
      cases h
  | some addr =>
    have h : r.insert hasItem addr width .item item = (r', .error e) := h
    show r'.insert hasItem addr width .item item = (r', .error e)
    rcases r.insert_cases hasItem addr width .item item with
      ⟨e', he⟩ | ⟨e', he⟩ | ⟨w, gaps, -, -, -, -, he⟩
    · rw [he] at h
      cases h
      exact he
    · rw [he] at h
      cases h
      unfold insert at he ⊢
      rw [show r.sorted.vet addr width = r.vet addr width from rfl, sorted_sorted]
      cases hv : r.vet addr width with
      | error e'' =>
        rw [hv] at he
        have hsame : e'' = e := Except.error.inj (Prod.mk.inj he).2
        exact congrArg (fun x => (r.sorted, Except.error x)) hsame
      | ok u =>
        rw [hv] at he
        exact he
    · rw [he] at h
      cases h

/-! ### Blocks at addresses -/

/-- The block of `2 ^ w` addresses at `addr` is aligned and inside `[0, 2 ^ n)`. -/
def Within (n : Nat) (addr : Int) (w : Nat) : Prop :=
  0 ≤ addr ∧ (2 ^ w : Int) ∣ addr ∧ addr + 2 ^ w ≤ 2 ^ n

instance (n : Nat) (addr : Int) (w : Nat) : Decidable (Within n addr w) :=
  inferInstanceAs (Decidable (_ ∧ _ ∧ _))

section

variable (h : r.Ready n)

include h

theorem Ready.slot_or_gap {addr : Int} (h0 : 0 ≤ addr) (hend : addr < 2 ^ n) :
    (∃ s ∈ r.taken, s.lo ≤ addr ∧ addr < s.hi) ∨ ∃ g ∈ r.vacant, g.lo ≤ addr ∧ addr < g.hi := by
  obtain ⟨e, he, hholds⟩ := h.tiled.ranges.exists_mem ⟨h0, hend⟩
  unfold ranges at he
  rw [h.reserved] at he
  simp only [map_nil, append_nil, mem_append, mem_map] at he
  rcases he with ⟨s, hs, rfl⟩ | ⟨g, hg, rfl⟩
  · exact .inl ⟨s, hs, hholds⟩
  · exact .inr ⟨g, hg, hholds⟩

theorem Ready.exists_gap {addr : Int} {w : Nat} (hw : Within n addr w)
    (hfree : ∀ s ∈ r.taken, addr + 2 ^ w ≤ s.lo ∨ s.hi ≤ addr) :
    ∃ g ∈ r.vacant, g.lo ≤ addr ∧ addr + 2 ^ w ≤ g.hi := by
  obtain ⟨h0, -, hend⟩ := hw
  have hpos := Number.two_pow_pos w
  rcases h.slot_or_gap h0 (by omega) with ⟨s, hs, hlo, hhi⟩ | ⟨g, hg, hlo, hhi⟩
  · have := hfree s hs
    omega
  · refine ⟨g, hg, hlo, ?_⟩
    by_contra hshort
    -- what comes behind the gap is no slot, and no gap either because gaps do not touch
    rcases h.slot_or_gap (by omega : 0 ≤ g.hi) (by omega) with
      ⟨s, hs, hlo', hhi'⟩ | ⟨g', hg', hlo', hhi'⟩
    · have := hfree s hs
      omega
    · have hne : g ≠ g' := by
        rintro rfl
        omega
      have hsep : r.vacant.Pairwise fun a b => a.hi < b.lo ∨ b.hi < a.lo := h.tiled.apart.imp .inl
      have : Std.Symm fun a b : Gap => a.hi < b.lo ∨ b.hi < a.lo := ⟨fun _ _ h => Or.symm h⟩
      have := hsep.forall hg hg' hne
      omega

/-- **A block at an address** is placed exactly if it is aligned, inside and apart from all slots. -/
theorem Ready.insert_iff (hn : n ≤ 32) {addr : Int} :
    (r.insert hasItem addr width .item item).2 = .ok addr ↔
      ∃ w : Nat, width = w ∧ Within n addr w ∧
        ∀ s ∈ r.taken, addr + 2 ^ w ≤ s.lo ∨ s.hi ≤ addr := by
  constructor
  · intro hins
    rcases r.insert_cases hasItem addr width .item item with
      ⟨e, he⟩ | ⟨e, he⟩ | ⟨w, gaps, hw, h0, hdvd, ⟨before, g, after, hv, hlo, hhi, -⟩, -⟩
    · rw [he] at hins
      cases hins
    · rw [he] at hins
      cases hins
    · have hg : g ∈ r.vacant := by
        rw [← h.tiled.sorted_vacant, hv]
        simp
      have hb := h.tiled.gap_bounds hg
      refine ⟨w, hw, ⟨h0, hdvd, by omega⟩, fun s hs => ?_⟩
      have := h.tiled.slot_gap hs hg
      omega
  · rintro ⟨w, rfl, hw, hfree⟩
    obtain ⟨g, hg, hlo, hhi⟩ := h.exists_gap hw hfree
    exact (h.tiled.insert_eq_ok_iff h.toWhole hn hasItem item hg hw.2.1 hlo hhi).mpr
      fun _ => h.movable g hg

/-- Answer and slots of a placement do not depend on the order of the slots before it. -/
theorem Ready.place_congr (h' : r'.Ready n) (hn : n ≤ 32)
    (ht : r.taken.Perm r'.taken) {b : Int} (hp : r.place hasItem width item addr .item = (p, .ok b)) :
    ∃ p', r'.place hasItem width item addr .item = (p', .ok b) ∧ p.taken.Perm p'.taken := by
  have key : ∀ {p'}, r'.place hasItem width item addr .item = (p', .ok b) → p.taken.Perm p'.taken := by
    intro p' hp'
    obtain ⟨w, hw, hgain⟩ := place_eq_ok hp
    obtain ⟨w', hw', hgain'⟩ := place_eq_ok hp'
    obtain rfl : w = w' := by exact_mod_cast hw.symm.trans hw'
    exact hgain.taken.trans ((ht.cons _).trans hgain'.taken.symm)
  have hsame : (r'.place hasItem width item addr .item).2 = .ok b := by
    cases addr with
    | none =>
      have hp : r.push width item = (p, .ok b) := hp
      show (r'.push width item).2 = .ok b
      unfold push at hp ⊢
      rw [← h.vacant_eq h' ht]
      cases hw : exponent (ρ := ρ) width with
      | error e =>
        rw [hw] at hp
        cases hp
      | ok w =>
        rw [hw] at hp
        dsimp only at hp ⊢
        cases hf : Gap.takeFirst w r.vacant with
        | error f =>
          rw [hf] at hp
          cases hp
        | ok found =>
          rw [hf] at hp
          cases found with
          | none => cases hp
          | some found => exact congrArg Prod.snd hp
    | some addr =>
      have hp : r.insert hasItem addr width .item item = (p, .ok b) := hp
      obtain rfl : b = addr := Region.insert_base hp
      have hok : (r.insert hasItem b width .item item).2 = .ok b := by rw [hp]
      obtain ⟨w, hw, hin, hfree⟩ := (h.insert_iff hn).mp hok
      exact (h'.insert_iff hn).mpr ⟨w, hw, hin, fun s hs => hfree s (ht.mem_iff.mpr hs)⟩
  cases hq : r'.place hasItem width item addr .item with
  | mk p' out =>
    rw [hq] at hsame
    obtain rfl : out = .ok b := hsame
    exact ⟨p', rfl, key hq⟩

/-! ### Series of placements -/

theorem Ready.placeAll (hn : n ≤ 53) (hp : r.placeAll hasItem os = some p) : p.Ready n := by
  induction os generalizing r with
  | nil =>
    obtain rfl := Option.some.inj hp
    exact h
  | cons o os ih =>
    obtain ⟨⟨q, b⟩, hq, hp⟩ := Option.bind_eq_some_iff.mp hp
    have hready := h.place hn hasItem o.width o.item o.addr
    rw [granted_eq_some.mp hq] at hready
    exact ih hready.sorted hp

theorem Ready.placeAll_congr (h' : r'.Ready n) (hn : n ≤ 32)
    (ht : r.taken.Perm r'.taken) (hp : r.placeAll hasItem os = some p) :
    ∃ p', r'.placeAll hasItem os = some p' ∧ p.taken.Perm p'.taken := by
  induction os generalizing r r' with
  | nil =>
    obtain rfl := Option.some.inj hp
    exact ⟨r', rfl, ht⟩
  | cons o os ih =>
    obtain ⟨⟨q, b⟩, hq, hp⟩ := Option.bind_eq_some_iff.mp hp
    obtain ⟨q', hq', hperm⟩ := h.place_congr h' hn ht (granted_eq_some.mp hq)
    have hready := h.place (by omega) hasItem o.width o.item o.addr
    have hready' := h'.place (by omega) hasItem o.width o.item o.addr
    rw [granted_eq_some.mp hq] at hready
    rw [hq'] at hready'
    obtain ⟨p', hp', hfinal⟩ := ih hready.sorted hready'.sorted
      (q.sorted_taken_perm.trans (hperm.trans q'.sorted_taken_perm.symm)) hp
    refine ⟨p', ?_, hfinal⟩
    rw [Region.placeAll, granted_eq_some.mpr hq']
    exact hp'

/-- The slot that an order at an address asks for. -/
def Order.slot (o : Order ρ) : Slot ρ := ⟨o.addr.getD 0, o.addr.getD 0 + 2 ^ o.width.toNat, o.item⟩

/-- An order for an aligned block inside `[0, 2 ^ n)`. -/
def Order.Fits (n : Nat) (o : Order ρ) : Prop :=
  ∃ (w : Nat) (addr : Int), o.width = w ∧ o.addr = some addr ∧ Within n addr w

theorem Ready.clear : r.taken.Pairwise Slot.Clear := h.tiled.slots_apart

/-- An order at an address is granted exactly if it fits and its slot is clear of all others. -/
theorem Ready.granted_iff (hn : n ≤ 32) (hasItem : ρ → Bool) {o : Order ρ} (ho : o.addr.isSome) :
    (∃ p, granted (r.place hasItem o.width o.item o.addr .item) = some p) ↔
      o.Fits n ∧ ∀ s ∈ r.taken, o.slot.Clear s := by
  obtain ⟨width, item, _ | addr⟩ := o
  · cases ho
  · have hinsert : (∃ p, granted (r.insert hasItem addr width .item item) = some p) ↔
        (r.insert hasItem addr width .item item).2 = .ok addr := by
      constructor
      · rintro ⟨⟨q, b⟩, hp⟩
        have hq := granted_eq_some.mp hp
        rw [hq, insert_base hq]
      · intro hok
        cases hq : r.insert hasItem addr width .item item with
        | mk q out =>
          rw [hq] at hok
          obtain rfl : out = .ok addr := hok
          exact ⟨(q, addr), rfl⟩
    refine hinsert.trans ((h.insert_iff hn).trans ?_)
    constructor
    · rintro ⟨w, rfl, hw, hfree⟩
      exact ⟨⟨w, addr, rfl, rfl, hw⟩, fun s hs => by simpa [Order.slot, Slot.Clear] using hfree s hs⟩
    · rintro ⟨⟨w, a, hwidth, ha, hw⟩, hfree⟩
      obtain rfl : width = w := hwidth
      obtain rfl := Option.some.inj ha
      exact ⟨w, rfl, hw, fun s hs => by simpa [Order.slot, Slot.Clear] using hfree s hs⟩

end

theorem taken_of_granted {o : Order ρ} (ho : o.addr.isSome) {q : Region ρ} {b : Int}
    (h : r.place hasItem o.width o.item o.addr .item = (q, .ok b)) : q.taken.Perm (o.slot :: r.taken) := by
  obtain ⟨w, hw, hgain⟩ := place_eq_ok h
  obtain ⟨width, item, _ | addr⟩ := o
  · cases ho
  · obtain rfl : width = w := hw
    have hinsert : r.insert hasItem addr w .item item = (q, .ok b) := h
    obtain rfl : b = addr := insert_base hinsert
    simpa [Order.slot] using hgain.taken

/-- **Orders at addresses** are all granted exactly if each fits and the slots are clear of each other. -/
theorem Ready.placeAll_iff (h : r.Ready n) (hn : n ≤ 32) (ho : ∀ o ∈ os, o.addr.isSome) :
    (∃ p, r.placeAll hasItem os = some p) ↔
      (∀ o ∈ os, o.Fits n) ∧ (os.map Order.slot ++ r.taken).Pairwise Slot.Clear := by
  induction os generalizing r with
  | nil => exact iff_of_true ⟨r, rfl⟩ ⟨by simp, h.clear⟩
  | cons o os ih =>
    have hfirst := h.granted_iff hn hasItem (ho o mem_cons_self)
    have hrest : ∀ {q : Region ρ} {b : Int},
        r.place hasItem o.width o.item o.addr .item = (q, .ok b) →
        ((∃ p, q.sorted.placeAll hasItem os = some p) ↔ (∀ o ∈ os, o.Fits n) ∧
          (os.map Order.slot ++ o.slot :: r.taken).Pairwise Slot.Clear) := by
      intro q b hq
      have hready := h.place (by omega) hasItem o.width o.item o.addr
      rw [hq] at hready
      have hperm := q.sorted_taken_perm.trans (taken_of_granted (ho o mem_cons_self) hq)
      rw [ih hready.sorted fun o' ho' => ho o' (mem_cons_of_mem _ ho'),
        (hperm.append_left (os.map Order.slot)).pairwise_iff fun {_ _} => Slot.Clear.symm]
    have hmiddle : ((o :: os).map Order.slot ++ r.taken).Pairwise Slot.Clear ↔
        (os.map Order.slot ++ o.slot :: r.taken).Pairwise Slot.Clear :=
      (perm_middle.symm).pairwise_iff fun {_ _} => Slot.Clear.symm
    rw [hmiddle, Region.placeAll]
    constructor
    · rintro ⟨p, hp⟩
      obtain ⟨⟨q, b⟩, hq, hp⟩ := Option.bind_eq_some_iff.mp hp
      obtain ⟨hfits, hclear⟩ := (hrest (granted_eq_some.mp hq)).mp ⟨p, hp⟩
      exact ⟨forall_mem_cons.mpr ⟨(hfirst.mp ⟨_, hq⟩).1, hfits⟩, hclear⟩
    · rintro ⟨hfits, hclear⟩
      have hapart : ∀ s ∈ r.taken, o.slot.Clear s :=
        (pairwise_cons.mp (pairwise_append.mp hclear).2.1).1
      obtain ⟨⟨q, b⟩, hq⟩ := hfirst.mpr ⟨hfits o mem_cons_self, hapart⟩
      obtain ⟨p, hp⟩ := (hrest (granted_eq_some.mp hq)).mpr
        ⟨fun o' ho' => hfits o' (mem_cons_of_mem _ ho'), hclear⟩
      exact ⟨p, by rw [hq]; exact hp⟩

theorem taken_of_placeAll (ho : ∀ o ∈ os, o.addr.isSome)
    (h : r.placeAll hasItem os = some p) : p.taken.Perm (os.map Order.slot ++ r.taken) := by
  induction os generalizing r with
  | nil =>
    obtain rfl := Option.some.inj h
    exact List.Perm.refl _
  | cons o os ih =>
    obtain ⟨⟨q, b⟩, hq, h⟩ := Option.bind_eq_some_iff.mp h
    have hfirst := taken_of_granted (ho o mem_cons_self) (granted_eq_some.mp hq)
    refine (ih (fun o' ho' => ho o' (mem_cons_of_mem _ ho')) h).trans ?_
    exact ((q.sorted_taken_perm.trans hfirst).append_left _).trans perm_middle

/-- **Order of placements.**  Orders at addresses may come in any order: the slots are the same, also
for the orders without an address that follow. -/
theorem Ready.placeAll_perm (h : r.Ready n) (h' : r'.Ready n) (hn : n ≤ 32)
    (ht : r.taken.Perm r'.taken) {os' rest : List (Order ρ)} (hperm : os.Perm os')
    (ho : ∀ o ∈ os, o.addr.isSome) (hp : r.placeAll hasItem (os ++ rest) = some p) :
    ∃ p', r'.placeAll hasItem (os' ++ rest) = some p' ∧ p.taken.Perm p'.taken := by
  have ho' : ∀ o ∈ os', o.addr.isSome := fun o h => ho o (hperm.mem_iff.mpr h)
  rw [placeAll_append] at hp
  obtain ⟨q, hq, hp⟩ := Option.bind_eq_some_iff.mp hp
  have hslots := (hperm.map Order.slot).append ht
  obtain ⟨q', hq'⟩ : ∃ q', r'.placeAll hasItem os' = some q' := by
    obtain ⟨hfits, hclear⟩ := (h.placeAll_iff hn ho).mp ⟨q, hq⟩
    exact (h'.placeAll_iff hn ho').mpr ⟨fun o h => hfits o (hperm.mem_iff.mpr h),
      (hslots.pairwise_iff fun {_ _} => Slot.Clear.symm).mp hclear⟩
  have hsame : q.taken.Perm q'.taken :=
    (taken_of_placeAll ho hq).trans (hslots.trans (taken_of_placeAll ho' hq').symm)
  obtain ⟨p', hp', hfinal⟩ :=
    (h.placeAll (by omega) hq).placeAll_congr (h'.placeAll (by omega) hq') hn hsame hp
  refine ⟨p', ?_, hfinal⟩
  rw [placeAll_append, hq']
  exact hp'

end Region

end RegisterMap
