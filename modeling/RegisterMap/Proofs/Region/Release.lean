import RegisterMap.Proofs.Region.Tiling

/-! # Giving a range back

A released range joins the gaps in one of six ways (`Gap.Released`).  It does so unless no gap lies
above it or ends where it starts (`Gap.joining?_eq_none_iff`): a range above all gaps finds no place.
Where it joins, the gaps cover what they covered before and the range, and they still ascend without
touching.  The range then lies in a gap whose upper end cannot be moved down any more, so the block can
be taken again exactly if no gap ended where it starts. -/

namespace RegisterMap

open List

namespace Gap

variable {ρ : Type} {lo hi : Int} {gaps gaps' : List Gap}

/-- The ways in which `[lo, hi)` joins the gaps. -/
inductive Released (lo hi : Int) : List Gap → List Gap → Prop
  | front {g : Gap} {gs : List Gap} (h : hi < g.lo) :
      Released lo hi (g :: gs) (⟨lo, hi, true⟩ :: g :: gs)
  | firstDown {g : Gap} {gs : List Gap} (h : hi = g.lo) :
      Released lo hi (g :: gs) (⟨lo, g.hi, true⟩ :: gs)
  | between {before after : List Gap} {g g' : Gap} (h : g.hi < lo) (h' : hi < g'.lo) :
      Released lo hi (before ++ g :: g' :: after) (before ++ g :: ⟨lo, hi, true⟩ :: g' :: after)
  | bridge {before after : List Gap} {g g' : Gap} (h : lo = g.hi) (h' : hi = g'.lo) :
      Released lo hi (before ++ g :: g' :: after) (before ++ ⟨g.lo, g'.hi, true⟩ :: after)
  | belowUp {before after : List Gap} {g : Gap} (h : lo = g.hi)
      (h' : ∀ g' ∈ after.head?, hi ≠ g'.lo) :
      Released lo hi (before ++ g :: after) (before ++ ⟨g.lo, hi, true⟩ :: after)
  | aboveDown {before after : List Gap} {g g' : Gap} (h : lo ≠ g.hi) (h' : hi = g'.lo) :
      Released lo hi (before ++ g :: g' :: after) (before ++ g :: ⟨lo, g'.hi, true⟩ :: after)

/-! ### Which way is taken -/

/-- A joining that the search finds can be carried out, and is one of the six ways. -/
theorem join_of_joiningFrom (h0 : 0 ≤ hi) {j : Joining} (before rest : List Gap)
    (h : joiningFrom lo hi before.length rest = some j) :
    ∃ gaps', join lo hi (before ++ rest) j = some gaps' ∧ Released lo hi (before ++ rest) gaps' := by
  induction rest generalizing before with
  | nil => cases h
  | cons g gs ih =>
    have hdrop : (before ++ g :: gs).drop before.length = g :: gs := drop_left
    have htake : (before ++ g :: gs).take before.length = before := take_left
    have hassoc : before ++ [g] ++ gs = before ++ g :: gs := by
      rw [append_assoc, singleton_append]
    -- a gap behind the last one would start at `-1`, where no range ends
    have hnext : hi ≤ (gs.head?.map Gap.lo).getD (-1) →
        ∃ g' gs', gs = g' :: gs' ∧ (gs.head?.map Gap.lo).getD (-1) = g'.lo := by
      cases gs with
      | nil => intro h; exact absurd h (by simp; omega)
      | cons g' gs' => exact fun _ => ⟨g', gs', rfl, rfl⟩
    unfold joiningFrom at h
    dsimp only at h
    split_ifs at h with hfront hfirst hbetween hbridge hbelow habove
    · obtain rfl := Option.some.inj h
      obtain rfl := length_eq_zero_iff.mp hfront.1
      exact ⟨_, rfl, .front hfront.2⟩
    · obtain rfl := Option.some.inj h
      obtain rfl := length_eq_zero_iff.mp hfirst.1
      exact ⟨_, rfl, .firstDown hfirst.2⟩
    · obtain rfl := Option.some.inj h
      obtain ⟨g', gs', rfl, hlo⟩ := hnext (by omega)
      have hlen : before.length + 1 = (before ++ [g]).length := by simp
      refine ⟨_, ?_, .between hbetween.1 (hlo ▸ hbetween.2)⟩
      rw [join, ← hassoc, hlen, take_left, drop_left, append_assoc, singleton_append]
    · obtain rfl := Option.some.inj h
      obtain ⟨g', gs', rfl, hlo⟩ := hnext (by omega)
      refine ⟨_, ?_, .bridge hbridge.1 (hlo ▸ hbridge.2)⟩
      simp only [join, hdrop, htake]
    · obtain rfl := Option.some.inj h
      refine ⟨before ++ ⟨g.lo, hi, true⟩ :: gs, ?_, .belowUp hbelow ?_⟩
      · simp only [join, hdrop, htake]
      · intro g' hg' he
        refine hbridge ⟨hbelow, ?_⟩
        rw [Option.mem_def.mp hg']
        exact he
    · obtain rfl := Option.some.inj h
      obtain ⟨g', gs', rfl, hlo⟩ := hnext (by omega)
      refine ⟨_, ?_, .aboveDown hbelow (hlo ▸ habove)⟩
      simp only [join, hdrop, htake]
    · have hlen : before.length + 1 = (before ++ [g]).length := by simp
      rw [hlen] at h
      have := ih (before ++ [g]) h
      rwa [hassoc] at this

theorem join_of_joining? (h0 : 0 ≤ hi) {j : Joining} (h : joining? lo hi gaps = some j) :
    ∃ gaps', join lo hi gaps j = some gaps' ∧ Released lo hi gaps gaps' :=
  join_of_joiningFrom h0 [] gaps h

section

variable (h0 : 0 ≤ hi) (hlt : lo < hi) (hne : ∀ g ∈ gaps, g.lo < g.hi)
  (hd : ∀ g ∈ gaps, g.hi ≤ lo ∨ hi ≤ g.lo)

include h0 hlt hne hd

/-- A range cannot join the gaps exactly if it lies above all of them and touches none. -/
theorem joiningFrom_eq_none_iff {n : Nat} (hn : n = 0 ∨ ∀ g ∈ gaps.head?, g.hi ≤ lo) :
    joiningFrom lo hi n gaps = none ↔ ∀ g ∈ gaps, g.hi < lo := by
  induction gaps generalizing n with
  | nil => simp [joiningFrom]
  | cons g gs ih =>
    have hg := hne g mem_cons_self
    have hdg := hd g mem_cons_self
    unfold joiningFrom
    dsimp only
    generalize hnext : (gs.head?.map Gap.lo).getD (-1) = next
    by_cases hbelow : g.hi < lo
    · -- the gap is passed, so the next one decides
      cases gs with
      | nil =>
        obtain rfl : -1 = next := hnext
        rw [if_neg (by omega), if_neg (by omega), if_neg (by omega), if_neg (by omega),
          if_neg (by omega), if_neg (by omega)]
        simp [joiningFrom, hbelow]
      | cons g' gs =>
        obtain rfl : g'.lo = next := hnext
        have hg' := hne g' (by simp)
        by_cases habove : hi ≤ g'.lo
        · have hnot : ¬ ∀ x ∈ g :: g' :: gs, x.hi < lo := fun h => by
            have := h g' (by simp)
            omega
          refine iff_of_false ?_ hnot
          split_ifs <;> first | exact not_false | omega
        · have hpass : g'.hi ≤ lo := (hd g' (by simp)).resolve_right habove
          rw [if_neg (by omega), if_neg (by omega), if_neg (by omega), if_neg (by omega),
            if_neg (by omega), if_neg (by omega),
            ih (fun x hx => hne x (mem_cons_of_mem _ hx))
              (fun x hx => hd x (mem_cons_of_mem _ hx)) (.inr (by simpa using hpass))]
          simp [hbelow]
    · have hnot : ¬ ∀ x ∈ g :: gs, x.hi < lo := fun h => hbelow (h g mem_cons_self)
      refine iff_of_false ?_ hnot
      have hfirst : hi ≤ g.lo → n = 0 := by
        intro habove
        rcases hn with hn | hn
        · exact hn
        · have := hn g (by simp)
          omega
      split_ifs <;> first | exact not_false | omega

theorem joining?_eq_none_iff :
    joining? lo hi gaps = none ↔ ∀ g ∈ gaps, g.hi < lo :=
  joiningFrom_eq_none_iff h0 hlt hne hd (.inl rfl)

end

/-! ### What the gaps are then -/

namespace Released

section

variable (h : Released lo hi gaps gaps')

include h

/-- The gaps cover what they covered before, and the range. -/
theorem coverage (hlt : lo < hi) (hne : ∀ g ∈ gaps, g.lo < g.hi) (addr : Int) :
    RegisterMap.coverage (gaps'.map (Gap.entry (ρ := ρ))) addr =
      RegisterMap.coverage (gaps.map (Gap.entry (ρ := ρ))) addr +
        if lo ≤ addr ∧ addr < hi then 1 else 0 := by
  cases h with
  | front h =>
    rw [map_cons, coverage_cons]
    exact Nat.add_comm _ _
  | firstDown h =>
    rename_i g gs
    have := hne g (by simp)
    simp only [map_cons, coverage_cons, entry]
    split_ifs <;> omega
  | between h h' =>
    simp only [map_append, map_cons, coverage_append, coverage_cons, entry]
    omega
  | bridge h h' =>
    rename_i before after g g'
    have := hne g (by simp)
    have := hne g' (by simp)
    simp only [map_append, map_cons, coverage_append, coverage_cons, entry]
    split_ifs <;> omega
  | belowUp h h' =>
    rename_i before after g
    have := hne g (by simp)
    simp only [map_append, map_cons, coverage_append, coverage_cons, entry]
    split_ifs <;> omega
  | aboveDown h h' =>
    rename_i before after g g'
    have := hne g' (by simp)
    simp only [map_append, map_cons, coverage_append, coverage_cons, entry]
    split_ifs <;> omega

theorem nonempty (hlt : lo < hi) (hne : ∀ g ∈ gaps, g.lo < g.hi) :
    ∀ g ∈ gaps', g.lo < g.hi := by
  intro x hx
  cases h <;> simp only [mem_append, mem_cons] at hne hx <;> grind

theorem apart (hne : ∀ g ∈ gaps, g.lo < g.hi)
    (hd : ∀ g ∈ gaps, g.hi ≤ lo ∨ hi ≤ g.lo) (ha : Apart gaps) : Apart gaps' := by
  unfold Apart at ha ⊢
  cases h with
  | front h | firstDown h =>
    simp only [pairwise_cons, mem_cons] at hne ha ⊢
    grind
  | between h h' | bridge h h' =>
    simp only [pairwise_append, pairwise_cons, mem_append, mem_cons] at hne ha ⊢
    grind
  | belowUp h h' =>
    rename_i before after g
    cases after with
    | nil =>
      simp only [pairwise_append, pairwise_cons, mem_append, mem_cons] at hne ha ⊢
      grind
    | cons g' after =>
      have := hd g' (by simp)
      have := h' g' rfl
      simp only [pairwise_append, pairwise_cons, mem_append, mem_cons] at hne ha ⊢
      grind
  | aboveDown h h' =>
    rename_i before after g g'
    have := hd g (by simp)
    simp only [pairwise_append, pairwise_cons, mem_append, mem_cons] at hne ha ⊢
    grind

/-- The range lies in a fixed gap, which starts with it unless one ended there. -/
theorem exists_fixed (hlt : lo < hi)
    (hne : ∀ g ∈ gaps, g.lo < g.hi) (hd : ∀ g ∈ gaps, g.hi ≤ lo ∨ hi ≤ g.lo) (ha : Apart gaps) :
    ∃ g' ∈ gaps', g'.fixed = true ∧ g'.lo ≤ lo ∧ hi ≤ g'.hi ∧ (g'.lo < lo ↔ ∃ g ∈ gaps, g.hi = lo) := by
  unfold Apart at ha
  cases h with
  | front h =>
    refine ⟨⟨lo, hi, true⟩, by simp, rfl, le_refl _, le_refl _, ?_⟩
    simp only [pairwise_cons, mem_cons] at hne ha ⊢
    grind
  | firstDown h =>
    rename_i g gs
    refine ⟨⟨lo, g.hi, true⟩, by simp, rfl, le_refl _, ?_, ?_⟩
    · have := hne g (by simp)
      simp only
      omega
    · simp only [pairwise_cons, mem_cons] at hne ha ⊢
      grind
  | between h h' =>
    refine ⟨⟨lo, hi, true⟩, by simp, rfl, le_refl _, le_refl _, ?_⟩
    simp only [pairwise_append, pairwise_cons, mem_append, mem_cons] at hne ha ⊢
    grind
  | bridge h h' =>
    rename_i before after g g'
    have := hne g (by simp)
    have := hne g' (by simp)
    refine ⟨⟨g.lo, g'.hi, true⟩, by simp, rfl, by simp only; omega, by simp only; omega, ?_⟩
    exact iff_of_true (by simp only; omega) ⟨g, by simp, h.symm⟩
  | belowUp h h' =>
    rename_i before after g
    have := hne g (by simp)
    refine ⟨⟨g.lo, hi, true⟩, by simp, rfl, by simp only; omega, le_refl _, ?_⟩
    exact iff_of_true (by simp only; omega) ⟨g, by simp, h.symm⟩
  | aboveDown h h' =>
    rename_i before after g g'
    have := hd g (by simp)
    refine ⟨⟨lo, g'.hi, true⟩, by simp, rfl, le_refl _, ?_, ?_⟩
    · have := hne g' (by simp)
      simp only
      omega
    · simp only [pairwise_append, pairwise_cons, mem_append,
        mem_cons] at hne ha ⊢
      grind

end

end Released

end Gap

namespace Region

variable {ρ : Type} {r : Region ρ} {n : Nat} {lost : List (Entry ρ)} {s slot : Slot ρ} {addr : Int}
  {rest : List (Slot ρ)} {g : Gap}

/-! ### Removal -/

theorem dropSlot_eq_some {taken : List (Slot ρ)} (h : dropSlot addr taken = some (slot, rest)) :
    slot.lo = addr ∧ taken.Perm (slot :: rest) := by
  induction taken generalizing rest with
  | nil => cases h
  | cons s ss ih =>
    unfold dropSlot at h
    split at h
    · obtain ⟨rfl, rfl⟩ := Prod.mk.inj (Option.some.inj h)
      exact ⟨by assumption, List.Perm.refl _⟩
    · obtain ⟨⟨found, rest'⟩, hf, he⟩ := Option.map_eq_some_iff.mp h
      obtain ⟨rfl, rfl⟩ := Prod.mk.inj he
      obtain ⟨hlo, hp⟩ := ih hf
      exact ⟨hlo, (hp.cons s).trans (List.Perm.swap _ _ _)⟩

theorem dropSlot_isSome {taken : List (Slot ρ)} (h : slot ∈ taken) :
    ∃ found, dropSlot slot.lo taken = some found := by
  induction taken with
  | nil => cases h
  | cons s ss ih =>
    unfold dropSlot
    split
    · exact ⟨_, rfl⟩
    · rename_i hne
      have hmem : slot ∈ ss := by
        rcases mem_cons.mp h with rfl | h
        · exact absurd rfl hne
        · exact h
      obtain ⟨found, hf⟩ := ih hmem
      exact ⟨_, by rw [hf]; rfl⟩

theorem Accounted.slot_eq (h : r.Accounted lost n) {s' : Slot ρ} (hs : s ∈ r.taken)
    (hs' : s' ∈ r.taken) (hlo : s.lo = s'.lo) : s = s' := by
  have hb := h.slot_bounds hs
  have hb' := h.slot_bounds hs'
  have hholds : s.entry.lo ≤ s.lo ∧ s.lo < s.entry.hi := ⟨le_refl _, hb.2.1⟩
  have he : s.entry = s'.entry := h.tiles.eq_of_holds
    (mem_append_left _ (slot_mem_ranges hs)) (mem_append_left _ (slot_mem_ranges hs'))
    hholds ⟨hlo.ge, by simp only [Slot.entry]; omega⟩
  cases s
  cases s'
  simp only [Slot.entry, Entry.mk.injEq, Option.some.injEq] at he
  simp only [Slot.mk.injEq]
  exact ⟨he.1, he.2.1, he.2.2.1⟩

theorem Accounted.slot_gap (h : r.Accounted lost n) (hs : s ∈ r.taken)
    (hg : g ∈ r.vacant) : g.hi ≤ s.lo ∨ s.hi ≤ g.lo := by
  have hne : (g.entry : Entry ρ) ≠ s.entry := fun he => by cases congrArg Entry.kind he
  exact h.tiles.disjoint (mem_append_left _ (gap_mem_ranges hg))
    (mem_append_left _ (slot_mem_ranges hs)) hne

/-- What removing a slot does: above all gaps the slot is lost; elsewhere it joins the gaps. -/
theorem remove_of_dropSlot (hdrop : dropSlot addr r.taken = some (slot, rest)) (h0 : 0 ≤ slot.hi)
    (hlt : slot.lo < slot.hi) (hne : ∀ g ∈ r.vacant, g.lo < g.hi)
    (hd : ∀ g ∈ r.vacant, g.hi ≤ slot.lo ∨ slot.hi ≤ g.lo) :
    ((∀ g ∈ r.vacant, g.hi < slot.lo) ∧
        (r.remove addr).1 = completed ({ r with taken := rest }, .ok false)) ∨
      ((∃ g ∈ r.vacant, slot.lo ≤ g.hi) ∧ ∃ gaps, Gap.Released slot.lo slot.hi r.vacant gaps ∧
        (r.remove addr).1 = completed ({ r with taken := rest, vacant := gaps }, .ok true)) := by
  have hiff : Gap.joining? slot.lo slot.hi r.vacant = none ↔ ∀ g ∈ r.vacant, g.hi < slot.lo :=
    Gap.joining?_eq_none_iff h0 hlt hne hd
  unfold remove
  rw [hdrop]
  simp only
  cases hj : Gap.joining? slot.lo slot.hi r.vacant with
  | none => exact .inl ⟨hiff.mp hj, rfl⟩
  | some j =>
    right
    obtain ⟨gaps, hjoin, hrel⟩ := Gap.join_of_joining? h0 hj
    refine ⟨?_, gaps, hrel, ?_⟩
    · by_contra hc
      have : Gap.joining? slot.lo slot.hi r.vacant = none :=
        hiff.mpr fun g hg => not_le.mp fun hle => hc ⟨g, hg, hle⟩
      rw [hj] at this
      cases this
    · simp only [hjoin]

/-- **Giving a range back.**  A range that does not lie below zero joins ascending gaps exactly if it
starts no higher than the end of the last one.  The gaps then ascend without touching and hold their
addresses and those of the range; otherwise they stay as they are. -/
theorem remove_joins_iff (hdrop : dropSlot addr r.taken = some (slot, rest)) (h0 : 0 ≤ slot.hi)
    (hlt : slot.lo < slot.hi) (hne : ∀ g ∈ r.vacant, g.lo < g.hi) (ha : Gap.Apart r.vacant)
    (hd : ∀ g ∈ r.vacant, g.hi ≤ slot.lo ∨ slot.hi ≤ g.lo) :
    ∃ joined gaps,
      (r.remove addr).1 = completed ({ r with taken := rest, vacant := gaps }, .ok joined) ∧
      (joined = true ↔ ∃ g ∈ r.vacant.getLast?, slot.lo ≤ g.hi) ∧
      (joined = true → (∀ g ∈ gaps, g.lo < g.hi) ∧ Gap.Apart gaps ∧
        ∀ a, (∃ g ∈ gaps, g.lo ≤ a ∧ a < g.hi) ↔
          (∃ g ∈ r.vacant, g.lo ≤ a ∧ a < g.hi) ∨ slot.lo ≤ a ∧ a < slot.hi) ∧
      (joined = false → gaps = r.vacant) := by
  rcases remove_of_dropSlot hdrop h0 hlt hne hd with ⟨hno, he⟩ | ⟨⟨g, hg, hle⟩, gaps, hr, he⟩
  · refine ⟨false, r.vacant, he, ⟨nofun, ?_⟩, nofun, fun _ => rfl⟩
    rintro ⟨g, hg, hle⟩
    have := hno g (mem_of_getLast? hg)
    omega
  · refine ⟨true, gaps, he, ⟨fun _ => ?_, fun _ => rfl⟩, fun _ => ⟨hr.nonempty hlt hne,
      hr.apart hne hd ha, fun a => ?_⟩, nofun⟩
    · have hlast := getLast?_eq_some_getLast (ne_nil_of_mem hg)
      generalize r.vacant.getLast (ne_nil_of_mem hg) = last at hlast
      refine ⟨last, hlast, ?_⟩
      obtain ⟨init, hinit⟩ := getLast?_eq_some_iff.mp hlast
      rw [hinit, mem_append, mem_singleton] at hg
      rcases hg with hg | rfl
      · unfold Gap.Apart at ha
        rw [hinit, pairwise_append] at ha
        have := ha.2.2 g hg last (by simp)
        have := hne last (mem_of_getLast? hlast)
        omega
      · exact hle
    · have hcov := hr.coverage (ρ := ρ) hlt hne a
      have hiff (gs : List Gap) : (∃ g ∈ gs, g.lo ≤ a ∧ a < g.hi) ↔
          0 < coverage (gs.map (Gap.entry (ρ := ρ))) a := by
        simp [coverage_pos, Gap.entry]
      rw [hiff, hiff]
      split_ifs at hcov <;> omega

theorem remove_joins_iff_sixteen :
    let r : Region Unit :=
      { span := (0, 16), base := 0, relativeBase := 0, aw := 4, extent := 16
        taken := [⟨0, 4, ()⟩, ⟨8, 12, ()⟩], vacant := [⟨4, 8, false⟩, ⟨12, 16, false⟩]
        reserved := [], path := none, label := "A", inset := 0 }
    ∃ joined gaps, (r.remove 8).1 =
        completed ({ r with taken := [⟨0, 4, ()⟩], vacant := gaps }, .ok joined) ∧
      (joined = true ↔ ∃ g ∈ r.vacant.getLast?, (8 : Int) ≤ g.hi) ∧
      (joined = true → (∀ g ∈ gaps, g.lo < g.hi) ∧ Gap.Apart gaps ∧
        ∀ a, (∃ g ∈ gaps, g.lo ≤ a ∧ a < g.hi) ↔
          (∃ g ∈ r.vacant, g.lo ≤ a ∧ a < g.hi) ∨ 8 ≤ a ∧ a < 12) ∧
      (joined = false → gaps = r.vacant) :=
  remove_joins_iff (show dropSlot 8 _ = some (⟨8, 12, ()⟩, [⟨0, 4, ()⟩]) from rfl) (by decide)
    (by decide) (by decide) (by unfold Gap.Apart; decide) (by decide)

/-- Below zero a range above all gaps is taken for one between two gaps. -/
theorem remove_joins_below_zero :
    let r : Region Unit :=
      { span := (-7, -2), base := -7, relativeBase := -7, aw := 3, extent := 8
        taken := [⟨-4, -2, ()⟩], vacant := [⟨-7, -6, false⟩], reserved := []
        path := none, label := "A", inset := 0 }
    (¬∃ g ∈ r.vacant.getLast?, (-4 : Int) ≤ g.hi) ∧ (r.remove (-4)).1 =
      completed ({ r with taken := [], vacant := [⟨-7, -6, false⟩, ⟨-4, -2, true⟩] }, .ok true) :=
  ⟨by decide, rfl⟩

theorem Accounted.remove_slot (h : r.Accounted lost n) (hs : slot ∈ r.taken) :
    ∃ rest, r.taken.Perm (slot :: rest) ∧
      (((∀ g ∈ r.vacant, g.hi < slot.lo) ∧
          (r.remove slot.lo).1 = completed ({ r with taken := rest }, .ok false)) ∨
        ((∃ g ∈ r.vacant, slot.lo ≤ g.hi) ∧ ∃ gaps, Gap.Released slot.lo slot.hi r.vacant gaps ∧
          (r.remove slot.lo).1 =
            completed ({ r with taken := rest, vacant := gaps }, .ok true))) := by
  obtain ⟨h0, hlt, -⟩ := h.slot_bounds hs
  obtain ⟨⟨found, rest⟩, hdrop⟩ := dropSlot_isSome hs
  obtain ⟨hlo, hperm⟩ := dropSlot_eq_some hdrop
  obtain rfl : found = slot :=
    h.slot_eq (hperm.mem_iff.mpr mem_cons_self) hs hlo
  exact ⟨rest, hperm, remove_of_dropSlot hdrop (by omega) hlt (fun g hg => (h.gap_bounds hg).2.1)
    fun g hg => h.slot_gap hs hg⟩

theorem remove_of_no_slot (hs : ∀ s ∈ r.taken, s.lo ≠ addr) : (r.remove addr).1 = (r, .ok false) := by
  unfold remove
  cases hd : dropSlot addr r.taken with
  | none => rfl
  | some found =>
    obtain ⟨hlo, hperm⟩ := dropSlot_eq_some hd
    exact absurd hlo (hs _ (hperm.mem_iff.mpr mem_cons_self))

theorem Accounted.lose (h : r.Accounted lost n) (hp : r.taken.Perm (slot :: rest)) :
    ({ r with taken := rest } : Region ρ).Accounted (slot.entry :: lost) n where
  tiles := by
    refine h.tiles.perm ?_
    unfold ranges
    refine ((((hp.map Slot.entry).append_right _).append_right _).append_right _).trans ?_
    exact perm_middle.symm
  taken_block s hs := h.taken_block s (hp.mem_iff.mpr (mem_cons_of_mem _ hs))
  reserved_block := h.reserved_block
  apart := h.apart

theorem Accounted.release (h : r.Accounted lost n) {gaps : List Gap} (hp : r.taken.Perm (slot :: rest))
    (hr : Gap.Released slot.lo slot.hi r.vacant gaps) :
    ({ r with taken := rest, vacant := gaps } : Region ρ).Accounted lost n := by
  have hs : slot ∈ r.taken := hp.mem_iff.mpr mem_cons_self
  obtain ⟨-, hlt, -⟩ := h.slot_bounds hs
  have hne : ∀ g ∈ r.vacant, g.lo < g.hi := fun g hg => (h.gap_bounds hg).2.1
  have hlose := h.lose hp
  refine ⟨h.tiles.replace ?_ ?_, hlose.taken_block, h.reserved_block,
    hr.apart hne (fun g hg => h.slot_gap hs hg) h.apart⟩
  · intro e he
    simp only [ranges, mem_append] at he
    rcases he with ((he | he) | he) | he
    · exact hlose.tiles.nonempty e (by simp only [ranges, mem_append]; tauto)
    · obtain ⟨g, hg, rfl⟩ := mem_map.mp he
      exact hr.nonempty hlt hne g hg
    · exact hlose.tiles.nonempty e (by simp only [ranges, mem_append]; tauto)
    · exact h.tiles.nonempty e (by simp only [mem_append]; tauto)
  · intro addr
    have hcov := hr.coverage (ρ := ρ) hlt hne addr
    have htaken : coverage (r.taken.map Slot.entry) addr =
        (if slot.lo ≤ addr ∧ addr < slot.hi then 1 else 0) + coverage (rest.map Slot.entry) addr :=
      (coverage_perm (hp.map Slot.entry) addr).trans (coverage_cons _ _ _)
    simp only [coverage_append, coverage_ranges]
    omega

/-- The ranges tile the addresses by themselves exactly if nothing was lost. -/
theorem Accounted.tiles_iff (h : r.Accounted lost n) : Tiles r.ranges 0 (2 ^ n) ↔ lost = [] := by
  constructor
  · intro ht
    refine eq_nil_iff_forall_not_mem.mpr fun e he => ?_
    have hlt := h.tiles.nonempty e (mem_append_right _ he)
    have hpos : 0 < coverage lost e.lo := coverage_pos.mpr ⟨e, he, le_refl _, hlt⟩
    have hall := h.tiles.once e.lo
    rw [coverage_append, ht.once] at hall
    omega
  · rintro rfl
    exact Tiled.ranges h

/-- A region with nothing reserved and `2 ^ n` addresses from zero on. -/
structure Whole (r : Region ρ) (n : Nat) : Prop where
  reserved : r.reserved = []
  base : r.base = 0
  extent : r.extent = 2 ^ n

theorem Whole.sorted (h : r.Whole n) : r.sorted.Whole n := ⟨h.reserved, h.base, h.extent⟩

theorem Whole.place (h : r.Whole n) (hasItem : ρ → Bool) (width : Int) (item : ρ)
    (addr : Option Int) : (r.place hasItem width item addr .item).1.Whole n := by
  obtain ⟨hextent, hbase, hreserved⟩ := r.place_frame hasItem width item addr .item
  exact ⟨(hreserved rfl).trans h.reserved, hbase.trans h.base, hextent.trans h.extent⟩

/-- Removal leaves a region in which every address is accounted for. -/
theorem Accounted.remove (h : r.Accounted lost n) (hw : r.Whole n) (addr : Int) :
    ∃ lost', (r.remove addr).1.1.Accounted lost' n ∧ (r.remove addr).1.1.Whole n := by
  by_cases hs : ∃ s ∈ r.taken, s.lo = addr
  · obtain ⟨slot, hs, rfl⟩ := hs
    obtain ⟨rest, hp, ⟨-, he⟩ | ⟨-, gaps, hr, he⟩⟩ := h.remove_slot hs
    · rw [he]
      exact ⟨_, (h.lose hp).sorted, hw.reserved, hw.base, hw.extent⟩
    · rw [he]
      exact ⟨_, (h.release hp hr).sorted, hw.reserved, hw.base, hw.extent⟩
  · rw [remove_of_no_slot fun s hs' hlo => hs ⟨s, hs', hlo⟩]
    exact ⟨lost, h, hw⟩

theorem mem_taken_remove (hs : s ∈ (r.remove addr).1.1.taken) : s ∈ r.taken := by
  unfold remove at hs
  cases hd : dropSlot addr r.taken with
  | none => rw [hd] at hs; exact hs
  | some found =>
    obtain ⟨slot, rest⟩ := found
    obtain ⟨-, hp⟩ := dropSlot_eq_some hd
    rw [hd] at hs
    refine hp.mem_iff.mpr (mem_cons_of_mem _ ?_)
    simp only at hs
    split at hs
    · exact (sorted_taken_perm _).mem_iff.mp hs
    · split at hs
      · exact hs
      · exact (sorted_taken_perm _).mem_iff.mp hs

/-- **When a removal is granted**: exactly if nothing was lost before and some gap ends where the slot
starts or lies above it. -/
theorem Accounted.remove_eq_true_iff (h : r.Accounted lost n) (hw : r.Whole n) (hn : n ≤ 48)
    (hs : slot ∈ r.taken) : (r.remove slot.lo).1.2 = .ok true ↔
      lost = [] ∧ ∃ g ∈ r.vacant, g.hi = slot.lo ∨ slot.hi ≤ g.lo := by
  have htouch : (∃ g ∈ r.vacant, g.hi = slot.lo ∨ slot.hi ≤ g.lo) ↔
      ∃ g ∈ r.vacant, slot.lo ≤ g.hi := by
    refine exists_congr fun g => and_congr_right fun hg => ?_
    have hgap := h.slot_gap hs hg
    have hb := h.gap_bounds hg
    have hb' := h.slot_bounds hs
    omega
  rw [htouch]
  obtain ⟨rest, hp, ⟨hno, he⟩ | ⟨hyes, gaps, hr, he⟩⟩ := h.remove_slot hs
  · rw [he]
    refine iff_of_false ?_ ?_
    · simp only [completed, checkComplete]
      cases ({ r with taken := rest } : Region ρ).sorted.check <;> simp [Except.map]
    · rintro ⟨-, g, hg, hle⟩
      have := hno g hg
      omega
  · rw [he]
    have hacc := h.release hp hr
    have hcheck := check_sorted_iff (r := { r with taken := rest, vacant := gaps }) hn hw.reserved
      hw.extent (fun e he => hacc.tiles.nonempty e (mem_append_left _ he))
    have hsome : ({ r with taken := rest, vacant := gaps } : Region ρ).ranges ≠ [] := by
      obtain ⟨g, hg, -⟩ := hr.exists_fixed (h.slot_bounds hs).2.1
        (fun g hg => (h.gap_bounds hg).2.1) (fun g hg => h.slot_gap hs hg) h.apart
      exact ne_nil_of_mem (gap_mem_ranges (r := { r with taken := rest, vacant := gaps }) hg)
    rw [or_iff_right hsome, hacc.tiles_iff] at hcheck
    rw [and_iff_left hyes, ← hcheck]
    simp only [completed, checkComplete]
    cases hc : ({ r with taken := rest, vacant := gaps } : Region ρ).sorted.check <;>
      simp [Except.map]

/-! ### Taking a block again -/

theorem findEntry_of_tiles {es : List (Entry ρ)} {bot top : Int} {complete : Bool}
    (ht : Tiles es bot top) {e : Entry ρ} (he : e ∈ es) (ha : e.lo ≤ addr ∧ addr < e.hi) :
    findEntry (fun x => x.holds addr) ⟨es, complete⟩ = .ok (some e) := by
  unfold findEntry
  cases hf : es.find? fun x => x.holds addr with
  | none =>
    have := find?_eq_none.mp hf e he
    exact absurd (Entry.holds_iff.mpr ha) (by simpa using this)
  | some x =>
    have hx := mem_of_find?_eq_some hf
    have hholds := Entry.holds_iff.mp (by simpa using find?_some hf)
    rw [ht.eq_of_holds hx he hholds ha]

/-- The gap with given ends is found, and the block is carved out of it. -/
theorem takeFrom_of_mem {gaps : List Gap} (hg : g ∈ gaps)
    (hu : ∀ g' ∈ gaps, g'.lo = g.lo → g' = g) (lo hi : Int) :
    (∀ f, g.carve lo hi = .error f → Gap.takeFrom (g.lo, g.hi) lo hi gaps = .error f) ∧
      ∀ left, g.carve lo hi = .ok left →
        ∃ gaps', Gap.takeFrom (g.lo, g.hi) lo hi gaps = .ok (some gaps') := by
  induction gaps with
  | nil => cases hg
  | cons g' gs ih =>
    unfold Gap.takeFrom
    by_cases hends : g'.lo = g.lo ∧ g'.hi = g.hi
    · obtain rfl := hu g' mem_cons_self hends.1
      rw [if_pos ⟨rfl, rfl⟩]
      refine ⟨fun f hf => by rw [hf], fun left hl => ⟨left ++ gs, by rw [hl]⟩⟩
    · rw [if_neg hends]
      have hmem : g ∈ gs := by
        rcases mem_cons.mp hg with rfl | hg
        · exact absurd ⟨rfl, rfl⟩ hends
        · exact hg
      obtain ⟨herr, hok⟩ := ih hmem fun x hx => hu x (mem_cons_of_mem _ hx)
      refine ⟨fun f hf => by rw [herr f hf], fun left hl => ?_⟩
      obtain ⟨gaps', hgaps⟩ := hok left hl
      exact ⟨g' :: gaps', by rw [hgaps]⟩

theorem vet_of_aligned {w : Nat} (hw : w ≤ 32) (h0 : 0 ≤ addr)
    (hdvd : (2 ^ w : Int) ∣ addr) (htop : addr + 2 ^ w ≤ r.top) : r.vet addr w = .ok () := by
  unfold vet exponent
  rw [Number.exponent_of_le hw]
  simp only [ofFault, bind, Except.bind, pure, Except.pure, Number.natCast_twoPow]
  rw [if_neg (by omega), if_neg (by simpa using Int.emod_eq_zero_of_dvd hdvd), if_neg (by omega)]

theorem Tiled.fit_of_complete (h : r.Tiled n) (hcomplete : r.sorted.walk.complete = true)
    (hg : g ∈ r.vacant) {lo hi : Int} (hlo : g.lo ≤ lo) (hlt : lo < hi) (hhi : hi ≤ g.hi) :
    fit r.sorted.walk lo hi = .ok (some (g.lo, g.hi)) := by
  have hperm : r.sorted.walk.entries.Perm r.ranges :=
    (Walk.merge_perm _ _ _ hcomplete).trans r.sorted_ranges_perm
  have hfind : findEntry (fun x => x.holds lo) r.sorted.walk = .ok (some g.entry) :=
    findEntry_of_tiles (h.ranges.perm hperm.symm) (hperm.mem_iff.mpr (gap_mem_ranges hg))
      ⟨hlo, by simp only [Gap.entry]; omega⟩
  unfold fit
  rw [hfind]
  simp only [bind, Except.bind, pure, Except.pure]
  rw [if_neg (by simp [Gap.entry]), if_neg (by simp only [Gap.entry]; omega)]
  rfl

/-- An aligned block in a gap can be placed exactly if it starts the gap or the upper end of the gap
can be moved. -/
theorem Tiled.insert_eq_ok_iff (h : r.Tiled n) (hw : r.Whole n) (hn : n ≤ 32) (hasItem : ρ → Bool)
    (item : ρ) {g : Gap} (hg : g ∈ r.vacant) {lo : Int} {w : Nat} (hdvd : (2 ^ w : Int) ∣ lo)
    (hlo : g.lo ≤ lo) (hhi : lo + 2 ^ w ≤ g.hi) :
    (r.insert hasItem lo w .item item).2 = .ok lo ↔ (g.lo < lo → g.fixed = false) := by
  obtain ⟨hg0, hglt, hgtop⟩ := h.gap_bounds hg
  have hpos := Number.two_pow_pos w
  have hwn : w ≤ n := by
    by_contra hc
    have : (2 : Int) ^ n < 2 ^ w := pow_lt_pow_right₀ (by norm_num) (by omega)
    omega
  have hvet : r.vet lo w = .ok () := vet_of_aligned (by omega) (by omega) hdvd (by
    unfold top
    rw [hw.base, hw.extent]
    omega)
  have hfit := h.fit_of_complete (complete_walk hw.reserved) hg hlo (by omega : lo < lo + 2 ^ w) hhi
  have hunique : ∀ g' ∈ r.sorted.vacant, g'.lo = g.lo → g' = g := by
    intro g' hg' he
    rw [h.sorted_vacant] at hg'
    exact h.apart.eq_of_lo (fun g hg => (h.gap_bounds hg).2.1) hg' hg he
  obtain ⟨herr, hok⟩ := takeFrom_of_mem (by rw [h.sorted_vacant]; exact hg) hunique lo (lo + 2 ^ w)
  rw [insert, hvet]
  simp only [Int.toNat_natCast, Number.natCast_twoPow, hfit]
  cases hc : g.carve lo (lo + 2 ^ w) with
  | error f =>
    rw [herr f hc]
    refine iff_of_false (by simp [refuse]) fun hfree => ?_
    rw [Gap.carve_eq_ok.mpr ⟨hfree, rfl⟩] at hc
    cases hc
  | ok left =>
    obtain ⟨gaps', hgaps⟩ := hok left hc
    rw [hgaps]
    exact iff_of_true rfl (Gap.carve_eq_ok.mp hc).1

/-- **Taking a released block again.**  After a slot has joined the gaps, its block can be placed at
its address exactly if no gap ended where it starts. -/
theorem Tiled.retake_iff (h : r.Tiled n) (hw : r.Whole n) (hn : n ≤ 32) {slot : Slot ρ}
    {rest : List (Slot ρ)} {gaps : List Gap} (hp : r.taken.Perm (slot :: rest))
    (hr : Gap.Released slot.lo slot.hi r.vacant gaps) {r1 : Region ρ}
    (hr1 : r1 = ({ r with taken := rest, vacant := gaps } : Region ρ).sorted) {w : Nat}
    (hsize : slot.hi = slot.lo + 2 ^ w) (hdvd : (2 ^ w : Int) ∣ slot.lo) (hasItem : ρ → Bool)
    (item : ρ) :
    (∃ g ∈ r1.vacant, g.lo ≤ slot.lo ∧ slot.hi ≤ g.hi) ∧
      ((r1.insert hasItem slot.lo w .item item).2 = .ok slot.lo ↔
        ∀ g ∈ r.vacant, g.hi ≠ slot.lo) := by
  have hs : slot ∈ r.taken := hp.mem_iff.mpr mem_cons_self
  have hrel : ({ r with taken := rest, vacant := gaps } : Region ρ).Tiled n := h.release hp hr
  have ht1 : r1.Tiled n := hr1 ▸ hrel.sorted
  have hw1 : r1.Whole n := by
    subst hr1
    exact ⟨hw.reserved, hw.base, hw.extent⟩
  obtain ⟨g, hg, hfixed, hlo, hhi, hends⟩ := hr.exists_fixed (h.slot_bounds hs).2.1
    (fun g hg => (h.gap_bounds hg).2.1) (fun g hg => h.slot_gap hs hg) h.apart
  have hg1 : g ∈ r1.vacant := by
    subst hr1
    rw [hrel.sorted_vacant]
    exact hg
  refine ⟨⟨g, hg1, hlo, hhi⟩, ?_⟩
  rw [ht1.insert_eq_ok_iff hw1 hn hasItem item hg1 hdvd hlo (by omega), hfixed]
  constructor
  · intro hnot g' hg' he
    exact absurd (hnot (hends.mpr ⟨g', hg', he⟩)) (by simp)
  · intro hno hlt
    obtain ⟨g', hg', he⟩ := hends.mp hlt
    exact absurd he (hno g' hg')

end Region

end RegisterMap
