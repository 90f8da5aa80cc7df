import RegisterMap.Proofs.AddressSpace.Plain
import RegisterMap.Proofs.Region.Release

/-! # Removing items from a plain space

An item that is placed in a space is told its address, and an item that is a space hands its address
and its path on to the spaces inside it.  None of this reaches the space itself as long as no space
holds it (`Workspace.Unheld`), so calls that place and remove change the region of the space by the
requests alone (`afterCalls_recorded`).  What a removal then achieves is known exactly
(`removal_undoes_placement_iff`). -/

namespace RegisterMap

open Build

/-- No space holds the space. -/
def Workspace.Unheld (ws : Workspace) (id : SpaceId) : Prop :=
  ∀ j s, ws.space? j = some s → ∀ slot ∈ s.region.taken, slot.item ≠ .space id

theorem Workspace.unheld_empty (id : SpaceId) : ({} : Workspace).Unheld id := by
  intro j s hs
  simp [Workspace.space?] at hs

/-- The space is as given, and no space holds it. -/
def Workspace.Alone (id : SpaceId) (s : AddressSpace) (ws : Workspace) : Prop :=
  ws.space? id = some s ∧ ws.Unheld id

namespace Workspace

variable {ws : Workspace} {id c : SpaceId} {s s' : AddressSpace}

theorem Unheld.setSpace (h : ws.Unheld id) (hs : ∀ slot ∈ s'.region.taken, slot.item ≠ .space id) :
    (ws.setSpace c s').Unheld id := by
  intro j t ht slot hslot
  by_cases hj : c = j
  · subst hj
    unfold space? Workspace.setSpace at ht
    rw [Array.getElem?_setIfInBounds] at ht
    simp only [if_true] at ht
    split at ht
    · obtain rfl := Option.some.inj ht
      exact hs slot hslot
    · cases ht
  · rw [space?_setSpace_of_ne hj] at ht
    exact h j t ht slot hslot

theorem Alone.setSpace_of_ne (h : ws.Alone id s) (hc : c ≠ id)
    (hs : ∀ slot ∈ s'.region.taken, slot.item ≠ .space id) : (ws.setSpace c s').Alone id s :=
  ⟨by rw [space?_setSpace_of_ne hc]; exact h.1, h.2.setSpace hs⟩

end Workspace

namespace SpaceId

open Build

variable {id c : SpaceId} {s : AddressSpace}

theorem keeps_get (c : SpaceId) :
    Keeps (Workspace.Alone id s) c.get fun t =>
      ∀ slot ∈ t.region.taken, slot.item ≠ .space id := by
  intro ws h
  rw [get_apply]
  cases hs : ws.space? c with
  | none => exact h
  | some t => exact ⟨h, h.2 c t hs⟩

theorem keeps_region (c : SpaceId) :
    Keeps (Workspace.Alone id s) c.region fun r => ∀ slot ∈ r.taken, slot.item ≠ .space id :=
  (keeps_get c).bind fun _ ht => keeps_pure ht

theorem keeps_updateRegion (hc : c ≠ id) {f : Region Occupant → Region Occupant}
    (hf : ∀ r, (f r).taken ⊆ r.taken) :
    Keeps (Workspace.Alone id s) (c.updateRegion f) fun _ => True := by
  refine (keeps_get c).bind fun t ht => ?_
  intro ws h
  exact ⟨h.setSpace_of_ne hc fun slot hslot => ht slot (hf _ hslot), trivial⟩

theorem keeps_setPathUpTo (fuel : Nat) (hc : c ≠ id) (path : Path) :
    Keeps (Workspace.Alone id s) (setPathUpTo fuel c path) fun _ => True := by
  induction fuel generalizing c path with
  | zero => exact keeps_throw
  | succ fuel ih =>
    unfold setPathUpTo
    refine (keeps_updateRegion hc fun r => ?_).bind fun _ _ => ?_
    · exact (Region.sorted_taken_perm _).subset
    refine (keeps_region c).bind fun r hr => ?_
    refine (keeps_forIn fun entry he => ?_).bind fun _ _ => ?_
    · split
      · rename_i inner hitem
        have hne : inner ≠ id := by
          rintro rfl
          have := Walk.subset_merge _ _ _ he
          simp only [List.mem_append, List.mem_map] at this
          rcases this with (⟨slot, hslot, rfl⟩ | ⟨g, -, rfl⟩) | ⟨k, -, rfl⟩
          · exact hr slot hslot (Option.some.inj hitem)
          · cases hitem
          · cases hitem
        refine (keeps_region inner).bind fun r' _ => ?_
        refine keeps_lift.bind fun last _ => ?_
        exact (ih hne _).bind fun _ _ => keeps_pure trivial
      · exact keeps_pure trivial
    · split
      · exact keeps_throw
      · exact keeps_pure trivial

theorem keeps_setBaseUpTo (fuel : Nat) (hc : c ≠ id) (base : Int) :
    Keeps (Workspace.Alone id s) (setBaseUpTo fuel c base) fun _ => True := by
  induction fuel generalizing c base with
  | zero => exact keeps_throw
  | succ fuel ih =>
    unfold setBaseUpTo
    refine (keeps_updateRegion hc fun r => ?_).bind fun _ _ => ?_
    · exact List.Subset.refl _
    refine (keeps_region c).bind fun r hr => ?_
    refine (keeps_forIn fun slot hslot => ?_).bind fun _ _ => keeps_pure trivial
    split
    · rename_i inner hitem
      have hne : inner ≠ id := fun h => hr slot hslot (h ▸ hitem)
      exact (ih hne _).bind fun _ _ => keeps_pure trivial
    · exact keeps_pure trivial

end SpaceId

theorem Build.keeps_depthBound {P : Workspace → Prop} : Build.Keeps P depthBound fun _ => True :=
  fun _ h => ⟨h, trivial⟩

namespace Occupant

open Build

variable {id : SpaceId} {s : AddressSpace}

theorem keeps_name? {P : Workspace → Prop} (o : Occupant) : Keeps P o.name? fun _ => True := by
  cases o with
  | register r =>
    refine (keeps_get.bind fun _ _ => keeps_entryOf).bind fun r _ => ?_
    exact keeps_lift.bind fun _ _ => keeps_pure trivial
  | space c =>
    have hregion : Keeps P c.region fun _ => True :=
      (keeps_get.bind fun _ _ => keeps_entryOf).bind fun _ _ => keeps_pure trivial
    exact hregion.bind fun _ _ => keeps_pure trivial
  | passenger p => exact (keeps_get.bind fun _ _ => keeps_entryOf).bind fun _ _ => keeps_pure trivial
  | bus b => exact (keeps_get.bind fun _ _ => keeps_entryOf).bind fun _ _ => keeps_pure trivial
  | nothing | number n | text t => exact keeps_pure trivial

/-- Telling an item its address reaches the space only if the item is the space. -/
theorem keeps_setBase {o : Occupant} (ho : o ≠ .space id) (base : Int) :
    Keeps (Workspace.Alone id s) (o.setBase base) fun _ => True := by
  cases o with
  | register r | passenger p =>
    refine (keeps_get.bind fun _ _ => keeps_entryOf).bind fun r _ => ?_
    exact keeps_modify fun ws h => h
  | space c =>
    have hc : c ≠ id := fun h => ho (h ▸ rfl)
    refine (keeps_depthBound.bind fun n _ => SpaceId.keeps_setBaseUpTo n hc base).bind fun _ _ => ?_
    exact SpaceId.keeps_updateRegion hc fun r => List.Subset.refl _
  | bus b =>
    refine (keeps_get.bind fun _ _ => keeps_entryOf).bind fun r _ => ?_
    exact keeps_lift.bind fun _ _ => keeps_modify fun ws h => h
  | nothing | number n | text t => exact keeps_pure trivial

end Occupant

/-! ### One call -/

namespace SpaceId

open Build

variable {ws : Workspace} {id : SpaceId} {s : AddressSpace}

/-- The space has a region with the property and is else as given, and no space holds it. -/
def Has (id : SpaceId) (s : AddressSpace) (C : Region Occupant → Prop) (ws : Workspace) : Prop :=
  ∃ r, C r ∧ ws.Alone id { s with region := r }

theorem turns_onRegion {α : Type} {f : Region Occupant → Region.Outcome Occupant α}
    (hf : ∀ slot ∈ (f s.region).1.taken, slot ∈ s.region.taken ∨ slot.item ≠ .space id) :
    Turns (Workspace.Alone id s) (Workspace.Alone id { s with region := (f s.region).1 })
      (id.onRegion f) fun _ => True := by
  intro ws h
  rw [onRegion_of_space? h.1]
  have halone : (ws.setSpace id { s with region := (f s.region).1 }).Alone id
      { s with region := (f s.region).1 } :=
    ⟨Workspace.space?_setSpace_self h.1 _,
      h.2.setSpace fun slot hslot => (hf slot hslot).elim (h.2 id s h.1 slot) fun h => h⟩
  cases (f s.region).2 with
  | ok a => exact ⟨halone, trivial⟩
  | error e => exact halone

theorem keeps_checkComplete (r1 : Region Occupant) :
    Keeps (Has id s fun r => r = r1 ∨ r = r1.sorted) id.checkComplete fun _ => True := by
  rintro ws ⟨r, hr, h⟩
  have hsorted : r.sorted = r1.sorted := by
    rcases hr with rfl | rfl
    · rfl
    · exact r1.sorted_sorted
  refine (turns_onRegion (s := { s with region := r }) (f := Region.checkComplete)
    fun slot hslot => .inl (r.sorted_taken_perm.mem_iff.mp hslot)).imp
      (fun ws h => ⟨_, .inr hsorted, h⟩) ws h

theorem turns_addNow (width : Int) {item : Occupant} (ho : item ≠ .space id) (addr : Option Int) :
    Turns (Workspace.Alone id s)
      (Has id s fun r => r = (s.region.place Occupant.isSome width item addr .item).1 ∨
        r = (s.region.place Occupant.isSome width item addr .item).1.sorted)
      (id.addNow width item addr) fun _ => True := by
  refine Turns.bind (Q := fun _ => True) ?_ fun base _ => ?_
  · refine Turns.bind (Q := fun _ => True) ?_ fun base _ => ?_
    · refine (turns_onRegion fun slot hslot => ?_).imp fun ws h => ⟨_, .inl rfl, h⟩
      exact (Region.mem_taken_place hslot).imp_right fun h => by rwa [h]
    refine Turns.bind (Q := fun _ => True) (keeps_exists fun r => Occupant.keeps_name? item)
      fun _ _ => ?_
    refine Turns.bind (keeps_exists fun r => keeps_region id) fun r _ => ?_
    have hcheck : ∀ r1, Keeps (Has id s fun r => r = r1 ∨ r = r1.sorted)
        (do id.checkComplete; pure base) fun _ => True :=
      fun r1 => (keeps_checkComplete r1).bind fun _ _ => keeps_pure trivial
    split
    · rename_i inner _
      have hne : inner ≠ id := fun h => ho (h ▸ rfl)
      refine Turns.bind (keeps_exists fun r => keeps_region inner) fun r _ => ?_
      split
      · refine Turns.bind (Q := fun _ => True) (keeps_exists fun r => ?_) fun _ _ => hcheck _
        exact keeps_depthBound.bind fun n _ => keeps_setPathUpTo n hne _
      · exact Turns.bind (Q := fun _ => True) keeps_throw fun _ _ => hcheck _
    · exact hcheck _
  · refine Turns.bind (Q := fun _ => True)
      (keeps_exists fun r => Occupant.keeps_setBase ho base) fun _ _ => keeps_pure trivial

theorem forM_say (lines : List String) (ws : Workspace) :
    ∃ text, lines.forM Build.say ws = .ok () { ws with transcript := text } := by
  induction lines generalizing ws with
  | nil => exact ⟨ws.transcript, rfl⟩
  | cons line lines ih =>
    obtain ⟨text, h⟩ := ih { ws with transcript := ws.transcript ++ line ++ "\n" }
    exact ⟨text, h⟩

theorem remove_of_plain (h : ws.space? id = some s) (hk : s.kind = .plain) (addr : Int) :
    ∃ text, id.remove addr ws =
      let ws1 := ({ ws with transcript := text } : Workspace).setSpace id
        { s with region := (s.region.remove addr).1.1 }
      match (s.region.remove addr).1.2 with
      | .ok a => .ok a ws1
      | .error e => .error (e.toError ws1.occupantText) ws1 := by
  obtain ⟨text, hsay⟩ := forM_say (s.region.remove addr).2 ws
  refine ⟨text, ?_⟩
  unfold remove
  rw [bind_of_ok (get_of_space? h), if_neg (by simp [hk])]
  show id.removeNow addr ws = _
  unfold removeNow
  rw [bind_of_ok (region_of_space? h)]
  cases hr : s.region.remove addr with
  | mk outcome report =>
    rw [hr] at hsay
    simp only
    rw [bind_of_ok hsay]
    have h' : ({ ws with transcript := text } : Workspace).space? id = some s := h
    rw [onRegion_of_space? h']
    cases outcome.2 <;> rfl

theorem after_remove (h : ws.Alone id s) (hk : s.kind = .plain) (addr : Int) :
    (after (id.remove addr) ws).Alone id { s with region := (s.region.remove addr).1.1 } := by
  obtain ⟨text, he⟩ := remove_of_plain h.1 hk addr
  have hsaid : ({ ws with transcript := text } : Workspace).Alone id s := h
  have halone : (({ ws with transcript := text } : Workspace).setSpace id
      { s with region := (s.region.remove addr).1.1 }).Alone id
        { s with region := (s.region.remove addr).1.1 } :=
    ⟨Workspace.space?_setSpace_self hsaid.1 _, Workspace.Unheld.setSpace hsaid.2
        fun slot hslot => h.2 id s h.1 slot (Region.mem_taken_remove hslot)⟩
  unfold Build.after
  rw [he]
  cases (s.region.remove addr).1.2 with
  | ok a | error e => exact halone

theorem after_add (h : ws.Alone id s) (hk : s.kind = .plain) (width : Int) {item : Occupant}
    (ho : item ≠ .space id) (addr : Option Int) :
    Has id s (fun r => r = (s.region.place Occupant.isSome width item addr .item).1 ∨
      r = (s.region.place Occupant.isSome width item addr .item).1.sorted)
      (after (id.add width item addr) ws) := by
  rw [after_add_plain h.1 hk]
  exact (turns_addNow width ho addr).after h

/-- Whether a block can be taken at an address, in a space whose ranges tile its addresses. -/
theorem add_nothing_iff {n : Nat} (hn : n ≤ 32) (h : ws.space? id = some s) (hk : s.kind = .plain)
    (ht : s.region.Tiled n) (hw : s.region.Whole n) (width addr : Int) :
    (∃ ws', id.add width .nothing (some addr) ws = .ok (some addr) ws') ↔
      (s.region.insert Occupant.isSome addr width .item .nothing).2 = .ok addr := by
  have hplaced : (s.region.place Occupant.isSome width .nothing (some addr) .item).1.Tiled n :=
    ht.place (by omega) Occupant.isSome width .nothing (some addr) (.inl rfl)
  have hwhole := hw.place Occupant.isSome width .nothing (some addr)
  have hcheck := (Region.check_sorted_iff (by omega) hwhole.reserved hwhole.extent
    (fun e he => hplaced.ranges.nonempty e he)).mpr (.inr hplaced.ranges)
  rw [add_of_plain h hk, map_apply, addNow_nothing, place_nothing h]
  simp only [hcheck]
  show _ ↔ (s.region.place Occupant.isSome width .nothing (some addr) .item).2 = .ok addr
  cases (s.region.place Occupant.isSome width .nothing (some addr) .item).2 with
  | error e => simp
  | ok base => simp

end SpaceId

/-! ### Histories -/

/-- A call of a plain space. -/
inductive Call where
  /-- Place an item in the first block of `2 ^ width` addresses with room, or at an address. -/
  | add (width : Nat) (item : Occupant) (addr : Option Int)
  /-- Give back what stands at an address. -/
  | remove (addr : Int)
deriving DecidableEq, Repr

namespace Call

def run (id : SpaceId) : Call → Build Unit
  | .add width item addr => discard (id.add width item addr)
  | .remove addr => discard (id.remove addr)

/-- The space is not placed in itself. -/
def Avoids (id : SpaceId) : Call → Prop
  | .add _ item _ => item ≠ .space id
  | .remove _ => True

end Call

/-- The workspace after some calls of a space, each of which may be granted or refused. -/
def afterCalls (id : SpaceId) (calls : List Call) (ws : Workspace) : Workspace :=
  afterAll (calls.map (Call.run id)) ws

/-- A plain space over `[0, 2 ^ n)` in which every address is accounted for. -/
def Workspace.Recorded (id : SpaceId) (n : Nat) (ws : Workspace) : Prop :=
  ∃ s lost, ws.Alone id s ∧ s.kind = .plain ∧ s.region.Accounted lost n ∧ s.region.Whole n

theorem Call.run_recorded {n : Nat} (hn : n ≤ 53) {id : SpaceId} {call : Call}
    (hc : call.Avoids id) {ws : Workspace} (h : ws.Recorded id n) :
    (Build.after (call.run id) ws).Recorded id n := by
  obtain ⟨s, lost, halone, hk, hacc, hwhole⟩ := h
  cases call with
  | add width item addr =>
    obtain ⟨r, hr, halone'⟩ := SpaceId.after_add halone hk width hc addr
    have hacc' : (s.region.place Occupant.isSome width item addr .item).1.Accounted lost n :=
      hacc.place hn Occupant.isSome width item addr (.inl rfl)
    have hwhole' := hwhole.place Occupant.isSome width item addr
    refine ⟨{ s with region := r }, lost, ?_, hk, ?_⟩
    · exact (after_map _ _ _).symm ▸ halone'
    · rcases hr with rfl | rfl
      · exact ⟨hacc', hwhole'⟩
      · exact ⟨hacc'.sorted, hwhole'.sorted⟩
  | remove addr =>
    obtain ⟨lost', hacc', hwhole'⟩ := hacc.remove hwhole addr
    refine ⟨{ s with region := (s.region.remove addr).1.1 }, lost', ?_, hk, hacc', hwhole'⟩
    exact (after_map _ _ _).symm ▸ SpaceId.after_remove halone hk addr

theorem afterCalls_recorded {n : Nat} (hn : n ≤ 53) {id : SpaceId} {calls : List Call}
    (hc : ∀ call ∈ calls, call.Avoids id) {ws : Workspace} (h : ws.Recorded id n) :
    (afterCalls id calls ws).Recorded id n := by
  refine afterAll_induct (P := Workspace.Recorded id n) ?_ h
  intro x hx ws hws
  obtain ⟨call, hmem, rfl⟩ := List.mem_map.mp hx
  exact Call.run_recorded hn (hc call hmem) hws

/-! ### What a removal achieves -/

/-- Removing the slot undoes its placement: the removal is granted, takes off this slot alone, leaves a
tiling with the slot vacant, and the block can be taken again. -/
def SpaceId.Undoes (id : SpaceId) (n : Nat) (ws : Workspace) (r : Region Occupant)
    (slot : Slot Occupant) : Prop :=
  ∃ ws1 s1, id.remove slot.lo ws = .ok true ws1 ∧ ws1.space? id = some s1 ∧
    r.taken.Perm (slot :: s1.region.taken) ∧ Tiles s1.region.ranges 0 (2 ^ n) ∧
    (∃ g ∈ s1.region.vacant, g.lo ≤ slot.lo ∧ slot.hi ≤ g.hi) ∧
    ∃ w : Nat, slot.hi = slot.lo + 2 ^ w ∧
      ∃ ws2, id.add w .nothing (some slot.lo) ws1 = .ok (some slot.lo) ws2

namespace SpaceId

variable {n : Nat} {id : SpaceId} {ws : Workspace} {s : AddressSpace} {slot : Slot Occupant}

theorem remove_eq_true_iff (h : ws.space? id = some s) (hk : s.kind = .plain) (addr : Int) :
    (∃ ws', id.remove addr ws = .ok true ws') ↔ (s.region.remove addr).1.2 = .ok true := by
  obtain ⟨text, hremove⟩ := remove_of_plain h hk addr
  rw [hremove]
  cases (s.region.remove addr).1.2 with
  | error e => simp
  | ok a => simp

theorem remove_granted (hn : n ≤ 32) (h : ws.space? id = some s) (hk : s.kind = .plain)
    (ht : s.region.Tiled n) (hw : s.region.Whole n) (hs : slot ∈ s.region.taken)
    (hg : ∃ g ∈ s.region.vacant, g.hi = slot.lo ∨ slot.hi ≤ g.lo) :
    ∃ ws1 s1, id.remove slot.lo ws = .ok true ws1 ∧ ws1.space? id = some s1 ∧
      s.region.taken.Perm (slot :: s1.region.taken) ∧ Tiles s1.region.ranges 0 (2 ^ n) ∧
      (∃ g ∈ s1.region.vacant, g.lo ≤ slot.lo ∧ slot.hi ≤ g.hi) ∧
      ∀ w : Nat, slot.hi = slot.lo + 2 ^ w →
        ((∃ ws2, id.add w .nothing (some slot.lo) ws1 = .ok (some slot.lo) ws2) ↔
          ∀ g ∈ s.region.vacant, g.hi ≠ slot.lo) := by
  obtain ⟨w, hsize, hdvd⟩ := ht.taken_block slot hs
  have hgranted := (ht.remove_eq_true_iff hw (by omega) hs).mpr ⟨rfl, hg⟩
  obtain ⟨ws1, hremove⟩ := (remove_eq_true_iff h hk slot.lo).mpr hgranted
  obtain ⟨rest, hp, ⟨hno, -⟩ | ⟨-, gaps, hr, he⟩⟩ := ht.remove_slot hs
  · obtain ⟨g, hgm, hg⟩ := hg
    have := hno g hgm
    have := ht.gap_bounds hgm
    have := ht.slot_bounds hs
    omega
  have hrel : ({ s.region with taken := rest, vacant := gaps } : Region Occupant).Tiled n :=
    ht.release hp hr
  generalize hr1 : ({ s.region with taken := rest, vacant := gaps } : Region Occupant).sorted = r1
  have ht1 : r1.Tiled n := hr1 ▸ hrel.sorted
  have hw1 : r1.Whole n := by
    subst hr1
    exact ⟨hw.reserved, hw.base, hw.extent⟩
  have hs1 : ws1.space? id = some { s with region := r1 } := by
    obtain ⟨text, heq⟩ := remove_of_plain h hk slot.lo
    rw [hremove, hgranted] at heq
    obtain ⟨-, rfl⟩ := EStateM.Result.ok.inj heq
    have h' : ({ ws with transcript := text } : Workspace).space? id = some s := h
    rw [Workspace.space?_setSpace_self h', he]
    simp only [Region.completed, Region.checkComplete, hr1]
  obtain ⟨hgap, -⟩ := ht.retake_iff hw hn hp hr hr1.symm hsize hdvd Occupant.isSome .nothing
  refine ⟨ws1, _, hremove, hs1, ?_, ht1.ranges, hgap, ?_⟩
  · subst hr1
    exact hp.trans ((Region.sorted_taken_perm
      { s.region with taken := rest, vacant := gaps }).symm.cons slot)
  · intro w' hsize'
    obtain rfl : w' = w := by
      have hpow : (2 : Int) ^ w' = 2 ^ w := by omega
      exact_mod_cast Int.pow_right_injective (by norm_num) hpow
    rw [add_nothing_iff hn hs1 hk ht1 hw1]
    exact (ht.retake_iff hw hn hp hr hr1.symm hsize hdvd Occupant.isSome .nothing).2

/-- When removing a slot undoes its placement, where every address is accounted for. -/
theorem undoes_iff (hn : n ≤ 32) {lost : List (Entry Occupant)} (h : ws.space? id = some s)
    (hk : s.kind = .plain) (hacc : s.region.Accounted lost n) (hw : s.region.Whole n)
    (hs : slot ∈ s.region.taken) :
    id.Undoes n ws s.region slot ↔ Tiles s.region.ranges 0 (2 ^ n) ∧
      (∃ g ∈ s.region.vacant, slot.hi ≤ g.lo) ∧ ∀ g ∈ s.region.vacant, g.hi ≠ slot.lo := by
  rw [hacc.tiles_iff]
  constructor
  · rintro ⟨ws1, s1, hr, hs1, -, -, -, w, hsize, hadd⟩
    obtain ⟨rfl, hg⟩ := (hacc.remove_eq_true_iff hw (by omega) hs).mp
      ((remove_eq_true_iff h hk slot.lo).mp ⟨ws1, hr⟩)
    obtain ⟨ws1', s1', hr', -, -, -, -, hiff⟩ := remove_granted hn h hk hacc hw hs hg
    rw [hr] at hr'
    obtain ⟨-, rfl⟩ := EStateM.Result.ok.inj hr'
    have hno := (hiff w hsize).mp hadd
    obtain ⟨g, hgm, hends | habove⟩ := hg
    · exact absurd hends (hno g hgm)
    · exact ⟨rfl, ⟨g, hgm, habove⟩, hno⟩
  · rintro ⟨rfl, ⟨g, hgm, habove⟩, hno⟩
    obtain ⟨w, hsize, -⟩ := hacc.taken_block slot hs
    obtain ⟨ws1, s1, hr, hs1, hp, ht, hgap, hiff⟩ :=
      remove_granted hn h hk hacc hw hs ⟨g, hgm, .inr habove⟩
    exact ⟨ws1, s1, hr, hs1, hp, ht, hgap, w, hsize, (hiff w hsize).mpr hno⟩

end SpaceId

/-- **When removal undoes placement.**  In a space over `[0, 2 ^ n)`, after any placements and
removals, granted or refused, a removal is granted exactly if nothing was lost before and some gap ends
where the slot starts or lies above it.  It undoes the placement exactly if nothing was lost, some gap
lies above the slot, and none ends where it starts. -/
theorem removal_undoes_placement_iff {n : Nat} (hn : n ≤ 32) {ws : Workspace}
    (hws : ws.Unheld ⟨ws.spaces.size⟩) (label : Option String) (path : Option Path)
    (domain : Value) :
    ∃ id ws0, SpaceId.create .plain (some (0, 2 ^ n)) label path domain ws = .ok id ws0 ∧
      ∀ calls : List Call, (∀ call ∈ calls, call.Avoids id) →
        ∃ s, (afterCalls id calls ws0).space? id = some s ∧ ∀ slot ∈ s.region.taken,
          ((∃ ws1, id.remove slot.lo (afterCalls id calls ws0) = .ok true ws1) ↔
            Tiles s.region.ranges 0 (2 ^ n) ∧
              ∃ g ∈ s.region.vacant, g.hi = slot.lo ∨ slot.hi ≤ g.lo) ∧
          (id.Undoes n (afterCalls id calls ws0) s.region slot ↔
            Tiles s.region.ranges 0 (2 ^ n) ∧ (∃ g ∈ s.region.vacant, slot.hi ≤ g.lo) ∧
              ∀ g ∈ s.region.vacant, g.hi ≠ slot.lo) := by
  obtain ⟨ws0, s0, hmake, hspaces, hk0, hfresh⟩ :=
    SpaceId.create_two_pow (by omega : n ≤ 48) ws .plain label path domain
  have hstart : ws0.Recorded ⟨ws.spaces.size⟩ n := by
    refine ⟨s0, [], ⟨Workspace.space?_of_push hspaces, ?_⟩, hk0, hfresh.tiled, hfresh.reserved,
      hfresh.base, hfresh.extent⟩
    intro j t ht slot hslot
    unfold Workspace.space? at ht
    rw [hspaces, Array.getElem?_push] at ht
    split at ht
    · obtain rfl := Option.some.inj ht
      rw [hfresh.taken] at hslot
      cases hslot
    · exact hws j t ht slot hslot
  refine ⟨_, ws0, hmake, fun calls hcalls => ?_⟩
  obtain ⟨s, lost, halone, hk, hacc, hwhole⟩ := afterCalls_recorded (by omega) hcalls hstart
  refine ⟨s, halone.1, fun slot hs => ⟨?_, SpaceId.undoes_iff hn halone.1 hk hacc hwhole hs⟩⟩
  rw [SpaceId.remove_eq_true_iff halone.1 hk, hacc.remove_eq_true_iff hwhole (by omega) hs,
    hacc.tiles_iff]

/-- Four addresses are given out, and the lowest slot is given back while no gap is left. -/
theorem removal_undoes_placement_iff_four :
    2 ≤ 32 ∧ ({} : Workspace).Unheld ⟨0⟩ ∧ ∃ id ws0,
      SpaceId.create .plain (some (0, 2 ^ 2)) none none .none {} = .ok id ws0 ∧
      (∀ call ∈ [Call.add 0 (.text "a") none, .add 0 .nothing none, .add 1 .nothing (some 2),
        .remove 0], call.Avoids id) ∧
      ∃ s, (afterCalls id [.add 0 (.text "a") none, .add 0 .nothing none, .add 1 .nothing (some 2),
          .remove 0] ws0).space? id = some s ∧
        ∀ slot ∈ s.region.taken,
          (id.Undoes 2 (afterCalls id [.add 0 (.text "a") none, .add 0 .nothing none,
              .add 1 .nothing (some 2), .remove 0] ws0) s.region slot ↔
            Tiles s.region.ranges 0 (2 ^ 2) ∧ (∃ g ∈ s.region.vacant, slot.hi ≤ g.lo) ∧
              ∀ g ∈ s.region.vacant, g.hi ≠ slot.lo) := by
  have hnone : ({} : Workspace).Unheld ⟨0⟩ := Workspace.unheld_empty ⟨0⟩
  obtain ⟨id, ws0, hmake, h⟩ :=
    removal_undoes_placement_iff (n := 2) (by decide) hnone none none .none
  have hcalls : ∀ call ∈ [Call.add 0 (.text "a") none, .add 0 .nothing none,
      .add 1 .nothing (some 2), .remove 0], call.Avoids id := by
    simp [Call.Avoids]
  obtain ⟨s, hs, hslots⟩ := h _ hcalls
  exact ⟨by decide, hnone, id, ws0, hmake, hcalls, s, hs, fun slot hslot => (hslots slot hslot).2⟩

end RegisterMap
