import Mathlib.Data.Finset.Lattice.Fold
import Mathlib.Logic.Relation
import RegisterMap.Proofs.AddressSpace.Placement

/-! # Where spaces stand

Spaces stand in slots of other spaces (`Workspace.Contains`), and in a *forest* each of them stands in
one slot at most and in no space inside itself (`Workspace.Forest`).  Giving a space of a forest an
absolute address moves all spaces below it and no others (`SpaceId.setBaseUpTo_origin`).

A workspace is *linked* when the absolute address of every space that stands in a slot is that of the
space around it plus the address of the slot (`Workspace.Linked`).  Placing one more space keeps that,
as long as neither this space nor the one around it stands anywhere (`SpaceId.addNow_seats`). -/

namespace RegisterMap

open Build List

namespace Workspace

/-- The absolute address of a space. -/
def origin (ws : Workspace) (j : SpaceId) : Int := ((ws.space? j).map fun s => s.region.base).getD 0

/-- A slot of the space `j` holds the space `c`. -/
def Contains (ws : Workspace) (j : SpaceId) (slot : Slot Occupant) (c : SpaceId) : Prop :=
  ∃ s, ws.space? j = some s ∧ slot ∈ s.region.taken ∧ slot.item = .space c

/-- Some slot holds the space. -/
def Hosted (ws : Workspace) (c : SpaceId) : Prop := ∃ j slot, ws.Contains j slot c

/-- The space `c` is `j` or stands inside it, at any depth. -/
def Below (ws : Workspace) : SpaceId → SpaceId → Prop :=
  Relation.ReflTransGen fun j c => ∃ slot, ws.Contains j slot c

/-- No space stands in two slots, or inside itself. -/
structure Forest (ws : Workspace) : Prop where
  once : ∀ {j j' slot slot' c}, ws.Contains j slot c → ws.Contains j' slot' c → j = j' ∧ slot = slot'
  ranked : ∃ rank : SpaceId → Nat, ∀ {j slot c}, ws.Contains j slot c → rank c < rank j

/-- Every space in a slot has the address of the slot; the others have the addresses `b`. -/
structure Linked (ws : Workspace) (b : SpaceId → Int) : Prop where
  forest : ws.Forest
  origin : ∀ {j slot c}, ws.Contains j slot c → ws.origin c = ws.origin j + slot.lo
  free : ∀ {c}, ¬ws.Hosted c → ws.origin c = b c

variable {ws ws' ws'' : Workspace} {b : SpaceId → Int} {id j c : SpaceId} {s s' : AddressSpace}
  {slot : Slot Occupant}

theorem origin_eq (h : ws.space? j = some s) : ws.origin j = s.region.base := by
  unfold origin
  rw [h]
  rfl

theorem contains_iff (h : ws.space? j = some s) :
    ws.Contains j slot c ↔ slot ∈ s.region.taken ∧ slot.item = .space c := by
  constructor
  · rintro ⟨s', hs', hslot⟩
    rwa [Option.mem_unique h hs']
  · exact fun hslot => ⟨s, h, hslot⟩

/-! ### Forests -/

theorem Below.of_contains (h : ws.Contains j slot c) : ws.Below j c := .single ⟨slot, h⟩

theorem Below.trans (h : ws.Below id j) (h' : ws.Below j c) : ws.Below id c :=
  Relation.ReflTransGen.trans h h'

theorem Below.cases (h : ws.Below j c) : c = j ∨ ∃ k slot, ws.Below j k ∧ ws.Contains k slot c := by
  rcases Relation.ReflTransGen.cases_tail h with rfl | ⟨k, hk, slot, hslot⟩
  · exact .inl rfl
  · exact .inr ⟨k, slot, hk, hslot⟩

theorem Below.cases_head (h : ws.Below j c) :
    c = j ∨ ∃ slot k, ws.Contains j slot k ∧ ws.Below k c := by
  rcases Relation.ReflTransGen.cases_head h with rfl | ⟨k, ⟨slot, hslot⟩, hk⟩
  · exact .inl rfl
  · exact .inr ⟨slot, k, hslot, hk⟩

theorem Below.eq_of_free (h : ws.Below j c) (hc : ¬ws.Hosted c) : c = j := by
  rcases h.cases with rfl | ⟨k, slot, -, hslot⟩
  · rfl
  · exact absurd ⟨k, slot, hslot⟩ hc

theorem Below.of_slot (hf : ws.Forest) {k : SpaceId} (h : ws.Below j c) (hne : c ≠ j)
    (hk : ws.Contains k slot c) : ws.Below j k := by
  rcases h.cases with rfl | ⟨k', slot', hbelow, hslot⟩
  · exact absurd rfl hne
  · rwa [(hf.once hk hslot).1]

theorem Forest.of_contains (hf : ws.Forest)
    (h : ∀ j slot c, ws'.Contains j slot c ↔ ws.Contains j slot c) : ws'.Forest where
  once hc hc' := hf.once ((h _ _ _).mp hc) ((h _ _ _).mp hc')
  ranked := by
    obtain ⟨rank, hr⟩ := hf.ranked
    exact ⟨rank, fun hc => hr ((h _ _ _).mp hc)⟩

theorem Forest.rank_le {rank : SpaceId → Nat}
    (hr : ∀ {j slot c}, ws.Contains j slot c → rank c < rank j) (h : ws.Below j c) :
    rank c ≤ rank j := by
  induction h with
  | refl => exact le_rfl
  | tail _ hslot ih =>
    obtain ⟨slot, hslot⟩ := hslot
    exact (hr hslot).le.trans ih

/-- What passes from every space to those in its slots, and holds of those in no slot, holds of all. -/
theorem Forest.induct (hf : ws.Forest) {P : SpaceId → Prop} (hfree : ∀ c, ¬ws.Hosted c → P c)
    (hslot : ∀ j slot c, ws.Contains j slot c → P j → P c) (c : SpaceId) : P c := by
  obtain ⟨rank, hr⟩ := hf.ranked
  -- ranks grow on the way out, and there are finitely many spaces
  let top := (Finset.range ws.spaces.size).sup fun n => rank ⟨n⟩
  induction hn : top - rank c using Nat.strong_induction_on generalizing c with
  | _ n ih =>
    by_cases hc : ws.Hosted c
    · obtain ⟨j, slot, hcontains⟩ := hc
      have hlt := hr hcontains
      have hle : rank j ≤ top := by
        obtain ⟨s, hs, -⟩ := hcontains
        obtain ⟨hsize, -⟩ := Array.getElem?_eq_some_iff.mp hs
        exact Finset.le_sup (f := fun n => rank ⟨n⟩) (Finset.mem_range.mpr hsize)
      exact hslot j slot c hcontains (ih _ (by omega) j rfl)
    · exact hfree c hc

theorem Forest.not_below (hf : ws.Forest) (h : ws.Contains j slot c) : ¬ws.Below c j := by
  obtain ⟨rank, hr⟩ := hf.ranked
  intro hb
  have hle := Forest.rank_le hr hb
  have hlt := hr h
  omega

theorem Forest.apart (hf : ws.Forest) {slot' : Slot Occupant} {c' k : SpaceId}
    (h : ws.Contains j slot c) (h' : ws.Contains j slot' c') (hne : c ≠ c') (hk : ws.Below c k) :
    ¬ws.Below c' k := by
  -- going up from `k` there is one way only, so one of the two would stand inside the other
  have hinside : ∀ {x y : SpaceId} {sx sy : Slot Occupant}, ws.Contains j sx x → ws.Contains j sy y →
      x ≠ y → ¬ws.Below x y := fun hx hy hxy hb => by
    exact hf.not_below hx (hb.of_slot hf (Ne.symm hxy) hy)
  intro hk'
  have hup : Relator.RightUnique (Function.swap fun j c => ∃ slot, ws.Contains j slot c) := by
    rintro a x y ⟨sx, hx⟩ ⟨sy, hy⟩
    exact (hf.once hx hy).1
  rcases Relation.ReflTransGen.total_of_right_unique hup hk.swap hk'.swap with hb | hb
  · exact hinside h' h (Ne.symm hne) hb.swap
  · exact hinside h h' hne hb.swap

/-! ### Work that leaves all spaces where they are -/

/-- All spaces stand where they stood. -/
structure Steady (ws ws' : Workspace) : Prop where
  origin : ∀ j, ws'.origin j = ws.origin j
  contains : ∀ j slot c, ws'.Contains j slot c ↔ ws.Contains j slot c

instance : IsPreorder Workspace Steady where
  refl _ := ⟨fun _ => rfl, fun _ _ _ => Iff.rfl⟩
  trans _ _ _ h h' := ⟨fun j => (h'.origin j).trans (h.origin j),
    fun j slot c => (h'.contains j slot c).trans (h.contains j slot c)⟩

namespace Steady

theorem trans (h : Steady ws ws') (h' : Steady ws' ws'') : Steady ws ws'' := IsTrans.trans _ _ _ h h'

theorem hosted (h : Steady ws ws') (c : SpaceId) : ws'.Hosted c ↔ ws.Hosted c :=
  exists_congr fun j => exists_congr fun slot => h.contains j slot c

theorem of_regions
    (h : ∀ j, (ws'.space? j).map AddressSpace.region = (ws.space? j).map AddressSpace.region) :
    Steady ws ws' where
  origin j := by
    have := congrArg (fun r => (r.map Region.base).getD 0) (h j)
    simp only [Option.map_map] at this
    exact this
  contains j slot c := by
    have hregion : ∀ w : Workspace, w.Contains j slot c ↔
        ∃ r, (w.space? j).map AddressSpace.region = some r ∧ slot ∈ r.taken ∧ slot.item = .space c := by
      intro w
      simp [Contains]
    rw [hregion, hregion, h]

theorem of_spaces (h : ∀ j, ws'.space? j = ws.space? j) : Steady ws ws' :=
  .of_regions fun j => by rw [h]

theorem of_space (hs : ws.space? id = some s) (hs' : ws'.space? id = some s')
    (hrest : ∀ j, id ≠ j → ws'.space? j = ws.space? j) (hbase : s'.region.base = s.region.base)
    (hslots : ∀ slot c, slot.item = .space c → (slot ∈ s'.region.taken ↔ slot ∈ s.region.taken)) :
    Steady ws ws' := by
  refine ⟨fun j => ?_, fun j slot c => ?_⟩
  · by_cases hj : id = j
    · subst hj
      rw [origin_eq hs', origin_eq hs, hbase]
    · unfold Workspace.origin
      rw [hrest j hj]
  · by_cases hj : id = j
    · subst hj
      rw [contains_iff hs', contains_iff hs]
      exact and_congr_left fun hc => hslots slot c hc
    · unfold Contains
      rw [hrest j hj]

theorem setSpace_perm (hs : ws.space? id = some s) (hbase : s'.region.base = s.region.base)
    (hperm : s'.region.taken.Perm s.region.taken) : Steady ws (ws.setSpace id s') :=
  .of_space hs (space?_setSpace_self hs s') (fun _ hj => space?_setSpace_of_ne hj s') hbase
    fun _ _ _ => hperm.mem_iff

theorem forest (h : Steady ws ws') (hf : ws.Forest) : ws'.Forest := hf.of_contains h.contains

theorem linked (h : Steady ws ws') (hl : ws.Linked b) : ws'.Linked b where
  forest := h.forest hl.forest
  origin hc := by
    rw [h.origin, h.origin]
    exact hl.origin ((h.contains _ _ _).mp hc)
  free hc := by
    rw [h.origin]
    exact hl.free fun hh => hc ((h.hosted _).mpr hh)

end Steady

/-! ### Work that changes absolute addresses only -/

/-- Nothing but the absolute addresses of spaces differs. -/
structure Rebased (ws ws' : Workspace) : Prop where
  spaces : ∀ j, ws'.space? j =
    (ws.space? j).map fun s => { s with region := { s.region with base := ws'.origin j } }

namespace Rebased

theorem trans (h : Rebased ws ws') (h' : Rebased ws' ws'') : Rebased ws ws'' where
  spaces j := by rw [h'.spaces, h.spaces, Option.map_map]; rfl

theorem setBase (hs : ws.space? id = some s) (base : Int) :
    Rebased ws (ws.setSpace id { s with region := { s.region with base := base } }) where
  spaces j := by
    have hs' := space?_setSpace_self hs { s with region := { s.region with base := base } }
    by_cases hj : id = j
    · subst hj
      rw [hs', hs, Option.map_some, origin_eq hs']
    · rw [space?_setSpace_of_ne hj]
      cases ht : ws.space? j with
      | none => rfl
      | some t =>
        have ht' := (space?_setSpace_of_ne hj
          { s with region := { s.region with base := base } }).trans ht
        rw [Option.map_some, origin_eq ht']

theorem contains (h : Rebased ws ws') (j : SpaceId) (slot : Slot Occupant) (c : SpaceId) :
    ws'.Contains j slot c ↔ ws.Contains j slot c := by
  unfold Contains
  rw [h.spaces]
  cases ws.space? j with
  | none => simp
  | some s => simp

theorem forest (h : Rebased ws ws') (hf : ws.Forest) : ws'.Forest := hf.of_contains h.contains

theorem below (h : Rebased ws ws') : ws'.Below = ws.Below := by
  unfold Below
  congr 1
  funext j c
  exact propext (exists_congr fun slot => h.contains j slot c)

end Rebased

/-! ### One more space in a slot -/

/-- The space `c` stands in one more slot of the space `id`, and all addresses are as they were. -/
structure Admits (ws : Workspace) (id : SpaceId) (slot : Slot Occupant) (c : SpaceId) (ws' : Workspace) :
    Prop where
  origin : ∀ j, ws'.origin j = ws.origin j
  contains : ∀ j slot' c', ws'.Contains j slot' c' ↔
    ws.Contains j slot' c' ∨ j = id ∧ slot' = slot ∧ c' = c

namespace Admits

theorem setSpace (hs : ws.space? id = some s) (hgain : s.region.Gains s'.region slot)
    (hc : slot.item = .space c) : ws.Admits id slot c (ws.setSpace id s') := by
  have hs' := space?_setSpace_self hs s'
  refine ⟨fun j => ?_, fun j slot' c' => ?_⟩
  · by_cases hj : id = j
    · subst hj
      rw [origin_eq hs', origin_eq hs, hgain.base]
    · unfold Workspace.origin
      rw [space?_setSpace_of_ne hj]
  · by_cases hj : id = j
    · subst hj
      rw [contains_iff hs', contains_iff hs, hgain.taken.mem_iff, mem_cons]
      constructor
      · rintro ⟨rfl | hm, hitem⟩
        · exact .inr ⟨rfl, rfl, Occupant.space.inj (hitem.symm.trans hc)⟩
        · exact .inl ⟨hm, hitem⟩
      · rintro (⟨hm, hitem⟩ | ⟨-, rfl, rfl⟩)
        · exact ⟨.inr hm, hitem⟩
        · exact ⟨.inl rfl, hc⟩
    · unfold Contains
      rw [space?_setSpace_of_ne hj]
      exact (or_iff_left fun h => hj h.1.symm).symm

theorem steady (h : ws.Admits id slot c ws') (h' : Steady ws' ws'') : ws.Admits id slot c ws'' where
  origin j := (h'.origin j).trans (h.origin j)
  contains j slot' c' := (h'.contains j slot' c').trans (h.contains j slot' c')

theorem hosted (h : ws.Admits id slot c ws') (x : SpaceId) : ws'.Hosted x ↔ ws.Hosted x ∨ x = c := by
  constructor
  · rintro ⟨j, slot', hslot⟩
    rcases (h.contains j slot' x).mp hslot with hslot | ⟨-, -, rfl⟩
    · exact .inl ⟨j, slot', hslot⟩
    · exact .inr rfl
  · rintro (⟨j, slot', hslot⟩ | rfl)
    · exact ⟨j, slot', (h.contains _ _ _).mpr (.inl hslot)⟩
    · exact ⟨id, slot, (h.contains _ _ _).mpr (.inr ⟨rfl, rfl, rfl⟩)⟩

theorem forest (h : ws.Admits id slot c ws') (hf : ws.Forest) (hc : ¬ws.Hosted c) (hid : ¬ws.Hosted id)
    (hne : c ≠ id) : ws'.Forest where
  once {j j' slot1 slot2 x} h1 h2 := by
    rcases (h.contains _ _ _).mp h1 with h1 | ⟨rfl, rfl, hx⟩ <;>
      rcases (h.contains _ _ _).mp h2 with h2 | ⟨rfl, rfl, hx'⟩
    · exact hf.once h1 h2
    · exact absurd ⟨_, _, hx' ▸ h1⟩ hc
    · exact absurd ⟨_, _, hx ▸ h2⟩ hc
    · exact ⟨rfl, rfl⟩
  ranked := by
    obtain ⟨rank, hr⟩ := hf.ranked
    -- the space around the new slot stands in no slot, so it may rise
    refine ⟨Function.update rank id (max (rank id) (rank c + 1)), fun {j slot' x} hx => ?_⟩
    rcases (h.contains _ _ _).mp hx with hx | ⟨rfl, rfl, rfl⟩
    · have hlt := hr hx
      have hx' : x ≠ id := fun he => hid ⟨j, slot', he ▸ hx⟩
      rw [Function.update_of_ne hx']
      by_cases hj : j = id
      · rw [hj, Function.update_self, ← hj]
        omega
      · rwa [Function.update_of_ne hj]
    · rw [Function.update_of_ne hne, Function.update_self]
      omega

end Admits

/-- The spaces `cs` have got slots of the space `id`, and they stood in no slot before. -/
def Seats (id : SpaceId) (cs : List SpaceId) (ws ws' : Workspace) : Prop :=
  ws.Linked 0 → ¬ws.Hosted id → (∀ c ∈ cs, c ≠ id ∧ ¬ws.Hosted c) →
    ws'.Linked 0 ∧ ∀ c, ws'.Hosted c ↔ ws.Hosted c ∨ c ∈ cs

namespace Seats

variable {cs ds : List SpaceId}

theorem of_steady (h : Steady ws ws') : Seats id [] ws ws' :=
  fun hl _ _ => ⟨h.linked hl, fun c => by rw [h.hosted, or_iff_left not_mem_nil]⟩

theorem trans (h : Seats id cs ws ws') (h' : Seats id ds ws' ws'') (hd : cs.Disjoint ds) :
    Seats id (cs ++ ds) ws ws'' := by
  intro hl hid hfree
  obtain ⟨hl', hhosted⟩ := h hl hid fun c hc => hfree c (mem_append_left _ hc)
  obtain ⟨hl'', hhosted'⟩ := h' hl'
    (fun hh => ((hhosted id).mp hh).elim hid fun hm => (hfree id (mem_append_left _ hm)).1 rfl)
    fun c hc => ⟨(hfree c (mem_append_right _ hc)).1, fun hh => ((hhosted c).mp hh).elim
      (hfree c (mem_append_right _ hc)).2 fun hm => hd hm hc⟩
  refine ⟨hl'', fun c => ?_⟩
  rw [hhosted', hhosted, mem_append, or_assoc]

theorem steady_right (h : Seats id cs ws ws') (h' : Steady ws' ws'') : Seats id cs ws ws'' := by
  intro hl hid hfree
  obtain ⟨hl', hhosted⟩ := h hl hid hfree
  exact ⟨h'.linked hl', fun c => (h'.hosted c).trans (hhosted c)⟩

theorem steady_left (h : Steady ws ws') (h' : Seats id cs ws' ws'') : Seats id cs ws ws'' := by
  intro hl hid hfree
  obtain ⟨hl', hhosted⟩ := h' (h.linked hl) (by rwa [h.hosted]) fun c hc =>
    ⟨(hfree c hc).1, by rw [h.hosted]; exact (hfree c hc).2⟩
  exact ⟨hl', fun c => by rw [hhosted, h.hosted]⟩

end Seats

end Workspace

open Workspace

namespace SpaceId

variable {ws ws' : Workspace} {id : SpaceId} {u : Unit}

/-- Giving a space an absolute address moves everything below it and nothing else. -/
theorem setBaseUpTo_origin (fuel : Nat) {base : Int} (hf : ws.Forest)
    (h : setBaseUpTo fuel id base ws = .ok u ws') :
    ws.Rebased ws' ∧ ws'.origin id = base ∧ (∀ j, ¬ws.Below id j → ws'.origin j = ws.origin j) ∧
      ∀ j slot c, ws.Below id j → ws.Contains j slot c → ws'.origin c = ws'.origin j + slot.lo := by
  induction fuel generalizing id base ws ws' u with
  | zero => cases h
  | succ fuel ih =>
    obtain ⟨s, hs, hrun⟩ := setBaseUpTo_run h
    have hself := space?_setSpace_self hs { s with region := { s.region with base := base } }
    have hslots : ∀ {slot c}, slot ∈ s.region.taken → slot.item = .space c → ws.Contains id slot c :=
      fun hslot hc => ⟨s, hs, hslot, hc⟩
    have hend := hrun (fun done w => ws.Rebased w ∧ w.origin id = base ∧
      (∀ j, j ≠ id → (∀ slot ∈ done, ∀ c, slot.item = .space c → ¬ws.Below c j) →
        w.origin j = ws.origin j) ∧
      ∀ slot ∈ done, ∀ c, slot.item = .space c → w.origin c = base + slot.lo ∧
        ∀ j slot' c', ws.Below c j → ws.Contains j slot' c' → w.origin c' = w.origin j + slot'.lo)
      ⟨Rebased.setBase hs base, origin_eq hself, fun j hj _ => ?_, by simp⟩ ?_
    · obtain ⟨hreb, hbase, hrest, hbelow⟩ := hend
      refine ⟨hreb, hbase, fun j hj => ?_, fun j slot c hj hslot => ?_⟩
      · refine hrest j (fun he => hj (he ▸ .refl)) fun slot hslot c hc hb => ?_
        exact hj ((Below.of_contains (hslots hslot hc)).trans hb)
      · rcases hj.cases_head with rfl | ⟨slot', k, hk, hj⟩
        · obtain ⟨hm, hc⟩ := (contains_iff hs).mp hslot
          rw [(hbelow slot hm c hc).1, hbase]
        · obtain ⟨hm, hc⟩ := (contains_iff hs).mp hk
          exact (hbelow slot' hm k hc).2 j slot c hj hslot
    · unfold Workspace.origin
      rw [space?_setSpace_of_ne (Ne.symm hj)]
    · rintro done slot rest w w1 hsplit ⟨hreb, hbase, hrest, hbelow⟩ (⟨c, _, hitem, hset⟩ | ⟨hitem, rfl⟩)
      · have hmem : done ++ [slot] ⊆ s.region.taken := by
          rw [hsplit, append_cons done slot rest]
          exact subset_append_left _ _
        obtain ⟨hreb', hc, hout, hin⟩ := ih (hreb.forest hf) hset
        simp only [hreb.below, hreb.contains] at hout hin
        have hslot := hslots (hmem (by simp)) hitem
        refine ⟨hreb.trans hreb', ?_, fun j hj hnot => ?_, fun slot' hm c' hc' => ?_⟩
        · rw [hout id (hf.not_below hslot), hbase]
        · rw [hout j (hnot slot (by simp) c hitem)]
          exact hrest j hj fun slot' hm => hnot slot' (mem_append_left _ hm)
        · have hslot' := hslots (hmem hm) hc'
          by_cases he : c' = c
          · subst he
            obtain ⟨-, rfl⟩ := hf.once hslot' hslot
            exact ⟨hc, hin⟩
          · -- what stands in an earlier slot is out of reach
            have hm' : slot' ∈ done := by
              rcases mem_append.mp hm with hm | hm
              · exact hm
              · rw [mem_singleton.mp hm, hitem] at hc'
                exact absurd (Occupant.space.inj hc').symm he
            have haway : ∀ k, ws.Below c' k → w1.origin k = w.origin k := fun k hk =>
              hout k (hf.apart hslot' hslot he hk)
            obtain ⟨hold, hlinks⟩ := hbelow slot' hm' c' hc'
            refine ⟨(haway c' .refl).trans hold, fun j slot'' k hj hk => ?_⟩
            rw [haway j hj, haway k (hj.trans (.of_contains hk))]
            exact hlinks j slot'' k hj hk
      · refine ⟨hreb, hbase, fun j hj hnot => ?_, forall_mem_append.mpr ⟨hbelow, ?_⟩⟩
        · exact hrest j hj fun slot' hm => hnot slot' (mem_append_left _ hm)
        · refine forall_mem_singleton.mpr fun c hc => ?_
          rw [hc] at hitem
          cases hitem

/-- A space that is not the one moved keeps its place in the space around it. -/
theorem origin_of_moved {j c : SpaceId} {slot : Slot Occupant} (hf : ws.Forest)
    (hout : ∀ j, ¬ws.Below id j → ws'.origin j = ws.origin j)
    (hin : ∀ j slot c, ws.Below id j → ws.Contains j slot c → ws'.origin c = ws'.origin j + slot.lo)
    (hslot : ws.Contains j slot c) (hne : c ≠ id) (hold : ws.origin c = ws.origin j + slot.lo) :
    ws'.origin c = ws'.origin j + slot.lo := by
  by_cases hj : ws.Below id j
  · exact hin j slot c hj hslot
  · rw [hout j hj, hout c fun hb => hj (hb.of_slot hf hne hslot)]
    exact hold

theorem setBase_linked {b : SpaceId → Int} {base : Int} (hl : ws.Linked b) (hid : ¬ws.Hosted id)
    (h : id.setBase base ws = .ok u ws') :
    ws.Rebased ws' ∧ ws'.Linked (Function.update b id base) := by
  obtain ⟨hreb, hbase, hout, hin⟩ := setBaseUpTo_origin _ hl.forest h
  refine ⟨hreb, hreb.forest hl.forest, fun {j slot c} hc => ?_, fun {c} hc => ?_⟩
  · rw [hreb.contains] at hc
    exact origin_of_moved hl.forest hout hin hc (fun he => hid ⟨j, slot, he ▸ hc⟩) (hl.origin hc)
  · have hfree : ¬ws.Hosted c := fun ⟨j, slot, hslot⟩ => hc ⟨j, slot, (hreb.contains _ _ _).mpr hslot⟩
    by_cases he : c = id
    · rw [he, hbase, Function.update_self]
    · rw [Function.update_of_ne he, hout c fun hb => he (hb.eq_of_free hfree)]
      exact hl.free hfree

theorem setPathUpTo_steady (fuel : Nat) (path : Path) (h : setPathUpTo fuel id path ws = .ok u ws') :
    ws.Steady ws' :=
  setPathUpTo_along (R := Steady) (Q := fun _ _ => True) (fun _ _ _ _ _ _ => trivial)
    (fun _ _ _ => trivial) (fun _ _ hs => .setSpace_perm hs rfl (Region.sorted_taken_perm _)) fuel
    trivial h

theorem addNow_seats {inner : SpaceId} {width base : Int} {addr : Option Int}
    (h : id.addNow width (.space inner) addr ws = .ok base ws') :
    ws.Seats id [inner] ws' := by
  intro hl hid hfree
  obtain ⟨hne, hin⟩ := hfree inner mem_cons_self
  unfold addNow at h
  obtain ⟨base', ws2, hp, h1⟩ := bind_ok h
  obtain ⟨_, hset, rfl⟩ := bind_pure_ok h1
  obtain ⟨s, r, ws1, s1, hs, hr, hpath, hs1, rfl⟩ := place_ok hp
  obtain ⟨w, -, hgain⟩ := Region.place_eq_ok hr
  -- the slot is added, and all spaces have the addresses that they had
  have hadmits : ws.Admits id ⟨base, base + 2 ^ w, .space inner⟩ inner
      (ws1.setSpace id { s1 with region := s1.region.sorted }) := by
    have hslot : ws.Admits id ⟨base, base + 2 ^ w, .space inner⟩ inner
        (ws.setSpace id { s with region := r }) := .setSpace hs hgain rfl
    refine (hslot.steady ?_).steady (.setSpace_perm hs1 rfl s1.region.sorted_taken_perm)
    rcases hpath with rfl | ⟨c, path, -, hrun⟩
    · exact Std.Refl.refl _
    · exact setPathUpTo_steady _ _ hrun
  have hforest := hadmits.forest hl.forest hin hid hne
  -- then the space is moved with all spaces below it
  generalize ws1.setSpace id { s1 with region := s1.region.sorted } = ws2 at hadmits hforest hset
  obtain ⟨_, ws4, hbase, hrel⟩ := bind_ok hset
  obtain ⟨hreb, horigin, hout, hbelow⟩ := setBaseUpTo_origin _ hforest hbase
  obtain ⟨t, ht, rfl⟩ := updateRegion_ok hrel
  have hsteady : ws4.Steady
      (ws4.setSpace inner { t with region := { t.region with relativeBase := base } }) :=
    .setSpace_perm ht rfl (List.Perm.refl _)
  generalize ws4.setSpace inner _ = ws' at hsteady
  have hcontains' := fun j slot c => (hsteady.contains j slot c).trans (hreb.contains j slot c)
  simp only [← hsteady.origin] at horigin hout hbelow
  have hhosted : ∀ c, ws'.Hosted c ↔ ws.Hosted c ∨ c = inner := fun c => by
    rw [← hadmits.hosted c]
    exact exists_congr fun j => exists_congr fun slot => hcontains' j slot c
  have hroot : ¬ws2.Below inner id := fun hb => hne <| Eq.symm <| hb.eq_of_free fun hh =>
    ((hadmits.hosted id).mp hh).elim hid fun he => hne he.symm
  refine ⟨⟨?_, fun {j slot c} hc => ?_, fun {c} hc => ?_⟩, fun c => by
    rw [hhosted, mem_singleton]⟩
  · exact hforest.of_contains hcontains'
  · rw [hcontains'] at hc
    rcases (hadmits.contains _ _ _).mp hc with hold | ⟨rfl, rfl, rfl⟩
    · refine origin_of_moved hforest hout hbelow hc (fun he => hin ⟨j, slot, he ▸ hold⟩) ?_
      rw [hadmits.origin, hadmits.origin]
      exact hl.origin hold
    · rw [horigin, hout j hroot, hadmits.origin, hl.free hid, Pi.zero_apply, zero_add]
  · obtain ⟨hold, hci⟩ := not_or.mp (hc ∘ (hhosted c).mpr)
    have haway : ¬ws2.Below inner c := fun hb => hci <| hb.eq_of_free fun hh =>
      hc ((hhosted c).mpr ((hadmits.hosted c).mp hh))
    rw [hout c haway, hadmits.origin]
    exact hl.free hold

end SpaceId

end RegisterMap
