import RegisterMap.Proofs.Design.Hierarchy

/-! # Completing the instance tree

When all instances are resolved, the joined spaces get the addresses of their passengers, and every
instance drops its spaces that hold nothing.  That changes no register, no passenger and no layout
(`Workspace.Tidies`), so what holds at the end of the walk holds of the whole resolution
(`resolveTree_ok`).  All spaces then stand where their slots are, or where their passengers are
(`Landed`). -/

namespace RegisterMap

open List

/-- Spaces may be moved or sorted; nothing else changes. -/
structure Workspace.Tidies (ws ws' : Workspace) : Prop where
  registers : ws'.registers = ws.registers
  passengers : ws'.passengers = ws.passengers
  policy : ws'.policy = ws.policy
  contains : ∀ j slot c, ws'.Contains j slot c ↔ ws.Contains j slot c
  domains : ∀ j, ws'.domainOf j = ws.domainOf j

instance : IsPreorder Workspace Workspace.Tidies where
  refl _ := ⟨rfl, rfl, rfl, fun _ _ _ => Iff.rfl, fun _ => rfl⟩
  trans _ _ _ h h' := ⟨h'.registers.trans h.registers, h'.passengers.trans h.passengers,
    h'.policy.trans h.policy, fun j slot c => (h'.contains j slot c).trans (h.contains j slot c),
    fun j => (h'.domains j).trans (h.domains j)⟩

/-- Spaces may be sorted; nothing else changes. -/
structure Workspace.Sorts (ws ws' : Workspace) : Prop extends Tidies ws ws' where
  steady : ws.Steady ws'

instance : IsPreorder Workspace Workspace.Sorts where
  refl ws := ⟨Std.Refl.refl ws, Std.Refl.refl ws⟩
  trans _ _ _ h h' := ⟨IsTrans.trans _ _ _ h.toTidies h'.toTidies, h.steady.trans h'.steady⟩

namespace Workspace.Tidies

variable {ws ws' : Workspace}

theorem leaf?_eq (h : Tidies ws ws') (x : Occupant) : ws'.leaf? x = ws.leaf? x := by
  cases x <;> simp only [Workspace.leaf?, h.registers, h.passengers]

theorem hosted (h : Tidies ws ws') (c : SpaceId) : ws'.Hosted c ↔ ws.Hosted c :=
  exists_congr fun j => exists_congr fun slot => h.contains j slot c

theorem of_moves {ids : List SpaceId} (h : Moves ids ws ws') (hr : ws.Rebased ws') : Tidies ws ws' :=
  ⟨h.registers, h.passengers, h.frame.policy, hr.contains, domainOf_frame h.frame⟩

end Workspace.Tidies

theorem Workspace.Sorts.of_placing {ids : List SpaceId} {ws ws' : Workspace}
    (h : ws.Placing ids (fun _ => []) ws') : Sorts ws ws' where
  registers := by rw [h.rest]
  passengers := by rw [h.rest]
  policy := by rw [h.rest]
  contains := h.steady.contains
  domains j := by
    cases hs : ws.space? j with
    | some s => exact h.domainOf_eq hs
    | none =>
      have hsize := Array.getElem?_eq_none_iff.mp hs
      have hs' : ws'.space? j = none := Array.getElem?_eq_none_iff.mpr (h.size ▸ hsize)
      unfold domainOf
      rw [hs, hs']
  steady := h.steady

namespace Design

open Build
open Workspace (Tidies Sorts Closed)

variable {ids : List SpaceId} {ws ws' ws'' : Workspace} {i : Instance} {id : SpaceId}
  {js : List (PassengerId × SpaceId)} {st : Resolution}

/-! ### Settled spaces -/

theorem resolve_sorts (hid : id ∈ ids) :
    Ensures Sorts (fun ws => ws.Closed ids) id.resolve fun _ ws => ws.Closed ids := by
  intro ws u ws' hc hrun
  obtain ⟨s, hs, hset⟩ := hc.settled id hid
  obtain rfl := (SpaceId.resolveUpTo_resolved hs hset.resolved hrun).symm
  exact ⟨Std.Refl.refl _, hc⟩

theorem shrink_sorts (hid : id ∈ ids) :
    Ensures Sorts (fun ws => ws.Closed ids) id.shrink fun _ ws => ws.Closed ids := by
  intro ws u ws' hc hrun
  obtain ⟨s, hs, hset⟩ := hc.settled id hid
  obtain ⟨r, rfl, hperm, hset', hf, hsteady⟩ :=
    SpaceId.shrinkUpTo_resolved hs hset.kind hset.resolved hset.spaced hset.asked hrun
  exact ⟨⟨⟨rfl, rfl, rfl, hsteady.contains, Workspace.domainOf_frame hf⟩, hsteady⟩,
    hc.setSpace hs hset' hperm⟩

theorem size_sorts (hid : id ∈ ids) :
    Ensures Sorts (fun ws => ws.Closed ids) id.size fun _ ws => ws.Closed ids := by
  intro ws n ws' hc hrun
  have hplacing := SpaceId.size_ok hid hrun
  exact ⟨.of_placing hplacing, hplacing.closed hc⟩

/-! ### Joined spaces -/

/-- The spaces stand where their slots are; without a slot they have the addresses of passengers, or
none. -/
def Landed (js : List (PassengerId × SpaceId)) (ws : Workspace) : Prop :=
  ∃ b, ws.Linked b ∧ ∀ c, (b c = 0 ∧ ∀ j ∈ js, j.2 ≠ c) ∨
    ∃ j ∈ js, j.2 = c ∧ ∃ p, ws.passengers[j.1.index]? = some p ∧ p.ownBase = some (b c)

theorem Landed.sorts (h : Landed js ws) (hs : Sorts ws ws') : Landed js ws' := by
  obtain ⟨b, hl, hb⟩ := h
  refine ⟨b, hs.steady.linked hl, fun c => ?_⟩
  rw [hs.passengers]
  exact hb c

theorem Landed.printed (h : Landed js ws) (transcript : String) :
    Landed js { ws with transcript := transcript } := by
  obtain ⟨b, hl, hb⟩ := h
  have hsteady : ws.Steady { ws with transcript := transcript } := .of_spaces fun _ => rfl
  exact ⟨b, hsteady.linked hl, hb⟩

theorem settleJoins_tidies (hjs : ∀ j ∈ js, j.2 ∈ ids) : Ensures Tidies
      (fun ws => ws.Closed ids ∧ (∀ j ∈ js, ¬ws.Hosted j.2) ∧ ws.Linked 0)
      (forIn js PUnit.unit fun j _ => do
        settleJoin j
        pure (.yield PUnit.unit) : Build PUnit)
      fun _ ws => ws.Closed ids ∧ (∀ j ∈ js, ¬ws.Hosted j.2) ∧ Landed js ws := by
  refine (ensures_forIn_done (fun done ws =>
    ws.Closed ids ∧ (∀ j ∈ js, ¬ws.Hosted j.2) ∧ Landed done ws) ?_).pre fun ws h =>
      ⟨h.1, h.2.1, 0, h.2.2, fun c => .inl ⟨rfl, by simp⟩⟩
  rintro done j rest hsplit ws step ws' ⟨hc, hfree, b, hl, hb⟩ hrun
  have hj : j ∈ js := by rw [hsplit]; simp
  obtain ⟨u, hjoin, rfl⟩ := bind_pure_ok hrun
  unfold settleJoin at hjoin
  obtain ⟨p, ws1, hget, hrun1⟩ := bind_ok hjoin
  obtain ⟨hp, hws⟩ := entryOf_ok hget
  obtain rfl := hws.symm
  cases hbase : p.ownBase with
  | none =>
    rw [hbase] at hrun1
    exact (throw_ok hrun1).elim
  | some base =>
    rw [hbase] at hrun1
    have hmoves := SpaceId.setBase_moves hc (hjs j hj) hrun1
    obtain ⟨hreb, hl'⟩ := SpaceId.setBase_linked hl (hfree j hj) hrun1
    have ht := Tidies.of_moves hmoves hreb
    refine ⟨ht, rfl, hc.moves hmoves, fun j' hj' => ?_, _, hl', fun c => ?_⟩
    · rw [ht.hosted]
      exact hfree j' hj'
    · rw [ht.passengers]
      by_cases he : c = j.2
      · rw [he, Function.update_self]
        exact .inr ⟨j, by simp, rfl, p, hp, hbase⟩
      · rw [Function.update_of_ne he]
        refine (hb c).imp (fun hnone => ⟨hnone.1, fun j' hj' => ?_⟩) fun ⟨j', hj', hrest⟩ =>
          ⟨j', mem_append_left _ hj', hrest⟩
        rcases mem_append.mp hj' with hj' | hj'
        · exact hnone.2 j' hj'
        · rw [mem_singleton.mp hj']
          exact Ne.symm he

/-! ### Spaces that hold nothing -/

theorem removePlaces_sublist {α : Type} {xs ys : List α} {places : List Nat}
    (h : removePlaces xs places = .ok ys) : ys.Sublist xs := by
  unfold removePlaces at h
  induction places generalizing xs with
  | nil =>
    cases h
    exact List.Sublist.refl _
  | cons n places ih =>
    rw [foldlM_cons] at h
    obtain ⟨zs, hzs, h⟩ := Result.bind_ok h
    split at hzs
    · cases hzs
      exact (ih h).trans (eraseIdx_sublist _ _)
    · cases hzs

/-- The instance `i'` is the one of `e` after the resolution of the tree, without some of its spaces. -/
def Drops (joined : List SpaceId) (e : Option Instance × Instance) (i' : Instance) : Prop :=
  ∃ i spaces, Housed joined e i ∧ spaces.Sublist e.2.spaces ∧ i' = { i with spaces := spaces }

theorem dropEmpty_drops (hi : i.spaces ⊆ ids) :
    Ensures Sorts (fun ws => ws.Closed ids) (dropEmpty i) fun i' ws =>
      ws.Closed ids ∧ ∃ spaces, spaces.Sublist i.spaces ∧ i' = { i with spaces := spaces } := by
  unfold dropEmpty
  refine Ensures.bind (ensures_filterMapM (fun _ _ ws => ws.Closed ids) ?_) fun places => ?_
  · rintro done ⟨id, n⟩ rest hsplit _
    have hid : id ∈ ids := hi (fst_mem_of_mem_zipIdx (hsplit ▸ by simp : (id, n) ∈ i.spaces.zipIdx))
    exact (shrink_sorts hid).bind fun _ => (size_sorts hid).bind fun _ =>
      ensures_pure fun _ hc => hc
  · refine ensures_lift.bind fun spaces => ensures_pure fun ws h => ?_
    exact ⟨h.2, spaces, removePlaces_sublist h.1, rfl⟩

/-! ### The whole tree -/

/-- The spaces of all instances of the walk are settled, each where its instance is to be placed. -/
structure Resolved (ws : Workspace) (walk : List (Option Instance × Instance)) (st : Resolution)
    (ws' : Workspace) : Prop where
  policy : ws'.policy = ws.policy
  nonneg : ws'.Nonneg
  closed : ws'.Closed (walk.flatMap fun e => e.2.spaces)
  contains : ∀ host slot c, ws'.Contains host slot c →
    host ∈ (walk.flatMap fun e => e.2.spaces) ∧ (∃ e ∈ walk, Seeks ws e host c) ∧ c ∉ st.joined
  roots : ∀ e ∈ walk, (e.1.filter fun p => entered p e.2) = none → e.2.spaces ⊆ st.maps
  titles : ∀ e ∈ walk, ∀ id ∈ e.2.spaces, ws'.domainOf id = titleOf ws e id

theorem Underway.resolved {walk : List (Option Instance × Instance)}
    (h : Underway ws walk st ws') (ht : Tidies ws' ws'')
    (hc : ws''.Closed (walk.flatMap fun e => e.2.spaces)) : Resolved ws walk st ws'' where
  policy := ht.policy.trans h.evolves.policy
  nonneg := h.nonneg.of_leaves ht.leaf?_eq
  closed := hc
  contains host slot c hslot := h.contains ((ht.contains host slot c).mp hslot)
  roots := h.roots
  titles e he id hid := (ht.domains id).trans (h.titles e he id hid)

theorem Resolved.printed {walk : List (Option Instance × Instance)}
    (h : Resolved ws walk st ws') (transcript : String) :
    Resolved ws walk st { ws' with transcript := transcript } where
  policy := h.policy
  nonneg := h.nonneg.of_leaves fun x => by cases x <;> rfl
  closed := h.closed.congr fun _ _ s hs hset => ⟨s, hs, hset, List.Perm.refl _⟩
  contains := h.contains
  roots := h.roots
  titles := h.titles

/-- Work on all nodes of a tree is work along a walk. -/
theorem Resolving.mapTree_ok {α β : Type} {f : Option α → α → Resolving β} {p : Option α} {t : Tree α}
    {u : Tree β} {st' : Resolution} (h : t.mapM f p st ws = .ok (u, st') ws') :
    t.shape = u.shape ∧ (t.withParents p).mapM (fun e => f e.1 e.2) st ws = .ok (u.toList, st') ws' := by
  have hwalk := congrFun (congrFun (Tree.mapM_eq f p t) st) ws
  have hrun : ((fun u : Tree β => (u.shape, u.toList)) <$> t.mapM f p) st ws =
      .ok ((u.shape, u.toList), st') ws' := bind_of_ok h _
  rw [hrun] at hwalk
  obtain ⟨⟨bs, st1⟩, hbs, he⟩ := Build.bind_pure_ok hwalk.symm
  obtain ⟨hpair, rfl⟩ := Prod.mk.inj he
  obtain ⟨hshape, rfl⟩ := Prod.mk.inj hpair
  exact ⟨hshape.symm, hbs⟩

theorem dropTree_drops {t : InstanceTree} (hi : ∀ i ∈ t.toList, i.spaces ⊆ ids) :
    Ensures Sorts (fun ws => ws.Closed ids) (t.mapM (fun _ i => dropEmpty i) none) fun t' ws =>
      ws.Closed ids ∧
        t.Rel (fun i i' => ∃ spaces, spaces.Sublist i.spaces ∧ i' = { i with spaces := spaces }) t' := by
  intro ws t' ws' hc h
  obtain ⟨hshape, hrun⟩ := mapTree_ok h
  have hmem : ∀ e ∈ t.withParents none, e.2.spaces ⊆ ids := fun e he => by
    refine hi e.2 ?_
    rw [← Tree.map_snd_withParents none t]
    exact mem_map_of_mem he
  obtain ⟨hs, hc', hall⟩ := ensures_mapM (R := Sorts)
    (fun (done : List (Option Instance × Instance)) is w => w.Closed ids ∧
      List.Forall₂ (fun e i' => ∃ spaces, spaces.Sublist e.2.spaces ∧ i' = { e.2 with spaces := spaces })
        done is)
    (fun done e rest hsplit is w i' w' ⟨hc, hall⟩ hrun => by
      obtain ⟨hs, hc', hdrop⟩ := dropEmpty_drops (hmem e (by rw [hsplit]; simp)) hc hrun
      exact ⟨hs, hc', rel_append hall (.cons hdrop .nil)⟩)
    ⟨hc, .nil⟩ hrun
  refine ⟨hs, hc', Tree.rel_of_shape hshape ?_⟩
  rw [← Tree.map_snd_withParents none t]
  exact forall₂_map_left_iff.mpr hall

/-- The resolution of a tree, by what it leaves of the tree and of its spaces. -/
theorem resolveTree_ok {t t' : InstanceTree} {maps : List SpaceId}
    (hp : Planted ws (t.withParents none)) (h : resolveTree t ws = .ok (t', maps) ws') :
    ∃ st, Resolved ws (t.withParents none) st ws' ∧ Landed st.joins ws' ∧ maps = st.maps ∧
      (t.traced none).Rel (Drops st.joined) t' := by
  unfold resolveTree at h
  obtain ⟨⟨t1, st⟩, ws1, hwalk, h1⟩ := bind_ok h
  obtain ⟨hshape, hrun⟩ := Resolving.mapTree_ok hwalk
  have hfront : Planted ws (t.withParents none ++ []) := by rwa [append_nil]
  obtain ⟨hu, hl, hall⟩ := resolveFront_ok hfront hrun
  have hrel : (t.traced none).Rel (Housed st.joined) t1 := by
    refine Tree.rel_of_shape ((Tree.shape_traced none t).trans hshape) ?_
    rwa [Tree.toList_traced]
  have hspaces : ∀ i ∈ t1.toList, i.spaces ⊆ (t.withParents none).flatMap fun e => e.2.spaces := by
    intro i hi
    obtain ⟨e, he, ⟨b, d, rfl⟩, -⟩ := forall₂_exists_left hall hi
    exact fun id hid => mem_flatMap.mpr ⟨e, he, hid⟩
  have hfree : ∀ j ∈ st.joins, ¬ws1.Hosted j.2 := by
    rintro j hj ⟨host, slot, hslot⟩
    exact (hu.contains hslot).2.2 (mem_map_of_mem hj)
  -- the spaces of the root are resolved already
  obtain ⟨_, ws2, hroot, h2⟩ := bind_ok h1
  obtain ⟨hs2, hc2⟩ := ensures_forIn (R := Sorts)
    (P := fun ws => ws.Closed ((t.withParents none).flatMap fun e => e.2.spaces))
    (fun id hid => (resolve_sorts (hspaces _ t1.data_mem_toList hid)).bind fun _ =>
      ensures_pure fun ws hc => ⟨rfl, hc⟩) hu.closed hroot
  -- the joined spaces get their addresses
  obtain ⟨_, ws3, hjoin, h3⟩ := bind_ok h2
  obtain ⟨ht3, hc3, -, hland⟩ := settleJoins_tidies (fun j hj => hu.joined (mem_map_of_mem hj))
    ⟨hc2, fun j hj => by
      rw [hs2.hosted]
      exact hfree j hj, hs2.steady.linked hl⟩ hjoin
  -- and spaces are dropped
  obtain ⟨t2, ws4, hdrop, h4⟩ := bind_ok h3
  obtain ⟨hs4, hc4, hdrops⟩ := dropTree_drops hspaces hc3 hdrop
  obtain ⟨he, rfl⟩ := pure_ok h4
  obtain ⟨rfl, rfl⟩ := Prod.mk.inj he
  have ht : Tidies ws1 ws' := IsTrans.trans _ _ _ hs2.toTidies (IsTrans.trans _ _ _ ht3 hs4.toTidies)
  refine ⟨st, hu.resolved ht hc4, hland.sorts hs4, rfl, hrel.comp hdrops ?_⟩
  rintro e i _ hhoused ⟨spaces, hsub, rfl⟩
  obtain ⟨b, d, rfl⟩ := hhoused.inst
  exact ⟨_, spaces, hhoused, hsub, rfl⟩

end Design

end RegisterMap
