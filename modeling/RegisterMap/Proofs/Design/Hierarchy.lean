import RegisterMap.Proofs.Design.Node
import RegisterMap.Proofs.Design.Populate

/-! # Resolving the instance tree

The instances are resolved along a walk on which every instance comes before its parent
(`Planted.later`).  While that is under way (`Underway`), the spaces of the instances that were met are
settled, and those of the others wait for them. -/

namespace RegisterMap

open List

namespace Design

open Workspace

/-- A walk over instances whose spaces can all be resolved. -/
structure Planted (ws : Workspace) (walk : List (Option Instance × Instance)) : Prop where
  nodup : (walk.flatMap fun e => e.2.spaces).Nodup
  draft : ws.Draft
  spaces : ∀ e ∈ walk, ∀ id ∈ e.2.spaces, ∃ s, ws.space? id = some s
  aligned : ws.policy.alignedLoops = true
  later : ∀ done e rest, walk = done ++ e :: rest → ∀ p, e.1 = some p → p ∈ rest.map Prod.snd
  titled : ∀ e ∈ walk, ws.Titled e.2.spaces

/-- The instances `done` are resolved, and the other spaces wait for theirs. -/
structure Underway (ws : Workspace) (done : List (Option Instance × Instance)) (st : Resolution)
    (ws' : Workspace) : Prop where
  evolves : ws.Evolves ws'
  nonneg : ws'.Nonneg
  closed : ws'.Closed (done.flatMap fun e => e.2.spaces)
  waiting : ∀ id, id ∉ (done.flatMap fun e => e.2.spaces) → ∀ s, ws.space? id = some s →
    ∃ s', ws'.space? id = some s' ∧ s'.Waiting (done.flatMap fun e => e.2.spaces) ∧ s'.domain = s.domain
  asked : ∀ j, ∀ c ∈ ws'.guestsOf j, (∃ e ∈ done, Seeks ws e j c) ∧ c ∉ st.joined
  joined : st.joined ⊆ done.flatMap fun e => e.2.spaces
  roots : ∀ e ∈ done, (e.1.filter fun p => entered p e.2) = none → e.2.spaces ⊆ st.maps
  titles : ∀ e ∈ done, ∀ id ∈ e.2.spaces, ws'.domainOf id = titleOf ws e id

variable {ws ws' ws'' : Workspace} {walk done rest : List (Option Instance × Instance)}
  {e e' : Option Instance × Instance} {st st' : Resolution} {id host : SpaceId} {s : AddressSpace}

/-! ### Spaces along the walk -/

namespace Planted

theorem disjoint (h : Planted ws (done ++ rest)) :
    (done.flatMap fun e => e.2.spaces).Disjoint (rest.flatMap fun e => e.2.spaces) := by
  have hn := h.nodup
  rw [flatMap_append] at hn
  exact fun id hd hr => (nodup_append.mp hn).2.2 id hd id hr rfl

section

variable (h : Planted ws (done ++ e :: rest))

include h

theorem not_mem (hid : id ∈ e.2.spaces) :
    id ∉ done.flatMap fun e => e.2.spaces := fun hm => h.disjoint hm (by simp [hid])

theorem not_mem_done (he : e' ∈ rest) (hid : id ∈ e'.2.spaces) :
    id ∉ done.flatMap fun e => e.2.spaces := fun hm =>
  h.disjoint hm (mem_flatMap.mpr ⟨e', mem_cons_of_mem _ he, hid⟩)

theorem not_mem_rest (hid : id ∈ e.2.spaces) :
    id ∉ rest.flatMap fun e => e.2.spaces := fun hm => by
  rw [show done ++ e :: rest = (done ++ [e]) ++ rest by simp] at h
  exact h.disjoint (by simp [hid]) hm

end

section

variable (h : Planted ws walk)

include h

theorem eq_of_mem (he : e ∈ walk) (he' : e' ∈ walk) (hid : id ∈ e.2.spaces)
    (hid' : id ∈ e'.2.spaces) : e = e' := by
  by_contra hne
  have : Std.Symm fun e e' : Option Instance × Instance => e.2.spaces.Disjoint e'.2.spaces :=
    ⟨fun _ _ h _ hx hy => h hy hx⟩
  exact (nodup_flatMap.mp h.nodup).2.forall he he' hne hid hid'

theorem parent_mem (he : e ∈ walk) {p : Instance} (hp : e.1 = some p) :
    ∃ e' ∈ walk, e'.2 = p := by
  obtain ⟨met, later, rfl⟩ := append_of_mem he
  obtain ⟨e', he', rfl⟩ := mem_map.mp (h.later met e later rfl p hp)
  exact ⟨e', by simp [he'], rfl⟩

theorem host_unique (he : e ∈ walk) (he' : e' ∈ walk) {host' c : SpaceId}
    (hc : Seeks ws e host c) (hc' : Seeks ws e' host' c) : host = host' := by
  obtain ⟨hmem, p, hp, hhost⟩ := hc
  obtain ⟨hmem', p', hp', hhost'⟩ := hc'
  obtain rfl := h.eq_of_mem he he' hmem hmem'
  obtain rfl := Option.mem_unique hp hp'
  obtain ⟨e'', he'', rfl⟩ := h.parent_mem he (Option.filter_eq_some_iff.mp hp).1
  unfold hostsOf at hhost hhost'
  split at hhost
  · rename_i d hd
    rw [hd] at hhost'
    obtain ⟨ha, had⟩ := mem_filter.mp hhost
    obtain ⟨hb, hbd⟩ := mem_filter.mp hhost'
    exact (h.titled e'' he'').eq_of_same ha hb had hbd
  · cases hhost

theorem not_hosted (c : SpaceId) : ¬ws.Hosted c := by
  rintro ⟨j, slot, s, hs, hslot, -⟩
  rw [(h.draft.waiting j s hs).opened.fresh.taken] at hslot
  cases hslot

theorem linked : ws.Linked 0 where
  forest :=
    { once := fun hc _ => absurd ⟨_, _, hc⟩ (h.not_hosted _)
      ranked := ⟨fun _ => 0, fun hc => absurd ⟨_, _, hc⟩ (h.not_hosted _)⟩ }
  origin hc := absurd ⟨_, _, hc⟩ (h.not_hosted _)
  free {c} _ := by
    cases hs : ws.space? c with
    | none =>
      unfold origin
      rw [hs]
      rfl
    | some s =>
      rw [origin_eq hs]
      exact (h.draft.waiting c s hs).opened.fresh.base

theorem underway : Underway ws [] {} ws where
  evolves := .refl ws
  nonneg := h.draft.nonneg
  closed := ⟨by simp, by simp [Enclosed], by simp⟩
  waiting id _ s hs := ⟨s, hs, h.draft.waiting id s hs, rfl⟩
  asked j c hc := by
    cases hs : ws.space? j with
    | none =>
      unfold guestsOf at hc
      rw [hs] at hc
      cases hc
    | some s =>
      rw [guestsOf_eq hs, AddressSpace.mem_guests] at hc
      cases (h.draft.waiting j s hs).isLeaf hc
  joined := by simp [Resolution.joined]
  roots := by simp
  titles := by simp

end

end Planted

/-! ### One more instance -/

theorem Evolves.guestsOf_eq (h : ws.Evolves ws') (hs : ws.space? id = some s)
    (hr : s.ledger.resolved = true) : ws'.guestsOf id = ws.guestsOf id := by
  obtain ⟨s', hs', hlast⟩ := h.space id s hs
  have hitems : s'.items = s.items := by
    unfold AddressSpace.items
    rw [hlast.ledger hr]
  rw [Workspace.guestsOf_eq hs, Workspace.guestsOf_eq hs']
  unfold AddressSpace.guests
  rw [AddressSpace.queue_congr hitems]

namespace Underway

theorem opened (hp : Planted ws (done ++ e :: rest)) (hu : Underway ws done st ws') :
    ∀ id ∈ e.2.spaces, ∃ s, ws'.space? id = some s ∧ s.Open := by
  intro id hid
  obtain ⟨s, hs⟩ := hp.spaces e (by simp) id hid
  obtain ⟨s', hs', hw, -⟩ := hu.waiting id (hp.not_mem hid) s hs
  exact ⟨s', hs', hw.opened⟩

/-- What stands in a slot was to be placed there, and it is not joined. -/
theorem contains (hu : Underway ws done st ws') {slot : Slot Occupant} {c : SpaceId}
    (h : ws'.Contains host slot c) :
    host ∈ (done.flatMap fun e => e.2.spaces) ∧ (∃ e ∈ done, Seeks ws e host c) ∧ c ∉ st.joined := by
  obtain ⟨s', hs', hslot, hitem⟩ := h
  obtain ⟨s, hs⟩ := hu.evolves.exists_before hs'
  by_cases hhost : host ∈ done.flatMap fun e => e.2.spaces
  · obtain ⟨t, ht, hset⟩ := hu.closed.settled host hhost
    obtain rfl := Option.mem_unique hs' ht
    refine ⟨hhost, hu.asked host c ?_⟩
    rw [guestsOf_eq hs', AddressSpace.mem_guests, ← hitem]
    exact hset.asked slot hslot
  · obtain ⟨t, ht, hw, -⟩ := hu.waiting host hhost s hs
    obtain rfl := Option.mem_unique hs' ht
    rw [hw.opened.fresh.taken] at hslot
    cases hslot

variable (hp : Planted ws (done ++ e :: rest)) (hu : Underway ws done st ws')

include hp hu

theorem gathered (hl : ws'.Linked 0) : Gathered ws' (done.flatMap fun e => e.2.spaces) e.2.spaces where
  closed := hu.closed
  nonneg := hu.nonneg
  aligned := by rw [hu.evolves.policy]; exact hp.aligned
  waiting id hid := by
    obtain ⟨s, hs⟩ := hp.spaces e (by simp) id hid
    obtain ⟨s', hs', hw, -⟩ := hu.waiting id (hp.not_mem hid) s hs
    exact ⟨s', hs', hw⟩
  outside id hid := hp.not_mem hid
  nodup := (nodup_flatMap.mp hp.nodup).1 e (by simp)
  linked := hl
  free id hid := by
    rintro ⟨host, slot, hc⟩
    obtain ⟨-, ⟨e', he', hseeks⟩, -⟩ := hu.contains hc
    exact hp.not_mem hid (mem_flatMap.mpr ⟨e', he', hseeks.1⟩)
  loose id hid c hc := by
    rintro ⟨host, slot, hslot⟩
    obtain ⟨hhost, ⟨e', he', hseeks⟩, -⟩ := hu.contains hslot
    obtain ⟨⟨e'', he'', hseeks'⟩, -⟩ := hu.asked id c hc
    obtain rfl := hp.host_unique (mem_append_left _ he') (mem_append_left _ he'') hseeks hseeks'
    exact hp.not_mem hid hhost
  once a ha b hb hne c hc hc' := by
    obtain ⟨⟨e', he', hseeks⟩, -⟩ := hu.asked a c hc
    obtain ⟨⟨e'', he'', hseeks'⟩, -⟩ := hu.asked b c hc'
    exact hne (hp.host_unique (mem_append_left _ he') (mem_append_left _ he'') hseeks hseeks')

theorem welcomes {p : Instance} (hparent : e.1 = some p) : Welcomes ws' p e.2.spaces := by
  obtain ⟨e', he', rfl⟩ := mem_map.mp (hp.later done e rest rfl p hparent)
  have hmem : e' ∈ done ++ e :: rest := by simp [he']
  refine ⟨(nodup_flatMap.mp hp.nodup).1 e' hmem, fun host hhost => ⟨fun hm => ?_, ?_⟩⟩
  · exact hp.not_mem_rest hm (mem_flatMap.mpr ⟨e', he', hhost⟩)
  · obtain ⟨s, hs⟩ := hp.spaces e' hmem host hhost
    obtain ⟨s', hs', hw, -⟩ := hu.waiting host (hp.not_mem_done he' hhost) s hs
    exact ⟨s', hs', hw.opened⟩

theorem hostsOf_eq {p : Instance} (hparent : e.1 = some p) : hostsOf ws' p e.2 = hostsOf ws p e.2 := by
  obtain ⟨e', he', rfl⟩ := mem_map.mp (hp.later done e rest rfl p hparent)
  have hin : ∀ d, hostsIn ws' e'.2 d = hostsIn ws e'.2 d := fun d =>
    filter_congr fun host hhost => by
      obtain ⟨s, hs⟩ := hp.spaces e' (by simp [he']) host hhost
      obtain ⟨s', hs', -, hd⟩ := hu.waiting host (hp.not_mem_done he' hhost) s hs
      rw [domainOf_eq hs, domainOf_eq hs', hd]
  unfold hostsOf
  rw [funext hin]

theorem seeks {c : SpaceId} (h : Seeks ws' e host c) : Seeks ws e host c := by
  obtain ⟨hc, p, hparent, hhost⟩ := h
  rw [hu.hostsOf_eq hp (Option.filter_eq_some_iff.mp hparent).1] at hhost
  exact ⟨hc, p, hparent, hhost⟩

theorem asked_step {i : Instance} (hr : Resolves ws' (done.flatMap fun e => e.2.spaces) e st i st' ws'')
    {j c : SpaceId} (hc : c ∈ ws''.guestsOf j) :
    (∃ e' ∈ done ++ [e], Seeks ws e' j c) ∧ c ∉ st'.joined := by
  -- what was asked for before is not joined now
  have hold : c ∈ ws'.guestsOf j → (∃ e' ∈ done ++ [e], Seeks ws e' j c) ∧ c ∉ st'.joined := by
    intro hc
    obtain ⟨⟨e', he', hseeks⟩, hnot⟩ := hu.asked j c hc
    refine ⟨⟨e', mem_append_left _ he', hseeks⟩, fun hm => ?_⟩
    obtain ⟨js, hjoins, hjs⟩ := hr.joins
    obtain ⟨join, hjoin, rfl⟩ := mem_map.mp hm
    rw [hjoins] at hjoin
    rcases mem_append.mp hjoin with hjoin | hjoin
    · exact hnot (mem_map_of_mem hjoin)
    · exact hp.not_mem (hjs join hjoin) (mem_flatMap.mpr ⟨e', he', hseeks.1⟩)
  cases hs'' : ws''.space? j with
  | none =>
    unfold guestsOf at hc
    rw [hs''] at hc
    cases hc
  | some s'' =>
    obtain ⟨s', hs'⟩ := hr.evolves.exists_before hs''
    by_cases hj : j ∈ e.2.spaces
    · exact hold (by rwa [← hr.guests j hj])
    by_cases hd : j ∈ done.flatMap fun e => e.2.spaces
    · obtain ⟨t, ht, hset⟩ := hu.closed.settled j hd
      exact hold (by rwa [← Evolves.guestsOf_eq hr.evolves ht hset.resolved])
    · obtain ⟨t, kids, ht, hh, -, hkids⟩ := hr.hosted j hj hd s' hs'
      rw [guestsOf_eq ht, hh.guests, mem_append] at hc
      rcases hc with hc | hc
      · exact hold (by rwa [guestsOf_eq hs'])
      · exact ⟨⟨e, by simp, hu.seeks hp (hkids c hc).1⟩, (hkids c hc).2⟩

theorem step (hl : ws'.Linked 0) {i : Instance}
    (hrun : resolveInstance e.1 e.2 st ws' = .ok (i, st') ws'') :
    Underway ws (done ++ [e]) st' ws'' ∧ ws''.Linked 0 ∧ Housed st'.joined e i ∧
      st.joined ⊆ st'.joined := by
  have hg := hu.gathered hp hl
  have hr := resolveInstance_ok hg (fun p hparent => hu.welcomes hp hparent) hrun
  obtain ⟨js, hjoins, hjs⟩ := hr.joins
  have hspaces : ((done ++ [e]).flatMap fun e => e.2.spaces) =
      (done.flatMap fun e => e.2.spaces) ++ e.2.spaces := by simp
  have hjoined : st'.joined = st.joined ++ js.map Prod.snd := by
    unfold Resolution.joined
    rw [hjoins, map_append]
  refine ⟨?_, hr.linked, hr.inst, by rw [hjoined]; exact subset_append_left _ _⟩
  exact
    { evolves := hu.evolves.trans hr.evolves
      nonneg := hr.nonneg
      closed := hr.closed.of_mem_iff fun j => by simp [or_comm]
      waiting := fun id hid s hs => by
        rw [hspaces] at hid ⊢
        obtain ⟨hout', hout⟩ := not_or.mp (mt mem_append.mpr hid)
        obtain ⟨s', hs', hw, hd⟩ := hu.waiting id hout' s hs
        obtain ⟨s'', kids, hs'', hh, hn, hkids⟩ := hr.hosted id hout hout' s' hs'
        refine ⟨s'', hs'', hh.waiting hw (subset_append_left _ _) ?_ fun c hc =>
          mem_append_right _ (hkids c hc).1.1, hh.domain.trans hd⟩
        refine nodup_append.mpr ⟨hw.nodup, hn, ?_⟩
        rintro c hc _ hc' rfl
        obtain ⟨⟨e', he', hseeks⟩, -⟩ := hu.asked id c (by rwa [guestsOf_eq hs'])
        exact hp.not_mem (hkids c hc').1.1 (mem_flatMap.mpr ⟨e', he', hseeks.1⟩)
      asked := fun j c hc => hu.asked_step hp hr hc
      joined := by
        rw [hjoined, hspaces]
        refine append_subset.mpr ⟨List.Subset.trans hu.joined (subset_append_left _ _),
          List.Subset.trans (fun c hc => ?_) (subset_append_right _ _)⟩
        obtain ⟨j, hj, rfl⟩ := mem_map.mp hc
        exact hjs j hj
      roots := fun e' he' hnone => by
        rcases mem_append.mp he' with he' | he'
        · exact List.Subset.trans (hu.roots e' he' hnone) hr.maps
        · rw [mem_singleton.mp he'] at hnone ⊢
          exact hr.roots hnone
      titles := fun e' he' id hid => by
        rcases mem_append.mp he' with he' | he'
        · have hm : id ∈ done.flatMap fun e => e.2.spaces := mem_flatMap.mpr ⟨e', he', hid⟩
          obtain ⟨s, hs, -⟩ := hu.closed.settled id hm
          rw [hr.titles id s hs, titleOf_of_not_mem fun he => hp.not_mem he hm]
          exact hu.titles e' he' id hid
        · rw [mem_singleton] at he'
          subst he'
          obtain ⟨s, hs⟩ := hp.spaces e' (by simp) id hid
          obtain ⟨s', hs', -, hd⟩ := hu.waiting id (hp.not_mem hid) s hs
          rw [hr.titles id s' hs', titleOf_congr]
          rw [domainOf_eq hs, domainOf_eq hs', hd] }

end Underway

theorem resolveFront_ok (hp : Planted ws (done ++ rest)) {is : List Instance}
    (h : (done.mapM fun e => resolveInstance e.1 e.2) {} ws = .ok (is, st) ws') :
    Underway ws done st ws' ∧ ws'.Linked 0 ∧ List.Forall₂ (Housed st.joined) done is := by
  refine Resolving.mapM_ok h (fun met is st ws' =>
    Underway ws met st ws' ∧ ws'.Linked 0 ∧ List.Forall₂ (Housed st.joined) met is) ?_ ?_
  · exact ⟨hp.underway, hp.linked, .nil⟩
  · rintro met e later hwalk is i st1 st2 ws1 ws2 ⟨hu, hl, hall⟩ hrun
    rw [hwalk, append_assoc] at hp
    obtain ⟨hu', hl', hi, hsub⟩ := hu.step hp hl hrun
    exact ⟨hu', hl', rel_append (hall.imp fun _ _ h => h.mono hsub) (.cons hi .nil)⟩

/-! ### The tree of a design -/

/-- The instances of a design can be resolved from the leaves to the root. -/
theorem planted_of_supplied {ws0 : Workspace} {t : InstanceTree}
    (ha : ws0.policy.alignedLoops = true) (hpop : Populating ws0 (t.toList.flatMap Instance.spaces) ws)
    (hall : ∀ i ∈ t.toList, Supplied ws i) : Planted ws (t.withParents none) := by
  have hmem : ∀ e ∈ t.withParents none, Supplied ws e.2 := fun e he => by
    refine hall e.2 ?_
    rw [← Tree.map_snd_withParents none t]
    exact mem_map_of_mem he
  have hspaces : ((t.withParents none).flatMap fun e => e.2.spaces) = t.toList.flatMap Instance.spaces := by
    rw [← Tree.map_snd_withParents none t, flatMap_map]
  exact
    { nodup := by
        rw [hspaces]
        exact hpop.turn.nodup
      draft := hpop.draft
      spaces := fun e he => (hmem e he).spaces
      aligned := by
        rw [hpop.adds.rest]
        exact ha
      later := fun done e rest hsplit q hq => by
        obtain ⟨parent, i⟩ := e
        rcases Tree.withParents_split hsplit with ⟨hnone, -, -⟩ | ⟨b, hb, hm⟩
        · rw [hnone] at hq
          cases hq
        · obtain rfl := Option.mem_unique hb hq
          exact hm
      titled := fun e he => (hmem e he).titled }

end Design

end RegisterMap
