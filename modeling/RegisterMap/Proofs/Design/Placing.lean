import RegisterMap.Proofs.Design.Settling

/-! # Placing the spaces of an instance

The settled spaces of an instance are staged in spaces of its parent or become roots of address maps.
`Placing` says what that changes: the spaces themselves are only tagged, and each space of the parent
has more requests. -/

namespace RegisterMap

open Build List

/-- Requests for some spaces are added to an open space. -/
structure AddressSpace.Hosts (s : AddressSpace) (kids : List SpaceId) (s' : AddressSpace) : Prop where
  kept : s' = s ∨ s.Open ∧ s'.Open
  queue : s'.queue = s.queue ++ kids.map Occupant.space
  domain : s'.domain = s.domain
  region : s'.region = s.region

namespace AddressSpace.Hosts

variable {s s' s'' : AddressSpace} {kids more : List SpaceId}

theorem refl (s : AddressSpace) : s.Hosts [] s := ⟨.inl rfl, by simp, rfl, rfl⟩

theorem opened (h : s.Hosts kids s') (ho : s.Open) : s'.Open := by
  rcases h.kept with rfl | ⟨-, ho'⟩
  · exact ho
  · exact ho'

theorem trans (h : s.Hosts kids s') (h' : s'.Hosts more s'') : s.Hosts (kids ++ more) s'' where
  kept := by
    rcases h.kept with rfl | ⟨ho, ho'⟩
    · exact h'.kept
    · exact .inr ⟨ho, h'.opened ho'⟩
  queue := by rw [h'.queue, h.queue, append_assoc, map_append]
  domain := h'.domain.trans h.domain
  region := h'.region.trans h.region

theorem guests (h : s.Hosts kids s') : s'.guests = s.guests ++ kids := by
  unfold AddressSpace.guests
  rw [h.queue, filterMap_append, filterMap_map]
  exact congrArg (_ ++ ·) (filterMap_some (l := kids))

theorem waiting (h : s.Hosts kids s') {below below' : List SpaceId} (hw : s.Waiting below)
    (hb : below ⊆ below') (hn : (s.guests ++ kids).Nodup) (hk : kids ⊆ below') : s'.Waiting below' where
  opened := h.opened hw.opened
  known x hx := by
    rw [h.queue] at hx
    rcases mem_append.mp hx with hx | hx
    · exact (hw.known x hx).imp_right fun ⟨c, hc, he⟩ => ⟨c, hb hc, he⟩
    · obtain ⟨c, hc, rfl⟩ := mem_map.mp hx
      exact .inr ⟨c, hk hc, rfl⟩
  nodup := by rwa [h.guests]

theorem stage (ho : s.Open) (c : SpaceId) (width : Option Int) :
    s.Hosts [c] { s with ledger := s.ledger.stage .entries ⟨.space c, none, width, false⟩ } where
  kept := .inr ⟨ho, ho.stage (by decide) rfl⟩
  queue := by
    simp [AddressSpace.queue, AddressSpace.items, SpaceKind.passes, SpaceId.shelvesOf, Ledger.stage,
      Ledger.on, Ledger.put]
  domain := rfl
  region := rfl

end AddressSpace.Hosts

/-- A space is tagged or its slots are sorted. -/
structure AddressSpace.Tagged (s s' : AddressSpace) : Prop where
  kind : s'.kind = s.kind
  ledger : s'.ledger = s.ledger
  domain : s'.domain = s.domain
  base : s'.region.base = s.region.base
  aw : s'.region.aw = s.region.aw
  taken : s'.region.taken.Perm s.region.taken

namespace AddressSpace.Tagged

variable {s s' s'' : AddressSpace}

theorem refl (s : AddressSpace) : s.Tagged s := ⟨rfl, rfl, rfl, rfl, rfl, List.Perm.refl _⟩

theorem trans (h : s.Tagged s') (h' : s'.Tagged s'') : s.Tagged s'' :=
  ⟨h'.kind.trans h.kind, h'.ledger.trans h.ledger, h'.domain.trans h.domain, h'.base.trans h.base,
    h'.aw.trans h.aw, h'.taken.trans h.taken⟩

theorem settled (h : s.Tagged s') (hs : s.Settled) : s'.Settled := hs.congr h.kind h.ledger h.taken h.aw

theorem lasts (h : s.Tagged s') : s.Lasts s' := ⟨h.kind, fun _ => h.ledger, fun _ => h.taken⟩

theorem guests (h : s.Tagged s') : s'.guests = s.guests := by
  unfold AddressSpace.guests
  rw [queue_congr (s := s) (by unfold items; rw [h.ledger])]

end AddressSpace.Tagged

/-- The spaces `ids` are tagged, and each other space has requests for more spaces. -/
structure Workspace.Placing (ws : Workspace) (ids : List SpaceId) (kids : SpaceId → List SpaceId)
    (ws' : Workspace) : Prop where
  rest : ws' = { ws with spaces := ws'.spaces }
  size : ws'.spaces.size = ws.spaces.size
  tagged : ∀ j ∈ ids, ∀ s, ws.space? j = some s → ∃ s', ws'.space? j = some s' ∧ s.Tagged s'
  hosted : ∀ j, j ∉ ids → ∀ s, ws.space? j = some s → ∃ s', ws'.space? j = some s' ∧ s.Hosts (kids j) s'
  steady : ws.Steady ws'

namespace Workspace.Placing

variable {ws ws' ws'' : Workspace} {ids : List SpaceId} {kids more : SpaceId → List SpaceId} {id : SpaceId}
  {s s' : AddressSpace}

theorem refl (ws : Workspace) (ids : List SpaceId) : ws.Placing ids (fun _ => []) ws where
  rest := rfl
  size := rfl
  tagged _ _ s hs := ⟨s, hs, .refl s⟩
  hosted _ _ s hs := ⟨s, hs, .refl s⟩
  steady := Std.Refl.refl ws

theorem trans (h : ws.Placing ids kids ws') (h' : ws'.Placing ids more ws'') :
    ws.Placing ids (fun j => kids j ++ more j) ws'' where
  rest := by rw [h'.rest, h.rest]
  size := h'.size.trans h.size
  tagged j hj s hs := by
    obtain ⟨s', hs', ht⟩ := h.tagged j hj s hs
    obtain ⟨s'', hs'', ht'⟩ := h'.tagged j hj s' hs'
    exact ⟨s'', hs'', ht.trans ht'⟩
  hosted j hj s hs := by
    obtain ⟨s', hs', ht⟩ := h.hosted j hj s hs
    obtain ⟨s'', hs'', ht'⟩ := h'.hosted j hj s' hs'
    exact ⟨s'', hs'', ht.trans ht'⟩
  steady := h.steady.trans h'.steady

theorem andTags (h : ws.Placing ids kids ws') (h' : ws'.Placing ids (fun _ => []) ws'') :
    ws.Placing ids kids ws'' := by
  simpa using h.trans h'

theorem tag (hs : ws.space? id = some s) (hid : id ∈ ids) (ht : s.Tagged s') :
    ws.Placing ids (fun _ => []) (ws.setSpace id s') where
  rest := rfl
  size := size_setSpace ws id s'
  tagged j _ t ht' := by
    by_cases hj : id = j
    · subst hj
      obtain rfl := Option.mem_unique hs ht'
      exact ⟨s', space?_setSpace_self hs s', ht⟩
    · exact ⟨t, by rwa [space?_setSpace_of_ne hj], .refl t⟩
  hosted j hj t ht' := ⟨t, by rwa [space?_setSpace_of_ne (ne_of_mem_of_not_mem hid hj)], .refl t⟩
  steady := .setSpace_perm hs ht.base ht.taken

theorem topTag (hs : ws.space? id = some s) (hid : id ∈ ids) (tag : Bool) :
    ws.Placing ids (fun _ => []) (ws.setSpace id { s with topTag := tag }) :=
  .tag hs hid ⟨rfl, rfl, rfl, rfl, rfl, List.Perm.refl _⟩

theorem host {c : SpaceId} (hs : ws.space? id = some s) (hid : id ∉ ids) (hh : s.Hosts [c] s') :
    ws.Placing ids (fun j => if j = id then [c] else []) (ws.setSpace id s') where
  rest := rfl
  size := size_setSpace ws id s'
  tagged j hj t ht := ⟨t, by rwa [space?_setSpace_of_ne (ne_of_mem_of_not_mem hj hid).symm], .refl t⟩
  hosted j _ t ht := by
    by_cases hj : j = id
    · subst hj
      obtain rfl := Option.mem_unique hs ht
      rw [if_pos rfl]
      exact ⟨s', space?_setSpace_self hs s', hh⟩
    · rw [if_neg hj]
      exact ⟨t, by rwa [space?_setSpace_of_ne (Ne.symm hj)], .refl t⟩
  steady := .setSpace_perm hs (by rw [hh.region]) (by rw [hh.region])

section

variable (h : ws.Placing ids kids ws')

include h

theorem evolves : ws.Evolves ws' where
  policy := by rw [h.rest]
  size := h.size
  space j s hs := by
    by_cases hj : j ∈ ids
    · obtain ⟨s', hs', ht⟩ := h.tagged j hj s hs
      exact ⟨s', hs', ht.lasts⟩
    · obtain ⟨s', hs', hh⟩ := h.hosted j hj s hs
      refine ⟨s', hs', ?_⟩
      rcases hh.kept with rfl | ⟨ho, ho'⟩
      · exact .refl s'
      · have hun : s.ledger.resolved ≠ true := by rw [ho.unresolved]; decide
        exact ⟨ho'.kind.trans ho.kind.symm, fun hr => absurd hr hun, fun hr => absurd hr hun⟩

theorem domainOf_eq (hs : ws.space? id = some s) :
    ws'.domainOf id = ws.domainOf id := by
  rw [Workspace.domainOf_eq hs]
  by_cases hj : id ∈ ids
  · obtain ⟨s', hs', ht⟩ := h.tagged id hj s hs
    rw [Workspace.domainOf_eq hs', ht.domain]
  · obtain ⟨s', hs', hh⟩ := h.hosted id hj s hs
    rw [Workspace.domainOf_eq hs', hh.domain]

theorem nonneg (hn : ws.Nonneg) : ws'.Nonneg :=
  hn.of_leaves fun x => by
    rw [h.rest]
    cases x <;> rfl

theorem closed {ids' : List SpaceId} (hc : ws.Closed ids') :
    ws'.Closed ids' :=
  hc.evolves h.evolves fun j hj => by
    obtain ⟨s, hs, hset⟩ := hc.settled j hj
    by_cases hm : j ∈ ids
    · obtain ⟨s', hs', ht⟩ := h.tagged j hm s hs
      exact ⟨s', hs', ht.settled hset⟩
    · obtain ⟨s', hs', hh⟩ := h.hosted j hm s hs
      rcases hh.kept with rfl | ⟨ho, -⟩
      · exact ⟨s', hs', hset⟩
      · exact absurd hset.resolved (by rw [ho.unresolved]; decide)

end

end Workspace.Placing

/-! ### Placing one space -/

theorem SpaceId.size_ok {ws ws' : Workspace} {id : SpaceId} {n : Int} {ids : List SpaceId} (hid : id ∈ ids)
    (h : id.size ws = .ok n ws') : ws.Placing ids (fun _ => []) ws' := by
  unfold size at h
  obtain ⟨s, hs, h1⟩ := bind_region_ok h
  split at h1
  · obtain ⟨-, rfl⟩ := pure_ok h1
    exact .refl _ _
  · obtain ⟨s', r, hs', hr, rfl⟩ := onRegion_ok h1
    obtain rfl := Option.mem_unique hs hs'
    obtain ⟨rfl, -⟩ := Prod.mk.inj hr
    exact .tag hs hid ⟨rfl, rfl, rfl, rfl, rfl, s.region.sorted_taken_perm⟩

namespace Design

open Workspace

variable {ws ws' : Workspace} {ids : List SpaceId} {id : SpaceId} {s : AddressSpace} {p : Instance}

/-- The spaces of the parent in which an instance of a domain is placed. -/
def hostsIn (ws : Workspace) (p : Instance) (d : Value) : List SpaceId :=
  p.spaces.filter fun host => ws.domainOf host == d

/-- The spaces of the parent wait, and they are not among `ids`. -/
def Welcomes (ws : Workspace) (p : Instance) (ids : List SpaceId) : Prop :=
  p.spaces.Nodup ∧ ∀ host ∈ p.spaces, host ∉ ids ∧ ∃ t, ws.space? host = some t ∧ t.Open

theorem Welcomes.placing {kids : SpaceId → List SpaceId} (h : Welcomes ws p ids)
    (hp : ws.Placing ids kids ws') : Welcomes ws' p ids := by
  refine ⟨h.1, fun host hhost => ?_⟩
  obtain ⟨hout, t, ht, ho⟩ := h.2 host hhost
  obtain ⟨t', ht', hh⟩ := hp.hosted host hout t ht
  exact ⟨hout, t', ht', hh.opened ho⟩

theorem hostsIn_placing {kids : SpaceId → List SpaceId} (h : Welcomes ws p ids)
    (hp : ws.Placing ids kids ws') (d : Value) : hostsIn ws' p d = hostsIn ws p d := by
  refine filter_congr fun host hhost => ?_
  obtain ⟨-, t, ht, -⟩ := h.2 host hhost
  rw [hp.domainOf_eq ht]

theorem placeInParent_ok {d : Value} {b : Bool} (hid : id ∈ ids) (hp : Welcomes ws p ids)
    (h : placeInParent p d id ws = .ok b ws') :
    ∃ kids, ws.Placing ids kids ws' ∧
      ∀ j, (kids j).Sublist [id] ∧ (kids j ≠ [] → j ∈ hostsIn ws p d) := by
  unfold placeInParent at h
  obtain ⟨hosts, ws1, hhosts, h1⟩ := bind_ok h
  obtain ⟨rfl, q, hq, hfilter⟩ := filterM_ok hhosts fun host _ c w hrun =>
    (host.readOnly_get.bind fun _ => readOnly_pure _) hrun
  obtain rfl : hosts = hostsIn ws1 p d := by
    rw [hfilter]
    refine filter_congr fun host hhost => ?_
    obtain ⟨-, t, ht, -⟩ := hp.2 host hhost
    have hrun := hq host hhost
    rw [bind_of_ok (SpaceId.get_of_space? ht)] at hrun
    rw [domainOf_eq ht]
    exact (pure_ok hrun).1
  obtain ⟨_, hloop, -⟩ := bind_pure_ok h1
  refine forIn_ok hloop (fun done w => ∃ kids, ws1.Placing ids kids w ∧
    ∀ j, (kids j).Sublist [id] ∧ (kids j ≠ [] → j ∈ done)) ⟨_, .refl ws1 ids, by simp⟩ ?_
  rintro done host rest hsplit w w1 step ⟨kids, hw, hkids⟩ hrun
  have hhost : host ∈ p.spaces := by
    have : host ∈ hostsIn ws1 p d := by rw [hsplit]; simp
    exact (mem_filter.mp this).1
  have hnew : kids host = [] := by
    have hnodup : (hostsIn ws1 p d).Nodup := hp.1.filter _
    rw [hsplit] at hnodup
    by_contra hne
    exact (nodup_append.mp hnodup).2.2 host ((hkids host).2 hne) host mem_cons_self rfl
  obtain ⟨n, w2, hsize, hrun1⟩ := bind_ok hrun
  have hw2 := hw.andTags (SpaceId.size_ok hid hsize)
  have hmono : ∀ j, (kids j).Sublist [id] ∧ (kids j ≠ [] → j ∈ done ++ [host]) := fun j =>
    (hkids j).imp_right fun h hne => mem_append_left _ (h hne)
  split at hrun1
  · obtain ⟨_, hadd, rfl⟩ := bind_pure_ok hrun1
    obtain ⟨houtside, t, ht, ho⟩ := (hp.placing hw2).2 host hhost
    unfold SpaceId.addItem at hadd
    rw [bind_of_ok (SpaceId.get_of_space? ht), ho.kind] at hadd
    dsimp only at hadd
    obtain ⟨width, -, hadd1⟩ := (id.readOnly_region.bind fun _ => readOnly_pure _).bind_ok hadd
    obtain ⟨_, hstage, -⟩ := bind_pure_ok hadd1
    obtain ⟨t', ht', rfl⟩ := SpaceId.update_ok hstage
    obtain rfl := Option.mem_unique ht ht'
    refine ⟨rfl, _, hw2.trans (.host ht houtside (.stage ho id width)), fun j => ?_⟩
    by_cases hj : j = host
    · subst hj
      simp [hnew]
    · simpa [hj] using hmono j
  · obtain ⟨rfl, rfl⟩ := pure_ok hrun1
    exact ⟨rfl, kids, hw2, hmono⟩

/-! ### Placing all spaces -/

variable {st st' : Resolution} {i i' : Instance} {spaces : List SpaceId}

theorem root_ok {isTop : Bool} (hid : id ∈ ids)
    (h : (do
      id.update fun s => { s with topTag := true }
      modify fun r => { r with maps := r.maps ++ [id] }
      return (i, true) : Resolving (Instance × Bool)) st ws = .ok ((i', isTop), st') ws') :
    i' = i ∧ isTop = true ∧ st' = { st with maps := st.maps ++ [id] } ∧
      ws.Placing ids (fun _ => []) ws' := by
  obtain ⟨_, ws1, hup, h1⟩ := Resolving.bind_lift_ok h
  obtain ⟨s, hs, rfl⟩ := SpaceId.update_ok hup
  obtain ⟨_, st2, ws2, hmod, h2⟩ := Resolving.bind_ok h1
  obtain ⟨rfl, rfl⟩ := Resolving.modify_ok hmod
  obtain ⟨he, rfl, rfl⟩ := Resolving.pure_ok h2
  obtain ⟨rfl, rfl⟩ := Prod.mk.inj he
  exact ⟨rfl, rfl, rfl, .topTag hs hid true⟩

theorem placeSpaces_top {parent : Option Instance} {isTop : Bool} (htop : parent = none ∨ isTop = true)
    (hsub : spaces ⊆ ids) (h : placeSpaces parent isTop i spaces st ws = .ok (i', st') ws') :
    i' = i ∧ st' = { st with maps := st.maps ++ spaces } ∧ ws.Placing ids (fun _ => []) ws' := by
  unfold placeSpaces at h
  obtain ⟨⟨i1, top⟩, st1, ws1, hfold, h1⟩ := Resolving.bind_ok h
  obtain ⟨rfl, rfl, rfl⟩ := Resolving.pure_ok h1
  have hend := Resolving.foldlM_ok hfold (fun done acc st2 ws2 => acc.1 = i ∧
    (parent = none ∨ acc.2 = true) ∧ st2 = { st with maps := st.maps ++ done } ∧
    ws.Placing ids (fun _ => []) ws2) ⟨rfl, htop, by simp, .refl ws ids⟩ ?_
  · exact ⟨hend.1, hend.2.2⟩
  · rintro done id rest hsplit ⟨i2, top2⟩ ⟨i3, top3⟩ st2 st3 ws2 ws3 ⟨rfl, htop2, rfl, hplacing⟩ hrun
    have hid : id ∈ ids := hsub (by rw [hsplit]; simp)
    have hroot : i3 = i2 ∧ top3 = true ∧
        st3 = { st with maps := st.maps ++ (done ++ [id]) } ∧ ws2.Placing ids (fun _ => []) ws3 := by
      rw [← append_assoc]
      rcases htop2 with rfl | rfl
      · exact root_ok hid hrun
      · cases parent with
        | none | some p => exact root_ok hid hrun
    obtain ⟨rfl, rfl, hst, hstep⟩ := hroot
    exact ⟨rfl, .inr rfl, hst, hplacing.andTags hstep⟩

def hostsOf (ws : Workspace) (p : Instance) (i : Instance) : List SpaceId :=
  match fromParent p.domains i with
  | .ok d => hostsIn ws p d
  | .error _ => []

def Resolution.joined (st : Resolution) : List SpaceId := st.joins.map Prod.snd

/-- The spaces `done` of an instance that a bus enters are staged in the parent unless joined, or they
are roots. -/
structure Entering (ws : Workspace) (ids : List SpaceId) (p i : Instance) (st : Resolution)
    (done : List SpaceId) (acc : Instance × Bool) (st' : Resolution) (ws' : Workspace) : Prop where
  inst : ∃ d, acc.1 = { i with parentDomain := d } ∧
    (acc.2 = true ∨ (∃ c ∈ done, c ∉ st.joined) → fromParent p.domains i = .ok d)
  maps : st.maps ⊆ st'.maps
  joins : st'.joins = st.joins
  placing : ∃ kids, ws.Placing ids kids ws' ∧ ∀ j,
    (kids j).Sublist (done.filter fun c => c ∉ st.joined) ∧ (kids j ≠ [] → j ∈ hostsOf ws p i)

theorem Entering.step {done : List SpaceId} {acc acc' : Instance × Bool} {st1 st2 : Resolution}
    {ws1 ws2 : Workspace} (hp : Welcomes ws p ids) (hid : id ∈ ids)
    (h : Entering ws ids p i st done acc st1 ws1)
    (hrun : (do
      let root (i : Instance) : Resolving (Instance × Bool) := do
        id.update fun s => { s with topTag := true }
        modify fun r => { r with maps := r.maps ++ [id] }
        return (i, true)
      match some p, acc.2 with
      | some p, false =>
        if (← get).joins.any fun join => join.2 = id then return (acc.1, acc.2)
        let domain ← fromParent p.domains acc.1
        let placed ← placeInParent p domain id
        let i := { acc.1 with parentDomain := domain }
        if placed then
          id.update fun s => { s with topTag := false }
          return (i, false)
        else root i
      | _, _ => root acc.1 : Resolving (Instance × Bool)) st1 ws1 = .ok (acc', st2) ws2) :
    Entering ws ids p i st (done ++ [id]) acc' st2 ws2 := by
  obtain ⟨i1, top⟩ := acc
  obtain ⟨i2, top'⟩ := acc'
  obtain ⟨⟨d1, hinst, hdomain⟩, hmaps, hjoins, kids, hplacing, hkids⟩ := h
  dsimp only at hinst hdomain hrun
  subst hinst
  have hmono : ∀ j, (kids j).Sublist ((done ++ [id]).filter fun c => c ∉ st.joined) ∧
      (kids j ≠ [] → j ∈ hostsOf ws p i) := fun j =>
    (hkids j).imp_left fun hsub => by
      rw [filter_append]
      exact hsub.trans (sublist_append_left _ _)
  cases top with
  | true =>
    obtain ⟨rfl, rfl, rfl, hstep⟩ := root_ok hid hrun
    exact ⟨⟨d1, rfl, fun _ => hdomain (.inl rfl)⟩, fun j hj => mem_append_left _ (hmaps hj),
      hjoins, kids, hplacing.andTags hstep, hmono⟩
  | false =>
    obtain ⟨r, st3, ws3, hget, hrun1⟩ := Resolving.bind_ok hrun
    cases hget
    dsimp only at hrun1
    have hany : (st1.joins.any fun join => decide (join.2 = id)) = true ↔ id ∈ st.joined := by
      rw [hjoins]
      simp [Resolution.joined]
    by_cases hjoined : id ∈ st.joined
    · -- a joined space is passed over
      rw [if_pos (hany.mpr hjoined)] at hrun1
      obtain ⟨he, rfl, rfl⟩ := Resolving.pure_ok hrun1
      obtain ⟨rfl, rfl⟩ := Prod.mk.inj he
      refine ⟨⟨d1, rfl, ?_⟩, hmaps, hjoins, kids, hplacing, hmono⟩
      rintro (htop | ⟨c, hc, hout⟩)
      · cases htop
      · rcases mem_append.mp hc with hc | hc
        · exact hdomain (.inr ⟨c, hc, hout⟩)
        · exact absurd (mem_singleton.mp hc ▸ hjoined) hout
    · rw [if_neg fun he => hjoined (hany.mp he)] at hrun1
      obtain ⟨d, ws4, hd, hrun2⟩ := Resolving.bind_lift_ok hrun1
      obtain ⟨hfrom, rfl⟩ := lift_ok hd
      obtain ⟨placed, ws5, hplace, hrun3⟩ := Resolving.bind_lift_ok hrun2
      obtain ⟨more, hstep, hmore⟩ := placeInParent_ok hid (hp.placing hplacing) hplace
      have hhosts : hostsOf ws p i = hostsIn ws p d := by
        unfold hostsOf
        rw [show fromParent p.domains i = .ok d from hfrom]
      rw [hostsIn_placing hp hplacing, ← hhosts] at hmore
      have hall : ∀ j, (kids j ++ more j).Sublist ((done ++ [id]).filter fun c => c ∉ st.joined) ∧
          (kids j ++ more j ≠ [] → j ∈ hostsOf ws p i) := fun j => by
        refine ⟨?_, fun hne => ?_⟩
        · rw [filter_append, filter_cons_of_pos (by simpa using hjoined)]
          exact (hkids j).1.append (hmore j).1
        · by_cases hk : kids j = []
          · exact (hmore j).2 (by simpa [hk] using hne)
          · exact (hkids j).2 hk
      split at hrun3
      · -- the parent has a place
        obtain ⟨_, ws6, hup, hrun4⟩ := Resolving.bind_lift_ok hrun3
        obtain ⟨t, ht, rfl⟩ := SpaceId.update_ok hup
        obtain ⟨he, rfl, rfl⟩ := Resolving.pure_ok hrun4
        obtain ⟨rfl, rfl⟩ := Prod.mk.inj he
        exact ⟨⟨d, rfl, fun _ => hfrom⟩, hmaps, hjoins, _,
          (hplacing.trans hstep).andTags (.topTag ht hid false), hall⟩
      · obtain ⟨rfl, rfl, rfl, htag⟩ := root_ok hid hrun3
        exact ⟨⟨d, rfl, fun _ => hfrom⟩, fun j hj => mem_append_left _ (hmaps hj), hjoins, _,
          (hplacing.trans hstep).andTags htag, hall⟩

/-- The spaces of an instance that a bus enters are staged in the parent, or they are roots. -/
theorem placeSpaces_entered (hp : Welcomes ws p ids) (hsub : spaces ⊆ ids)
    (h : placeSpaces (some p) false i spaces st ws = .ok (i', st') ws') :
    ∃ acc, acc.1 = i' ∧ Entering ws ids p i st spaces acc st' ws' := by
  unfold placeSpaces at h
  obtain ⟨acc, st1, ws1, hfold, h1⟩ := Resolving.bind_ok h
  obtain ⟨rfl, rfl, rfl⟩ := Resolving.pure_ok h1
  refine ⟨acc, rfl, Resolving.foldlM_ok hfold (fun done acc st2 ws2 =>
    Entering ws ids p i st done acc st2 ws2) ?_ ?_⟩
  · exact ⟨⟨i.parentDomain, rfl, by simp⟩, List.Subset.refl _, rfl, _, .refl ws ids, by simp⟩
  · intro done id rest hsplit acc acc' st2 st3 ws2 ws3 hent hrun
    exact hent.step hp (hsub (by rw [hsplit]; simp)) hrun

end Design

end RegisterMap
