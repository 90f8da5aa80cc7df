import RegisterMap.Proofs.Design.Placing

/-! # Resolving one instance

`Resolves` says what the resolution of an instance does: its spaces are settled, some of them are staged
in spaces of the parent, and those of an instance that no bus enters are roots of address maps. -/

namespace RegisterMap

open Build List

/-- Nothing but the domains of the spaces `ids` changes. -/
structure Workspace.Retitled (ids : List SpaceId) (ws ws' : Workspace) : Prop where
  rest : ws' = { ws with spaces := ws'.spaces }
  size : ws'.spaces.size = ws.spaces.size
  spaces : ∀ j s, ws.space? j = some s → ∃ d, ws'.space? j = some { s with domain := d }
  others : ∀ j, j ∉ ids → ws'.space? j = ws.space? j

namespace Workspace.Retitled

variable {ws ws' : Workspace} {ids : List SpaceId}

theorem refl (ids : List SpaceId) (ws : Workspace) : Retitled ids ws ws :=
  ⟨rfl, rfl, fun _ s hs => ⟨s.domain, hs⟩, fun _ _ => rfl⟩

theorem setDomain {id : SpaceId} {s : AddressSpace} (hs : ws.space? id = some s) (hid : id ∈ ids)
    (d : Value) : Retitled ids ws (ws.setSpace id { s with domain := d }) where
  rest := rfl
  size := size_setSpace ws id _
  spaces j t ht := by
    by_cases hj : id = j
    · subst hj
      obtain rfl := Option.mem_unique hs ht
      exact ⟨d, space?_setSpace_self hs _⟩
    · exact ⟨t.domain, by rwa [space?_setSpace_of_ne hj]⟩
  others j hj := space?_setSpace_of_ne (ne_of_mem_of_not_mem hid hj) _

section

variable (h : Retitled ids ws ws')

include h

theorem evolves : ws.Evolves ws' where
  policy := by rw [h.rest]
  size := h.size
  space j s hs := by
    obtain ⟨d, hs'⟩ := h.spaces j s hs
    exact ⟨_, hs', rfl, fun _ => rfl, fun _ => List.Perm.refl _⟩

theorem map_eq {α : Type} {f : AddressSpace → α} (hf : ∀ s d, f { s with domain := d } = f s)
    (j : SpaceId) :
    (ws'.space? j).map f = (ws.space? j).map f := by
  cases hs : ws.space? j with
  | some s =>
    obtain ⟨d, hs'⟩ := h.spaces j s hs
    rw [hs', Option.map_some, Option.map_some, hf]
  | none =>
    have hsize := Array.getElem?_eq_none_iff.mp hs
    rw [show ws'.space? j = none from Array.getElem?_eq_none_iff.mpr (h.size ▸ hsize)]

theorem steady : ws.Steady ws' := .of_regions (h.map_eq fun _ _ => rfl)

theorem guestsOf_eq (j : SpaceId) : ws'.guestsOf j = ws.guestsOf j :=
  congrArg (·.getD []) (h.map_eq (f := AddressSpace.guests) (fun _ _ => rfl) j)

theorem gathered {below : List SpaceId} (hg : Design.Gathered ws below ids) :
    Design.Gathered ws' below ids where
  closed := hg.closed.evolves h.evolves fun j hj => by
    obtain ⟨s, hs, hset⟩ := hg.closed.settled j hj
    obtain ⟨d, hs'⟩ := h.spaces j s hs
    exact ⟨_, hs', hset.congr rfl rfl (List.Perm.refl _) rfl⟩
  nonneg := hg.nonneg.of_leaves fun x => by
    rw [h.rest]
    cases x <;> rfl
  aligned := by rw [h.evolves.policy]; exact hg.aligned
  waiting id hid := by
    obtain ⟨s, hs, hw⟩ := hg.waiting id hid
    obtain ⟨d, hs'⟩ := h.spaces id s hs
    exact ⟨_, hs', { hw.opened with }, hw.known, hw.nodup⟩
  outside := hg.outside
  nodup := hg.nodup
  linked := h.steady.linked hg.linked
  free id hid := by
    rw [h.steady.hosted]
    exact hg.free id hid
  loose id hid c hc := by
    rw [h.guestsOf_eq] at hc
    rw [h.steady.hosted]
    exact hg.loose id hid c hc
  once a ha b hb hne := by
    rw [h.guestsOf_eq, h.guestsOf_eq]
    exact hg.once a ha b hb hne

end

end Workspace.Retitled

theorem filterMap_range (xs : List SpaceId) : (List.range xs.length).filterMap (fun n => xs[n]?) = xs := by
  induction xs with
  | nil => rfl
  | cons x xs ih =>
    have hzero : (x :: xs)[0]? = some x := rfl
    rw [length_cons, range_succ_eq_map, filterMap_cons_some hzero, filterMap_map]
    exact congrArg (x :: ·) ih

namespace Design

variable {e : Option Instance × Instance} {id : SpaceId}

/-- A bus enters the instance through its ports. -/
def entered (p i : Instance) : Bool :=
  match fromParent p.tops i with
  | .ok isTop => !isTop
  | .error _ => false

/-- The domains of an instance that no bus enters: a single declared one is that of the first space. -/
def declaredOf (ws : Workspace) (i : Instance) (id : SpaceId) : Value :=
  match i.declared with
  | [d] => if i.spaces.head? = some id then d else ws.domainOf id
  | _ => ws.domainOf id

/-- The domains of the spaces of an instance after its resolution. -/
def titleOf (ws : Workspace) (e : Option Instance × Instance) (id : SpaceId) : Value :=
  if (e.1.filter fun p => entered p e.2).isSome then ws.domainOf id else declaredOf ws e.2 id

theorem titleOf_of_ne_head {ws : Workspace}
    (h : e.2.spaces.head? ≠ some id) : titleOf ws e id = ws.domainOf id := by
  unfold titleOf declaredOf
  simp only [if_neg h]
  split
  · rfl
  · split <;> rfl

theorem titleOf_of_not_mem {ws : Workspace} (h : id ∉ e.2.spaces) : titleOf ws e id = ws.domainOf id :=
  titleOf_of_ne_head fun he => h (mem_of_mem_head? he)

theorem titleOf_congr {ws ws' : Workspace} (h : ws'.domainOf id = ws.domainOf id)
    (e : Option Instance × Instance) : titleOf ws' e id = titleOf ws e id := by
  unfold titleOf declaredOf
  rw [h]

/-- The instance after its resolution: if one of its spaces is not joined, it knows its domain in the
parent. -/
structure Housed (joined : List SpaceId) (e : Option Instance × Instance) (i : Instance) : Prop where
  inst : ∃ b d, i = { e.2 with block := b, parentDomain := d }
  domain : ∀ p, e.1.filter (fun p => entered p e.2) = some p → ∀ c ∈ e.2.spaces, c ∉ joined →
    fromParent p.domains e.2 = .ok i.parentDomain

theorem Housed.mono {joined joined' : List SpaceId} {i : Instance}
    (h : Housed joined e i) (hsub : joined ⊆ joined') : Housed joined' e i :=
  ⟨h.inst, fun p hp c hc hout => h.domain p hp c hc fun hm => hout (hsub hm)⟩

/-- The space `c` of an instance is to be placed in the space `host` of its parent. -/
def Seeks (ws : Workspace) (e : Option Instance × Instance) (host c : SpaceId) : Prop :=
  c ∈ e.2.spaces ∧ ∃ p, e.1.filter (fun p => entered p e.2) = some p ∧ host ∈ hostsOf ws p e.2

/-- What the resolution of an instance does. -/
structure Resolves (ws : Workspace) (below : List SpaceId) (e : Option Instance × Instance)
    (st : Resolution) (i : Instance) (st' : Resolution) (ws' : Workspace) : Prop where
  inst : Housed st'.joined e i
  evolves : ws.Evolves ws'
  nonneg : ws'.Nonneg
  closed : ws'.Closed (e.2.spaces ++ below)
  guests : ∀ j ∈ e.2.spaces, ws'.guestsOf j = ws.guestsOf j
  hosted : ∀ j, j ∉ e.2.spaces → j ∉ below → ∀ s, ws.space? j = some s →
    ∃ s' kids, ws'.space? j = some s' ∧ s.Hosts kids s' ∧ kids.Nodup ∧
      ∀ c ∈ kids, Seeks ws e j c ∧ c ∉ st'.joined
  maps : st.maps ⊆ st'.maps
  roots : e.1.filter (fun p => entered p e.2) = none → e.2.spaces ⊆ st'.maps
  joins : ∃ js, st'.joins = st.joins ++ js ∧ ∀ j ∈ js, j.2 ∈ e.2.spaces
  linked : ws'.Linked 0
  titles : ∀ j s, ws.space? j = some s → ws'.domainOf j = titleOf ws e j

variable {ws ws' : Workspace} {i : Instance} {u : Unit}

theorem settleDomains_ok (ho : ∀ id ∈ i.spaces, ∃ s, ws.space? id = some s ∧ s.Open)
    (h : settleDomains i ws = .ok u ws') :
    ws.Retitled i.spaces ws' ∧ ∀ id, ws'.domainOf id = declaredOf ws i id := by
  unfold settleDomains at h
  unfold declaredOf
  rcases hd : i.declared with _ | ⟨d, _ | ⟨d', ds⟩⟩
  all_goals
    rw [hd] at h
    dsimp only at h
  · obtain ⟨-, rfl⟩ := pure_ok h
    exact ⟨.refl _ _, fun _ => rfl⟩
  · obtain ⟨first, hat, h1⟩ := bind_lift_ok h
    obtain ⟨s, hs, rfl⟩ := SpaceId.update_ok h1
    have hget : i.spaces[0]? = some first := itemAt_ok (n := 0) hat
    refine ⟨.setDomain hs (mem_of_getElem? hget) _, fun id => ?_⟩
    dsimp only
    rw [head?_eq_getElem?, hget]
    by_cases hid : first = id
    · rw [hid] at hs ⊢
      rw [Workspace.domainOf_eq (Workspace.space?_setSpace_self hs _), if_pos rfl]
    · rw [if_neg fun he => hid (Option.some.inj he)]
      unfold Workspace.domainOf
      rw [Workspace.space?_setSpace_of_ne hid]
  · suffices hws : ws' = ws by
      rw [hws]
      exact ⟨.refl _ _, fun _ => rfl⟩
    obtain ⟨_, hloop, -⟩ := bind_pure_ok h
    refine forIn_ok hloop (fun _ w => w = ws) rfl ?_
    rintro done id rest hsplit w w1 step rfl hrun
    obtain ⟨s, hs, hopen⟩ := ho id (by rw [hsplit]; simp)
    rw [bind_of_ok (SpaceId.get_of_space? hs)] at hrun
    unfold SpaceId.size at hrun
    rw [bind_assoc, bind_of_ok (SpaceId.region_of_space? hs), hopen.fresh.taken] at hrun
    rw [if_pos isEmpty_nil, pure_bind] at hrun
    simp only [lt_irrefl, decide_false, Bool.and_false, Bool.false_eq_true, if_false] at hrun
    exact pure_ok hrun

variable {st st1 st' : Resolution} {below spaces : List SpaceId} {parent : Option Instance} {i' : Instance}
  {ws1 ws2 : Workspace} {kids : SpaceId → List SpaceId}

theorem Resolves.of_settling (hperm : spaces.Perm i.spaces) (hnodup : i.spaces.Nodup)
    (hr : ws.Retitled i.spaces ws1) (hs : Settling ws1 below i.spaces st spaces st1 ws2)
    (hp : ws2.Placing i.spaces kids ws') (hinst : Housed st1.joined (parent, i) i')
    (htitles : ∀ j, ws1.domainOf j = titleOf ws (parent, i) j)
    (hkids : ∀ j, (kids j).Sublist (spaces.filter fun c => c ∉ st1.joined) ∧
      (kids j ≠ [] → ∃ p, parent.filter (fun p => entered p i) = some p ∧ j ∈ hostsOf ws p i))
    (hmaps : st1.maps ⊆ st'.maps)
    (hroots : parent.filter (fun p => entered p i) = none → spaces ⊆ st'.maps)
    (hjoins : st'.joins = st1.joins) : Resolves ws below (parent, i) st i' st' ws' := by
  obtain ⟨js, rfl, hjs⟩ := hs.joins
  have hmem : ∀ j, j ∈ i.spaces ++ below ↔ j ∈ spaces ++ below := fun j => by
    rw [mem_append, mem_append, hperm.mem_iff]
  have hjoined : st'.joined = ({ st with joins := st.joins ++ js } : Resolution).joined :=
    congrArg (List.map Prod.snd) hjoins
  exact
    { inst := hjoined ▸ hinst
      evolves := hr.evolves.trans (hs.evolves.trans hp.evolves)
      nonneg := hp.nonneg hs.nonneg
      closed := hp.closed (hs.closed.of_mem_iff hmem)
      guests := fun j hj => by
        obtain ⟨s, hset, -⟩ := hs.closed.settled j ((hmem j).mp (mem_append_left _ hj))
        obtain ⟨s', hs', ht⟩ := hp.tagged j hj s hset
        rw [Workspace.guestsOf_eq hs', ht.guests, ← Workspace.guestsOf_eq hset, hs.guests, hr.guestsOf_eq]
      hosted := fun j hj hb t ht => by
        have hout : j ∉ spaces ++ below := by
          rw [← hmem, mem_append, not_or]
          exact ⟨hj, hb⟩
        obtain ⟨t', ht', hh⟩ := hp.hosted j hj t (((hs.others j hout).trans (hr.others j hj)).trans ht)
        obtain ⟨hsub, hhost⟩ := hkids j
        refine ⟨t', kids j, ht', hh, hsub.nodup ((hperm.nodup_iff.mpr hnodup).filter _), fun c hc => ?_⟩
        obtain ⟨hm, hnot⟩ := mem_filter.mp (hsub.subset hc)
        rw [hjoined]
        exact ⟨⟨hperm.subset hm, hhost (ne_nil_of_mem hc)⟩, of_decide_eq_true hnot⟩
      maps := hmaps
      roots := fun hnone => List.Subset.trans hperm.symm.subset (hroots hnone)
      joins := ⟨js, hjoins, hjs⟩
      linked := hp.steady.linked hs.linked
      titles := fun j t ht => by
        obtain ⟨t', ht', -⟩ := (hr.evolves.trans hs.evolves).space j t ht
        rw [hp.domainOf_eq ht', hs.domains, htitles] }

theorem filter_entered {p : Instance} {isTop : Bool} (h : fromParent p.tops i = .ok isTop) :
    (some p).filter (fun p => entered p i) = if isTop then none else some p := by
  unfold entered
  cases isTop <;> simp [Option.filter, h]

theorem resolveInstance_ok (hg : Gathered ws below i.spaces)
    (hp : ∀ p, parent = some p → Welcomes ws p i.spaces)
    (h : resolveInstance parent i st ws = .ok (i', st') ws') :
    Resolves ws below (parent, i) st i' st' ws' := by
  unfold resolveInstance at h
  obtain ⟨isTop, w, htop, h1⟩ := Resolving.bind_lift_ok h
  obtain ⟨hisTop, rfl⟩ := lift_ok htop
  obtain ⟨block, w, hblock, h2⟩ := Resolving.bind_lift_ok h1
  obtain ⟨-, rfl⟩ := lift_ok hblock
  dsimp only at h2
  -- the domains are settled, if no bus enters
  obtain ⟨ws1, hr, htitles, h3⟩ : ∃ ws1, w.Retitled i.spaces ws1 ∧
      (∀ id, ws1.domainOf id = if isTop then declaredOf w i id else w.domainOf id) ∧ (do
      let x ← memoryOrder i.spaces i.label
      let _ ← (x.1.filterMap fun n => i.spaces[n]?).foldlM (fun found id => do
        let found ← joinPassengers i.spaces found id
        resolveSpace id
        return found) x.2
      placeSpaces parent isTop { i with block := block } (x.1.filterMap fun n => i.spaces[n]?) :
        Resolving Instance) st ws1 = .ok (i', st') ws' := by
    split at h2
    · rename_i htrue
      obtain ⟨_, ws1, hdomains, h3⟩ := Resolving.bind_lift_ok h2
      obtain ⟨hr, htitles⟩ := settleDomains_ok (i := { i with block := block }) (fun id hid => by
        obtain ⟨s, hs, hw⟩ := hg.waiting id hid
        exact ⟨s, hs, hw.opened⟩) hdomains
      exact ⟨ws1, hr, fun id => (htitles id).trans (if_pos htrue).symm, h3⟩
    · rename_i hfalse
      exact ⟨w, .refl _ _, fun id => (if_neg hfalse).symm, h2⟩
  -- the order is found
  obtain ⟨⟨order, found⟩, w', horder, h4⟩ := Resolving.bind_lift_ok h3
  obtain ⟨rfl, hrange⟩ := memoryOrder_ok horder
  have hperm : (order.filterMap fun n => i.spaces[n]?).Perm i.spaces := by
    have := hrange.filterMap fun n => i.spaces[n]?
    rwa [filterMap_range] at this
  -- the spaces are settled
  obtain ⟨found', st1, ws2, hfold, h5⟩ := Resolving.bind_ok h4
  have hs := settleSpaces_ok (hr.gathered hg) hperm hfold
  dsimp only at h5
  generalize order.filterMap (fun n => i.spaces[n]?) = spaces at hperm hs h5
  -- and placed
  by_cases hroot : parent = none ∨ isTop = true
  · obtain ⟨rfl, rfl, hplacing⟩ := placeSpaces_top hroot hperm.subset h5
    have hnone : parent.filter (fun p => entered p i) = none := by
      cases parent with
      | none => rfl
      | some p =>
        obtain rfl : isTop = true := hroot.resolve_left (by simp)
        exact filter_entered hisTop
    have htop : isTop = true := hroot.elim (fun hnone => by subst hnone; exact Except.ok.inj hisTop.symm) id
    refine .of_settling hperm hg.nodup hr hs hplacing ⟨⟨block, i.parentDomain, rfl⟩, fun p hp => ?_⟩
      (fun j => ?_) (by simp) (subset_append_left _ _) (fun _ => subset_append_right _ _) rfl
    · rw [hnone] at hp
      cases hp
    · unfold titleOf
      rw [htitles, htop, hnone]
      rfl
  · obtain ⟨hsome, hentered⟩ := not_or.mp hroot
    obtain ⟨p, rfl⟩ := Option.ne_none_iff_exists'.mp hsome
    obtain rfl : isTop = false := by simpa using hentered
    have hfilter := filter_entered hisTop
    rw [if_neg Bool.false_ne_true] at hfilter
    have hwelcome := hp p rfl
    have hsame : ∀ host ∈ p.spaces, ws2.space? host = w.space? host := fun host hhost => by
      obtain ⟨hout, t, ht, ho⟩ := hwelcome.2 host hhost
      refine (hs.others host fun hm => ?_).trans (hr.others host hout)
      rcases mem_append.mp hm with hm | hm
      · exact hout (hperm.subset hm)
      · obtain ⟨t', ht', hset'⟩ := hg.closed.settled host hm
        obtain rfl := Option.mem_unique ht ht'
        exact absurd hset'.resolved (by rw [ho.unresolved]; decide)
    have hwelcome2 : Welcomes ws2 p i.spaces := ⟨hwelcome.1, fun host hhost => by
      rw [hsame host hhost]
      exact hwelcome.2 host hhost⟩
    have hhosts : hostsOf ws2 p { i with block := block } = hostsOf w p i := by
      have hin : ∀ d, hostsIn ws2 p d = hostsIn w p d := fun d =>
        filter_congr fun host hhost => by
          unfold Workspace.domainOf
          rw [hsame host hhost]
      unfold hostsOf
      rw [show fromParent p.domains { i with block := block } = fromParent p.domains i from rfl, funext hin]
    obtain ⟨acc, rfl, hent⟩ := placeSpaces_entered hwelcome2 hperm.subset h5
    obtain ⟨⟨d, hinst, hdomain⟩, hmaps, hjoins, kids, hplacing, hkids⟩ := hent
    rw [hhosts] at hkids
    refine .of_settling hperm hg.nodup hr hs hplacing ⟨⟨block, d, hinst⟩, fun q hq c hc hout => ?_⟩
      (fun j => ?_) (fun j => (hkids j).imp_right fun h hne => ⟨p, hfilter, h hne⟩) hmaps
      (fun hnone => ?_) hjoins
    · obtain rfl := Option.mem_unique hfilter hq
      rw [hinst]
      exact hdomain (.inr ⟨c, hperm.symm.subset hc, hout⟩)
    · unfold titleOf
      rw [htitles, hfilter]
      rfl
    · rw [hfilter] at hnone
      cases hnone

end Design

end RegisterMap
