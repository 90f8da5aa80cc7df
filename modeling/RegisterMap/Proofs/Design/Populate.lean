import RegisterMap.Proofs.Design.Read
import RegisterMap.Proofs.Design.Settling

/-! # Instances and their spaces

Every instance gets copies of the spaces of its module, under the same domains; a module without spaces
gives an empty one.  Nothing else in the workspace changes, and no two instances share a space. -/

namespace RegisterMap

open Build List

theorem Build.mapTree_ok {α β : Type} {f : Option α → α → Build β} {p : Option α} {t : Tree α}
    {u : Tree β} {ws ws' : Workspace} (h : t.mapM f p ws = .ok u ws') :
    t.shape = u.shape ∧ (t.withParents p).mapM (fun e => f e.1 e.2) ws = .ok u.toList ws' := by
  have hwalk := congrFun (Tree.mapM_eq f p t) ws
  rw [map_apply, h] at hwalk
  obtain ⟨bs, hrun, he⟩ := map_ok hwalk.symm
  obtain ⟨hshape, rfl⟩ := Prod.mk.inj he
  exact ⟨hshape.symm, hrun⟩

theorem AddressSpace.Waiting.withRegion {s : AddressSpace} {ids : List SpaceId} (h : s.Waiting ids)
    {r : Region Occupant} (hr : r.Fresh 24) : ({ s with region := r } : AddressSpace).Waiting ids :=
  ⟨{ h.opened with fresh := hr }, h.known, h.nodup⟩

/-- Spaces are added, and all else stays. -/
structure Workspace.Adds (ws ws' : Workspace) : Prop where
  rest : ws' = { ws with spaces := ws'.spaces }
  space : ∀ id s, ws.space? id = some s → ws'.space? id = some s
  size : ws.spaces.size ≤ ws'.spaces.size

instance : IsPreorder Workspace Workspace.Adds where
  refl ws := ⟨rfl, fun _ _ h => h, Nat.le_refl _⟩
  trans _ _ _ h h' :=
    ⟨by rw [h'.rest, h.rest], fun id s hs => h'.space id s (h.space id s hs), h.size.trans h'.size⟩

/-- The spaces were made one after the other, the first one when there were `n` spaces. -/
structure Workspace.InTurn (n : Nat) (ids : List SpaceId) (ws : Workspace) : Prop where
  rising : ids.Pairwise fun a b => a.index < b.index
  bounds : ∀ id ∈ ids, n ≤ id.index ∧ id.index < ws.spaces.size

namespace Workspace

variable {ws : Workspace} {s s' : AddressSpace}

theorem setSpace_push (ws : Workspace) (s s' : AddressSpace) :
    ({ ws with spaces := ws.spaces.push s } : Workspace).setSpace ⟨ws.spaces.size⟩ s' =
      { ws with spaces := ws.spaces.push s' } := by
  unfold setSpace
  simp [Array.setIfInBounds, Array.set_push]

theorem Adds.push (ws : Workspace) (s : AddressSpace) :
    Adds ws { ws with spaces := ws.spaces.push s } where
  rest := rfl
  space _ _ h := getElem?_push_of_some h
  size := by simp

theorem InTurn.add {n : Nat} {ids : List SpaceId} {ws ws' : Workspace} (h : InTurn n ids ws)
    (hn : n ≤ ws.spaces.size) (ha : Adds ws ws') (hlt : ws.spaces.size < ws'.spaces.size) :
    InTurn n (ids ++ [⟨ws.spaces.size⟩]) ws' := by
  refine ⟨pairwise_append.mpr ⟨h.rising, pairwise_singleton _ _, fun a ha b hb => ?_⟩,
    fun id hid => ?_⟩
  · rw [mem_singleton.mp hb]
    exact (h.bounds a ha).2
  · rcases mem_append.mp hid with hid | hid
    · exact ⟨(h.bounds id hid).1, (h.bounds id hid).2.trans_le ha.size⟩
    · rw [mem_singleton.mp hid]
      exact ⟨hn, hlt⟩

theorem InTurn.nodup {n : Nat} {ids : List SpaceId} (h : InTurn n ids ws) : ids.Nodup :=
  h.rising.imp fun hlt he => by
    rw [he] at hlt
    omega

theorem space?_push (ws : Workspace) (s : AddressSpace) :
    ({ ws with spaces := ws.spaces.push s } : Workspace).space? ⟨ws.spaces.size⟩ = some s :=
  Array.getElem?_push_size

end Workspace

/-- A copy of a space without slots, over a new region. -/
def AddressSpace.copyOver (s : AddressSpace) (r : Region Occupant) : AddressSpace :=
  { s with
    region := { r with
      label := s.region.label
      taken := []
      vacant := s.region.vacant.map fun g => { g with fixed := false }
      reserved := s.region.reserved.map fun k => { k with copied := true } }
    ledger := { s.ledger with
      resolved := false, passes := s.kind.ledger.passes, passCount := s.kind.ledger.passCount } }

/-- A bus space that was not resolved and makes the usual passes has the requests of its copy. -/
theorem AddressSpace.ledger_copyOver (s : AddressSpace) (r : Region Occupant) (hk : s.kind = .bus)
    (hp : s.ledger.passes = SpaceKind.bus.passes)
    (hc : s.ledger.passCount = SpaceKind.bus.passes.length) (hu : s.ledger.resolved = false) :
    (s.copyOver r).ledger = s.ledger := by
  unfold copyOver
  dsimp only
  rw [hk, show SpaceKind.bus.ledger.passes = s.ledger.passes from hp.symm,
    show SpaceKind.bus.ledger.passCount = s.ledger.passCount from hc.symm, ← hu]

namespace SpaceId

open Workspace

variable {ws ws' : Workspace} {id new : SpaceId} {s : AddressSpace} {u : Unit}

theorem setPath_empty {path : Path} (hs : ws.space? id = some s) (ht : s.region.taken = [])
    (h : id.setPath path ws = .ok u ws') :
    ws' = ws.setSpace id { s with region := ({ s.region with path := some path }).sorted } := by
  obtain ⟨fuel, w, hfuel, h⟩ := bind_ok h
  obtain rfl := (pure_ok hfuel).2.symm
  cases fuel with
  | zero => cases h
  | succ fuel =>
    unfold setPathUpTo updateRegion at h
    rw [bind_of_ok (update_of_space? hs _),
      bind_of_ok (region_of_space? (space?_setSpace_self hs _))] at h
    obtain ⟨_, ws3, hloop, h3⟩ := bind_ok h
    have hnil : ({ s.region with path := some path } : Region Occupant).sorted.taken = [] :=
      perm_nil.mp (ht ▸ Region.sorted_taken_perm _)
    have hend := forIn_ok hloop
      (fun _ w => w = ws.setSpace id
        { s with region := ({ s.region with path := some path }).sorted }) rfl ?_
    · split at h3
      · cases h3
      · obtain ⟨-, rfl⟩ := pure_ok h3
        exact hend
    · rintro done entry rest hentries w w1 step rfl hrun
      -- no entry of the listing is a slot
      have hmem : entry ∈ (({ s.region with path := some path } : Region Occupant).sorted).walk.entries := by
        rw [hentries]
        exact mem_append_right _ mem_cons_self
      have hitem : entry.item = none := by
        have := Walk.subset_merge _ _ _ hmem
        rw [hnil] at this
        simp only [map_nil, nil_append, mem_append, mem_map] at this
        rcases this with ⟨g, -, rfl⟩ | ⟨k, -, rfl⟩ <;> rfl
      simp only [hitem] at hrun
      exact pure_ok hrun

theorem fresh_sorted {r : Region Occupant} {n : Nat} (h : r.Fresh n) : r.sorted.Fresh n := by
  unfold Region.sorted
  refine ⟨h.base, h.relativeBase, h.aw, h.extent, ?_, ?_, ?_⟩
  · simp [h.taken]
  · simp [h.vacant, Region.insertBy]
  · simp [h.reserved]

theorem make_ok {kind : SpaceKind} {lo hi : Int} {label : String} {path : Option Path} {domain : Value}
    (h : make kind lo hi (some label) path domain ws = .ok new ws') :
    ∃ r s, Region.create lo hi "" path = .ok r ∧ new = ⟨ws.spaces.size⟩ ∧
      ws' = { ws with spaces := ws.spaces.push s } ∧
      s = { kind := kind, region := { r with label := label }, ledger := kind.ledger, domain := domain } := by
  unfold make at h
  cases hr : Region.create (ρ := Occupant) lo hi "" path with
  | error e =>
    rw [hr] at h
    cases h
  | ok r =>
    rw [hr] at h
    cases h
    exact ⟨r, _, rfl, rfl, rfl, rfl⟩

theorem copy_of_empty (hs : ws.space? id = some s) (ht : s.region.taken = [])
    (h : id.copy ws = .ok new ws') :
    new = ⟨ws.spaces.size⟩ ∧ ∃ r,
      Region.create s.region.base s.region.top "" s.region.path = .ok r ∧
      ws' = { ws with spaces := ws.spaces.push (s.copyOver r) } := by
  obtain ⟨fuel, w, hfuel, h⟩ := bind_ok h
  obtain rfl := (pure_ok hfuel).2.symm
  generalize 4 * fuel = fuel at h
  cases fuel with
  | zero => cases h
  | succ fuel =>
    unfold copyUpTo at h
    rw [bind_of_ok (get_of_space? hs)] at h
    obtain ⟨new', ws2, hmake, h2⟩ := bind_ok h
    obtain ⟨r, e, hr, rfl, rfl, he⟩ := make_ok hmake
    obtain ⟨taken, ws3, htaken, h3⟩ := bind_ok h2
    rw [ht] at htaken
    obtain ⟨rfl, rfl⟩ := pure_ok htaken
    obtain ⟨_, ws4, hup, h4⟩ := bind_ok h3
    obtain ⟨e', he', rfl⟩ := update_ok hup
    obtain rfl := Option.mem_unique (space?_push ws _) he'
    obtain ⟨rfl, rfl⟩ := pure_ok h4
    subst he
    exact ⟨rfl, r, hr, setSpace_push ws _ _⟩

theorem copy_ok (hs : ws.space? id = some s) (hw : s.Waiting []) (h : id.copy ws = .ok new ws') :
    new = ⟨ws.spaces.size⟩ ∧ ∃ s', ws' = { ws with spaces := ws.spaces.push s' } ∧ s'.Waiting [] ∧
      s'.domain = s.domain := by
  have ho := hw.opened
  obtain ⟨rfl, r, hr, rfl⟩ := copy_of_empty hs ho.fresh.taken h
  have htop : s.region.top = 2 ^ 24 := by
    unfold Region.top
    rw [ho.fresh.base, ho.fresh.extent, zero_add]
  obtain ⟨r', hr', hfresh⟩ := Region.create_two_pow (ρ := Occupant) (n := 24) (by decide) "" s.region.path
  rw [ho.fresh.base, htop, hr'] at hr
  obtain rfl := Except.ok.inj hr
  have hledger := s.ledger_copyOver r' ho.kind ho.passes ho.passCount ho.unresolved
  have hitems : (s.copyOver r').items = s.items := by
    unfold AddressSpace.items
    rw [hledger]
  refine ⟨rfl, _, rfl, .of_leaves ⟨ho.kind, ?_, ?_, ?_, ?_, ?_, ?_⟩ fun x hx => hw.isLeaf ?_, rfl⟩
  · exact hledger ▸ ho.passes
  · exact hledger ▸ ho.passCount
  · exact hledger ▸ ho.unresolved
  · exact hledger ▸ ho.keepouts
  · exact hledger ▸ ho.pending
  · refine ⟨hfresh.base, hfresh.relativeBase, hfresh.aw, hfresh.extent, rfl, ?_, ?_⟩
    · simp [AddressSpace.copyOver, ho.fresh.vacant]
    · simp [AddressSpace.copyOver, ho.fresh.reserved]
  · rwa [← AddressSpace.queue_congr hitems]

end SpaceId

theorem pairwise_of_forall₂ {α β : Type} {R : α → β → Prop} {P : α → α → Prop} {Q : β → β → Prop}
    {xs : List α} {ys : List β} (h : List.Forall₂ R xs ys) (hp : xs.Pairwise P)
    (hpq : ∀ a b c d, R a c → R b d → P a b → Q c d) : ys.Pairwise Q := by
  induction h with
  | nil => exact List.Pairwise.nil
  | cons hr hrest ih =>
    obtain ⟨hfirst, hp⟩ := pairwise_cons.mp hp
    refine pairwise_cons.mpr ⟨fun d hd => ?_, ih hp⟩
    obtain ⟨b, hb, hbd⟩ := forall₂_exists_left hrest hd
    exact hpq _ _ _ _ hr hbd (hfirst b hb)

namespace Design

open Workspace

variable {ws ws' ws0 : Workspace} {modules : Table String Module} {m : Module}

/-- The spaces of the instance are there, under different domains. -/
structure Supplied (ws : Workspace) (i : Instance) : Prop where
  spaces : ∀ id ∈ i.spaces, ∃ s, ws.space? id = some s
  titled : ws.Titled i.spaces

theorem Supplied.adds {i : Instance} (h : Supplied ws i) (ha : Adds ws ws') : Supplied ws' i := by
  have hdomain : ∀ id ∈ i.spaces, ws'.domainOf id = ws.domainOf id := fun id hid => by
    obtain ⟨s, hs⟩ := h.spaces id hid
    rw [domainOf_eq hs, domainOf_eq (ha.space id s hs)]
  refine ⟨fun id hid => (h.spaces id hid).imp (ha.space id), ?_, fun id hid => ?_⟩
  · refine h.titled.apart.imp_of_mem fun ha hb hne => ?_
    rw [hdomain _ ha, hdomain _ hb]
    exact hne
  · rw [hdomain id hid]
    exact h.titled.isKey id hid

theorem Supplied.of_copies {i : Instance} (hm : m.Homed ws0)
    (h : List.Forall₂ (fun id c => ∃ s, ws.space? c = some s ∧ s.domain = ws0.domainOf id)
      (Table.values m.spaces) i.spaces) : Supplied ws i := by
  have hdomain : ∀ e ∈ m.spaces, ws0.domainOf e.2 = e.1 := fun e he => by
    obtain ⟨s, hs, hd⟩ := hm.space e he
    rw [domainOf_eq hs, hd]
  have hkeys : (Table.values m.spaces).Pairwise fun a b => (ws0.domainOf a == ws0.domainOf b) = false := by
    refine pairwise_map.mpr (hm.keys.imp_of_mem fun ha hb hne => ?_)
    rw [hdomain _ ha, hdomain _ hb]
    exact hne
  refine ⟨fun id hid => ?_, pairwise_of_forall₂ h hkeys ?_, fun id hid => ?_⟩
  · obtain ⟨-, -, s, hs, -⟩ := forall₂_exists_left h hid
    exact ⟨s, hs⟩
  · rintro a b c c' ⟨s, hs, hd⟩ ⟨s', hs', hd'⟩ hne
    rw [domainOf_eq hs, domainOf_eq hs', hd, hd']
    exact hne
  · obtain ⟨a, ha, s, hs, hd⟩ := forall₂_exists_left h hid
    obtain ⟨e, he, rfl⟩ := mem_map.mp ha
    rw [domainOf_eq hs, hd, hdomain e he]
    exact hm.isKey e he

theorem copySpace_ok {id copy : SpaceId} {path : Path} {s : AddressSpace} (hs : ws.space? id = some s)
    (hw : s.Waiting [])
    (h : (do
      let copy ← id.copy
      copy.updateRegion fun r => { r with label := m.name }
      copy.setPath path
      copy.update fun s => { s with declared := m.declared }
      return copy : Build SpaceId) ws = .ok copy ws') :
    copy = ⟨ws.spaces.size⟩ ∧ ∃ s', ws' = { ws with spaces := ws.spaces.push s' } ∧ s'.Waiting [] ∧
      s'.domain = s.domain := by
  obtain ⟨new, ws1, hcopy, h1⟩ := bind_ok h
  obtain ⟨rfl, s1, rfl, hw1, hd⟩ := SpaceId.copy_ok hs hw hcopy
  have hf := hw1.opened.fresh
  unfold SpaceId.updateRegion at h1
  rw [bind_of_ok (SpaceId.update_of_space? (space?_push ws s1) _), setSpace_push] at h1
  obtain ⟨_, ws2, hpath, h2⟩ := bind_ok h1
  have hws := SpaceId.setPath_empty (s := { s1 with region := { s1.region with label := m.name } })
    (space?_push ws _) hf.taken hpath
  rw [setSpace_push] at hws
  subst hws
  rw [bind_of_ok (SpaceId.update_of_space? (space?_push ws _) _), setSpace_push] at h2
  obtain ⟨rfl, rfl⟩ := pure_ok h2
  have hw2 := hw1.withRegion (r := ({ s1.region with label := m.name, path := some path } :
    Region Occupant).sorted) (SpaceId.fresh_sorted
      ⟨hf.base, hf.relativeBase, hf.aw, hf.extent, hf.taken, hf.vacant, hf.reserved⟩)
  exact ⟨rfl, _, rfl, ⟨{ hw2.opened with }, hw2.known, hw2.nodup⟩, hd⟩

/-- Spaces were made for instances. -/
structure Populating (ws0 : Workspace) (ids : List SpaceId) (ws : Workspace) : Prop where
  adds : Adds ws0 ws
  turn : InTurn ws0.spaces.size ids ws
  draft : ws.Draft

theorem Populating.push {ids : List SpaceId} (h : Populating ws0 ids ws) {s : AddressSpace}
    (hw : s.Waiting []) :
    Populating ws0 (ids ++ [⟨ws.spaces.size⟩]) { ws with spaces := ws.spaces.push s } where
  adds := IsTrans.trans _ _ _ h.adds (.push ws s)
  turn := h.turn.add h.adds.size (.push ws s) (by simp)
  draft := (Grows.push hw h.draft).1

theorem populate_ok (ids : List SpaceId) (key : InstanceKey)
    (hm : ∀ m ∈ Table.values modules, m.Homed ws0) :
    Ensures Adds (Populating ws0 ids) (populate modules key) fun i ws =>
      Populating ws0 (ids ++ i.spaces) ws ∧ Supplied ws i := by
  unfold populate
  cases hget : Table.get? modules key.module with
  | none =>
    have hnil : (Instance.ofKey key).spaces = [] := rfl
    refine ensures_pure fun ws h => ⟨by rwa [hnil, append_nil], ?_, ?_, ?_⟩
    all_goals simp [hnil]
  | some m =>
    have hhomed := hm m (Table.mem_values_of_get? hget)
    dsimp only
    refine Ensures.andThen (ensures_mapM (fun (done : List SpaceId) copies ws =>
        Populating ws0 (ids ++ copies) ws ∧ List.Forall₂ (fun id c => ∃ s, ws.space? c = some s ∧
          s.domain = ws0.domainOf id) done copies) ?_)
      (fun ws h => ⟨by rwa [append_nil], .nil⟩) fun copies => ?_
    · intro done id rest hids copies ws copy ws' h hrun
      obtain ⟨e, he, rfl⟩ : ∃ e ∈ m.spaces, e.2 = id :=
        mem_map.mp (hids ▸ mem_append_right done mem_cons_self : id ∈ Table.values m.spaces)
      obtain ⟨s, hs, -⟩ := hhomed.space e he
      obtain ⟨rfl, s', rfl, hw', hd'⟩ :=
        copySpace_ok (h.1.adds.space _ s hs) (hhomed.draft.waiting _ s hs) hrun
      refine ⟨.push ws s', by rw [← append_assoc]; exact h.1.push hw', rel_append
        (h.2.imp fun id c ⟨t, ht, hd⟩ => ⟨t, (Adds.push ws s').space c t ht, hd⟩)
        (.cons ⟨s', space?_push ws s', ?_⟩ .nil)⟩
      rw [hd', domainOf_eq hs]
    · intro ws i ws' h hrun
      split at hrun
      · rename_i hnil
        obtain ⟨new, hmake, rfl⟩ := bind_pure_ok hrun
        obtain ⟨s, rfl, rfl, hw, -, hdomain, -⟩ := SpaceId.make_bus_ok hmake
        rw [isEmpty_iff.mp hnil, append_nil] at h
        refine ⟨.push ws s, h.1.push hw, ?_, pairwise_singleton _ _, ?_⟩
        · exact forall_mem_singleton.mpr ⟨s, space?_push ws s⟩
        · refine forall_mem_singleton.mpr ?_
          rw [domainOf_eq (space?_push ws s), hdomain]
          rfl
      · obtain ⟨rfl, rfl⟩ := pure_ok hrun
        exact ⟨Std.Refl.refl _, h.1, .of_copies hhomed h.2⟩

theorem populateTree_ok {keys : Tree InstanceKey} {t : InstanceTree} (hd : ws.Draft)
    (hm : ∀ m ∈ Table.values modules, m.Homed ws)
    (h : keys.mapM (fun _ key => populate modules key) none ws = .ok t ws') :
    Populating ws (t.toList.flatMap Instance.spaces) ws' ∧ ∀ i ∈ t.toList, Supplied ws' i := by
  obtain ⟨-, hrun⟩ := mapTree_ok h
  obtain ⟨-, hend⟩ := ensures_mapM (R := Adds)
    (fun (_ : List (Option InstanceKey × InstanceKey)) is w =>
      Populating ws (is.flatMap Instance.spaces) w ∧ ∀ i ∈ is, Supplied w i)
    (fun done e rest hsplit is => by
      refine Ensures.imp (Ensures.frame (populate_ok (is.flatMap Instance.spaces) e.2 hm)
        (F := fun w => ∀ i ∈ is, Supplied w i) fun _ _ ha hall i hi => (hall i hi).adds ha) fun i w h => ?_
      rw [flatMap_append, flatMap_singleton]
      exact ⟨h.1.1, forall_mem_append.mpr ⟨h.2, forall_mem_singleton.mpr h.1.2⟩⟩)
    ⟨⟨Std.Refl.refl _, ⟨List.Pairwise.nil, by simp⟩, hd⟩, by simp⟩ hrun
  exact hend

end Design

end RegisterMap
