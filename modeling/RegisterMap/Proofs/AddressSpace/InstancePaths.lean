import RegisterMap.Proofs.AddressSpace.Paths

/-! # Paths of resolved spaces

A space that is placed in another one gets the path of that space in front of its own.  So paths grow
from the inside to the outside while a tree of spaces is resolved: before the resolution every space
has its own name as its path (`Workspace.Awaits`), and after it the tree spells its paths
(`resolved_paths_follow_tree`).  While the items of one space are placed, the spaces among those that
are done spell their paths behind its name, and the others wait (`Workspace.Spelling`). -/

namespace RegisterMap

open Build List Option

open Workspace (Unrenamed)

namespace SpaceId

variable {ws ws' : Workspace} {name : SpaceId → String}

theorem addNow_space_names {id c : SpaceId} {s t : AddressSpace} {width base : Int} {addr : Option Int}
    {names own : List String} (hs : ws.space? id = some s) (hnames : s.region.names? = some names)
    (ht : ws.space? c = some t) (hown : t.region.names? = some own) (hne : id ≠ c)
    (h : id.addNow width (.space c) addr ws = .ok base ws') :
    ∃ r ws1, r.names? = s.region.names? ∧ r.reserved = s.region.reserved ∧
      r.inside.Perm (c :: s.region.inside) ∧
      c.setPath ⟨names ++ own, false⟩ (ws.setSpace id { s with region := r }) = .ok () ws1 ∧
      Unrenamed [] ws1 ws' := by
  unfold addNow at h
  obtain ⟨base', ws1, hplace, h1⟩ := bind_ok h
  obtain ⟨_, hset, rfl⟩ := bind_pure_ok h1
  have hbase := Occupant.setBase_keepsPaths _ _ hset
  unfold place at hplace
  obtain ⟨_, w1, hreg, hplace1⟩ := bind_ok hplace
  obtain ⟨s', r, hs', hr, rfl⟩ := onRegion_ok hreg
  obtain rfl := mem_unique hs hs'
  obtain ⟨hp, hk, hinside⟩ := Region.place_keeps hr
  have hnames' : r.names? = s.region.names? := congrArg (Option.map Path.names) hp
  obtain ⟨n, -, hplace2⟩ := (Occupant.readOnly_name? _).bind_ok hplace1
  obtain ⟨s1, hs1, hplace3⟩ := bind_region_ok hplace2
  obtain rfl := mem_unique (Workspace.space?_setSpace_self hs _) hs1
  obtain ⟨path, hpath, rfl⟩ := map_eq_some_iff.mp (hnames'.trans hnames)
  simp only [hpath] at hplace3
  obtain ⟨t', ht', hplace4⟩ := bind_region_ok hplace3
  obtain rfl := mem_unique ((Workspace.space?_setSpace_of_ne hne _).trans ht) ht'
  obtain ⟨ownPath, hownPath, rfl⟩ := map_eq_some_iff.mp hown
  simp only [hownPath] at hplace4
  obtain ⟨_, w5, hsetPath, hplace5⟩ := bind_ok hplace4
  obtain ⟨_, hcheck, -⟩ := bind_pure_ok hplace5
  obtain ⟨s2, hs2, rfl⟩ := checkComplete_ok hcheck
  have hsorted : Unrenamed [] w5 (w5.setSpace id { s2 with region := s2.region.sorted }) :=
    .setSpace hs2 ⟨rfl, rfl, Region.unrenamed_sorted _⟩
  exact ⟨r, w5, hnames', hk, hinside, hsetPath, hsorted.trans hbase⟩

end SpaceId

/-! ### The resolution of a tree -/

/-- A space with its own name as its path, in which spaces are staged but none stands in a slot. -/
structure AddressSpace.Awaits (s : AddressSpace) (own : String) (kids : List SpaceId) : Prop where
  kind : s.kind ≠ .plain
  passes : s.ledger.passes = s.kind.passes
  passCount : s.ledger.passCount = s.kind.passes.length
  unresolved : s.ledger.resolved = false
  keepouts : s.ledger.keepouts = []
  pending : ∀ shelf, ∀ r ∈ s.ledger.on shelf, r.placed = false
  names : s.region.names? = some [own]
  empty : s.region.inside = []
  reserved : s.region.reserved = []
  inner : (s.singles.filterMap Occupant.inner?).Perm kids
  looped : s.looped.filterMap Occupant.inner? = []

/-- No space of the tree is resolved, and each is staged in the one above under its own name. -/
def Workspace.Awaits (ws : Workspace) (name : SpaceId → String) (t : Tree SpaceId) : Prop :=
  ∀ u ∈ t.subtrees, ∃ s, ws.space? u.data = some s ∧
    s.Awaits (name u.data) (u.children.map Tree.data)

namespace Workspace

variable {ws ws' ws0 : Workspace} {name : SpaceId → String} {t : Tree SpaceId} {ids : List SpaceId}

theorem Awaits.unrenamed (h : ws.Awaits name t) (hu : Unrenamed ids ws ws')
    (hd : t.toList.Disjoint ids) : ws'.Awaits name t := by
  intro u hut
  obtain ⟨s, hs, ha⟩ := h u hut
  obtain ⟨s', hs', hs''⟩ := hu u.data (fun hm => hd (mem_map_of_mem hut) hm) s hs
  have hitems : s'.items = s.items := AddressSpace.items_of_ledger hs''.ledger
  refine ⟨s', hs', ?_⟩
  constructor
  · rw [hs''.kind]; exact ha.kind
  · rw [hs''.kind, hs''.ledger]; exact ha.passes
  · rw [hs''.kind, hs''.ledger]; exact ha.passCount
  · rw [hs''.ledger]; exact ha.unresolved
  · rw [hs''.ledger]; exact ha.keepouts
  · rw [hs''.ledger]; exact ha.pending
  · exact hs''.region.names.trans ha.names
  · have := hs''.region.inside
    rw [ha.empty] at this
    exact perm_nil.mp this
  · exact hs''.region.reserved.trans ha.reserved
  · rw [AddressSpace.singles_eq hitems]; exact ha.inner
  · rw [AddressSpace.looped_eq hitems]; exact ha.looped

end Workspace

/-- While the items of a space are placed: it has its own name as its path, its slots hold the spaces
that are done, and the other requests are open. -/
structure AddressSpace.Titled (s : AddressSpace) (own : String) (passes : List Pass)
    (items : Shelf → List Occupant) (done : List Occupant) : Prop where
  items : s.items = items
  passes : s.ledger.passes = passes
  keepouts : s.ledger.keepouts = []
  names : s.region.names? = some [own]
  reserved : s.region.reserved = []
  inside : s.region.inside.Perm (done.filterMap Occupant.inner?)
  pending : ∀ shelf, ∀ r ∈ s.ledger.on shelf, ∀ c, r.item = .space c → .space c ∉ done →
    r.placed = false

namespace AddressSpace

variable {s s' : AddressSpace} {own : String} {passes : List Pass} {items : Shelf → List Occupant}
  {done : List Occupant}

theorem Awaits.titled {kids : List SpaceId} (h : s.Awaits own kids) :
    s.Titled own s.kind.passes s.items [] where
  items := rfl
  passes := h.passes
  keepouts := h.keepouts
  names := h.names
  reserved := h.reserved
  inside := by rw [h.empty]; exact List.Perm.refl _
  pending shelf r hr _ _ _ := h.pending shelf r hr

theorem Titled.unrenamed (h : s.Titled own passes items done) (hu : s.Unrenamed s') :
    s'.Titled own passes items done where
  items := (items_of_ledger hu.ledger).trans h.items
  passes := by rw [hu.ledger]; exact h.passes
  keepouts := by rw [hu.ledger]; exact h.keepouts
  names := hu.region.names.trans h.names
  reserved := hu.region.reserved.trans h.reserved
  inside := hu.region.inside.trans h.inside
  pending := by rw [hu.ledger]; exact h.pending

theorem Titled.mark (h : s.Titled own passes items done) {shelf : Shelf} {n : Nat}
    {request request' : Staged} (hold : (s.ledger.on shelf)[n]? = some request)
    (hitem : request'.item = request.item) (hdone : ∀ c, request.item = .space c → .space c ∈ done) :
    ({ s with ledger := s.ledger.put shelf ((s.ledger.on shelf).set n request') } :
      AddressSpace).Titled own passes items done where
  items := by
    rw [← h.items]
    funext shelf'
    exact Ledger.map_item_set hold hitem shelf'
  passes := (Ledger.put_passes ..).trans h.passes
  keepouts := Ledger.keepouts_put_set h.keepouts shelf n request'
  names := h.names
  reserved := h.reserved
  inside := h.inside
  pending shelf' r hr c hc hopen := by
    rcases Ledger.mem_put_set hr with hr | ⟨-, rfl⟩
    · exact h.pending _ r hr c hc hopen
    · exact absurd (hdone c (hitem.symm.trans hc)) hopen

end AddressSpace

namespace Workspace

variable {ws ws' ws0 ws1 ws2 : Workspace} {name : SpaceId → String} {id : SpaceId}
  {ts : List (Tree SpaceId)} {passes : List Pass} {items : Shelf → List Occupant} {done : List Occupant}

/-- While the items of a space are placed: the spaces that are done have their paths, and the others
their own names. -/
structure Spelling (ws0 ws : Workspace) (name : SpaceId → String) (id : SpaceId)
    (ts : List (Tree SpaceId)) (passes : List Pass) (items : Shelf → List Occupant)
    (done : List Occupant) : Prop where
  space : ∃ s, ws.space? id = some s ∧ s.Titled (name id) passes items done
  placed : ∀ v ∈ ts, .space v.data ∈ done → ws.Spells name [name id, name v.data] v
  waiting : ∀ v ∈ ts, .space v.data ∉ done → ws.Awaits name v
  outside : Unrenamed (Tree.node id ts).toList ws0 ws

namespace Spelling

section

variable (h : Spelling ws0 ws name id ts passes items done)

include h

theorem unrenamed (hn : (Tree.node id ts).toList.Nodup) (hu : Unrenamed [id] ws ws')
    (hs : ∃ s, ws'.space? id = some s ∧ s.Titled (name id) passes items done) :
    Spelling ws0 ws' name id ts passes items done := by
  have hd : ∀ v ∈ ts, v.toList.Disjoint [id] := fun v hv => by
    rw [disjoint_singleton]
    exact (Tree.nodup_node hn).2.1 v hv
  refine ⟨hs, fun v hv hm => (h.placed v hv hm).unrenamed hu (hd v hv),
    fun v hv hm => (h.waiting v hv hm).unrenamed hu (hd v hv), h.outside.trans (hu.mono ?_)⟩
  exact cons_subset.mpr ⟨Tree.data_mem_toList (.node id ts), nil_subset _⟩

theorem mark (hn : (Tree.node id ts).toList.Nodup) {shelf : Shelf} {n : Nat} {request' : Staged}
    (hitem : (items shelf)[n]? = some request'.item)
    (hdone : ∀ c, request'.item = .space c → .space c ∈ done) {u : Unit}
    (hmark : id.updateLedger (fun l => l.put shelf ((l.on shelf).set n request')) ws = .ok u ws') :
    Spelling ws0 ws' name id ts passes items done := by
  obtain ⟨s, hs, ht⟩ := h.space
  obtain ⟨s', hs', rfl⟩ := SpaceId.update_ok hmark
  obtain rfl := mem_unique hs hs'
  have hold : ((s.ledger.on shelf).map Staged.item)[n]? = some request'.item := by
    rw [← hitem, ← ht.items]
    rfl
  rw [getElem?_map] at hold
  obtain ⟨request, hold, hsame⟩ := map_eq_some_iff.mp hold
  refine h.unrenamed hn (.setSpace_of_mem mem_cons_self _) ⟨_, space?_setSpace_self hs _, ?_⟩
  exact ht.mark hold hsame.symm fun c hc => hdone c (hsame.symm.trans hc)

theorem skip {x : Occupant} (hx : x.inner? = none) :
    Spelling ws0 ws name id ts passes items (done ++ [x]) := by
  have hmem : ∀ c : SpaceId, .space c ∈ done ++ [x] ↔ .space c ∈ done := fun c => by
    rw [mem_append, mem_singleton, or_iff_left]
    rintro rfl
    cases hx
  have hfilter : (done ++ [x]).filterMap Occupant.inner? = done.filterMap Occupant.inner? := by
    simp [hx]
  obtain ⟨s, hs, ht⟩ := h.space
  refine ⟨⟨s, hs, ht.items, ht.passes, ht.keepouts, ht.names, ht.reserved, ?_, ?_⟩,
    fun v hv hm => h.placed v hv ((hmem _).mp hm), fun v hv hm => h.waiting v hv (hm ∘ (hmem _).mpr),
    h.outside⟩
  · rw [hfilter]
    exact ht.inside
  · simp only [hmem]
    exact ht.pending

theorem lodge (hn : (Tree.node id ts).toList.Nodup) {v : Tree SpaceId} (hv : v ∈ ts)
    (hsettled : Unrenamed v.toList ws ws1) (hspelled : ws1.Spells name [name v.data] v)
    {width base : Int} {addr : Option Int}
    (hadd : id.addNow width (.space v.data) addr ws1 = .ok base ws2) :
    Spelling ws0 ws2 name id ts passes items (done ++ [.space v.data]) := by
  obtain ⟨hnv, hroot, hapart⟩ := Tree.nodup_node hn
  have hid := hroot v hv
  obtain ⟨s, hs, ht⟩ := h.space
  obtain ⟨s1, hs1, hu1⟩ := hsettled id hid s hs
  have ht1 := ht.unrenamed hu1
  obtain ⟨t, hspace, hown⟩ := hspelled.root
  have hne : id ≠ v.data := fun he => hid (he ▸ v.data_mem_toList)
  obtain ⟨r, w, hnames, hk, hinside, hset, hkeep⟩ :=
    SpaceId.addNow_space_names hs1 ht1.names hspace hown hne hadd
  obtain ⟨hspelled2, haway⟩ := SpaceId.setPathUpTo_spells _ (hnv v hv)
    (hspelled.setSpace hid { s1 with region := r }) hset
  -- nothing but the space and the tree that it takes in has changed
  have hchanged : Unrenamed (id :: v.toList) ws ws2 := by
    refine (hsettled.mono (subset_cons_self _ _)).trans ?_
    refine Unrenamed.trans ?_ (hkeep.mono (nil_subset _))
    refine Unrenamed.trans (.setSpace_of_mem mem_cons_self { s1 with region := r }) ?_
    exact (Unrenamed.of_spaces haway).mono (subset_cons_self _ _)
  obtain ⟨s2, hs2, hu2⟩ := hkeep id not_mem_nil _
    ((haway id hid).trans (space?_setSpace_self hs1 { s1 with region := r }))
  have htitled : s2.Titled (name id) passes items (done ++ [.space v.data]) := by
    have hl : s2.ledger = s1.ledger := hu2.ledger
    refine ⟨(AddressSpace.items_of_ledger hl).trans ht1.items, hl ▸ ht1.passes, hl ▸ ht1.keepouts,
      hu2.region.names.trans (hnames.trans ht1.names), hu2.region.reserved.trans (hk.trans ht1.reserved),
      ?_, fun shelf q hq c hc hopen => ?_⟩
    · rw [filterMap_append]
      refine hu2.region.inside.trans (hinside.trans ((ht1.inside.cons _).trans ?_))
      exact (perm_append_singleton _ _).symm
    · rw [hl] at hq
      exact ht1.pending shelf q hq c hc fun hm => hopen (mem_append_left _ hm)
  have hd : ∀ v' ∈ ts, v' ≠ v → v'.toList.Disjoint (id :: v.toList) := fun v' hv' he => by
    rw [disjoint_cons_right]
    exact ⟨hroot v' hv', hapart v' hv' v hv he⟩
  refine ⟨⟨s2, hs2, htitled⟩, fun v' hv' hm => ?_, fun v' hv' hm => ?_,
    h.outside.trans (hchanged.mono ?_)⟩
  · by_cases he : v' = v
    · subst he
      exact hspelled2.unrenamed hkeep (by simp)
    · have hdata : v'.data ≠ v.data := fun hd => he (Tree.eq_of_data_eq hn hv' hv hd)
      simp only [mem_append, mem_singleton, Occupant.space.injEq, hdata, or_false] at hm
      exact (h.placed v' hv' hm).unrenamed hchanged (hd v' hv' he)
  · rw [mem_append, mem_singleton, not_or] at hm
    exact (h.waiting v' hv' hm.1).unrenamed hchanged (hd v' hv' fun he => hm.2 (he ▸ rfl))
  · refine cons_subset.mpr ⟨Tree.data_mem_toList (.node id ts), fun j hj => ?_⟩
    exact Tree.mem_toList_of_child hv hj

end

end Spelling

end Workspace

namespace SpaceId

variable {ws ws' ws1 ws2 : Workspace} {name : SpaceId → String} {fuel : Nat} {u : Unit}

/-- With this bound, the resolution of a tree makes it spell its paths. -/
def SpellsAt (name : SpaceId → String) (fuel : Nat) : Prop :=
  ∀ {t : Tree SpaceId} {ws ws' : Workspace} {u : Unit}, t.toList.Nodup → ws.Awaits name t →
    resolveUpTo fuel t.data ws = .ok u ws' →
    ws'.Spells name [name t.data] t ∧ Unrenamed t.toList ws ws'

theorem settleUpTo_spells (ih : ∀ k < fuel, SpellsAt name k) {v : Tree SpaceId} (hn : v.toList.Nodup)
    (ha : ws.Awaits name v) {width width' : Option Int}
    (h : settleUpTo fuel (.space v.data) width ws = .ok width' ws') :
    ws'.Spells name [name v.data] v ∧ Unrenamed v.toList ws ws' := by
  cases fuel with
  | zero => cases h
  | succ fuel =>
    obtain ⟨s, hs, hawaits⟩ := ha v v.mem_subtrees_self
    unfold settleUpTo at h
    obtain ⟨s', hs', h1⟩ := bind_get_ok h
    obtain rfl := mem_unique hs hs'
    rw [if_pos hawaits.kind] at h1
    obtain ⟨_, w2, hres, h2⟩ := bind_ok h1
    obtain ⟨hspells, hu⟩ := ih fuel (by omega) hn ha hres
    obtain ⟨s2, hs2, hr2⟩ := hspells.root_resolved
    obtain ⟨_, w3, hshrink, h3⟩ := bind_ok h2
    obtain rfl := Occupant.readOnly_declaredWidth _ h3
    -- the second resolution finds nothing to do
    have hkeep : Unrenamed [] w2 ws' := by
      cases fuel with
      | zero => cases hshrink
      | succ fuel =>
        unfold shrinkUpTo at hshrink
        obtain ⟨s3, -, hshrink1⟩ := bind_get_ok hshrink
        have hregion : Build.KeepsPaths (v.data.onRegion Region.shrink) :=
          onRegion_keepsPaths fun _ _ _ h => Region.unrenamed_shrink h
        split at hshrink1
        · obtain ⟨_, w5, hres', hshrink2⟩ := bind_ok hshrink1
          obtain rfl := resolveUpTo_resolved hs2 hr2 hres'
          exact hregion hshrink2
        · exact hregion hshrink1
    exact ⟨hspells.unrenamed hkeep (by simp), hu.trans (hkeep.mono (nil_subset _))⟩

theorem settleUpTo_other {item : Occupant} (hitem : item.inner? = none) {width width' : Option Int}
    (h : settleUpTo fuel item width ws = .ok width' ws') : ws' = ws := by
  cases fuel with
  | zero => cases h
  | succ fuel =>
    unfold settleUpTo at h
    cases item with
    | space c => cases hitem
    | register _ | passenger _ | bus _ => exact Occupant.readOnly_declaredWidth _ h
    | nothing | number _ | text _ => exact (pure_ok h).2

/-- A visit of a request places a space with its whole tree, or an item that is not a space. -/
theorem spelling_fillable (ih : ∀ k < fuel, SpellsAt name k) (ws0 : Workspace) {id : SpaceId}
    {ts : List (Tree SpaceId)} (hn : (Tree.node id ts).toList.Nodup) {passes : List Pass}
    {items : Shelf → List Occupant} {queue : List Occupant}
    (hqueue : (queue.filterMap Occupant.inner?).Nodup)
    (hsingles : ∀ c, .space c ∈ items .explicits ++ items .entries → c ∈ ts.map Tree.data)
    (hlooped : ∀ c, .space c ∉ items .explicitLoops ++ items .loops) :
    Fillable passes fuel id items queue fun done w =>
      ws0.Spelling w name id ts passes items done where
  space h := by
    obtain ⟨s, hs, ht⟩ := h.space
    exact ⟨s, hs, ht.items, ht.passes⟩
  visit {done ws ws1 ws2 ws3 s shelf n request request' width u} h hs hold hnext hsettle hplace hmark := by
    obtain ⟨s', hs', ht⟩ := h.space
    obtain rfl := mem_unique hs hs'
    have hshelf : shelf ≠ .keepouts := by
      rintro rfl
      rw [show s.ledger.on .keepouts = [] from ht.keepouts] at hold
      cases hold
    have hrequest : (items shelf)[n]? = some request.item := by
      rw [← ht.items]
      unfold AddressSpace.items
      rw [getElem?_map, hold]
      rfl
    have hitem : request'.item = request.item :=
      (placeRequest_serves _ (fun _ => List.Subset.refl _) hplace).2.1
    cases hi : request.item.inner? with
    | none =>
      obtain rfl := settleUpTo_other hi hsettle
      have hkeep := placeRequest_keepsPaths hshelf hi width hplace
      obtain ⟨s2, hs2, hu2⟩ := hkeep id (by simp) s hs
      have hplaced := (h.unrenamed hn (hkeep.mono (nil_subset _))
        ⟨s2, hs2, ht.unrenamed hu2⟩).skip hi
      refine hplaced.mark hn (hitem ▸ hrequest) (fun c hc => ?_) hmark
      rw [← hitem, hc] at hi
      cases hi
    | some c =>
      replace hi := Occupant.inner?_eq_some.mp hi
      rw [hi] at hrequest hsettle hnext ⊢
      have hmem : .space c ∈ items shelf := mem_of_getElem? hrequest
      have hsingle : shelf = .explicits ∨ shelf = .entries := by
        cases shelf with
        | keepouts => exact absurd rfl hshelf
        | explicits => exact .inl rfl
        | entries => exact .inr rfl
        | loops => exact absurd (mem_append_right _ hmem) (hlooped c)
        | explicitLoops => exact absurd (mem_append_left _ hmem) (hlooped c)
      obtain ⟨v, hv, rfl⟩ : ∃ v ∈ ts, v.data = c := by
        refine mem_map.mp (hsingles c ?_)
        rcases hsingle with rfl | rfl
        · exact mem_append_left _ hmem
        · exact mem_append_right _ hmem
      -- a space that was placed does not come again
      have hopen : .space v.data ∉ done := fun hm => by
        have hnew := hqueue.sublist (hnext.sublist.filterMap Occupant.inner?)
        rw [filterMap_append, nodup_append'] at hnew
        exact hnew.2.2 (mem_filterMap.mpr ⟨_, hm, rfl⟩) (by simp [Occupant.inner?])
      obtain ⟨hspells, hu⟩ := settleUpTo_spells ih ((Tree.nodup_node hn).1 v hv)
        (h.waiting v hv hopen) hsettle
      obtain ⟨aw, base, -, hadd, -⟩ := placeRequest_single_ok hsingle
        (ht.pending shelf request (mem_of_getElem? hold) _ hi hopen) hplace
      rw [hi] at hadd
      refine (h.lodge hn hv hu hspells hadd).mark hn ?_ (fun c hc => ?_) hmark
      · rw [hrequest, hitem, hi]
      · rw [← hc, hitem, hi]
        exact mem_append_right _ mem_cons_self

/-- **Every resolution of a tree makes it spell its paths.** -/
theorem spellsAt (name : SpaceId → String) (fuel : Nat) : SpellsAt name fuel := by
  induction fuel using Nat.strong_induction_on with
  | _ fuel ih =>
    intro t ws ws' u hn ha hrun
    cases t with
    | node id ts =>
      obtain ⟨⟨s, hs, hawaits⟩, hbelow⟩ := Tree.forall_subtrees_node.mp ha
      have hinner : (s.singles.filterMap Occupant.inner?).Perm (ts.map Tree.data) := hawaits.inner
      have hqueue : ((s.kind.passes.flatMap fun pass =>
          (shelvesOf pass).flatMap s.items).filterMap Occupant.inner?).Perm (ts.map Tree.data) := by
        refine List.Perm.trans (List.Perm.of_eq ?_) hinner
        have hlooped := hawaits.looped
        have hkeepouts : s.items .keepouts = [] := congrArg (List.map Staged.item) hawaits.keepouts
        unfold AddressSpace.looped at hlooped
        cases hk : s.kind with
        | plain => exact absurd hk hawaits.kind
        | staged | bus =>
          simp_all [SpaceKind.passes, shelvesOf, AddressSpace.singles]
      have hlooped : ∀ c, .space c ∉ s.looped := fun c hc => by
        have hm : c ∈ s.looped.filterMap Occupant.inner? := mem_filterMap.mpr ⟨_, hc, rfl⟩
        rw [hawaits.looped] at hm
        cases hm
      have hnd := Tree.nodup_children hn
      obtain ⟨ws1, s1, hspelling, hs1, rfl⟩ := resolveUpTo_fills (fun k hk =>
        spelling_fillable (fun k' hk' => ih k' (by omega)) ws hn (hqueue.nodup_iff.mpr hnd)
          (fun c hc => hinner.mem_iff.mp (mem_filterMap.mpr ⟨_, hc, rfl⟩))
          hlooped)
        rfl ⟨⟨s, hs, hawaits.titled⟩, by simp, fun v hv _ => hbelow v hv, Std.Refl.refl _⟩ hs
        hawaits.unresolved hawaits.passCount hrun
      obtain ⟨s1', hs1', ht⟩ := hspelling.space
      obtain rfl := mem_unique hs1 hs1'
      have hself := Workspace.space?_setSpace_self hs1
        { s1 with ledger := { s1.ledger with resolved := true } }
      refine ⟨.node hself rfl ht.names ht.reserved (ht.inside.trans hqueue) fun v hv => ?_,
        hspelling.outside.trans (.setSpace_of_mem (Tree.data_mem_toList (.node id ts)) _)⟩
      have hplaced : .space v.data ∈ s.kind.passes.flatMap fun pass =>
          (shelvesOf pass).flatMap s.items := by
        obtain ⟨x, hx, hxv⟩ := mem_filterMap.mp (hqueue.mem_iff.mpr (mem_map_of_mem hv))
        rwa [← Occupant.inner?_eq_some.mp hxv]
      exact (hspelling.placed v hv hplaced).setSpace ((Tree.nodup_node hn).2.1 v hv) _

end SpaceId

/-- **Resolved spaces carry their full path.**  If each space of a tree has its own name as its path,
is staged in the one above it and is not resolved, then after the resolution of the root the path of
every space consists of the names on the way from the root. -/
theorem resolved_paths_follow_tree {ws ws' : Workspace} {t : Tree SpaceId} {name : SpaceId → String}
    (hn : t.toList.Nodup) (ha : ws.Awaits name t) {u : Unit} (hrun : t.data.resolve ws = .ok u ws') :
    ∀ p ∈ t.paths, ∃ id, p.getLast? = some id ∧ ws'.pathOf id = some (p.map name) := by
  intro p hp
  obtain ⟨id, hid, hpath⟩ := (SpaceId.spellsAt name _ hn ha hrun).1.pathOf hp
  refine ⟨id, hid, hpath.trans ?_⟩
  rw [← Tree.cons_tail_of_mem_paths hp, map_cons]
  rfl

/-- A space of a bus inside a staged space, and a staged space with a register inside it. -/
def namedSpaces : Workspace :=
  let space (kind : SpaceKind) (name : String) (request : Staged) : AddressSpace :=
    { kind := kind
      region :=
        { span := (0, 2 ^ 24), base := 0, relativeBase := 0, aw := 24, extent := 2 ^ 24, taken := []
          vacant := [⟨0, 2 ^ 24, false⟩], reserved := [], path := some ⟨[name], false⟩
          label := name, inset := 0 }
      ledger := { kind.ledger with entries := [request] } }
  { registers := #[
      { kind := .word, given := some "x", size := 1, dw := 8, aw := 0, base := none
        description := none, source := .none, access := Access.readWrite, label := none
        depth := (none, none), blockAw := none, block := none, copies := [] }]
    spaces := #[space .staged "top" ⟨.space ⟨1⟩, none, some 24, false⟩,
      space .bus "unit" ⟨.space ⟨2⟩, none, some 24, false⟩,
      space .staged "core" ⟨.register ⟨0⟩, none, some 0, false⟩] }

def namedSpacesTree : Tree SpaceId := .node ⟨0⟩ [.node ⟨1⟩ [.node ⟨2⟩ []]]

def namedSpacesName (id : SpaceId) : String := ["top", "unit", "core"].getD id.index ""

theorem namedSpaces_awaits : namedSpaces.Awaits namedSpacesName namedSpacesTree := by
  intro u hu
  simp only [namedSpacesTree, Tree.subtrees, Tree.subtreesIn, nil_append, append_nil,
    cons_append, mem_cons, not_mem_nil, or_false] at hu
  rcases hu with rfl | rfl | rfl
  all_goals
    refine ⟨_, rfl, by decide, rfl, rfl, rfl, rfl, fun shelf => ?_, rfl, rfl, rfl,
      List.Perm.refl _, rfl⟩
    cases shelf <;> decide

/-- The innermost space has the names of both spaces around it in its path. -/
theorem resolved_paths_follow_tree_namedSpaces :
    namedSpacesTree.toList.Nodup ∧ namedSpaces.Awaits namedSpacesName namedSpacesTree ∧
    ∃ ws', namedSpacesTree.data.resolve namedSpaces = .ok () ws' ∧
      ws'.pathOf ⟨2⟩ = some ["top", "unit", "core"] := by
  obtain ⟨_, ws', h⟩ : ∃ u ws', namedSpacesTree.data.resolve namedSpaces = .ok u ws' :=
    Build.exists_ok (by decide +kernel)
  refine ⟨by decide, namedSpaces_awaits, ws', h, ?_⟩
  obtain ⟨id, hid, hpath⟩ := resolved_paths_follow_tree (by decide) namedSpaces_awaits h
    [⟨0⟩, ⟨1⟩, ⟨2⟩] (by decide)
  obtain rfl := Option.some.inj hid
  exact hpath

end RegisterMap
