import RegisterMap.Proofs.AddressSpace.Partway

/-! # Filling a space with spaces inside it

While a space is filled item by item, the items that are done know their addresses, and the spaces among
them are moved there; all other spaces below are still to be resolved, or are resolved and rest at
address zero (`Workspace.Filling`).

Work on one item reaches that item only (`Workspace.Footprint`).  Leaves that two trees below share are
not touched any more: both trees are resolved already (`Workspace.Ready`).  So what holds of the other
items stays, and a step of the resolution adds one item to those that are done
(`Workspace.Filling.step`). -/

namespace RegisterMap

open List

/-! ### Trees before and after their resolution -/

namespace AddressSpace

/-- A space that is resolved but not placed in another one. -/
structure Resolved (s : AddressSpace) : Prop where
  kind : s.kind = .bus
  resolved : s.ledger.resolved = true
  base : s.region.base = 0
  relativeBase : s.region.relativeBase = 0

/-- A space in one that starts at address zero. -/
def Anchored (s : AddressSpace) : Prop := s.region.base = s.region.relativeBase

end AddressSpace

namespace Workspace

variable {ws ws' : Workspace} {t u : Tree SpaceId} {id : SpaceId} {ts : List (Tree SpaceId)}
  {ids : List SpaceId} {xs : List Occupant} {s : AddressSpace}

/-- A tree is laid out and based, and `P` holds of its root. -/
structure Mapped (ws : Workspace) (t : Tree SpaceId) (P : AddressSpace → Prop) : Prop where
  laid : ws.Laid t
  based : ws.Based t
  root : ∃ s, ws.space? t.data = some s ∧ P s

/-- All spaces of the tree are open, but for resolved trees.  The leaves `xs` are not settled yet, and
belong to one tree only. -/
inductive Ready (ws : Workspace) : Tree SpaceId → List Occupant → Prop where
  | opened {id : SpaceId} {ts : List (Tree SpaceId)} {s : AddressSpace}
      {xs : Tree SpaceId → List Occupant} (hs : ws.space? id = some s) (ho : s.Open)
      (hts : ∀ t ∈ ts, Ready ws t (xs t))
      (hx : ∀ t ∈ ts, ∀ u ∈ ts, t ≠ u → (ws.membersIn t).Disjoint (xs u)) :
      Ready ws (.node id ts) (ts.flatMap xs ++ ws.membersOf id)
  | resolved {t : Tree SpaceId} (h : ws.Mapped t AddressSpace.Resolved) : Ready ws t []

theorem Ready.subset (h : ws.Ready t xs) : xs ⊆ ws.membersIn t := by
  induction h with
  | resolved => exact nil_subset _
  | @opened id ts s xs _ _ _ _ ih =>
    rw [membersIn_node]
    refine append_subset.mpr ⟨fun x hx => ?_, subset_append_right _ _⟩
    obtain ⟨t, ht, hx⟩ := mem_flatMap.mp hx
    exact mem_append_left _ (mem_flatMap.mpr ⟨t, ht, ih t ht hx⟩)

theorem Mapped.frame {P : AddressSpace → Prop} (h : ws.Mapped t P) (ho : ws.Nests t)
    (hf : Frame ids xs ws ws') (hi : t.toList.Disjoint ids) (hx : (ws.membersIn t).Disjoint xs) :
    ws'.Mapped t P where
  laid := h.laid.frame ho hf (fun _ hj hm => hi hj hm) (fun _ hj hm => hx hj hm)
  based := h.based.congr fun j hj => hf.spaces j fun hm => hi hj hm
  root := by
    rw [hf.spaces _ fun hm => hi t.data_mem_toList hm]
    exact h.root

theorem Ready.frame (h : ws.Ready t xs) (ho : ws.Nests t) {ys : List Occupant}
    (hf : Frame ids ys ws ws') (hi : t.toList.Disjoint ids) (hx : (ws.membersIn t).Disjoint ys) :
    ws'.Ready t xs := by
  induction h with
  | resolved h => exact .resolved (h.frame ho hf hi hx)
  | @opened id ts s xs hs hopen _ hapart ih =>
    rw [← hf.membersOf_eq]
    refine .opened (s := s) ?_ hopen (fun v hv => ih v hv (ho.child hv) ?_ ?_) fun v hv u hu hne => ?_
    · rw [hf.spaces id fun hm => hi (Tree.node id ts).data_mem_toList hm]
      exact hs
    · exact fun j hj hm => hi (Tree.mem_toList_of_child hv hj) hm
    · intro x hxv hm
      refine hx ?_ hm
      rw [membersIn_node]
      exact mem_append_left _ (mem_flatMap.mpr ⟨v, hv, hxv⟩)
    · rw [hf.membersIn_eq]
      exact hapart v hv u hu hne

/-! ### Different items -/

variable (h : ws.Nests (.node id ts)) (hs : ws.space? id = some s)

include h hs

theorem Nests.members_nodup : (ws.members s).Nodup := by
  rw [← membersOf_eq hs]
  exact h.own _ (Tree.mem_subtrees_self _)

theorem Nests.members_apart (hu : u ∈ ts) : (ws.membersIn u).Disjoint (ws.members s) := by
  rw [← membersOf_eq hs]
  exact h.apart _ (Tree.mem_subtrees_self _) u hu

theorem Nests.items_nodup : (s.singles ++ s.looped).Nodup := by
  refine items_nodup_of_members (h.members_nodup hs) ?_ fun x hx => ⟨?_, h.looped_inner? hs hx⟩
  · obtain ⟨s', hs', hp⟩ := h.inner _ (Tree.mem_subtrees_self _)
    obtain rfl := Option.mem_unique hs hs'
    exact hp.nodup_iff.mpr (Tree.nodup_children h.ids)
  · obtain ⟨-, l, hl, hhead, -⟩ := h.looped _ (Tree.mem_subtrees_self _) s hs x hx
    unfold copiesOf
    rw [hl]
    exact mem_of_head? hhead

/-- Work on the item `x` of a space touches the spaces `ids` and the leaves `ys`, none of which belong
to another item. -/
structure Footprint (ws : Workspace) (id : SpaceId) (ts : List (Tree SpaceId)) (s : AddressSpace)
    (xs : Tree SpaceId → List Occupant) (x : Occupant) (ids : List SpaceId) (ys : List Occupant) :
    Prop where
  ids_subset : ids ⊆ (Tree.node id ts).toList
  leaves_subset : ys ⊆ ts.flatMap xs ++ ws.membersOf id
  single : ∀ y ∈ s.singles, y.inner? = none → y ≠ x → y ∉ ys
  array : ∀ y ∈ s.looped, y ≠ x → (ws.copiesOf y).Disjoint ys
  inner_ids : ∀ v ∈ ts, .space v.data ≠ x → v.toList.Disjoint ids
  inner_leaves : ∀ v ∈ ts, .space v.data ≠ x → (ws.membersIn v).Disjoint ys

theorem Nests.footprint_single (xs : Tree SpaceId → List Occupant) {x : Occupant} (hx : x ∈ s.singles)
    (hi : x.inner? = none) : ws.Footprint id ts s xs x [] [x] where
  ids_subset := nil_subset _
  leaves_subset := by
    rw [membersOf_eq hs]
    exact cons_subset.mpr ⟨mem_append_right _ (single_mem_members hx hi), nil_subset _⟩
  single y _ _ hne := by simpa using hne
  array y hy _ := by
    obtain ⟨-, -, hdisj⟩ := nodup_append.mp (h.members_nodup hs)
    intro z hz hzx
    rw [mem_singleton.mp hzx] at hz
    exact hdisj x (mem_filter.mpr ⟨hx, by rw [hi]; rfl⟩) x (mem_flatMap.mpr ⟨y, hy, hz⟩) rfl
  inner_ids v _ _ := by simp
  inner_leaves v hv _ := by
    intro z hz hzx
    rw [mem_singleton.mp hzx] at hz
    exact h.members_apart hs hv hz (single_mem_members hx hi)

theorem Nests.footprint_array (xs : Tree SpaceId → List Occupant) {x : Occupant} (hx : x ∈ s.looped) :
    ws.Footprint id ts s xs x [] (ws.copiesOf x) where
  ids_subset := nil_subset _
  leaves_subset y hy := by
    rw [membersOf_eq hs]
    exact mem_append_right _ (copy_mem_members hx hy)
  single y hy hi _ hyx := by
    obtain ⟨-, -, hdisj⟩ := nodup_append.mp (h.members_nodup hs)
    exact hdisj y (mem_filter.mpr ⟨hy, by rw [hi]; rfl⟩) y (mem_flatMap.mpr ⟨x, hx, hyx⟩) rfl
  array y hy hne := by
    obtain ⟨-, hcopies, -⟩ := nodup_append.mp (h.members_nodup hs)
    have : Std.Symm (Function.onFun List.Disjoint ws.copiesOf) := ⟨fun _ _ h _ hx hy => h hy hx⟩
    exact (nodup_flatMap.mp hcopies).2.forall hy hx hne
  inner_ids v _ _ := by simp
  inner_leaves v hv _ := by
    intro z hz hzx
    exact h.members_apart hs hv hz (copy_mem_members hx hzx)

theorem Nests.footprint_inner {xs : Tree SpaceId → List Occupant} (hu : u ∈ ts)
    (hsub : xs u ⊆ ws.membersIn u) (hx : ∀ v ∈ ts, ∀ u ∈ ts, v ≠ u → (ws.membersIn v).Disjoint (xs u)) :
    ws.Footprint id ts s xs (.space u.data) u.toList (xs u) where
  ids_subset _ hj := Tree.mem_toList_of_child hu hj
  leaves_subset _ hx := mem_append_left _ (mem_flatMap.mpr ⟨u, hu, hx⟩)
  single _ hy hi _ hyu := h.members_apart hs hu (hsub hyu) (single_mem_members hy hi)
  array _ hy _ _ hz hzu := h.members_apart hs hu (hsub hzu) (copy_mem_members hy hz)
  inner_ids v hv hne :=
    (Tree.nodup_node h.ids).2.2 v hv u hu fun he => hne (he ▸ rfl)
  inner_leaves v hv hne := hx v hv u hu fun he => hne (he ▸ rfl)

/-! ### One more item -/

/-- A space with the trees `ts` below, of whose items those in `done` are placed. -/
structure Filling (ws : Workspace) (id : SpaceId) (ts : List (Tree SpaceId))
    (xs : Tree SpaceId → List Occupant) (s : AddressSpace) (done : List Occupant) : Prop
    extends Partway ws id s done where
  nests : ws.Nests (.node id ts)
  fits : ∀ slot ∈ s.region.taken, s.Fits ws slot
  settled : ∀ u ∈ ts, .space u.data ∈ done → ws.Mapped u AddressSpace.Anchored
  ready : ∀ u ∈ ts, .space u.data ∉ done → ws.Ready u (xs u)
  apart : ∀ v ∈ ts, ∀ u ∈ ts, v ≠ u → (ws.membersIn v).Disjoint (xs u)

end Workspace

theorem AddressSpace.Open.filling {ws : Workspace} {id : SpaceId} {ts : List (Tree SpaceId)}
    {xs : Tree SpaceId → List Occupant} {s : AddressSpace} (h : s.Open) (hs : ws.space? id = some s)
    (ho : ws.Nests (.node id ts)) (hts : ∀ t ∈ ts, ws.Ready t (xs t))
    (hx : ∀ v ∈ ts, ∀ u ∈ ts, v ≠ u → (ws.membersIn v).Disjoint (xs u)) :
    ws.Filling id ts xs s [] where
  toPartway := h.partway hs (ho.items_nodup hs)
  nests := ho
  fits := by
    rw [h.fresh.taken]
    simp
  settled := by simp
  ready u hu _ := hts u hu
  apart := hx

namespace Workspace

variable {ws ws' : Workspace} {id : SpaceId} {ts : List (Tree SpaceId)} {ids : List SpaceId}
  {xs : Tree SpaceId → List Occupant} {ys done : List Occupant} {s s' : AddressSpace}

theorem Filling.step (h : ws.Filling id ts xs s done) {shelf : Shelf} {n : Nat} {request request' : Staged}
    (hfp : ws.Footprint id ts s xs request.item ids ys) (hf : Frame (id :: ids) ys ws ws')
    {r : Region Occupant} (hs' : ws'.space? id = some { s with region := r.sorted })
    (hold : (s.ledger.on shelf)[n]? = some request) (hnew : request'.item = request.item)
    (haddr : shelf = .explicits → request'.addr = request.addr)
    (hstaged : request.item ∈ s.singles ++ s.looped) (hopen : request.item ∉ done) {base : Int}
    (hplace : s.region.place Occupant.isSome (s.needs ws' request.item) request.item
      (s.wanted request.item) .item = (r, .ok base))
    (hfits : ∀ w : Nat, s.needs ws' request.item = w → w ≤ 24 →
      s.Fits ws' ⟨base, base + 2 ^ w, request.item⟩)
    (hinner : ∀ u ∈ ts, request.item = .space u.data → ws'.Mapped u AddressSpace.Anchored) :
    let s' := ({ s with region := r.sorted } : AddressSpace).mark shelf n request'
    (ws'.setSpace id s').Filling id ts xs s' (done ++ [request.item]) ∧
      Frame (Tree.node id ts).toList (ts.flatMap xs ++ ws.membersOf id) ws (ws'.setSpace id s') ∧
      s'.items = s.items := by
  intro s'
  have hroot : ∀ v ∈ ts, id ∉ v.toList := (Tree.nodup_node h.nests.ids).2.1
  have hchild : ∀ c, .space c ∈ s.singles ++ s.looped → ∃ v ∈ ts, v.data = c := fun c hc =>
    h.nests.exists_child h.space hc
  have hne : ∀ c, .space c ∈ s.singles ++ s.looped → c ≠ id := fun c hc => by
    obtain ⟨v, hv, rfl⟩ := hchild c hc
    exact fun he => hroot v hv (he ▸ v.data_mem_toList)
  have hother : ∀ v ∈ ts, .space v.data ≠ request.item →
      v.toList.Disjoint (id :: ids) ∧ (ws.membersIn v).Disjoint ys := fun v hv hne => by
    refine ⟨?_, hfp.inner_leaves v hv hne⟩
    rw [disjoint_cons_right]
    exact ⟨hroot v hv, hfp.inner_ids v hv hne⟩
  have haway : ∀ c, .space c ∈ done → c ∉ id :: ids := fun c hc => by
    obtain ⟨v, hv, rfl⟩ := hchild c (h.staged hc)
    exact fun hm => (hother v hv fun he => hopen (he ▸ hc)).1 v.data_mem_toList hm
  obtain ⟨hpart, hmark, hitems, -, w, hw, hw24, hgain⟩ := h.toPartway.step hf hs' hold hnew haddr
    hstaged hplace (fun c hc => widthOf_congr (hf.spaces c (haway c hc))) hne
  have hf' : Frame (id :: ids) ys ws (ws'.setSpace id s') :=
    hf.trans (hmark.mono (by simp) (nil_subset _))
  refine ⟨
    { toPartway := hpart
      nests := h.nests.frame hf'
      fits := ?_
      settled := ?_
      ready := ?_
      apart := ?_ }, ?_, hitems⟩
  · -- an old slot is out of reach, and for the new one only the space around it is replaced
    intro slot hm
    refine AddressSpace.Fits.of_items (s := s) ?_ hitems
    rcases mem_cons.mp (hgain.taken.mem_iff.mp hm) with rfl | hm
    · refine (hfits w hw hw24).frame hmark (by simp) (by simp) fun c hc => ?_
      have hc : request.item = .space c := hc
      simpa using hne c (hc ▸ hstaged)
    · have hdone := h.mem_done hm
      have hslot : slot.item ≠ request.item := fun he => hopen (he ▸ hdone)
      exact (h.fits slot hm).frame hf' (fun hx hi => hfp.single _ hx hi hslot)
        (fun hx y hy hyx => hfp.array _ hx hslot hy hyx) fun c hc => haway c (hc ▸ hdone)
  · intro u hu hm
    by_cases he : request.item = .space u.data
    · refine (hinner u hu he).frame ((h.nests.child hu).frame hf) hmark ?_ (by simp)
      rw [disjoint_singleton]
      exact hroot u hu
    · have hm : .space u.data ∈ done := by
        rcases mem_append.mp hm with hm | hm
        · exact hm
        · exact absurd (mem_singleton.mp hm).symm he
      obtain ⟨hi, hx⟩ := hother u hu (Ne.symm he)
      exact (h.settled u hu hm).frame (h.nests.child hu) hf' hi hx
  · intro u hu hm
    rw [mem_append, mem_singleton, not_or] at hm
    obtain ⟨hi, hx⟩ := hother u hu hm.2
    exact (h.ready u hu hm.1).frame (h.nests.child hu) hf' hi hx
  · intro v hv u hu hne
    rw [hf'.membersIn_eq]
    exact h.apart v hv u hu hne
  · exact hf'.mono (cons_subset.mpr ⟨(Tree.node id ts).data_mem_toList, hfp.ids_subset⟩)
      hfp.leaves_subset

end Workspace

end RegisterMap
