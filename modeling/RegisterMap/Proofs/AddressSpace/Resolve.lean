import RegisterMap.Proofs.AddressSpace.Filling

/-! # Resolution

Placing one request puts one more item into the space that is filled: a leaf, the copies of a loop side
by side in one block, or a tree below, which is resolved and shrunk first.  A pass goes over its
requests one after the other, and four passes reach all items.  By induction on the bound of the
recursion, a tree whose spaces are ready is laid out and based after its resolution
(`SpaceId.resolves`). -/

namespace RegisterMap

open Build List Option

namespace Workspace

/-- Work on a space has led from `ws` to `ws'`, where the items `done` are placed. -/
structure Fills (ws ws' : Workspace) (id : SpaceId) (ts : List (Tree SpaceId))
    (xs : Tree SpaceId → List Occupant) (items : Shelf → List Occupant) (done : List Occupant) :
    Prop where
  filling : ∃ s, ws'.Filling id ts xs s done ∧ s.items = items
  frame : Frame (Tree.node id ts).toList (ts.flatMap xs ++ ws.membersOf id) ws ws'

theorem Fills.trans {ws ws' ws'' : Workspace} {id : SpaceId} {ts : List (Tree SpaceId)}
    {xs : Tree SpaceId → List Occupant} {items : Shelf → List Occupant} {done done' : List Occupant}
    (h : Fills ws ws' id ts xs items done)
    (h' : ∀ s, ws'.Filling id ts xs s done → s.items = items → Fills ws' ws'' id ts xs items done') :
    Fills ws ws'' id ts xs items done' := by
  obtain ⟨s, hs, hi⟩ := h.filling
  have h' := h' s hs hi
  refine ⟨h'.filling, h.frame.trans ?_⟩
  rw [← h.frame.membersOf_eq]
  exact h'.frame

namespace Filling

open SpaceId

variable {ws ws' : Workspace} {id : SpaceId} {ts : List (Tree SpaceId)} {s : AddressSpace}
  {xs : Tree SpaceId → List Occupant} {done : List Occupant} {shelf : Shelf} {n : Nat}
  {request request' : Staged}

variable (h : ws.Filling id ts xs s done) (hold : (s.ledger.on shelf)[n]? = some request)
  (hopen : request.item ∉ done)

include h hold hopen

theorem fill_inner (hshelf : shelf = .explicits ∨ shelf = .entries) {u : Tree SpaceId} (hu : u ∈ ts)
    (hitem : request.item = .space u.data) {ws1 : Workspace} (hf1 : Frame u.toList (xs u) ws ws1)
    (hmapped : ws1.Mapped u AddressSpace.Resolved) {t : AddressSpace} (ht : ws1.space? u.data = some t)
    (hrun : id.placeRequest shelf request (some t.region.aw) ws1 = .ok request' ws') :
    ws'.OnceMarked id s shelf n request' fun w => Fills ws w id ts xs s.items (done ++ [request.item]) := by
  have hspace1 : ws1.space? id = some s := by
    rw [hf1.spaces id ((Tree.nodup_node h.nests.ids).2.1 u hu)]
    exact h.space
  obtain ⟨aw, base, haw, hadd, hnew, haddr, -⟩ := placeRequest_single_ok hshelf
    (h.pending shelf request (mem_of_getElem? hold) hopen) hrun
  obtain rfl := Option.some.inj haw
  rw [← h.wanted_eq hold, hitem] at hadd
  obtain ⟨s1, r, t1, t', hs1, hr, hs', hf2, hlaid, hbased, ht1, ht', hbase, hrel, htaw⟩ :=
    addNow_space_ok (h.nests.frame hf1) hu hmapped.laid
      (fun q hq => mem_unique hspace1 hq ▸ h.unresolved) hadd
  obtain rfl := mem_unique ht ht1
  obtain rfl := mem_unique hspace1 hs1
  have hf : Frame (id :: u.toList) (xs u) ws ws' :=
    (hf1.mono_ids (subset_cons_self _ _)).trans
      (hf2.mono_leaves (nil_subset _))
  have hsingle : request.item ∈ s.singles := by
    rw [hitem]
    exact h.nests.child_mem h.space hu
  have hneeds : s.needs ws' request.item = t.region.aw := by
    unfold AddressSpace.needs
    rw [if_neg (h.not_looped hsingle), hitem, widthOf_space ht']
    exact htaw
  rw [← hitem, ← hneeds] at hr
  have hfp := h.nests.footprint_inner h.space hu (h.ready u hu (hitem ▸ hopen)).subset h.apart
  rw [← hitem] at hfp
  have hfits : ∀ w : Nat, s.needs ws' request.item = w → s.Fits ws' ⟨base, base + 2 ^ w, request.item⟩ := by
    intro w hw
    refine ⟨fun _ hnone => ?_, fun hlooped => absurd hlooped (h.not_looped hsingle), fun c hc =>
      ⟨t', w, Occupant.space.inj (hitem.symm.trans hc) ▸ ht', hrel, htaw.trans (hneeds.symm.trans hw), rfl⟩⟩
    have hnone : request.item.inner? = none := hnone
    rw [hitem] at hnone
    cases hnone
  obtain ⟨hfill, hframe, hitems⟩ := h.step hfp hf hs' hold hnew haddr
    (mem_append_left _ hsingle) hopen hr (fun w hw _ => hfits w hw) fun v hv hitem' => by
      obtain rfl := Tree.eq_of_data_eq h.nests.ids hv hu
        (Occupant.space.inj (hitem'.symm.trans hitem))
      exact ⟨hlaid, hbased, t', ht', hbase.trans hrel.symm⟩
  exact ⟨r.sorted, hs', ⟨_, hfill, hitems⟩, hframe⟩

variable {l : Leaf} (hl : ws.leaf? request.item = some l)
  (hrun : id.placeRequest shelf request (some l.aw) ws = .ok request' ws')

include hl hrun

theorem fill_single (hshelf : shelf = .explicits ∨ shelf = .entries)
    (hsingle : request.item ∈ s.singles) :
    ws'.OnceMarked id s shelf n request' fun w => Fills ws w id ts xs s.items (done ++ [request.item]) := by
  have hinner := inner?_of_leaf? hl
  obtain ⟨hneeds, r, base, hr, hs', hf, hleaf, hnew, haddr⟩ :=
    h.place_single hold hopen hl hrun hshelf hsingle
  obtain ⟨hfill, hframe, hitems⟩ := h.step (h.nests.footprint_single h.space xs hsingle hinner) hf hs'
    hold hnew haddr (mem_append_left _ hsingle) hopen hr
    (fun w hw _ => ⟨fun _ _ => ⟨_, w, hleaf, rfl, hneeds.symm.trans hw, rfl⟩,
      fun hlooped => absurd hlooped (h.not_looped hsingle), fun c hc => by
        rw [show request.item = .space c from hc] at hinner
        cases hinner⟩)
    fun u _ hu => by
      rw [hu] at hinner
      cases hinner
  exact ⟨r.sorted, hs', ⟨_, hfill, hitems⟩, hframe⟩

theorem fill_loop (hshelf : shelf = .loops ∨ shelf = .explicitLoops) (hlooped : request.item ∈ s.looped) :
    ws'.OnceMarked id s shelf n request' fun w => Fills ws w id ts xs s.items (done ++ [request.item]) := by
  have hinner := inner?_of_leaf? hl
  obtain ⟨haligned, l', hl', hhead, hcopies⟩ :=
    h.nests.looped _ (Tree.mem_subtrees_self _) s h.space _ hlooped
  obtain rfl := mem_unique hl hl'
  have hcopies_eq := copiesOf_eq_of_leaf? hl
  have hnodup : l.copies.Nodup := by
    have := (nodup_append.mp (h.nests.members_nodup h.space)).2.1
    rw [← hcopies_eq]
    exact (nodup_flatMap.mp this).1 _ hlooped
  obtain ⟨hneeds, r, base, hr, hs', hf, hall, hnew⟩ := h.place_loop hold hopen hl hrun hshelf hlooped
    haligned hhead hnodup fun y hy => (hcopies y hy).imp fun _ h => h.1
  have hcount : 0 < l.copies.length := length_pos_of_mem (mem_of_head? hhead)
  have hfits : ∀ w : Nat, s.needs ws' request.item = w → w ≤ 24 →
      s.Fits ws' ⟨base, base + 2 ^ w, request.item⟩ := by
    intro w hw hw24
    obtain ⟨haw0, hblock⟩ := Number.mul_two_pow_le
      (fun h1 => (hall 1 _ (getElem?_eq_getElem (by omega))).1 (by omega)) (hneeds.symm.trans hw)
      (by omega)
    refine ⟨fun hsingle _ => absurd hlooped (h.not_looped hsingle),
      fun _ => ⟨l.aw.toNat, fun k y hy => ?_⟩, fun c hc => ?_⟩
    · rw [hf.copiesOf_eq, hcopies_eq] at hy
      obtain ⟨-, ly, hly, hbase⟩ := hall k y hy
      obtain ⟨ly', hly', hlaw⟩ := hcopies y (mem_of_getElem? hy)
      obtain rfl := mem_unique hly hly'
      refine ⟨_, hbase, by dsimp only; omega, rfl, ?_⟩
      have hk : k + 1 ≤ l.copies.length := (List.getElem?_eq_some_iff.mp hy).1
      have : ((k : Int) + 1) * 2 ^ l.aw.toNat ≤ l.copies.length * 2 ^ l.aw.toNat :=
        Int.mul_le_mul_of_nonneg_right (by omega) (Number.two_pow_pos _).le
      dsimp only
      omega
    · rw [show request.item = .space c from hc] at hinner
      cases hinner
  have hfp := h.nests.footprint_array h.space xs hlooped
  rw [hcopies_eq] at hfp
  obtain ⟨hfill, hframe, hitems⟩ := h.step hfp hf hs' hold hnew
    (by rcases hshelf with rfl | rfl <;> simp) (mem_append_right _ hlooped) hopen hr hfits
    fun u _ hu => by
      rw [hu] at hinner
      cases hinner
  exact ⟨r.sorted, hs', ⟨_, hfill, hitems⟩, hframe⟩

end Filling

end Workspace

/-! ### The recursion -/

namespace Workspace

variable {ws ws' : Workspace} {t : Tree SpaceId}

theorem Ready.kind {xs : List Occupant} (h : ws.Ready t xs) :
    ∃ s, ws.space? t.data = some s ∧ s.kind = .bus := by
  cases h with
  | opened hs ho _ _ => exact ⟨_, hs, ho.kind⟩
  | resolved h =>
    obtain ⟨s, hs, hr⟩ := h.root
    exact ⟨s, hs, hr.kind⟩

theorem Mapped.shrink (h : ws.Mapped t AddressSpace.Resolved) (ho : ws.Nests t) {u : Unit}
    (hrun : t.data.onRegion Region.shrink ws = .ok u ws') :
    Frame t.toList [] ws ws' ∧ ws'.Mapped t AddressSpace.Resolved := by
  obtain ⟨s, r, hs, hr, rfl⟩ := SpaceId.onRegion_ok hrun
  obtain ⟨s', hs', hlaid⟩ := h.laid t t.mem_subtrees_self
  obtain rfl := mem_unique hs hs'
  obtain ⟨s', hs', hres⟩ := h.root
  obtain rfl := mem_unique hs hs'
  obtain ⟨htaken, hbase, hrel, hspaced, -⟩ := hlaid.spaced.shrink hr
  have hf : Frame [t.data] [] ws (ws.setSpace t.data { s with region := r }) :=
    Frame.setSpace hs rfl rfl fun _ => ⟨rfl, htaken⟩
  refine ⟨hf.mono_ids ?_, ?_⟩
  · exact cons_subset.mpr ⟨t.data_mem_toList, nil_subset _⟩
  · exact ⟨h.laid.setRoot ho hs rfl hf htaken hspaced, h.based.setRoot ho.ids hs hbase, _,
      space?_setSpace_self hs _, hres.kind, hres.resolved, hbase.trans hres.base,
      hrel.trans hres.relativeBase⟩

end Workspace

namespace SpaceId

open Workspace

variable {ws ws' : Workspace} {id : SpaceId} {ts : List (Tree SpaceId)} {s : AddressSpace}
  {xs : Tree SpaceId → List Occupant} {ys done : List Occupant} {shelf : Shelf} {fuel : Nat}
  {t : Tree SpaceId} {u : Unit}

/-- With this bound, every tree that is ready is mapped by its resolution. -/
def Resolves (fuel : Nat) : Prop :=
  ∀ (t : Tree SpaceId) (xs : List Occupant) (ws ws' : Workspace) (u : Unit), ws.Nests t →
    ws.Ready t xs → resolveUpTo fuel t.data ws = .ok u ws' →
    Frame t.toList xs ws ws' ∧ ws'.Mapped t AddressSpace.Resolved

section

variable (ih : ∀ k < fuel, Resolves k)

include ih

theorem shrinkUpTo_ok (ho : ws.Nests t) (hready : ws.Ready t ys)
    (h : shrinkUpTo fuel t.data ws = .ok u ws') :
    Frame t.toList ys ws ws' ∧ ws'.Mapped t AddressSpace.Resolved := by
  cases fuel with
  | zero => cases h
  | succ fuel =>
    unfold shrinkUpTo at h
    obtain ⟨s, hs, h1⟩ := bind_get_ok h
    obtain ⟨s', hs', hkind⟩ := hready.kind
    obtain rfl := mem_unique hs hs'
    rw [hkind] at h1
    obtain ⟨_, ws2, hres, h2⟩ := bind_ok h1
    obtain ⟨hf, hmapped⟩ := ih fuel (by omega) t ys _ _ _ ho hready hres
    obtain ⟨hf', hmapped'⟩ := hmapped.shrink (ho.frame hf) h2
    exact ⟨hf.trans (hf'.mono_leaves (nil_subset _)), hmapped'⟩

theorem settleUpTo_space_ok (ho : ws.Nests t) (hready : ws.Ready t ys)
    {width width' : Option Int} (h : settleUpTo fuel (.space t.data) width ws = .ok width' ws') :
    Frame t.toList ys ws ws' ∧ ws'.Mapped t AddressSpace.Resolved ∧
      ∃ s, ws'.space? t.data = some s ∧ width' = some s.region.aw := by
  cases fuel with
  | zero => cases h
  | succ fuel =>
    unfold settleUpTo at h
    obtain ⟨s, hs, h1⟩ := bind_get_ok h
    obtain ⟨s', hs', hkind⟩ := hready.kind
    obtain rfl := mem_unique hs hs'
    rw [hkind] at h1
    obtain ⟨_, ws2, hres, h2⟩ := bind_ok h1
    obtain ⟨hf, hmapped⟩ := ih fuel (by omega) t ys _ _ _ ho hready hres
    obtain ⟨_, ws3, hshrink, h3⟩ := bind_ok h2
    obtain ⟨hf', hmapped'⟩ := shrinkUpTo_ok (fun k hk => ih k (by omega)) (ho.frame hf)
      (.resolved hmapped) hshrink
    obtain ⟨q, hq, h4⟩ := bind_region_ok h3
    obtain ⟨rfl, rfl⟩ := pure_ok h4
    exact ⟨hf.trans (hf'.mono_leaves (nil_subset _)), hmapped', q, hq, rfl⟩

theorem visit_ok (h : ws.Filling id ts xs s done) {n : Nat}
    {request request' : Staged} (hold : (s.ledger.on shelf)[n]? = some request)
    (hopen : request.item ∉ done) {width : Option Int} {ws1 ws2 : Workspace}
    (hsettle : settleUpTo fuel request.item request.width ws = .ok width ws1)
    (hplace : id.placeRequest shelf request width ws1 = .ok request' ws2)
    (hmark : id.updateLedger (fun l => l.put shelf ((l.on shelf).set n request')) ws2 = .ok u ws') :
    Fills ws ws' id ts xs s.items (done ++ [request.item]) := by
  refine OnceMarked.apply (s := s) (P := fun w => Fills ws w id ts xs s.items _) ?_ hmark
  rcases AddressSpace.shelf_cases h.keepouts hold with ⟨hshelf, hsingle⟩ | ⟨hshelf, hlooped⟩
  · cases hi : request.item.inner? with
    | none =>
      obtain ⟨l, hl⟩ := h.nests.single _ (Tree.mem_subtrees_self _) s h.space _ hsingle hi
      obtain ⟨rfl, rfl⟩ := settleUpTo_leaf_ok hl hsettle
      exact h.fill_single hold hopen hl hplace hshelf hsingle
    | some c =>
      have hitem := Occupant.inner?_eq_some.mp hi
      rw [hitem] at hsingle
      obtain ⟨v, hv, rfl⟩ := h.nests.exists_child h.space (mem_append_left _ hsingle)
      have hready := h.ready v hv (hitem ▸ hopen)
      rw [hitem] at hsettle
      obtain ⟨hf, hmapped, q, hq, rfl⟩ := settleUpTo_space_ok ih (h.nests.child hv) hready hsettle
      exact h.fill_inner hold hopen hshelf hv hitem hf hmapped hq hplace
  · obtain ⟨-, l, hl, -⟩ := h.nests.looped _ (Tree.mem_subtrees_self _) s h.space _ hlooped
    obtain ⟨rfl, rfl⟩ := settleUpTo_leaf_ok hl hsettle
    exact h.fill_loop hold hopen hl hplace hshelf hlooped

theorem fillable (ws : Workspace) (id : SpaceId)
    (ts : List (Tree SpaceId)) (xs : Tree SpaceId → List Occupant) (items : Shelf → List Occupant)
    {queue : List Occupant} (hn : queue.Nodup) :
    Fillable SpaceKind.bus.passes fuel id items queue fun done w =>
      Fills ws w id ts xs items done where
  space h := by
    obtain ⟨s, hs, hitems⟩ := h.filling
    exact ⟨s, hs.space, hitems, hs.passes⟩
  visit h hs hold hnext hsettle hplace hmark := h.trans fun s' hs' hitems => by
    have hopen := (nodup_append'.mp (hn.sublist hnext.sublist)).2.2 |> disjoint_singleton.mp
    obtain rfl := mem_unique hs hs'.space
    rw [← hitems]
    exact visit_ok ih hs' hold hopen hsettle hplace hmark

end

end SpaceId

namespace Workspace

variable {ws : Workspace} {id : SpaceId} {ts : List (Tree SpaceId)}
  {xs : Tree SpaceId → List Occupant} {s : AddressSpace}

/-- A space all of whose items are placed is mapped once it is marked as resolved. -/
theorem Filling.mapped (h : ws.Filling id ts xs s s.queue) :
    let s' : AddressSpace := { s with ledger := { s.ledger with resolved := true } }
    Frame [id] [] ws (ws.setSpace id s') ∧
      (ws.setSpace id s').Mapped (.node id ts) AddressSpace.Resolved := by
  intro s'
  have hs' : (ws.setSpace id s').space? id = some s' := space?_setSpace_self h.space s'
  have hitems : s'.items = s.items := by
    funext shelf
    cases shelf <;> rfl
  have hf : Frame [id] [] ws (ws.setSpace id s') :=
    Frame.setSpace h.space hitems rfl fun hres => absurd hres (by rw [h.unresolved]; decide)
  have hqueue := AddressSpace.queue_perm h.keepouts
  have hroot := (Tree.nodup_node h.nests.ids).2.1
  have hbelow : ∀ u ∈ ts, (ws.setSpace id s').Mapped u AddressSpace.Anchored := fun u hu => by
    have hm : .space u.data ∈ s.queue :=
      hqueue.mem_iff.mpr (mem_append_left _ (h.nests.child_mem h.space hu))
    refine (h.settled u hu hm).frame (h.nests.child hu) hf ?_ (by simp)
    rw [disjoint_singleton]
    exact hroot u hu
  have hinner : ∀ x ∈ s.queue, ∀ c, x = .space c → c ∉ [id] := fun x hx c hc => by
    obtain ⟨v, hv, rfl⟩ := h.nests.exists_child h.space (hc ▸ hqueue.mem_iff.mp hx)
    rw [mem_singleton]
    exact fun he => hroot v hv (he ▸ v.data_mem_toList)
  have hlaid : s'.Laid (ws.setSpace id s') := by
    have hplaced : (s.region.taken.map Slot.item).Perm s.queue := h.packs.items
    refine ⟨h.keepouts, h.tiled.spaced (by norm_num) h.aw, fun slot hslot => ?_, s.region, ?_, List.Perm.refl _⟩
    · have hm : slot.item ∈ s.queue := hplaced.mem_iff.mp (mem_map_of_mem hslot)
      exact ((h.fits slot hslot).frame hf (by simp) (by simp) (hinner _ hm)).of_items hitems
    · rw [AddressSpace.queue_congr hitems]
      exact h.packs.congr rfl fun x hx => AddressSpace.needs_frame (AddressSpace.looped_eq hitems) hf
        fun c hc => widthOf_congr (hf.spaces c (hinner x hx c hc))
  refine ⟨hf, Tree.forall_subtrees_node.mpr ⟨⟨s', hs', hlaid⟩, fun u hu => (hbelow u hu).laid⟩,
    Tree.forall_subtrees_node.mpr ⟨fun u hu => ?_, fun u hu => (hbelow u hu).based⟩,
    s', hs', h.kind, rfl, h.base, h.relativeBase⟩
  obtain ⟨q, hq, hanchored⟩ := (hbelow u hu).root
  refine ⟨s', q, hs', hq, ?_⟩
  rw [show s'.region.base = 0 from h.base, zero_add]
  exact hanchored

end Workspace

theorem SpaceId.resolves (fuel : Nat) : Resolves fuel := by
  induction fuel using Nat.strong_induction_on with
  | _ fuel ih =>
    intro t ys ws ws' u ho hready h
    cases fuel with
    | zero => cases h
    | succ fuel =>
      cases hready with
      | resolved hmapped =>
        unfold resolveUpTo at h
        obtain ⟨s, hs, h1⟩ := bind_get_ok h
        obtain ⟨s', hs', hres⟩ := hmapped.root
        obtain rfl := mem_unique hs hs'
        dsimp only at h1
        rw [hres.resolved] at h1
        obtain ⟨-, rfl⟩ := pure_ok h1
        exact ⟨Frame.refl _ _ _, hmapped⟩
      | @opened id ts s xs hs hopen hts hapart =>
        have hqueue : s.queue.Nodup :=
          (AddressSpace.queue_perm hopen.keepouts).nodup_iff.mpr (ho.items_nodup hs)
        obtain ⟨ws1, s1, hfills, hs1, rfl⟩ := resolveUpTo_fills
          (fun k hk => fillable (fun k' hk' => ih k' (by omega)) ws id ts xs s.items hqueue) rfl
          ⟨⟨s, hopen.filling hs ho hts hapart, rfl⟩, Frame.refl _ _ _⟩ hs hopen.unresolved
          hopen.passCount h
        obtain ⟨s1', hs1', hitems⟩ := hfills.filling
        obtain rfl := mem_unique hs1 hs1'.space
        rw [← AddressSpace.queue_congr hitems] at hs1'
        obtain ⟨hf, hmapped⟩ := hs1'.mapped
        refine ⟨hfills.frame.trans (hf.mono ?_ (nil_subset _)), hmapped⟩
        exact cons_subset.mpr ⟨(Tree.node id ts).data_mem_toList, nil_subset _⟩

end RegisterMap
