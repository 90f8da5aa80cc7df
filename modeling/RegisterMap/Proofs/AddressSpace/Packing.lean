import RegisterMap.Proofs.AddressSpace.Closed

/-! # Packing a space

A space whose inner spaces are all settled is packed by its resolution (`Workspace.Packing`): its items
are placed one after the other in the order of the passes, and each inner space gets a slot of its size.
Leaves may be shared with spaces elsewhere; what is known of their addresses is that none of them is
negative (`Workspace.Nonneg`). -/

namespace RegisterMap

open Build List Option

/-- The spaces that are asked for in a space. -/
def AddressSpace.guests (s : AddressSpace) : List SpaceId := s.queue.filterMap Occupant.inner?

theorem AddressSpace.mem_guests {s : AddressSpace} {c : SpaceId} : c ∈ s.guests ↔ .space c ∈ s.queue := by
  simp [guests, mem_filterMap, Occupant.inner?_eq_some]

theorem AddressSpace.mem_queue {s : AddressSpace} (hk : s.ledger.keepouts = []) {shelf : Shelf} {n : Nat}
    {request : Staged} (h : (s.ledger.on shelf)[n]? = some request) : request.item ∈ s.queue := by
  rw [(queue_perm hk).mem_iff, mem_append]
  exact (shelf_cases hk h).imp And.right And.right

/-- An open space whose items are leaves and spaces among `ids`, each asked for once. -/
structure AddressSpace.Waiting (s : AddressSpace) (ids : List SpaceId) : Prop where
  opened : s.Open
  known : ∀ x ∈ s.queue, x.isLeaf = true ∨ ∃ c ∈ ids, x = .space c
  nodup : s.guests.Nodup

/-- A region over the default range has got no slots but some for the item. -/
structure Region.Receives (r r' : Region Occupant) (x : Occupant) : Prop where
  tiled : r'.Tiled 24
  aw : r'.aw = r.aw
  base : r'.base = r.base
  slots : ∀ slot, slot.item ≠ x → (slot ∈ r'.taken ↔ slot ∈ r.taken)

/-- A placement adds a slot for the item, which does not stand at a negative address. -/
theorem Region.Tiled.receives {r r' : Region Occupant} (h : r.Tiled 24) {width base : Int}
    {x : Occupant} {addr : Option Int}
    (hplace : r.place Occupant.isSome width x addr .item = (r', .ok base)) :
    r.Receives r'.sorted x ∧ 0 ≤ base := by
  obtain ⟨w, -, hgain⟩ := Region.place_eq_ok hplace
  replace hgain := hgain.sorted
  have htiled := h.place (by norm_num) Occupant.isSome width x addr (.inl rfl)
  rw [hplace] at htiled
  refine ⟨⟨htiled.sorted, hgain.aw, hgain.base, fun slot hne => ?_⟩,
    (htiled.sorted.slot_bounds (hgain.taken.mem_iff.mpr mem_cons_self)).1⟩
  rw [hgain.taken.mem_iff, mem_cons]
  refine or_iff_right ?_
  rintro rfl
  exact hne rfl

namespace Workspace

variable {ws ws' : Workspace} {ids : List SpaceId} {id : SpaceId} {s : AddressSpace}
  {done : List Occupant}

/-- No leaf has a negative address. -/
def Nonneg (ws : Workspace) : Prop := ∀ x l b, ws.leaf? x = some l → l.base = some b → 0 ≤ b

theorem Nonneg.of_leaves (h : ws.Nonneg) (hl : ∀ x, ws'.leaf? x = ws.leaf? x) : ws'.Nonneg :=
  fun x l b hx => h x l b ((hl x).symm.trans hx)

theorem Nonneg.retold (h : ws.Nonneg) {o : Occupant} {l : Leaf} {base : Int}
    (hr : o.Retold { l with base := some base } ws ws') (h0 : 0 ≤ base) : ws'.Nonneg := by
  intro x l' b hl' hb
  rw [hr.leaves] at hl'
  split at hl'
  · cases hl'
    cases hb
    exact h0
  · exact h x l' b hl' hb

theorem Nonneg.placeAligned (h : ws.Nonneg) (hs : ws.space? id = some s) (hun : s.ledger.resolved = false)
    (htiled : s.region.Tiled 24) {item : Occupant} {l : Leaf} (hl : ws.leaf? item = some l)
    {aw blockAw base : Int} {copies : List Occupant} (hcopies : ∀ y ∈ copies, y.isLeaf = true)
    (hrun : id.placeAligned item aw blockAw copies ws = .ok base ws') :
    ∃ r, ws'.space? id = some { s with region := r } ∧ s.region.Receives r item ∧
      Frame [id] (item :: copies) ws ws' ∧ ws'.Nonneg := by
  unfold SpaceId.placeAligned at hrun
  obtain ⟨base', ws1, hadd, h1⟩ := bind_ok hrun
  obtain ⟨_, hloop, rfl⟩ := bind_pure_ok h1
  obtain ⟨s1, r, hs1, hr, hretold⟩ := SpaceId.addNow_leaf_ok hl hadd
  obtain rfl := mem_unique hs hs1
  obtain ⟨hreceives, h0⟩ := htiled.receives hr
  have hf0 : Frame [id] [] ws (ws.setSpace id { s with region := r.sorted }) :=
    Frame.setSpace hs rfl rfl fun hres => absurd hres (by rw [hun]; decide)
  have hend : Frame [] copies ws1 ws' ∧ ws'.Nonneg := by
    refine forIn_ok hloop (fun _ w => Frame [] copies ws1 w ∧ w.Nonneg)
      ⟨Frame.refl _ _ _, (show (ws.setSpace id _).Nonneg from h).retold hretold h0⟩ ?_
    rintro done ⟨y, n⟩ rest hsplit w w1 step ⟨hf, hn⟩ hstep
    have hy : y ∈ copies := by
      refine mem_of_getElem? (mk_mem_zipIdx_iff_getElem?.mp (?_ : (y, n) ∈ copies.zipIdx))
      rw [hsplit]
      exact mem_append_right _ mem_cons_self
    by_cases hn0 : n = 0
    · subst hn0
      obtain ⟨rfl, rfl⟩ := pure_ok hstep
      exact ⟨rfl, hf, hn⟩
    · simp only [ne_eq, hn0, not_false_eq_true, if_true] at hstep
      obtain ⟨size, hpow, hstep2⟩ := bind_lift_ok hstep
      obtain ⟨-, rfl⟩ := Number.powerOfTwo_eq_ok hpow
      obtain ⟨_, hset, rfl⟩ := bind_pure_ok hstep2
      obtain ⟨ly, hly⟩ := Occupant.exists_leaf_of_setBase (hcopies y hy) hset
      have hret := Occupant.setBase_ok hly hset
      exact ⟨rfl, hf.trans (hret.frame.mono_leaves (by simpa using hy)),
        hn.retold hret (by positivity)⟩
  obtain ⟨hf, hn⟩ := hend
  refine ⟨r.sorted, ?_, hreceives, ?_, hn⟩
  · rw [hf.spaces id (by simp), hretold.spaces, space?_setSpace_self hs]
  · exact ((hf0.mono_leaves (nil_subset _)).trans
      (hretold.frame.mono (nil_subset _) (by simp))).trans
      (hf.mono (nil_subset _) (subset_cons_self _ _))

/-- Of the items those in `done` are placed, and the inner spaces are among the settled spaces `ids`. -/
structure Packing (ws : Workspace) (ids : List SpaceId) (id : SpaceId) (s : AddressSpace)
    (done : List Occupant) : Prop extends s.Granting done where
  space : ws.space? id = some s
  known : ∀ x ∈ s.queue, x.isLeaf = true ∨ ∃ c ∈ ids, x = .space c
  asked : ∀ slot ∈ s.region.taken, slot.item ∈ s.queue
  sized : ∀ slot ∈ s.region.taken, ∀ c, slot.item = .space c →
    ∃ w : Nat, ws.widthOf (.space c) = w ∧ slot.hi = slot.lo + 2 ^ w
  closed : ws.Closed ids
  outside : id ∉ ids
  aligned : ws.policy.alignedLoops = true
  nonneg : ws.Nonneg

namespace Packing

variable {shelf : Shelf} {n : Nat} {request request' : Staged}

/-- Work on a space, which was `s0`, has led from `ws` to `ws'`, where the items `done` are placed, the
spaces `cs` newly. -/
structure Leads (ws ws' : Workspace) (ids : List SpaceId) (id : SpaceId) (s0 : AddressSpace)
    (done : List Occupant) (cs : List SpaceId) : Prop where
  packing : ∃ s, ws'.Packing ids id s done ∧ s.items = s0.items
  frame : ∃ xs, Frame (id :: ids) xs ws ws'
  seats : ws.Seats id cs ws'

open SpaceId

section

variable (h : ws.Packing ids id s done)

include h

theorem inner {c : SpaceId} (hc : .space c ∈ s.queue) : c ∈ ids := by
  rcases h.known _ hc with hleaf | ⟨c', hc', he⟩
  · cases hleaf
  · rwa [Occupant.space.inj he]

theorem step {xs : List Occupant} (hf : Frame (id :: ids) xs ws ws')
    (hc : ws'.Closed ids) (hn : ws'.Nonneg) {r : Region Occupant}
    (hs' : ws'.space? id = some { s with region := r })
    (hold : (s.ledger.on shelf)[n]? = some request) (hnew : request'.item = request.item)
    (hreceives : s.region.Receives r request.item)
    (hsized : ∀ slot ∈ r.taken, ∀ c, slot.item = request.item → request.item = .space c →
      ∃ w : Nat, ws'.widthOf (.space c) = w ∧ slot.hi = slot.lo + 2 ^ w)
    (hseats : ws.Seats id request.item.inner?.toList ws') :
    Leads ws (ws'.setSpace id (({ s with region := r } : AddressSpace).mark shelf n request')) ids id s
      (done ++ [request.item]) request.item.inner?.toList := by
  have hitems := AddressSpace.items_mark (s := { s with region := r }) hold hnew
  have hqueue := AddressSpace.queue_congr (s := s) hitems
  have hmark := Frame.setSpace hs' hitems rfl fun hr =>
    absurd hr (by show s.ledger.resolved ≠ true; rw [h.unresolved]; decide)
  have hwidth : ∀ c ∈ ids, (ws'.setSpace id (({ s with region := r } : AddressSpace).mark shelf n
      request')).widthOf (.space c) = ws'.widthOf (.space c) := fun c hc =>
    widthOf_congr (hmark.spaces c (by rw [mem_singleton]; exact fun he => h.outside (he ▸ hc)))
  have hasked : ∀ slot ∈ r.taken, slot.item ∈ s.queue := fun slot hslot => by
    by_cases he : slot.item = request.item
    · rw [he]
      exact AddressSpace.mem_queue h.keepouts hold
    · exact h.asked slot ((hreceives.slots slot he).mp hslot)
  refine ⟨⟨_,
    { toGranting := h.mark hreceives.aw hreceives.tiled hnew
      space := space?_setSpace_self hs' _
      known := by rw [hqueue]; exact h.known
      asked := by rw [hqueue]; exact hasked
      sized := ?_
      closed := hc.frame hmark (by rw [disjoint_singleton]; exact h.outside)
      outside := h.outside
      aligned := by rw [hmark.policy, hf.policy]; exact h.aligned
      nonneg := hn }, hitems⟩,
    ⟨xs, hf.trans (hmark.mono (by simp) (nil_subset _))⟩,
    hseats.steady_right (.setSpace_perm hs' rfl (List.Perm.refl _))⟩
  · intro slot hslot c hitem
    have hin : c ∈ ids := h.inner (hitem ▸ hasked slot hslot)
    rw [hwidth c hin]
    by_cases he : slot.item = request.item
    · exact hsized slot hslot c he (he.symm.trans hitem)
    · rw [h.closed.widthOf_eq hc hf hin]
      exact h.sized slot ((hreceives.slots slot he).mp hslot) c hitem

theorem pack_leaf (hold : (s.ledger.on shelf)[n]? = some request) {l : Leaf}
    (hl : ws.leaf? request.item = some l)
    (hrun : id.placeRequest shelf request (some l.aw) ws = .ok request' ws') :
    ws'.OnceMarked id s shelf n request' fun w =>
      Leads ws w ids id s (done ++ [request.item]) request.item.inner?.toList := by
  suffices hplaced : ∃ r xs, ws'.space? id = some { s with region := r } ∧
      s.region.Receives r request.item ∧ Frame [id] xs ws ws' ∧ ws'.Nonneg ∧
      request'.item = request.item by
    obtain ⟨r, xs, hs', hreceives, hf, hn, hnew⟩ := hplaced
    have hinner := inner?_of_leaf? hl
    refine ⟨r, hs', h.step (hf.mono_ids (by simp))
      (h.closed.frame hf (by rw [disjoint_singleton]; exact h.outside)) hn hs' hold hnew hreceives
      (fun slot _ c _ hc => ?_) ?_⟩
    · rw [hc] at hinner
      cases hinner
    · rw [hinner]
      refine .of_steady (.of_space h.space hs' (fun j hj => hf.spaces j (by simpa using hj.symm))
        hreceives.base fun slot c hc => hreceives.slots slot fun he => ?_)
      rw [← he, hc] at hinner
      cases hinner
  have hsame : s.region.Receives s.region request.item := ⟨h.tiled, rfl, rfl, fun _ _ => Iff.rfl⟩
  rcases AddressSpace.shelf_cases h.keepouts hold with ⟨hshelf, -⟩ | ⟨hshelf, -⟩
  · cases hplaced : request.placed with
    | true =>
      obtain ⟨rfl, rfl⟩ := placeRequest_placed_ok hshelf hplaced hrun
      exact ⟨s.region, [], h.space, hsame, Frame.refl _ _ _, h.nonneg, rfl⟩
    | false =>
      obtain ⟨aw, base, -, hadd, hnew, -⟩ := placeRequest_single_ok hshelf hplaced hrun
      obtain ⟨s1, r, hs1, hr, hretold⟩ := addNow_leaf_ok hl hadd
      obtain rfl := mem_unique h.space hs1
      obtain ⟨hreceives, h0⟩ := h.tiled.receives hr
      have hf : Frame [id] [] ws (ws.setSpace id { s with region := r.sorted }) :=
        Frame.setSpace h.space rfl rfl fun hres => absurd hres (by rw [h.unresolved]; decide)
      refine ⟨r.sorted, [request.item], ?_, hreceives, ?_,
        (show (ws.setSpace id _).Nonneg from h.nonneg).retold hretold h0, hnew⟩
      · rw [hretold.spaces, space?_setSpace_self h.space]
      · exact hf.andLeaves hretold.frame
  · replace hrun : id.placeLoop request (some l.aw) ws = .ok request' ws' := by
      rcases hshelf with rfl | rfl <;> exact hrun
    obtain ⟨aw, more, -, -, length, ws1, -, -, hf1, -, -, -,
      ⟨-, rfl, rfl⟩ | ⟨-, base, rfl, hplace⟩⟩ := placeLoop_ok hrun
    · exact ⟨s.region, [], (hf1.spaces id (by simp)).trans h.space, hsame,
        hf1.mono_ids (nil_subset _),
        h.nonneg.of_leaves fun x => hf1.leaves x not_mem_nil, rfl⟩
    · rw [h.aligned, if_pos rfl] at hplace
      obtain ⟨base', hplace, -⟩ := map_ok hplace
      have hleaf : ∀ y, ws1.leaf? y = ws.leaf? y := fun y => hf1.leaves y not_mem_nil
      obtain ⟨r, hs', hreceives, hf, hn⟩ := (h.nonneg.of_leaves hleaf).placeAligned
        ((hf1.spaces id (by simp)).trans h.space) h.unresolved h.tiled ((hleaf _).trans hl)
        (fun y hy => isLeaf_of_mem_copiesOf hy) hplace
      exact ⟨r, _, hs', hreceives, (hf1.mono (nil_subset _) (nil_subset _)).trans hf, hn, rfl⟩

theorem pack_inner (hshelf : shelf = .explicits ∨ shelf = .entries)
    (hold : (s.ledger.on shelf)[n]? = some request) (hopen : request.item ∉ done) {c : SpaceId}
    (hc : c ∈ ids) (hitem : request.item = .space c) {ws1 : Workspace} (hf1 : Frame [c] [] ws ws1)
    (hclosed : ws1.Closed ids) (hsteady : ws.Steady ws1)
    (hrun : id.placeRequest shelf request (some (ws1.widthOf (.space c))) ws1 = .ok request' ws') :
    ws'.OnceMarked id s shelf n request' fun w =>
      Leads ws w ids id s (done ++ [request.item]) request.item.inner?.toList := by
  have hne : id ≠ c := fun he => h.outside (he ▸ hc)
  have hspace1 : ws1.space? id = some s := by
    rw [hf1.spaces id (by simpa using hne)]
    exact h.space
  obtain ⟨aw, base, haw, hadd, hnew, -⟩ := placeRequest_single_ok hshelf
    (h.pending shelf request (mem_of_getElem? hold) hopen) hrun
  obtain rfl := Option.some.inj haw
  rw [hitem] at hadd
  obtain ⟨s1, r, hs1, hr, hs', hf2, hclosed'⟩ := addNow_settled hclosed hc h.outside
    (fun q hq => mem_unique hspace1 hq ▸ h.unresolved) hadd
  obtain rfl := mem_unique hspace1 hs1
  have hf : Frame (id :: ids) [] ws ws' :=
    (hf1.mono_ids (cons_subset.mpr ⟨mem_cons_of_mem _ hc, nil_subset _⟩)).trans hf2
  obtain ⟨w, hw, hgain⟩ := Region.place_eq_ok hr
  refine ⟨r.sorted, hs', h.step hf hclosed' (h.nonneg.of_leaves fun x => hf.leaves x not_mem_nil)
    hs' hold hnew (hitem ▸ (h.tiled.receives hr).1) (fun slot hslot c' he hc' => ?_)
    (hitem ▸ .steady_left hsteady (addNow_seats hadd))⟩
  obtain rfl : c = c' := Occupant.space.inj (hitem.symm.trans hc')
  rcases mem_cons.mp (hgain.sorted.taken.mem_iff.mp hslot) with rfl | hslot
  · exact ⟨w, (hclosed.widthOf_eq hclosed' hf2 hc).trans hw, rfl⟩
  · rw [h.closed.widthOf_eq hclosed' hf hc]
    exact h.sized slot hslot c (he.trans hc')

theorem visit (hold : (s.ledger.on shelf)[n]? = some request)
    (hopen : request.item.inner? = none ∨ request.item ∉ done) {fuel : Nat} {width : Option Int}
    {ws1 ws2 : Workspace} {u : Unit}
    (hsettle : settleUpTo fuel request.item request.width ws = .ok width ws1)
    (hplace : id.placeRequest shelf request width ws1 = .ok request' ws2)
    (hmark : id.updateLedger (fun l => l.put shelf ((l.on shelf).set n request')) ws2 = .ok u ws') :
    Leads ws ws' ids id s (done ++ [request.item]) request.item.inner?.toList := by
  refine OnceMarked.apply (s := s) (P := fun w => Leads ws w ids id s _ _) ?_ hmark
  rcases h.known _ (AddressSpace.mem_queue h.keepouts hold) with hleaf | ⟨c, hc, hitem⟩
  · obtain ⟨l, hl⟩ := exists_leaf_of_settleUpTo hleaf hsettle
    obtain ⟨rfl, rfl⟩ := settleUpTo_leaf_ok hl hsettle
    exact h.pack_leaf hold hl hplace
  · rw [hitem] at hsettle
    obtain ⟨hf, hclosed, hsteady, rfl⟩ := settleUpTo_settled h.closed hc hsettle
    rcases AddressSpace.shelf_cases h.keepouts hold with ⟨hshelf, -⟩ | ⟨hshelf, -⟩
    · exact h.pack_inner hshelf hold (hopen.resolve_left (by rw [hitem]; nofun)) hc hitem hf hclosed
        hsteady hplace
    · -- a space has no copies
      replace hplace : id.placeLoop request (some (ws1.widthOf (.space c))) ws1 = .ok request' ws2 := by
        rcases hshelf with rfl | rfl <;> exact hplace
      obtain ⟨_, _, _, _, _, _, -, hmore, -⟩ := placeLoop_ok hplace
      rw [hitem] at hmore
      cases hmore

end

theorem Leads.fillable (fuel : Nat) (ws : Workspace) (ids : List SpaceId) (id : SpaceId)
    (s : AddressSpace) (hn : s.guests.Nodup) :
    Fillable SpaceKind.bus.passes fuel id s.items s.queue fun done w =>
      Leads ws w ids id s done (done.filterMap Occupant.inner?) where
  space h := by
    obtain ⟨s', hs', hitems⟩ := h.packing
    exact ⟨s', hs'.space, hitems, hs'.passes⟩
  visit {done} _ _ _ _ _ _ _ request _ _ _ h hs hold hnext hsettle hplace hmark := by
    obtain ⟨s', hs', hitems⟩ := h.packing
    obtain rfl := mem_unique hs hs'.space
    -- a space that was placed does not come again
    have hnew := hn.sublist (hnext.sublist.filterMap Occupant.inner?)
    rw [filterMap_append, nodup_append'] at hnew
    have hlead := hs'.visit hold (Classical.or_iff_not_imp_left.mpr fun hi hm => ?_) hsettle hplace hmark
    · obtain ⟨s'', hs'', hitems'⟩ := hlead.packing
      obtain ⟨xs, hf⟩ := h.frame
      obtain ⟨ys, hf'⟩ := hlead.frame
      refine ⟨⟨s'', hs'', hitems'.trans hitems⟩, ⟨xs ++ ys, ?_⟩, ?_⟩
      · exact (hf.mono_leaves (subset_append_left _ _)).trans
          (hf'.mono_leaves (subset_append_right _ _))
      · rw [filterMap_append]
        have hone : [request.item].filterMap Occupant.inner? = request.item.inner?.toList := by
          cases hi : request.item.inner? <;> simp [hi]
        rw [hone] at hnew ⊢
        exact h.seats.trans hlead.seats hnew.2.2
    · obtain ⟨c, hc⟩ := ne_none_iff_exists'.mp hi
      exact hnew.2.2 (mem_filterMap.mpr ⟨_, hm, hc⟩) (mem_filterMap.mpr ⟨_, mem_cons_self, hc⟩)

end Packing

end Workspace

theorem AddressSpace.Waiting.packing {ws : Workspace} {ids : List SpaceId} {id : SpaceId}
    {s : AddressSpace} (h : s.Waiting ids) (hs : ws.space? id = some s) (hc : ws.Closed ids)
    (hid : id ∉ ids) (ha : ws.policy.alignedLoops = true) (hn : ws.Nonneg) :
    ws.Packing ids id s [] where
  toGranting := h.opened.granting
  space := hs
  known := h.known
  asked := by
    rw [h.opened.fresh.taken]
    simp
  sized := by
    rw [h.opened.fresh.taken]
    simp
  closed := hc
  outside := hid
  aligned := ha
  nonneg := hn

namespace SpaceId

open Workspace

variable {ws ws' ws1 : Workspace} {ids : List SpaceId} {id : SpaceId} {s : AddressSpace} {u v : Unit}

/-- A space whose inner spaces are settled is packed when it is resolved and shrunk. -/
theorem settle_packed (hw : s.Waiting ids) (hs : ws.space? id = some s) (hc : ws.Closed ids)
    (hid : id ∉ ids) (ha : ws.policy.alignedLoops = true) (hn : ws.Nonneg)
    (hres : id.resolve ws = .ok u ws1) (hshrink : id.shrink ws1 = .ok v ws') :
    (∃ xs, Frame (id :: ids) xs ws ws') ∧ ws'.Closed (id :: ids) ∧ ws'.Nonneg ∧
      ws.Seats id s.guests ws' := by
  have h := hw.packing hs hc hid ha hn
  obtain ⟨ws2, s2, hleads, hs2, rfl⟩ := resolveUpTo_fills
    (fun k _ => Packing.Leads.fillable k ws ids id s hw.nodup) rfl
    ⟨⟨s, h, rfl⟩, ⟨[], Frame.refl _ _ _⟩, .of_steady (Std.Refl.refl ws)⟩ hs h.unresolved
    hw.opened.passCount hres
  obtain ⟨s2', hpack, hitems⟩ := hleads.packing
  obtain rfl := mem_unique hs2 hpack.space
  -- the space is marked
  have hitems1 : ({ s2 with ledger := { s2.ledger with resolved := true } } : AddressSpace).items =
      s2.items := by
    funext shelf
    cases shelf <;> rfl
  have hf1 := Frame.setSpace hs2 hitems1 rfl fun hr => absurd hr (by rw [hpack.unresolved]; decide)
  have hsteady1 : ws2.Steady
      (ws2.setSpace id { s2 with ledger := { s2.ledger with resolved := true } }) :=
    .setSpace_perm hs2 rfl (List.Perm.refl _)
  -- and shrunk
  have hs3 := space?_setSpace_self hs2 { s2 with ledger := { s2.ledger with resolved := true } }
  obtain ⟨r, rfl, htaken, hsettled, hf2, hsteady⟩ := shrinkUpTo_resolved hs3 hpack.kind rfl
    (hpack.tiled.spaced (by norm_num) hpack.aw)
    (by rw [AddressSpace.queue_congr hitems1]; exact hpack.asked) hshrink
  have hspace := space?_setSpace_self hs3
    { s2 with ledger := { s2.ledger with resolved := true }, region := r }
  have hf3 := hf1.trans hf2
  have hclosed := hpack.closed.frame hf3 (by rw [disjoint_singleton]; exact h.outside)
  have hinner : ∀ slot ∈ r.taken, ∀ c, slot.item = .space c → c ∈ ids := fun slot hslot c hc =>
    hpack.inner (hc ▸ hpack.asked slot (htaken.mem_iff.mp hslot))
  obtain ⟨xs, hf⟩ := hleads.frame
  refine ⟨⟨xs, hf.trans (hf3.mono (by simp) (nil_subset _))⟩, ⟨?_, ?_, ?_⟩,
    hpack.nonneg, hleads.seats.steady_right (hsteady1.trans hsteady)⟩
  · rintro j (_ | ⟨_, hj⟩)
    · exact ⟨_, hspace, hsettled⟩
    · exact hclosed.settled j hj
  · rintro j (_ | ⟨_, hj⟩) t ht slot hslot c hc
    · obtain rfl := mem_unique hspace ht
      exact mem_cons_of_mem _ (hinner slot hslot c hc)
    · exact mem_cons_of_mem _ (hclosed.inner j hj t ht slot hslot c hc)
  · rintro j (_ | ⟨_, hj⟩) slot c hslot
    · obtain ⟨hm, hc⟩ := (contains_iff hspace).mp hslot
      rw [hpack.closed.widthOf_eq hclosed hf3 (hinner slot hm c hc)]
      exact hpack.sized slot (htaken.mem_iff.mp hm) c hc
    · exact hclosed.sized j hj slot c hslot

end SpaceId

end RegisterMap
