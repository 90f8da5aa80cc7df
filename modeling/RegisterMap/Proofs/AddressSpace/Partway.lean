import RegisterMap.Proofs.AddressSpace.Passes
import RegisterMap.Proofs.AddressSpace.Placement

/-! # A space while its requests are placed

A space starts with all requests open (`AddressSpace.Open`).  Its items are then placed one after the
other (`Workspace.Partway`): a leaf alone, or the copies of a loop side by side in one block. -/

namespace RegisterMap

open Build List

variable {s : AddressSpace}

namespace AddressSpace

/-- A space over the default range, none of whose requests is placed. -/
structure Open (s : AddressSpace) : Prop where
  kind : s.kind = .bus
  passes : s.ledger.passes = SpaceKind.bus.passes
  passCount : s.ledger.passCount = SpaceKind.bus.passes.length
  unresolved : s.ledger.resolved = false
  keepouts : s.ledger.keepouts = []
  pending : ∀ shelf, ∀ r ∈ s.ledger.on shelf, r.placed = false
  fresh : s.region.Fresh 24

theorem Open.stage {s : AddressSpace} (h : s.Open) {shelf : Shelf} (hshelf : shelf ≠ .keepouts)
    {request : Staged} (hp : request.placed = false) :
    ({ s with ledger := s.ledger.stage shelf request } : AddressSpace).Open where
  kind := h.kind
  passes := by cases shelf <;> exact h.passes
  passCount := by cases shelf <;> exact h.passCount
  unresolved := rfl
  keepouts := by
    cases shelf with
    | keepouts => exact absurd rfl hshelf
    | _ => exact h.keepouts
  pending shelf' r hr := by
    have hr' : r ∈ (s.ledger.put shelf (s.ledger.on shelf ++ [request])).on shelf' := by
      cases shelf' <;> exact hr
    rw [Ledger.on_put] at hr'
    split at hr'
    · rcases mem_append.mp hr' with hr' | hr'
      · exact h.pending _ r hr'
      · rwa [mem_singleton.mp hr']
    · exact h.pending shelf' r hr'
  fresh := h.fresh

end AddressSpace

def AddressSpace.mark (s : AddressSpace) (shelf : Shelf) (n : Nat) (request : Staged) :
    AddressSpace :=
  { s with ledger := s.ledger.put shelf ((s.ledger.on shelf).set n request) }

/-- A space over the default range, where no request is granted but for items in `done`. -/
structure AddressSpace.Granting (s : AddressSpace) (done : List Occupant) : Prop where
  kind : s.kind = .bus
  passes : s.ledger.passes = SpaceKind.bus.passes
  unresolved : s.ledger.resolved = false
  keepouts : s.ledger.keepouts = []
  pending : ∀ shelf, ∀ r ∈ s.ledger.on shelf, r.item ∉ done → r.placed = false
  aw : s.region.aw = (24 : Nat)
  tiled : s.region.Tiled 24

theorem AddressSpace.Open.granting (h : s.Open) : s.Granting [] where
  kind := h.kind
  passes := h.passes
  unresolved := h.unresolved
  keepouts := h.keepouts
  pending shelf r hr _ := h.pending shelf r hr
  aw := h.fresh.aw
  tiled := h.fresh.tiled

theorem AddressSpace.Granting.mark {done : List Occupant} (h : s.Granting done) {r : Region Occupant}
    (haw : r.aw = s.region.aw) (htiled : r.Tiled 24) {shelf : Shelf} {n : Nat} {x : Occupant}
    {request : Staged} (hitem : request.item = x) :
    (({ s with region := r } : AddressSpace).mark shelf n request).Granting (done ++ [x]) where
  kind := h.kind
  passes := (Ledger.put_passes _ _ _).trans h.passes
  unresolved := (Ledger.put_resolved _ _ _).trans h.unresolved
  keepouts := Ledger.keepouts_put_set h.keepouts shelf n request
  pending shelf' q hq hnd := by
    rw [mem_append, mem_singleton, not_or] at hnd
    rcases Ledger.mem_put_set hq with hq | ⟨-, rfl⟩
    · exact h.pending _ q hq hnd.1
    · exact absurd hitem hnd.2
  aw := haw.trans h.aw
  tiled := htiled

/-- Only the region of the space `s` was changed, and `P` holds once the request is marked. -/
def Workspace.OnceMarked (ws : Workspace) (id : SpaceId) (s : AddressSpace) (shelf : Shelf) (n : Nat)
    (request : Staged) (P : Workspace → Prop) : Prop :=
  ∃ r, ws.space? id = some { s with region := r } ∧
    P (ws.setSpace id (({ s with region := r } : AddressSpace).mark shelf n request))

theorem Workspace.OnceMarked.apply {ws ws' : Workspace} {id : SpaceId} {shelf : Shelf} {n : Nat}
    {request : Staged} {P : Workspace → Prop} (h : ws.OnceMarked id s shelf n request P) {u : Unit}
    (hmark : id.updateLedger (fun l => l.put shelf ((l.on shelf).set n request)) ws = .ok u ws') :
    P ws' := by
  obtain ⟨r, hs, hp⟩ := h
  obtain ⟨s', hs', rfl⟩ := SpaceId.update_ok hmark
  obtain rfl := Option.mem_unique hs hs'
  exact hp

theorem AddressSpace.items_mark {shelf : Shelf} {n : Nat} {old new : Staged}
    (hold : (s.ledger.on shelf)[n]? = some old) (hitem : new.item = old.item) :
    (s.mark shelf n new).items = s.items :=
  funext (Ledger.map_item_set hold hitem)

theorem AddressSpace.wanted_mark {shelf : Shelf} {n : Nat} {old new : Staged}
    (hold : (s.ledger.on shelf)[n]? = some old) (hitem : new.item = old.item)
    (haddr : shelf = .explicits → new.addr = old.addr) (x : Occupant) :
    (s.mark shelf n new).wanted x = s.wanted x := by
  unfold AddressSpace.wanted AddressSpace.mark
  dsimp only
  rw [Ledger.on_put]
  split
  · rename_i he
    subst he
    obtain ⟨hn, rfl⟩ := List.getElem?_eq_some_iff.mp hold
    rw [map_set, hitem, haddr rfl, ← map_set (f := fun r : Staged => (r.item, r.addr)),
      set_getElem_self hn]
  · rfl

/-! ### Requests -/

theorem Number.mul_two_pow_le {aw : Int} {count w : Nat}
    (haw : count ≠ 1 → 0 ≤ aw) (hw : aw + ceilLog2 count = w) (hw47 : w ≤ 47) :
    0 ≤ aw ∧ (count : Int) * 2 ^ aw.toNat ≤ 2 ^ w := by
  have hpos : 0 ≤ aw := by
    by_cases h1 : count = 1
    · have hone : ceilLog2 1 = 0 := by decide
      rw [h1, hone] at hw
      omega
    · exact haw h1
  refine ⟨hpos, ?_⟩
  have hle : count ≤ 2 ^ ceilLog2 count := le_two_pow_ceilLog2 (by omega)
  calc (count : Int) * 2 ^ aw.toNat ≤ 2 ^ ceilLog2 count * 2 ^ aw.toNat := by
        have : (0 : Int) < 2 ^ aw.toNat := two_pow_pos _
        exact Int.mul_le_mul_of_nonneg_right (by exact_mod_cast hle) this.le
    _ = 2 ^ w := by
        rw [← pow_add]
        congr 1
        omega

namespace SpaceId

variable {ws ws' : Workspace} {id : SpaceId} {shelf : Shelf} {request request' : Staged}
  {width : Option Int} {fuel : Nat} {item : Occupant}

theorem knownWidth_ok {aw : Int} (h : knownWidth width ws = .ok aw ws') :
    width = some aw ∧ ws' = ws := by
  cases width with
  | none => cases h
  | some w =>
    obtain ⟨rfl, rfl⟩ := pure_ok h
    exact ⟨rfl, rfl⟩

theorem placeRequest_single_ok (hshelf : shelf = .explicits ∨ shelf = .entries)
    (hopen : request.placed = false) (h : id.placeRequest shelf request width ws = .ok request' ws') :
    ∃ aw base, width = some aw ∧
      id.addNow aw request.item (if shelf = .explicits then request.addr else none) ws =
        .ok base ws' ∧
      request'.item = request.item ∧ (shelf = .explicits → request'.addr = request.addr) ∧
      request'.placed = true := by
  rcases hshelf with rfl | rfl
  all_goals
    unfold placeRequest at h
    obtain ⟨_, hname, h1⟩ := (Occupant.readOnly_requireName _).bind_ok h
    rw [hopen] at h1
    obtain ⟨aw, ws2, haw, h2⟩ := bind_ok h1
    obtain ⟨hwidth, rfl⟩ := knownWidth_ok haw
    obtain ⟨base, hadd, rfl⟩ := bind_pure_ok h2
    exact ⟨aw, base, hwidth, hadd, rfl, by simp, rfl⟩

theorem placeRequest_placed_ok (hshelf : shelf = .explicits ∨ shelf = .entries)
    (hplaced : request.placed = true) (h : id.placeRequest shelf request width ws = .ok request' ws') :
    request' = request ∧ ws' = ws := by
  rcases hshelf with rfl | rfl
  all_goals
    unfold placeRequest at h
    obtain ⟨_, hname, h1⟩ := (Occupant.readOnly_requireName _).bind_ok h
    rw [hplaced] at h1
    exact pure_ok h1

/-- Placing an item in a loop: the width of all copies is noted, the length is looked up, and the
copies are placed unless they were. -/
theorem placeLoop_ok (h : id.placeLoop request width ws = .ok request' ws') :
    ∃ aw more b block length ws1, width = some aw ∧
      Number.bitWidth (((ws.copiesOf request.item).length : Int) - 1) = .ok more ∧
      Frame [] [] ws ws1 ∧ request.item.block? ws1 = .ok (some b) ws1 ∧
      ws1.blocks[b.index]? = some block ∧ block.loop.bind Loop.length = some length ∧
      ((request.placed = true ∧ request' = request ∧ ws' = ws1) ∨
        request.placed = false ∧ ∃ base, request' = ⟨request.item, base, some aw, true⟩ ∧
          (if ws.policy.alignedLoops then
            some <$> id.placeAligned request.item aw (aw + more) (ws.copiesOf request.item)
          else id.placeSpaced aw length request.addr (ws.copiesOf request.item)) ws1 = .ok base ws') := by
  unfold placeLoop at h
  obtain ⟨name, -, h1⟩ := (Occupant.readOnly_requireName _).bind_ok h
  obtain ⟨copies, ws2, hcopies, h2⟩ := bind_ok h1
  obtain ⟨rfl, rfl⟩ := Occupant.copies_ok hcopies
  obtain ⟨aw, ws3, haw, h3⟩ := bind_ok h2
  obtain ⟨hwidth, rfl⟩ := knownWidth_ok haw
  obtain ⟨more, hmore, h4⟩ := bind_lift_ok h3
  obtain ⟨_, ws5, hset, h5⟩ := bind_ok h4
  have hf := Occupant.setBlockAw_ok hset
  obtain ⟨block?, hblock, h6⟩ := (Occupant.readOnly_block? _).bind_ok h5
  obtain ⟨b, rfl, h7⟩ := bind_entryOf_ok h6
  obtain ⟨block, hget, h8⟩ := bind_entryOf_ok h7
  cases hlen : block.loop.bind Loop.length with
  | none =>
    rw [hlen] at h8
    cases h8
  | some length =>
    rw [hlen] at h8
    refine ⟨aw, more, b, block, length, _, hwidth, hmore, hf, hblock, hget, hlen, ?_⟩
    dsimp only at h8
    split at h8
    · rename_i hplaced
      obtain ⟨rfl, rfl⟩ := pure_ok h8
      exact .inl ⟨hplaced, rfl, rfl⟩
    · rename_i hopen
      have h9 := Build.bind_get_ok h8
      rw [hf.policy] at h9
      refine .inr ⟨by simpa using hopen, ?_⟩
      split <;> rename_i ha
      · rw [if_pos ha] at h9
        obtain ⟨base, hplace, rfl⟩ := bind_pure_ok h9
        exact ⟨base, rfl, hplace⟩
      · rw [if_neg ha] at h9
        obtain ⟨base, hplace, rfl⟩ := bind_pure_ok h9
        exact ⟨base, rfl, hplace⟩

theorem placeRequest_loop_ok (hshelf : shelf = .loops ∨ shelf = .explicitLoops)
    (hopen : request.placed = false) (ha : ws.policy.alignedLoops = true)
    (h : id.placeRequest shelf request width ws = .ok request' ws') :
    ∃ aw more base ws1, width = some aw ∧
      Number.bitWidth (((ws.copiesOf request.item).length : Int) - 1) = .ok more ∧
      Frame [] [] ws ws1 ∧
      id.placeAligned request.item aw (aw + more) (ws.copiesOf request.item) ws1 = .ok base ws' ∧
      request'.item = request.item := by
  replace h : id.placeLoop request width ws = .ok request' ws' := by
    rcases hshelf with rfl | rfl <;> exact h
  obtain ⟨aw, more, -, -, length, ws1, hwidth, hmore, hf, -, -, -, ⟨hplaced, -⟩ | ⟨-, base, rfl, hplace⟩⟩ :=
    placeLoop_ok h
  · rw [hopen] at hplaced
    cases hplaced
  · rw [ha] at hplace
    obtain ⟨base', hplace', -⟩ := map_ok hplace
    exact ⟨aw, more, base', ws1, hwidth, hmore, hf, hplace', rfl⟩

/-- Copies side by side: each one has the address of its place in the block. -/
theorem placeAligned_ok {aw blockAw base : Int} {copies : List Occupant}
    (hhead : copies.head? = some item) (hn : copies.Nodup)
    (hcopies : ∀ y ∈ copies, ∃ l, ws.leaf? y = some l)
    (hopen : ∀ s, ws.space? id = some s → s.ledger.resolved = false)
    (h : id.placeAligned item aw blockAw copies ws = .ok base ws') :
    ∃ s r, ws.space? id = some s ∧
      s.region.place Occupant.isSome blockAw item none .item = (r, .ok base) ∧
      ws'.space? id = some { s with region := r.sorted } ∧ Frame [id] copies ws ws' ∧
      ∀ (n : Nat) y, copies[n]? = some y → (n ≠ 0 → 0 ≤ aw) ∧ ∃ l, ws.leaf? y = some l ∧
        ws'.leaf? y = some { l with base := some (base + n * 2 ^ aw.toNat) } := by
  unfold placeAligned at h
  obtain ⟨base', ws1, hadd, h1⟩ := bind_ok h
  obtain ⟨_, ws2, hloop, h2⟩ := bind_ok h1
  obtain ⟨rfl, rfl⟩ := pure_ok h2
  obtain ⟨l, hl⟩ := hcopies item (mem_of_head? hhead)
  obtain ⟨s, r, hs, hr, hretold⟩ := addNow_leaf_ok hl hadd
  have hf0 : Frame [id] [] ws (ws.setSpace id { s with region := r.sorted }) :=
    Frame.setSpace hs rfl rfl fun hres => absurd hres (by rw [hopen s hs]; decide)
  have hf1 : Frame [id] copies ws ws1 := by
    refine (hf0.mono_leaves (nil_subset _)).trans (hretold.frame.mono (nil_subset _) ?_)
    exact cons_subset.mpr ⟨mem_of_head? hhead, nil_subset _⟩
  have hend : Frame [] copies ws1 ws' ∧ ∀ p ∈ copies.zipIdx, (p.2 ≠ 0 → 0 ≤ aw) ∧ ∃ l,
      ws.leaf? p.1 = some l ∧ ws'.leaf? p.1 = some { l with base := some (base + p.2 * 2 ^ aw.toNat) } := by
    have := forIn_ok hloop (fun finished w => Frame [] copies ws1 w ∧
      (∀ x, x ∉ finished.map Prod.fst → w.leaf? x = ws1.leaf? x) ∧
      ∀ p ∈ finished, (p.2 ≠ 0 → 0 ≤ aw) ∧ ∃ l, ws.leaf? p.1 = some l ∧
        w.leaf? p.1 = some { l with base := some (base + p.2 * 2 ^ aw.toNat) })
      ⟨Frame.refl _ _ _, fun _ _ => rfl, by simp⟩ ?_
    · exact ⟨this.1, this.2.2⟩
    rintro finished ⟨y, n⟩ rest hsplit w w1 step ⟨hf, hrest, hdone⟩ hrun
    have hy : copies[n]? = some y := by
      refine mk_mem_zipIdx_iff_getElem?.mp ?_
      rw [hsplit]
      exact mem_append_right _ mem_cons_self
    have hynew : y ∉ finished.map Prod.fst := by
      have hmap : copies = finished.map Prod.fst ++ y :: rest.map Prod.fst := by
        rw [← zipIdx_map_fst 0 copies, hsplit, map_append, map_cons]
      rw [hmap] at hn
      exact fun hm => (nodup_append.mp hn).2.2 y hm y mem_cons_self rfl
    by_cases hn0 : n = 0
    · subst hn0
      obtain ⟨rfl, rfl⟩ := pure_ok hrun
      refine ⟨rfl, hf, fun x hx => hrest x fun hm => hx ?_, fun p hp => ?_⟩
      · rw [map_append]
        exact mem_append_left _ hm
      · rcases mem_append.mp hp with hp | hp
        · exact hdone p hp
        · obtain rfl : y = item := by
            rw [head?_eq_getElem?, hy] at hhead
            exact Option.some.inj hhead
          rw [mem_singleton.mp hp, hrest y hynew, hretold.leaves, if_pos rfl]
          exact ⟨by simp, l, hl, by simp⟩
    · simp only [ne_eq, hn0, not_false_eq_true, if_true] at hrun
      obtain ⟨size, w2, hsize, hrun2⟩ := bind_ok hrun
      obtain ⟨hpow, rfl⟩ := lift_ok hsize
      obtain ⟨hpos, rfl⟩ := Number.powerOfTwo_eq_ok hpow
      obtain ⟨_, w3, hset, hrun3⟩ := bind_ok hrun2
      obtain ⟨rfl, rfl⟩ := pure_ok hrun3
      obtain ⟨ly, hly⟩ := hcopies y (mem_of_getElem? hy)
      have hne : y ≠ item := by
        rintro rfl
        have h0 : copies[0]? = some y := by rwa [head?_eq_getElem?] at hhead
        exact hn0 ((List.getElem?_inj (List.getElem?_eq_some_iff.mp hy).1 hn).mp (hy.trans h0.symm))
      have hly1 : w2.leaf? y = some ly := by
        rw [hrest y hynew, hretold.leaves, if_neg hne]
        exact hly
      have hret := Occupant.setBase_ok hly1 hset
      refine ⟨rfl, hf.trans (hret.frame.mono_leaves ?_), fun x hx => ?_, fun p hp => ?_⟩
      · exact cons_subset.mpr ⟨mem_of_getElem? hy, nil_subset _⟩
      · rw [map_append, mem_append, not_or] at hx
        rw [hret.leaves, if_neg (by simpa using hx.2)]
        exact hrest x hx.1
      · rw [hret.leaves]
        rcases mem_append.mp hp with hp | hp
        · rw [if_neg fun he : p.1 = y => hynew (he ▸ mem_map_of_mem hp)]
          exact hdone p hp
        · rw [mem_singleton.mp hp, if_pos rfl]
          exact ⟨fun _ => hpos, ly, hly, rfl⟩
  obtain ⟨hf2, hall⟩ := hend
  refine ⟨s, r, hs, hr, ?_, hf1.trans (hf2.mono_ids (nil_subset _)), ?_⟩
  · rw [hf2.spaces id (by simp), hretold.spaces, Workspace.space?_setSpace_self hs]
  · exact fun n y hy => hall (y, n) (mk_mem_zipIdx_iff_getElem?.mpr hy)

theorem exists_leaf_of_settleUpTo (hi : item.isLeaf = true) {width' : Option Int}
    (h : settleUpTo fuel item width ws = .ok width' ws') : ∃ l, ws.leaf? item = some l := by
  cases fuel with
  | zero => cases h
  | succ fuel =>
    unfold settleUpTo at h
    cases item with
    | register id | passenger id => exact Occupant.exists_leaf_of_declaredWidth hi h
    | _ => cases hi

theorem settleUpTo_leaf_ok {l : Leaf} (hl : ws.leaf? item = some l)
    {width' : Option Int} (h : settleUpTo fuel item width ws = .ok width' ws') :
    ws' = ws ∧ width' = some l.aw := by
  cases fuel with
  | zero => cases h
  | succ fuel =>
    unfold settleUpTo at h
    cases item with
    | register id | passenger id => exact Occupant.declaredWidth_ok hl h
    | _ => cases hl

end SpaceId

/-! ### One more item -/

namespace Workspace

/-- No item is staged twice in a space if no leaf and no inner space is. -/
theorem items_nodup_of_members {ws : Workspace} {s : AddressSpace} (h : (ws.members s).Nodup)
    (hinner : (s.singles.filterMap Occupant.inner?).Nodup)
    (hhead : ∀ x ∈ s.looped, x ∈ ws.copiesOf x ∧ x.inner? = none) : (s.singles ++ s.looped).Nodup := by
  obtain ⟨hleaves, hcopies, hdisj⟩ := nodup_append.mp h
  refine nodup_append.mpr ⟨?_, ?_, ?_⟩
  · -- a space is in the list of spaces, anything else in that of leaves
    have hboth := (pairwise_filterMap.mp hinner).and (pairwise_filter.mp hleaves)
    refine hboth.imp ?_
    rintro a b ⟨hspace, hleaf⟩ rfl
    cases hi : a.inner? with
    | none => exact hleaf (by rw [hi]; rfl) (by rw [hi]; rfl) rfl
    | some c => exact hspace c hi c hi rfl
  · refine (nodup_flatMap.mp hcopies).2.imp_of_mem ?_
    rintro a b ha hb hd rfl
    exact hd (hhead a ha).1 (hhead a ha).1
  · rintro a ha b hb rfl
    refine hdisj a ?_ a (mem_flatMap.mpr ⟨a, hb, (hhead a hb).1⟩) rfl
    exact mem_filter.mpr ⟨ha, by rw [(hhead a hb).2]; rfl⟩

/-- Of the items of a space those in `done` are placed in turn, and no other request is granted. -/
structure Partway (ws : Workspace) (id : SpaceId) (s : AddressSpace) (done : List Occupant) : Prop
    extends s.Granting done where
  space : ws.space? id = some s
  nodup : (s.singles ++ s.looped).Nodup
  base : s.region.base = 0
  relativeBase : s.region.relativeBase = 0
  staged : done ⊆ s.singles ++ s.looped
  packs : s.PacksInto (s.needs ws) done s.region

end Workspace

theorem AddressSpace.Open.partway {ws : Workspace} {id : SpaceId} (h : s.Open)
    (hs : ws.space? id = some s) (hn : (s.singles ++ s.looped).Nodup) : ws.Partway id s [] where
  toGranting := h.granting
  space := hs
  nodup := hn
  base := h.fresh.base
  relativeBase := h.fresh.relativeBase
  staged := nil_subset _
  packs := ⟨s.region, h.fresh, rfl⟩

namespace Workspace.Partway

open SpaceId

variable {ws ws' : Workspace} {id : SpaceId} {s : AddressSpace} {done : List Occupant} {shelf : Shelf}
  {n : Nat} {request request' : Staged}

section

variable (h : ws.Partway id s done)

include h

theorem mem_done {slot : Slot Occupant} (hslot : slot ∈ s.region.taken) :
    slot.item ∈ done :=
  h.packs.items.mem_iff.mp (mem_map_of_mem hslot)

theorem not_looped {x : Occupant} (hx : x ∈ s.singles) : x ∉ s.looped :=
  fun hl => (nodup_append.mp h.nodup).2.2 x hx x hl rfl

theorem step {ids : List SpaceId} {ys : List Occupant} (hf : Frame ids ys ws ws') {r : Region Occupant}
    (hs' : ws'.space? id = some { s with region := r.sorted })
    (hold : (s.ledger.on shelf)[n]? = some request) (hnew : request'.item = request.item)
    (haddr : shelf = .explicits → request'.addr = request.addr)
    (hstaged : request.item ∈ s.singles ++ s.looped) {base : Int}
    (hplace : s.region.place Occupant.isSome (s.needs ws' request.item) request.item
      (s.wanted request.item) .item = (r, .ok base))
    (hwidth : ∀ c, .space c ∈ done → ws'.widthOf (.space c) = ws.widthOf (.space c))
    (hroot : ∀ c, .space c ∈ s.singles ++ s.looped → c ≠ id) :
    let s' := ({ s with region := r.sorted } : AddressSpace).mark shelf n request'
    (ws'.setSpace id s').Partway id s' (done ++ [request.item]) ∧
      Frame [id] [] ws' (ws'.setSpace id s') ∧ s'.items = s.items ∧ s'.wanted = s.wanted ∧
      ∃ w : Nat, s.needs ws' request.item = w ∧ w ≤ 24 ∧
        s.region.Gains r.sorted ⟨base, base + 2 ^ w, request.item⟩ := by
  intro s'
  obtain ⟨w, hw, hgain⟩ := Region.place_eq_ok hplace
  replace hgain := hgain.sorted
  have htiled : r.sorted.Tiled 24 := by
    have := h.tiled.place (by norm_num) Occupant.isSome (s.needs ws' request.item) request.item
      (s.wanted request.item) (.inl rfl)
    rw [hplace] at this
    exact this.sorted
  have hw24 : w ≤ 24 := by
    obtain ⟨h0, htop⟩ := htiled.slot_bounds (hgain.taken.mem_iff.mpr mem_cons_self)
    have hle : (2 : Int) ^ w ≤ 2 ^ 24 := by
      dsimp only at h0 htop
      omega
    exact (pow_le_pow_iff_right₀ (by norm_num)).mp hle
  have hitems : s'.items = s.items :=
    AddressSpace.items_mark (s := { s with region := r.sorted }) hold hnew
  have hwanted : s'.wanted = s.wanted := funext
    (AddressSpace.wanted_mark (s := { s with region := r.sorted }) hold hnew haddr)
  have hun : s.ledger.resolved ≠ true := by rw [h.unresolved]; decide
  have hmark : Frame [id] [] ws' (ws'.setSpace id s') :=
    Frame.setSpace hs' hitems rfl fun hr => absurd hr hun
  have hmarked : ∀ c, .space c ∈ s.singles ++ s.looped →
      (ws'.setSpace id s').widthOf (.space c) = ws'.widthOf (.space c) := fun c hc =>
    widthOf_congr (hmark.spaces c (by simpa using hroot c hc))
  have hsub : done ++ [request.item] ⊆ s.singles ++ s.looped :=
    append_subset.mpr ⟨h.staged, cons_subset.mpr ⟨hstaged, nil_subset _⟩⟩
  refine ⟨
    { toGranting := h.mark hgain.aw htiled hnew
      space := Workspace.space?_setSpace_self hs' s'
      nodup := ?_
      base := hgain.base.trans h.base
      relativeBase := hgain.relativeBase.trans h.relativeBase
      staged := ?_
      packs := ?_ }, hmark, hitems, hwanted, w, hw, hw24, hgain⟩
  · rw [AddressSpace.singles_eq hitems, AddressSpace.looped_eq hitems]
    exact h.nodup
  · rw [AddressSpace.singles_eq hitems, AddressSpace.looped_eq hitems]
    exact hsub
  · -- the old items have their widths still
    have hpacks : s.PacksInto (s.needs ws') done s.region := h.packs.congr rfl fun x hx =>
      AddressSpace.needs_frame rfl hf fun c hc => hwidth c (hc ▸ hx)
    exact (hpacks.concat hplace).congr hwanted fun x hx =>
      AddressSpace.needs_frame (AddressSpace.looped_eq hitems) hmark fun c hc => hmarked c (hc ▸ hsub hx)

theorem wanted_eq (hold : (s.ledger.on shelf)[n]? = some request) :
    s.wanted request.item = if shelf = .explicits then request.addr else none := by
  have hmem : request.item ∈ s.items shelf := mem_map_of_mem (mem_of_getElem? hold)
  have hn := h.nodup
  unfold AddressSpace.singles AddressSpace.looped at hn
  obtain ⟨hsingles, -, hapart⟩ := nodup_append.mp hn
  obtain ⟨hexplicits, -, hentries⟩ := nodup_append.mp hsingles
  split
  · rename_i he
    subst he
    exact AddressSpace.wanted_of_mem hexplicits (mem_of_getElem? hold)
  · rename_i hne
    refine AddressSpace.wanted_of_not_mem fun hm => ?_
    cases shelf with
    | keepouts =>
      rw [show s.ledger.on .keepouts = [] from h.keepouts] at hold
      cases hold
    | explicits => exact hne rfl
    | entries => exact hentries _ hm _ hmem rfl
    | loops =>
      exact hapart _ (mem_append_left _ hm) _ (mem_append_right _ hmem) rfl
    | explicitLoops =>
      exact hapart _ (mem_append_left _ hm) _ (mem_append_left _ hmem) rfl

end

variable (h : ws.Partway id s done) (hold : (s.ledger.on shelf)[n]? = some request)
  (hopen : request.item ∉ done) {l : Leaf} (hl : ws.leaf? request.item = some l)
  (hrun : id.placeRequest shelf request (some l.aw) ws = .ok request' ws')

include h hold hopen hl hrun

theorem place_single (hshelf : shelf = .explicits ∨ shelf = .entries)
    (hsingle : request.item ∈ s.singles) :
    s.needs ws' request.item = l.aw ∧ ∃ r base, s.region.place Occupant.isSome (s.needs ws' request.item)
        request.item (s.wanted request.item) .item = (r, .ok base) ∧
      ws'.space? id = some { s with region := r.sorted } ∧
      Frame [id] [request.item] ws ws' ∧ ws'.leaf? request.item = some { l with base := some base } ∧
      request'.item = request.item ∧ (shelf = .explicits → request'.addr = request.addr) := by
  obtain ⟨aw, base, haw, hadd, hnew, haddr, -⟩ := placeRequest_single_ok hshelf
    (h.pending shelf request (mem_of_getElem? hold) hopen) hrun
  obtain rfl := Option.some.inj haw
  obtain ⟨s1, r, hs1, hr, hretold⟩ := addNow_leaf_ok hl hadd
  obtain rfl := Option.mem_unique h.space hs1
  rw [← h.wanted_eq hold] at hr
  have hf : Frame [id] [] ws (ws.setSpace id { s with region := r.sorted }) :=
    Frame.setSpace h.space rfl rfl fun hres => absurd hres (by rw [h.unresolved]; decide)
  have hneeds : s.needs ws' request.item = l.aw := by
    unfold AddressSpace.needs widthOf
    rw [if_neg (h.not_looped hsingle), inner?_of_leaf? hl, hretold.leaf]
    rfl
  refine ⟨hneeds, r, base, hneeds ▸ hr, ?_, ?_, hretold.leaf, hnew, haddr⟩
  · rw [hretold.spaces, Workspace.space?_setSpace_self h.space]
  · exact hf.andLeaves hretold.frame

/-- The copies of a loop are placed in one block, and each one knows its address. -/
theorem place_loop (hshelf : shelf = .loops ∨ shelf = .explicitLoops)
    (hlooped : request.item ∈ s.looped) (ha : ws.policy.alignedLoops = true)
    (hhead : l.copies.head? = some request.item) (hn : l.copies.Nodup)
    (hcopies : ∀ y ∈ l.copies, ∃ l', ws.leaf? y = some l') :
    s.needs ws' request.item = l.aw + Number.ceilLog2 l.copies.length ∧
    ∃ r base, s.region.place Occupant.isSome (s.needs ws' request.item) request.item
        (s.wanted request.item) .item = (r, .ok base) ∧
      ws'.space? id = some { s with region := r.sorted } ∧ Frame [id] l.copies ws ws' ∧
      (∀ (k : Nat) y, l.copies[k]? = some y → (k ≠ 0 → 0 ≤ l.aw) ∧ ∃ l', ws.leaf? y = some l' ∧
        ws'.leaf? y = some { l' with base := some (base + k * 2 ^ l.aw.toNat) }) ∧
      request'.item = request.item := by
  obtain ⟨aw, more, base, ws1, haw, hmore, hf1, hplace, hnew⟩ := placeRequest_loop_ok hshelf
    (h.pending shelf request (mem_of_getElem? hold) hopen) ha hrun
  obtain rfl := Option.some.inj haw
  rw [copiesOf_eq_of_leaf? hl] at hmore hplace
  have hleaf : ∀ y, ws1.leaf? y = ws.leaf? y := fun y => hf1.leaves y (by simp)
  have hspace : ws1.space? id = some s := (hf1.spaces id (by simp)).trans h.space
  obtain ⟨s1, r, hs1, hr, hs', hf2, hall⟩ := placeAligned_ok hhead hn
    (fun y hy => by rw [hleaf]; exact hcopies y hy)
    (fun q hq => Option.mem_unique hspace hq ▸ h.unresolved) hplace
  obtain rfl := Option.mem_unique hspace hs1
  have hf : Frame [id] l.copies ws ws' :=
    (hf1.mono (nil_subset _) (nil_subset _)).trans hf2
  have hneeds : s.needs ws' request.item = l.aw + Number.ceilLog2 l.copies.length := by
    obtain ⟨l', hl', haw', -⟩ := hf.leaf?_eq_some hl
    unfold AddressSpace.needs blockWidth widthOf
    rw [if_pos hlooped, hf.copiesOf_eq, copiesOf_eq_of_leaf? hl, inner?_of_leaf? hl, hl', ← haw']
    rfl
  have hcount : 0 < l.copies.length := length_pos_of_mem (mem_of_head? hhead)
  unfold Number.bitWidth at hmore
  rw [if_neg (by omega), sub_add_cancel, Int.toNat_natCast] at hmore
  obtain rfl := Except.ok.inj hmore
  refine ⟨hneeds, r, base, ?_, hs', hf, fun k y hy => ?_, hnew⟩
  · rw [hneeds, h.wanted_eq hold, if_neg (by rcases hshelf with rfl | rfl <;> decide)]
    exact hr
  · obtain ⟨hpos, l', hl', hbase⟩ := hall k y hy
    exact ⟨hpos, l', (hleaf y).symm.trans hl', hbase⟩

end Workspace.Partway

end RegisterMap
