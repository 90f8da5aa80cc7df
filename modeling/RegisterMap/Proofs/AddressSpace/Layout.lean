import RegisterMap.Proofs.AddressSpace.Resolve

/-! # Absolute addresses of a resolved tree

In a tree that is laid out and based, everything that is staged in the spaces of the tree stands in a
slot of the root, at its absolute address (`Workspace.Laid.stands`).  Two different leaves stand in two
slots of some space, or they are two copies of one loop, so their ranges have no address in common
(`Workspace.Laid.disjoint`).

The main result is that the resolution of a tree of open spaces leads to such a tree
(`absolute_layout`). -/

namespace RegisterMap

open List Option

namespace Workspace

/-- The tree says which space is staged in which, no space and no leaf is staged twice, and what stands
in a loop is the first of copies of one width. -/
structure Outlines (ws : Workspace) (t : Tree SpaceId) : Prop where
  ids : t.toList.Nodup
  members : (ws.membersIn t).Nodup
  inner : ∀ u ∈ t.subtrees, ∃ s, ws.space? u.data = some s ∧
    (s.singles.filterMap Occupant.inner?).Perm (u.children.map Tree.data)
  single : ∀ u ∈ t.subtrees, ∀ s, ws.space? u.data = some s → ∀ x ∈ s.singles, x.inner? = none →
    ∃ l, ws.leaf? x = some l
  looped : ∀ u ∈ t.subtrees, ∀ s, ws.space? u.data = some s → ∀ x ∈ s.looped,
    ∃ l, ws.leaf? x = some l ∧ l.copies.head? = some x ∧
      ∀ y ∈ l.copies, ∃ l', ws.leaf? y = some l' ∧ l'.aw = l.aw

theorem members_apart {ws : Workspace} {id : SpaceId} {ts : List (Tree SpaceId)}
    (hn : (ws.membersIn (.node id ts)).Nodup) :
    (∀ t ∈ ts, (ws.membersIn t).Nodup) ∧ (ws.membersOf id).Nodup ∧
      (∀ t ∈ ts, (ws.membersIn t).Disjoint (ws.membersOf id)) ∧
      ∀ t ∈ ts, ∀ u ∈ ts, t ≠ u → (ws.membersIn t).Disjoint (ws.membersIn u) := by
  rw [membersIn_node] at hn
  exact Tree.nodup_flatMap_append hn

theorem Outlines.nests {ws : Workspace} {t : Tree SpaceId} (h : ws.Outlines t)
    (ha : ws.policy.alignedLoops = true) : ws.Nests t := by
  have hmembers : ∀ u ∈ t.subtrees, (ws.membersIn u).Nodup := by
    have hn := h.members
    clear h
    induction t using Tree.induct with
    | _ id ts ih =>
      exact Tree.forall_subtrees_node.mpr ⟨hn, fun u hu => ih u hu ((members_apart hn).1 u hu)⟩
  refine ⟨h.ids, fun u hu => ?_, fun u hu v hv => ?_, h.inner, h.single, fun u hu s hs x hx =>
    ⟨ha, h.looped u hu s hs x hx⟩⟩
  · cases u with
    | node id ts => exact (members_apart (hmembers _ hu)).2.1
  · cases u with
    | node id ts => exact (members_apart (hmembers _ hu)).2.2.1 v hv

variable {ws : Workspace} {t : Tree SpaceId} {s : AddressSpace} {slot : Slot Occupant} {j : SpaceId}
  {x : Occupant} {lo hi : Int}

/-- A leaf that is staged in the space `id` takes the absolute addresses `[lo, hi)`. -/
structure Stands (ws : Workspace) (id : SpaceId) (x : Occupant) (lo hi : Int) : Prop where
  member : x ∈ ws.membersOf id
  range : ∃ (s : AddressSpace) (l : Leaf) (b : Int) (w : Nat), ws.space? id = some s ∧
    ws.leaf? x = some l ∧ l.base = some b ∧ l.aw = w ∧ lo = s.region.base + b ∧ hi = lo + 2 ^ w

theorem Stands.eq {lo' hi' : Int} (h : ws.Stands j x lo hi) (h' : ws.Stands j x lo' hi') :
    lo = lo' ∧ hi = hi' := by
  obtain ⟨s, l, b, w, hs, hl, hb, hw, rfl, rfl⟩ := h.range
  obtain ⟨s', l', b', w', hs', hl', hb', hw', rfl, rfl⟩ := h'.range
  obtain rfl := mem_unique hs hs'
  obtain rfl := mem_unique hl hl'
  obtain rfl := mem_unique hb hb'
  obtain rfl : w = w' := by omega
  exact ⟨rfl, rfl⟩

/-- The slot of the root for a leaf in the space `j`: its own, that of its loop, or that of the tree
below with `j`. -/
inductive Owner (ws : Workspace) (t : Tree SpaceId) (s : AddressSpace) (slot : Slot Occupant) :
    SpaceId → Occupant → Prop where
  | single (hm : slot.item ∈ s.singles) (hi : slot.item.inner? = none) : Owner ws t s slot t.data slot.item
  | copy {x : Occupant} {n : Nat} (hm : slot.item ∈ s.looped)
      (hx : (ws.copiesOf slot.item)[n]? = some x) : Owner ws t s slot t.data x
  | inner {j : SpaceId} {x : Occupant} {u : Tree SpaceId} (hu : u ∈ t.children)
      (hitem : slot.item = .space u.data) (hj : j ∈ u.toList) : Owner ws t s slot j x

theorem exists_owner (ho : ws.Nests t) (hs : ws.space? t.data = some s) (hl : s.Laid ws)
    (hj : j ∈ t.toList) (hx : x ∈ ws.membersOf j) :
    ∃ slot ∈ s.region.taken, Owner ws t s slot j x := by
  cases t with
  | node id ts =>
    have hslot : ∀ y ∈ s.singles ++ s.looped, ∃ slot ∈ s.region.taken, slot.item = y := fun y hy =>
      mem_map.mp (hl.items.mem_iff.mpr hy)
    rw [Tree.toList_node] at hj
    rcases mem_append.mp hj with hj | hj
    · obtain ⟨u, hu, hj⟩ := mem_flatMap.mp hj
      obtain ⟨slot, hm, hitem⟩ := hslot _ (mem_append_left _ (ho.child_mem hs hu))
      exact ⟨slot, hm, .inner hu hitem hj⟩
    · obtain rfl := mem_singleton.mp hj
      have hroot : ws.space? j = some s := hs
      rw [membersOf_eq hroot] at hx
      rcases mem_append.mp hx with hx | hx
      · obtain ⟨hx, hi⟩ := mem_filter.mp hx
        obtain ⟨slot, hm, rfl⟩ := hslot x (mem_append_left _ hx)
        exact ⟨slot, hm, .single hx (isNone_iff_eq_none.mp hi)⟩
      · obtain ⟨y, hy, hx⟩ := mem_flatMap.mp hx
        obtain ⟨n, hn⟩ := mem_iff_getElem?.mp hx
        obtain ⟨slot, hm, rfl⟩ := hslot y (mem_append_right _ hy)
        exact ⟨slot, hm, .copy hy hn⟩

theorem Laid.stands (hl : ws.Laid t) (hb : ws.Based t) (ho : ws.Nests t)
    (hs : ws.space? t.data = some s) (hslot : slot ∈ s.region.taken) (hj : j ∈ t.toList)
    (hx : x ∈ ws.membersOf j) (howner : Owner ws t s slot j x) :
    ∃ lo hi, ws.Stands j x lo hi ∧ s.region.base + slot.lo ≤ lo ∧ hi ≤ s.region.base + slot.hi := by
  induction t using Tree.induct generalizing s slot with
  | _ id ts ih =>
    obtain ⟨s', hs', hlaid⟩ := hl _ (Tree.mem_subtrees_self _)
    obtain rfl := mem_unique hs hs'
    have hfits := hlaid.fits slot hslot
    cases howner with
    | single hm hi =>
      obtain ⟨l, w, hleaf, hbase, haw, hend⟩ := hfits.single hm hi
      refine ⟨_, _, ⟨hx, s, l, slot.lo, w, hs, hleaf, hbase, haw, rfl, rfl⟩, ?_, ?_⟩ <;> omega
    | @copy _ n hm hn =>
      obtain ⟨w, hw⟩ := hfits.array hm
      obtain ⟨l, hleaf, haw, hbase, hend⟩ := hw n x hn
      have hpos : (0 : Int) ≤ n * 2 ^ w := by positivity
      have hstep : ((n : Int) + 1) * 2 ^ w = n * 2 ^ w + 2 ^ w := by ring
      refine ⟨_, _, ⟨hx, s, l, _, w, hs, hleaf, hbase, haw, rfl, rfl⟩, ?_, ?_⟩ <;> omega
    | @inner _ _ u hu hitem hju =>
      obtain ⟨q, w, hq, hrel, haw, hend⟩ := hfits.inner _ hitem
      obtain ⟨s1, q1, hs1, hq1, hbase⟩ := hb _ (Tree.mem_subtrees_self _) u hu
      obtain rfl := mem_unique hs hs1
      obtain rfl := mem_unique hq hq1
      have hlu := (Tree.forall_subtrees_node.mp hl).2 u hu
      have hbu := (Tree.forall_subtrees_node.mp hb).2 u hu
      obtain ⟨q', hq', hqlaid⟩ := hlu u u.mem_subtrees_self
      obtain rfl := mem_unique hq hq'
      obtain ⟨slot', hslot', howner'⟩ := exists_owner (ho.child hu) hq hqlaid hju hx
      obtain ⟨lo, hi, hstands, hlo, hhi⟩ := ih u hu hlu hbu (ho.child hu) hq hslot' hju howner'
      obtain ⟨w', -, haw', hinside⟩ := hqlaid.spaced.inside
      obtain ⟨h0, htop⟩ := hinside slot' hslot'
      obtain rfl : w = w' := by omega
      refine ⟨lo, hi, hstands, ?_, ?_⟩ <;> omega

theorem Laid.disjoint (hl : ws.Laid t) (hb : ws.Based t) (ho : ws.Nests t) {j' : SpaceId}
    {x' : Occupant} (hj : j ∈ t.toList) (hj' : j' ∈ t.toList) (hne : x ≠ x') {lo' hi' : Int}
    (h : ws.Stands j x lo hi) (h' : ws.Stands j' x' lo' hi') : hi ≤ lo' ∨ hi' ≤ lo := by
  induction t using Tree.induct with
  | _ id ts ih =>
    obtain ⟨s, hs, hlaid⟩ := hl _ (Tree.mem_subtrees_self _)
    obtain ⟨slot, hslot, howner⟩ := exists_owner ho hs hlaid hj h.member
    obtain ⟨slot', hslot', howner'⟩ := exists_owner ho hs hlaid hj' h'.member
    by_cases hsame : slot = slot'
    · subst hsame
      have hapart := (nodup_append.mp (ho.items_nodup hs)).2.2
      cases howner with
      | single hm hi =>
        cases howner' with
        | single => exact absurd rfl hne
        | copy hm' => exact absurd rfl (hapart _ hm _ hm')
        | inner _ hitem =>
          rw [hitem] at hi
          cases hi
      | @copy _ n hm hn =>
        cases howner' with
        | single hm' => exact absurd rfl (hapart _ hm' _ hm)
        | @copy _ n' _ hn' =>
          -- the places of the copies differ
          obtain ⟨w, hw⟩ := (hlaid.fits slot hslot).array hm
          obtain ⟨l1, hl1, haw1, hbase1, -⟩ := hw n x hn
          obtain ⟨l2, hl2, haw2, hbase2, -⟩ := hw n' x' hn'
          obtain ⟨rfl, rfl⟩ := h.eq ⟨h.member, s, l1, _, w, hs, hl1, hbase1, haw1, rfl, rfl⟩
          obtain ⟨rfl, rfl⟩ := h'.eq ⟨h'.member, s, l2, _, w, hs, hl2, hbase2, haw2, rfl, rfl⟩
          have hplace : n ≠ n' := by
            rintro rfl
            exact hne (mem_unique hn hn')
          have hstep : ∀ {a b : Nat}, a < b → (a : Int) * 2 ^ w + 2 ^ w ≤ b * 2 ^ w := by
            intro a b hab
            calc (a : Int) * 2 ^ w + 2 ^ w = (a + 1) * 2 ^ w := by ring
              _ ≤ b * 2 ^ w :=
                  Int.mul_le_mul_of_nonneg_right (by omega) (Number.two_pow_pos w).le
          rcases Nat.lt_or_gt_of_ne hplace with hlt | hlt
          · have := hstep hlt
            left
            omega
          · have := hstep hlt
            right
            omega
        | inner _ hitem =>
          have hi := ho.looped_inner? hs hm
          rw [hitem] at hi
          cases hi
      | @inner _ _ u hu hitem hju =>
        cases howner' with
        | single _ hi =>
          rw [hitem] at hi
          cases hi
        | copy hm' =>
          have hi := ho.looped_inner? hs hm'
          rw [hitem] at hi
          cases hi
        | @inner _ _ u' hu' hitem' hju' =>
          obtain rfl := Tree.eq_of_data_eq ho.ids hu hu'
            (Occupant.space.inj (hitem.symm.trans hitem'))
          exact ih u hu ((Tree.forall_subtrees_node.mp hl).2 u hu)
            ((Tree.forall_subtrees_node.mp hb).2 u hu) (ho.child hu) hju hju'
    · obtain ⟨l1, h1, hst, hlo, hhi⟩ := hl.stands hb ho hs hslot hj h.member howner
      obtain ⟨l2, h2, hst', hlo', hhi'⟩ := hl.stands hb ho hs hslot' hj' h'.member howner'
      obtain ⟨rfl, rfl⟩ := h.eq hst
      obtain ⟨rfl, rfl⟩ := h'.eq hst'
      rcases hlaid.spaced.disjoint hslot hslot' hsame with hd | hd <;> omega

/-- In a based tree the addresses on the way from the root add up. -/
theorem Based.sum_offset (hb : ws.Based t) (hs : ws.space? t.data = some s) {p : List SpaceId}
    (hp : p ∈ t.paths) : ∃ j q, p.getLast? = some j ∧ ws.space? j = some q ∧
      q.region.base + s.region.relativeBase = s.region.base + (p.map ws.offset).sum := by
  have hoffset : ∀ {j : SpaceId} {q : AddressSpace}, ws.space? j = some q →
      ws.offset j = q.region.relativeBase := fun hq => by
    unfold offset
    rw [hq]
    rfl
  induction t using Tree.induct generalizing s p with
  | _ id ts ih =>
    have hroot : ws.offset id = s.region.relativeBase := hoffset hs
    rcases Tree.mem_paths_node.mp hp with rfl | ⟨u, hu, q, hq, rfl⟩
    · refine ⟨id, s, rfl, hs, ?_⟩
      simp [hroot]
    · obtain ⟨s', c, hs', hc, hbase⟩ := hb _ (Tree.mem_subtrees_self _) u hu
      obtain rfl := mem_unique hs hs'
      obtain ⟨j, r, hlast, hr, hsum⟩ := ih u hu ((Tree.forall_subtrees_node.mp hb).2 u hu) hc hq
      refine ⟨j, r, ?_, hr, ?_⟩
      · rw [getLast?_cons, hlast]
        rfl
      · rw [map_cons, sum_cons, hroot]
        omega

end Workspace

/-! ### Resolution -/

theorem Workspace.Ready.of_open {ws : Workspace} {t : Tree SpaceId}
    (h : ∀ id ∈ t.toList, ∃ s, ws.space? id = some s ∧ s.Open) (hn : (ws.membersIn t).Nodup) :
    ws.Ready t (ws.membersIn t) := by
  induction t using Tree.induct with
  | _ id ts ih =>
    obtain ⟨s, hs, ho⟩ := h id (Tree.node id ts).data_mem_toList
    obtain ⟨heach, -, -, hapart⟩ := members_apart hn
    rw [membersIn_node]
    exact .opened hs ho
      (fun u hu => ih u hu (fun j hj => h j (Tree.mem_toList_of_child hu hj)) (heach u hu)) hapart

theorem SpaceId.resolve_ok {ws ws' : Workspace} {t : Tree SpaceId} {xs : List Occupant} {u : Unit}
    (ho : ws.Nests t) (hready : ws.Ready t xs) (h : t.data.resolve ws = .ok u ws') :
    Frame t.toList xs ws ws' ∧ ws'.Mapped t AddressSpace.Resolved :=
  resolves _ t xs _ _ u ho hready h

/-- A resolved tree of spaces: the absolute address of a space is the sum of the addresses on the way
from the root, every leaf stands inside the range of its space, and the ranges of different leaves have
no address in common. -/
theorem absolute_layout {ws ws' : Workspace} {t : Tree SpaceId} (ho : ws.Outlines t)
    (hopen : ∀ id ∈ t.toList, ∃ s, ws.space? id = some s ∧ s.Open)
    (ha : ws.policy.alignedLoops = true) (h : t.data.resolve ws = .ok () ws') :
    (∀ p ∈ t.paths, ∃ id s, p.getLast? = some id ∧ ws'.space? id = some s ∧
      s.region.base = (p.map ws'.offset).sum) ∧
    (∀ id ∈ t.toList, ∀ x ∈ ws.membersOf id, ∃ s lo hi, ws'.space? id = some s ∧
      ws'.Stands id x lo hi ∧ s.region.base ≤ lo ∧ hi ≤ s.region.base + 2 ^ s.region.aw.toNat) ∧
    ∀ id ∈ t.toList, ∀ id' ∈ t.toList, ∀ x x', x ≠ x' → ∀ lo hi lo' hi',
      ws'.Stands id x lo hi → ws'.Stands id' x' lo' hi' → hi ≤ lo' ∨ hi' ≤ lo := by
  obtain ⟨hf, hmapped⟩ := SpaceId.resolve_ok (ho.nests ha) (.of_open hopen ho.members) h
  have ho' := (ho.nests ha).frame hf
  refine ⟨fun p hp => ?_, fun id hid x hx => ?_, fun id hid id' hid' x x' hne lo hi lo' hi' hst hst' =>
    hmapped.laid.disjoint hmapped.based ho' hid hid' hne hst hst'⟩
  · obtain ⟨s, hs, hres⟩ := hmapped.root
    obtain ⟨id, q, hlast, hq, hsum⟩ := hmapped.based.sum_offset hs hp
    refine ⟨id, q, hlast, hq, ?_⟩
    rw [hres.base, hres.relativeBase] at hsum
    omega
  · obtain ⟨u, hu, rfl⟩ := mem_map.mp hid
    obtain ⟨s, hs, hlaid⟩ := hmapped.laid u hu
    rw [← hf.membersOf_eq] at hx
    have hlu : ws'.Laid u := fun v hv => hmapped.laid v (Tree.subtrees_subset hu hv)
    have hbu : ws'.Based u := fun v hv => hmapped.based v (Tree.subtrees_subset hu hv)
    obtain ⟨slot, hslot, howner⟩ :=
      Workspace.exists_owner (ho'.subtree hu) hs hlaid u.data_mem_toList hx
    obtain ⟨lo, hi, hst, hlo, hhi⟩ :=
      hlu.stands hbu (ho'.subtree hu) hs hslot u.data_mem_toList hx howner
    obtain ⟨w, -, haw, hinside⟩ := hlaid.spaced.inside
    obtain ⟨h0, htop⟩ := hinside slot hslot
    refine ⟨s, lo, hi, hs, hst, ?_, ?_⟩
    · omega
    · rw [haw, Int.toNat_natCast]
      omega

/-- Memories of two words that a loop makes three copies of, in a space inside another one. -/
def nestedLoop : Workspace :=
  let space (name : String) (ledger : Ledger) : AddressSpace :=
    { kind := .bus
      region :=
        { span := (0, 2 ^ 24), base := 0, relativeBase := 0, aw := 24, extent := 2 ^ 24, taken := []
          vacant := [⟨0, 2 ^ 24, false⟩], reserved := [], path := some ⟨[name], false⟩
          label := name, inset := 0 }
      ledger := { ledger with passes := SpaceKind.bus.passes, passCount := 4 } }
  let memory (copies : List RegisterId) : Register :=
    { kind := .memory, given := some "m", size := 2, dw := 8, aw := 1, base := none
      description := none, source := .none, access := Access.readWrite, label := none
      depth := (none, none), blockAw := none, block := some ⟨0⟩, copies := copies }
  { registers := #[memory [⟨0⟩, ⟨1⟩, ⟨2⟩], memory [], memory []]
    blocks := #[⟨"g", some ⟨"i", "0", .lt, "3", .add, "1", some 3, 0⟩⟩]
    spaces := #[space "top" { entries := [⟨.space ⟨1⟩, none, some 24, false⟩] },
      space "sub" { loops := [⟨.register ⟨0⟩, none, some 1, false⟩] }] }

def nestedLoopTree : Tree SpaceId := .node ⟨0⟩ [.node ⟨1⟩ []]

theorem nestedLoop_outlines : nestedLoop.Outlines nestedLoopTree where
  ids := by decide
  members := by decide
  inner u hu := by
    rcases mem_pair.mp hu with rfl | rfl
    · exact ⟨_, rfl, List.Perm.refl _⟩
    · exact ⟨_, rfl, List.Perm.refl _⟩
  single u hu s hs x hx hi := by
    rcases mem_pair.mp hu with rfl | rfl
    · obtain rfl := Option.some.inj hs
      cases hx
    · obtain rfl := Option.some.inj hs
      rw [mem_singleton.mp hx] at hi
      cases hi
  looped u hu s hs x hx := by
    rcases mem_pair.mp hu with rfl | rfl
    · obtain rfl := Option.some.inj hs
      rw [mem_singleton.mp hx]
      exact ⟨_, rfl, rfl, by decide⟩
    · obtain rfl := Option.some.inj hs
      cases hx

theorem nestedLoop_open :
    ∀ id ∈ nestedLoopTree.toList, ∃ s, nestedLoop.space? id = some s ∧ s.Open := by
  intro id hid
  rcases mem_pair.mp hid with rfl | rfl
  all_goals
    refine ⟨_, rfl, rfl, rfl, rfl, rfl, rfl, fun shelf => ?_, ⟨rfl, rfl, rfl, rfl, rfl, rfl, rfl⟩⟩
    cases shelf <;> decide

theorem nestedLoop_resolves : ∃ u ws', nestedLoopTree.data.resolve nestedLoop = .ok u ws' :=
  Build.exists_ok (by decide +kernel)

/-- The copies in the inner space, whose address adds up from the outer one. -/
theorem absolute_layout_nestedLoop :
    nestedLoop.Outlines nestedLoopTree ∧
    (∀ id ∈ nestedLoopTree.toList, ∃ s, nestedLoop.space? id = some s ∧ s.Open) ∧
    nestedLoop.policy.alignedLoops = true ∧
    ∃ ws', nestedLoopTree.data.resolve nestedLoop = .ok () ws' ∧
      (∃ id s, [(⟨0⟩ : SpaceId), ⟨1⟩].getLast? = some id ∧ ws'.space? id = some s ∧
        s.region.base = ([(⟨0⟩ : SpaceId), ⟨1⟩].map ws'.offset).sum) ∧
      ∃ lo hi lo' hi', ws'.Stands ⟨1⟩ (.register ⟨0⟩) lo hi ∧
        ws'.Stands ⟨1⟩ (.register ⟨2⟩) lo' hi' ∧ (hi ≤ lo' ∨ hi' ≤ lo) := by
  obtain ⟨_, ws', h⟩ := nestedLoop_resolves
  obtain ⟨hbase, hinside, hdisjoint⟩ := absolute_layout nestedLoop_outlines nestedLoop_open rfl h
  obtain ⟨-, lo, hi, -, hst, -⟩ := hinside ⟨1⟩ (by decide) (.register ⟨0⟩) (by decide)
  obtain ⟨-, lo', hi', -, hst', -⟩ := hinside ⟨1⟩ (by decide) (.register ⟨2⟩) (by decide)
  exact ⟨nestedLoop_outlines, nestedLoop_open, rfl, ws', h, hbase _ (by decide), lo, hi, lo', hi',
    hst, hst', hdisjoint _ (by decide) _ (by decide) _ _ (by decide) _ _ _ _ hst hst'⟩

end RegisterMap
