import RegisterMap.Proofs.Region.Spaced
import RegisterMap.Proofs.Tree
import RegisterMap.Proofs.AddressSpace.Trace

/-! # Spaces inside spaces

A tree of identities describes which space is staged in which (`Workspace.Nests`).  In a tree that
is *laid out* every item has its slot, and it knows the address of the slot (`Workspace.Laid`).  It is
*based* when the absolute address of a space is that of the space around it plus its own address there
(`Workspace.Based`).

Giving a space a path or an absolute address reaches the spaces of its tree and no others; it moves
them as a whole (`Moves`), and an absolute address is handed on so that the tree is based
(`SpaceId.setBaseUpTo_ok`). -/

namespace RegisterMap

open Build List

variable {ws ws' : Workspace} {s s' : AddressSpace} {ids : List SpaceId} {xs : List Occupant}
  {t : Tree SpaceId}

/-! ### Which space is staged in which -/

namespace Workspace

variable {ws : Workspace} {s : AddressSpace} {x : Occupant}

/-- The address of a space inside the space around it. -/
def offset (ws : Workspace) (id : SpaceId) : Int :=
  ((ws.space? id).map fun s => s.region.relativeBase).getD 0

/-- The leaves that are staged in the spaces of a tree. -/
def membersIn (ws : Workspace) (t : Tree SpaceId) : List Occupant := t.toList.flatMap ws.membersOf

/-- The tree says which space is staged in which.  No space is staged twice, nor a leaf in a space and
one inside it; what stands in a loop is the first of copies of one width. -/
structure Nests (ws : Workspace) (t : Tree SpaceId) : Prop where
  ids : t.toList.Nodup
  own : ∀ u ∈ t.subtrees, (ws.membersOf u.data).Nodup
  apart : ∀ u ∈ t.subtrees, ∀ v ∈ u.children, (ws.membersIn v).Disjoint (ws.membersOf u.data)
  inner : ∀ u ∈ t.subtrees, ∃ s, ws.space? u.data = some s ∧
    (s.singles.filterMap Occupant.inner?).Perm (u.children.map Tree.data)
  single : ∀ u ∈ t.subtrees, ∀ s, ws.space? u.data = some s → ∀ x ∈ s.singles, x.inner? = none →
    ∃ l, ws.leaf? x = some l
  looped : ∀ u ∈ t.subtrees, ∀ s, ws.space? u.data = some s → ∀ x ∈ s.looped,
    ws.policy.alignedLoops = true ∧ ∃ l, ws.leaf? x = some l ∧ l.copies.head? = some x ∧
      ∀ y ∈ l.copies, ∃ l', ws.leaf? y = some l' ∧ l'.aw = l.aw

theorem membersIn_node (ws : Workspace) (id : SpaceId) (ts : List (Tree SpaceId)) :
    ws.membersIn (.node id ts) = ts.flatMap ws.membersIn ++ ws.membersOf id := by
  unfold membersIn
  rw [Tree.toList_node, flatMap_append, flatMap_singleton, flatMap_assoc]

theorem membersOf_eq {id : SpaceId} (h : ws.space? id = some s) : ws.membersOf id = ws.members s := by
  unfold membersOf
  rw [h]
  rfl

theorem mem_membersIn {t u : Tree SpaceId} (hu : u ∈ t.subtrees)
    (hs : ws.space? u.data = some s) (hx : x ∈ ws.members s) : x ∈ ws.membersIn t :=
  mem_flatMap.mpr ⟨u.data, mem_map_of_mem hu, by rwa [membersOf_eq hs]⟩

theorem single_mem_members (hx : x ∈ s.singles) (hi : x.inner? = none) : x ∈ ws.members s :=
  mem_append_left _ (mem_filter.mpr ⟨hx, by rw [hi]; rfl⟩)

theorem copy_mem_members {y : Occupant} (hx : x ∈ s.looped)
    (hy : y ∈ ws.copiesOf x) : y ∈ ws.members s :=
  mem_append_right _ (mem_flatMap.mpr ⟨x, hx, hy⟩)

end Workspace

theorem Frame.membersIn_eq
    (h : Frame ids xs ws ws') (t : Tree SpaceId) : ws'.membersIn t = ws.membersIn t := by
  unfold Workspace.membersIn
  rw [show ws'.membersOf = ws.membersOf from funext h.membersOf_eq]

theorem AddressSpace.singles_eq (h : s'.items = s.items) : s'.singles = s.singles := by
  unfold singles
  rw [h]

theorem AddressSpace.looped_eq (h : s'.items = s.items) : s'.looped = s.looped := by
  unfold looped
  rw [h]

namespace Workspace.Nests

variable {ws ws' : Workspace} {ids : List SpaceId} {xs : List Occupant} {t : Tree SpaceId}
  {id : SpaceId} {ts : List (Tree SpaceId)} {u : Tree SpaceId} {s : AddressSpace}

theorem frame (h : ws.Nests t) (hf : Frame ids xs ws ws') : ws'.Nests t where
  ids := h.ids
  own u hu := by rw [hf.membersOf_eq]; exact h.own u hu
  apart u hu v hv := by rw [hf.membersIn_eq, hf.membersOf_eq]; exact h.apart u hu v hv
  inner u hu := by
    obtain ⟨s, hs, hp⟩ := h.inner u hu
    obtain ⟨s', hs', he⟩ := hf.space?_eq_some hs
    exact ⟨s', hs', by rwa [AddressSpace.singles_eq he]⟩
  single u hu s' hs' x hx hi := by
    obtain ⟨s, hs, -⟩ := h.inner u hu
    obtain ⟨s'', hs'', he⟩ := hf.space?_eq_some hs
    obtain rfl := Option.mem_unique hs' hs''
    rw [AddressSpace.singles_eq he] at hx
    obtain ⟨l, hl⟩ := h.single u hu s hs x hx hi
    obtain ⟨l', hl', -⟩ := hf.leaf?_eq_some hl
    exact ⟨l', hl'⟩
  looped u hu s' hs' x hx := by
    obtain ⟨s, hs, -⟩ := h.inner u hu
    obtain ⟨s'', hs'', he⟩ := hf.space?_eq_some hs
    obtain rfl := Option.mem_unique hs' hs''
    rw [AddressSpace.looped_eq he] at hx
    obtain ⟨ha, l, hl, hhead, hcopies⟩ := h.looped u hu s hs x hx
    obtain ⟨l', hl', haw, hc⟩ := hf.leaf?_eq_some hl
    refine ⟨by rwa [hf.policy], l', hl', by rwa [hc], fun y hy => ?_⟩
    rw [hc] at hy
    obtain ⟨ly, hly, haw'⟩ := hcopies y hy
    obtain ⟨ly', hly', haw'', -⟩ := hf.leaf?_eq_some hly
    exact ⟨ly', hly', by rw [haw'', haw', haw]⟩

theorem child (h : ws.Nests (.node id ts)) (hu : u ∈ ts) : ws.Nests u where
  ids := (Tree.nodup_node h.ids).1 u hu
  own := (Tree.forall_subtrees_node.mp h.own).2 u hu
  apart := (Tree.forall_subtrees_node.mp h.apart).2 u hu
  inner := (Tree.forall_subtrees_node.mp h.inner).2 u hu
  single := (Tree.forall_subtrees_node.mp h.single).2 u hu
  looped := (Tree.forall_subtrees_node.mp h.looped).2 u hu

theorem subtree (h : ws.Nests t) (hu : u ∈ t.subtrees) : ws.Nests u := by
  induction t using Tree.induct with
  | _ id ts ih =>
    rw [Tree.subtrees] at hu
    rcases mem_append.mp hu with hu | hu
    · obtain ⟨v, hv, hu⟩ := Tree.mem_subtreesIn.mp hu
      exact ih v hv (h.child hv) hu
    · rwa [mem_singleton.mp hu]

section

variable (h : ws.Nests (.node id ts)) (hs : ws.space? id = some s)

include h hs

theorem looped_inner? {x : Occupant} (hx : x ∈ s.looped) : x.inner? = none := by
  obtain ⟨-, l, hl, -⟩ := h.looped _ (Tree.mem_subtrees_self _) s hs x hx
  cases x with
  | space c => cases hl
  | _ => rfl

theorem exists_child {c : SpaceId} (hc : .space c ∈ s.singles ++ s.looped) : ∃ u ∈ ts, u.data = c := by
  rcases mem_append.mp hc with hc | hc
  · obtain ⟨s', hs', hp⟩ := h.inner _ (Tree.mem_subtrees_self _)
    obtain rfl := Option.mem_unique hs hs'
    have hm : c ∈ s.singles.filterMap Occupant.inner? := mem_filterMap.mpr ⟨_, hc, rfl⟩
    exact mem_map.mp (hp.mem_iff.mp hm)
  · cases h.looped_inner? hs hc

theorem child_mem (hu : u ∈ ts) : .space u.data ∈ s.singles := by
  obtain ⟨s', hs', hp⟩ := h.inner _ (Tree.mem_subtrees_self _)
  obtain rfl := Option.mem_unique hs hs'
  have hm : u.data ∈ s.singles.filterMap Occupant.inner? := hp.mem_iff.mpr (mem_map_of_mem hu)
  obtain ⟨o, ho, hi⟩ := mem_filterMap.mp hm
  rwa [← Occupant.inner?_eq_some.mp hi]

end

end Workspace.Nests

/-! ### Layouts -/

namespace AddressSpace

variable {s s' : AddressSpace} {ws : Workspace}

/-- The item of a slot knows its address and fills it: a leaf, the copies of a loop side by side, or a
space. -/
structure Fits (s : AddressSpace) (ws : Workspace) (slot : Slot Occupant) : Prop where
  single : slot.item ∈ s.singles → slot.item.inner? = none → ∃ (l : Leaf) (w : Nat),
    ws.leaf? slot.item = some l ∧ l.base = some slot.lo ∧ l.aw = w ∧ slot.hi = slot.lo + 2 ^ w
  array : slot.item ∈ s.looped → ∃ w : Nat, ∀ (n : Nat) x, (ws.copiesOf slot.item)[n]? = some x →
    ∃ l, ws.leaf? x = some l ∧ l.aw = w ∧ l.base = some (slot.lo + n * 2 ^ w) ∧
      slot.lo + (n + 1) * 2 ^ w ≤ slot.hi
  inner : ∀ c, slot.item = .space c → ∃ (t : AddressSpace) (w : Nat), ws.space? c = some t ∧
    t.region.relativeBase = slot.lo ∧ t.region.aw = w ∧ slot.hi = slot.lo + 2 ^ w

/-- The items are placed in slots that are spaced, and they know their addresses. -/
structure Laid (s : AddressSpace) (ws : Workspace) : Prop where
  keepouts : s.ledger.keepouts = []
  spaced : s.region.Spaced
  fits : ∀ slot ∈ s.region.taken, s.Fits ws slot
  packs : ∃ r, s.PacksInto (s.needs ws) s.queue r ∧ s.region.taken.Perm r.taken

theorem Laid.items (h : s.Laid ws) : (s.region.taken.map Slot.item).Perm (s.singles ++ s.looped) := by
  obtain ⟨r, hr, hp⟩ := h.packs
  exact ((hp.map _).trans hr.items).trans (queue_perm h.keepouts)

/-- The space is the same but for its path, its absolute address and the order of its ranges. -/
structure Moved (s s' : AddressSpace) : Prop where
  profile : s'.profile = s.profile
  ledger : s'.ledger = s.ledger
  taken : s'.region.taken.Perm s.region.taken
  aw : s'.region.aw = s.region.aw
  relativeBase : s'.region.relativeBase = s.region.relativeBase

theorem Moved.refl (s : AddressSpace) : s.Moved s := ⟨rfl, rfl, List.Perm.refl _, rfl, rfl⟩

theorem Moved.trans {s'' : AddressSpace} (h : s.Moved s') (h' : s'.Moved s'') : s.Moved s'' :=
  ⟨h'.profile.trans h.profile, h'.ledger.trans h.ledger, h'.taken.trans h.taken, h'.aw.trans h.aw,
    h'.relativeBase.trans h.relativeBase⟩

theorem Moved.kept (h : s.Moved s') : s.Kept s' :=
  ⟨h.ledger, h.taken⟩

theorem items_of_ledger (h : s'.ledger = s.ledger) : s'.items = s.items := by
  unfold AddressSpace.items
  rw [h]

theorem wanted_of_ledger (h : s'.ledger = s.ledger) : s'.wanted = s.wanted := by
  unfold AddressSpace.wanted
  rw [h]

theorem Fits.of_items {slot : Slot Occupant} (h : s.Fits ws slot)
    (hi : s'.items = s.items) : s'.Fits ws slot where
  single := by rw [singles_eq hi]; exact h.single
  array := by rw [looped_eq hi]; exact h.array
  inner := h.inner

theorem Laid.congr {ws' : Workspace} (h : s.Laid ws) (hl : s'.ledger = s.ledger)
    (hp : s'.region.taken.Perm s.region.taken) (hspaced : s'.region.Spaced)
    (hfits : ∀ slot ∈ s.region.taken, s.Fits ws' slot)
    (hw : ∀ x ∈ s.queue, s'.needs ws' x = s.needs ws x) : s'.Laid ws' where
  keepouts := by rw [hl]; exact h.keepouts
  spaced := hspaced
  fits slot hslot := (hfits slot (hp.mem_iff.mp hslot)).of_items (items_of_ledger hl)
  packs := by
    obtain ⟨r, hr, hr'⟩ := h.packs
    rw [queue_congr (items_of_ledger hl)]
    exact ⟨r, hr.congr (wanted_of_ledger hl) hw, hp.trans hr'⟩

end AddressSpace

namespace Workspace

/-- What stands in slots of the spaces is among them, if it is a space. -/
def Enclosed (ws : Workspace) (ids : List SpaceId) : Prop :=
  ∀ j ∈ ids, ∀ s, ws.space? j = some s → ∀ slot ∈ s.region.taken, ∀ c, slot.item = .space c → c ∈ ids

def Laid (ws : Workspace) (t : Tree SpaceId) : Prop :=
  ∀ u ∈ t.subtrees, ∃ s, ws.space? u.data = some s ∧ s.Laid ws

/-- The absolute address of a space is that of the space around it plus its own address there. -/
def Based (ws : Workspace) (t : Tree SpaceId) : Prop :=
  ∀ u ∈ t.subtrees, ∀ c ∈ u.children, ∃ s s', ws.space? u.data = some s ∧
    ws.space? c.data = some s' ∧ s'.region.base = s.region.base + s'.region.relativeBase

theorem Based.congr {ws ws' : Workspace} {t : Tree SpaceId} (h : ws.Based t)
    (hs : ∀ j ∈ t.toList, ws'.space? j = ws.space? j) : ws'.Based t := by
  intro u hu c hc
  rw [hs _ (mem_map_of_mem hu), hs _ (mem_map_of_mem (Tree.child_mem_subtrees hu hc))]
  exact h u hu c hc

end Workspace

/-- The spaces `ids` were moved, and nothing else was touched. -/
structure Moves (ids : List SpaceId) (ws ws' : Workspace) : Prop where
  policy : ws'.policy = ws.policy
  busses : ws'.busses = ws.busses
  blocks : ws'.blocks = ws.blocks
  registers : ws'.registers = ws.registers
  passengers : ws'.passengers = ws.passengers
  spaces : ∀ j, j ∉ ids → ws'.space? j = ws.space? j
  moved : ∀ j s, ws.space? j = some s → ∃ s', ws'.space? j = some s' ∧ s.Moved s'
  missing : ∀ j, ws.space? j = none → ws'.space? j = none

namespace Moves

variable {ids ids' : List SpaceId} {ws ws' ws'' : Workspace} {t : Tree SpaceId} {s : AddressSpace}

theorem refl (ids : List SpaceId) (ws : Workspace) : Moves ids ws ws :=
  ⟨rfl, rfl, rfl, rfl, rfl, fun _ _ => rfl, fun _ s hs => ⟨s, hs, .refl s⟩, fun _ h => h⟩

theorem trans (h : Moves ids ws ws') (h' : Moves ids ws' ws'') : Moves ids ws ws'' where
  policy := h'.policy.trans h.policy
  busses := h'.busses.trans h.busses
  blocks := h'.blocks.trans h.blocks
  registers := h'.registers.trans h.registers
  passengers := h'.passengers.trans h.passengers
  spaces j hj := (h'.spaces j hj).trans (h.spaces j hj)
  moved j s hs := by
    obtain ⟨s', hs', hm⟩ := h.moved j s hs
    obtain ⟨s'', hs'', hm'⟩ := h'.moved j s' hs'
    exact ⟨s'', hs'', hm.trans hm'⟩
  missing j hj := h'.missing j (h.missing j hj)

theorem mono (h : Moves ids ws ws') (hi : ids ⊆ ids') : Moves ids' ws ws' :=
  { h with spaces := fun j hj => h.spaces j fun hm => hj (hi hm) }

theorem leaves (h : Moves ids ws ws') (x : Occupant) : ws'.leaf? x = ws.leaf? x := by
  cases x <;> simp only [Workspace.leaf?, h.registers, h.passengers]

theorem frame (h : Moves ids ws ws') : Frame ids [] ws ws' where
  policy := h.policy
  busses := h.busses
  blocks := h.blocks
  registers n := by rw [h.registers]
  passengers n := by rw [h.passengers]
  profile j := by
    cases hs : ws.space? j with
    | none => rw [h.missing j hs]
    | some s =>
      obtain ⟨s', hs', hm⟩ := h.moved j s hs
      rw [hs']
      exact congrArg some hm.profile
  kept j s hs _ := by
    obtain ⟨s', hs', hm⟩ := h.moved j s hs
    exact ⟨s', hs', hm.kept⟩
  items j := by
    cases hs : ws.space? j with
    | none => rw [h.missing j hs]
    | some s =>
      obtain ⟨s', hs', hm⟩ := h.moved j s hs
      rw [hs']
      exact congrArg some (AddressSpace.items_of_ledger hm.ledger)
  spaces := h.spaces
  leaves x _ := h.leaves x

theorem setSpace {id : SpaceId} {s' : AddressSpace} (hs : ws.space? id = some s)
    (hm : s.Moved s') : Moves [id] ws (ws.setSpace id s') where
  policy := rfl
  busses := rfl
  blocks := rfl
  registers := rfl
  passengers := rfl
  spaces j hj := Workspace.space?_setSpace_of_ne (by rintro rfl; simp at hj) _
  moved j t ht := by
    by_cases hj : id = j
    · subst hj
      obtain rfl := Option.mem_unique hs ht
      exact ⟨s', Workspace.space?_setSpace_self hs s', hm⟩
    · exact ⟨t, by rwa [Workspace.space?_setSpace_of_ne hj], .refl t⟩
  missing j hj := by
    have : id ≠ j := fun h => by
      rw [h, hj] at hs
      cases hs
    rwa [Workspace.space?_setSpace_of_ne this]

theorem fits (h : Moves ids ws ws') {slot : Slot Occupant} (hf : s.Fits ws slot) : s.Fits ws' slot where
  single hx hn := by
    rw [h.leaves]
    exact hf.single hx hn
  array hx := by
    obtain ⟨w, hw⟩ := hf.array hx
    refine ⟨w, fun n x hn => ?_⟩
    rw [h.frame.copiesOf_eq] at hn
    rw [h.leaves]
    exact hw n x hn
  inner c hc := by
    obtain ⟨t, w, ht, hrel, haw, hsize⟩ := hf.inner c hc
    obtain ⟨t', ht', hm⟩ := h.moved c t ht
    exact ⟨t', w, ht', hm.relativeBase.trans hrel, hm.aw.trans haw, hsize⟩

theorem needs (h : Moves ids ws ws') {s' : AddressSpace} (hl : s'.ledger = s.ledger) (x : Occupant) :
    s'.needs ws' x = s.needs ws x := by
  refine AddressSpace.needs_frame (AddressSpace.looped_eq (AddressSpace.items_of_ledger hl)) h.frame
    fun c _ => ?_
  cases hs : ws.space? c with
  | none => exact Workspace.widthOf_congr ((h.missing c hs).trans hs.symm)
  | some s =>
    obtain ⟨s', hs', hm⟩ := h.moved c s hs
    rw [Workspace.widthOf_space hs, Workspace.widthOf_space hs', hm.aw]

theorem laid (h : Moves ids ws ws') (hl : ws.Laid t) : ws'.Laid t := by
  intro u hu
  obtain ⟨s, hs, hlaid⟩ := hl u hu
  obtain ⟨s', hs', hm⟩ := h.moved _ s hs
  exact ⟨s', hs', hlaid.congr hm.ledger hm.taken (hlaid.spaced.of_perm hm.taken hm.aw)
    (fun slot hslot => h.fits (hlaid.fits slot hslot)) fun x _ => h.needs hm.ledger x⟩

theorem enclosed (h : Moves ids ws ws') (he : ws.Enclosed ids') : ws'.Enclosed ids' := by
  intro j hj s' hs' slot hslot c hc
  cases hs : ws.space? j with
  | none =>
    rw [h.missing j hs] at hs'
    cases hs'
  | some s =>
    obtain ⟨s'', hs'', hm⟩ := h.moved j s hs
    obtain rfl := Option.mem_unique hs' hs''
    exact he j hj s hs slot (hm.taken.mem_iff.mp hslot) c hc

instance : IsTrans Workspace (Moves ids) := ⟨fun _ _ _ => Moves.trans⟩

end Moves

theorem AddressSpace.Laid.exists_child (ho : ws.Nests t)
    (hs : ws.space? t.data = some s) (hl : s.Laid ws) {slot : Slot Occupant}
    (hslot : slot ∈ s.region.taken) {c : SpaceId} (hc : slot.item = .space c) :
    ∃ v ∈ t.children, v.data = c := by
  cases t with
  | node id ts =>
    have hm : slot.item ∈ s.singles ++ s.looped :=
      hl.items.mem_iff.mp (mem_map_of_mem hslot)
    rw [hc] at hm
    exact ho.exists_child hs hm

theorem Workspace.Laid.enclosed (hl : ws.Laid t) (ho : ws.Nests t) : ws.Enclosed t.toList := by
  intro j hj s hs slot hslot c hc
  obtain ⟨u, hu, rfl⟩ := mem_map.mp hj
  obtain ⟨s', hs', hlaid⟩ := hl u hu
  obtain rfl := Option.mem_unique hs hs'
  obtain ⟨v, hv, rfl⟩ := hlaid.exists_child (ho.subtree hu) hs hslot hc
  exact mem_map_of_mem (Tree.child_mem_subtrees hu hv)

theorem AddressSpace.Laid.needs_frame (ho : ws.Nests t) (hs : ws.space? t.data = some s)
    (hl : s.Laid ws) (he : s'.ledger = s.ledger) (hf : Frame ids xs ws ws')
    (hi : ∀ v ∈ t.children, v.data ∉ ids) {x : Occupant} (hx : x ∈ s.queue) :
    s'.needs ws' x = s.needs ws x := by
  refine AddressSpace.needs_frame (AddressSpace.looped_eq (AddressSpace.items_of_ledger he)) hf
    fun c hc => Workspace.widthOf_congr (hf.spaces c ?_)
  rw [(queue_perm hl.keepouts).mem_iff, ← hl.items.mem_iff] at hx
  obtain ⟨slot, hslot, rfl⟩ := mem_map.mp hx
  obtain ⟨v, hv, rfl⟩ := hl.exists_child ho hs hslot hc
  exact hi v hv

theorem AddressSpace.Fits.frame {slot : Slot Occupant} (h : s.Fits ws slot) (hf : Frame ids xs ws ws')
    (hsingle : slot.item ∈ s.singles → slot.item.inner? = none → slot.item ∉ xs)
    (harray : slot.item ∈ s.looped → ∀ y ∈ ws.copiesOf slot.item, y ∉ xs)
    (hinner : ∀ c, slot.item = .space c → c ∉ ids) : s.Fits ws' slot where
  single hm hn := by
    rw [hf.leaves _ (hsingle hm hn)]
    exact h.single hm hn
  array hm := by
    obtain ⟨w, hw⟩ := h.array hm
    refine ⟨w, fun n x hn => ?_⟩
    rw [hf.copiesOf_eq] at hn
    rw [hf.leaves _ (harray hm x (mem_of_getElem? hn))]
    exact hw n x hn
  inner c hc := by
    rw [hf.spaces _ (hinner c hc)]
    exact h.inner c hc

theorem Workspace.Laid.frame (hl : ws.Laid t) (ho : ws.Nests t) (hf : Frame ids xs ws ws')
    (hi : ∀ j ∈ t.toList, j ∉ ids) (hx : ∀ x ∈ ws.membersIn t, x ∉ xs) : ws'.Laid t := by
  intro u hu
  obtain ⟨s, hs, hlaid⟩ := hl u hu
  have hbelow : ∀ v ∈ u.children, v.data ∉ ids := fun v hv =>
    hi _ (mem_map_of_mem (Tree.child_mem_subtrees hu hv))
  refine ⟨s, by rwa [hf.spaces _ (hi _ (mem_map_of_mem hu))], hlaid.congr rfl (List.Perm.refl _)
    hlaid.spaced (fun slot hslot => ?_) fun x => hlaid.needs_frame (ho.subtree hu) hs rfl hf hbelow⟩
  refine (hlaid.fits slot hslot).frame hf (fun hm hn => ?_) (fun hm y hy => ?_) fun c hc => ?_
  · exact hx _ (mem_membersIn hu hs (single_mem_members hm hn))
  · exact hx _ (mem_membersIn hu hs (copy_mem_members hm hy))
  · obtain ⟨v, hv, rfl⟩ := hlaid.exists_child (ho.subtree hu) hs hslot hc
    exact hbelow v hv

theorem Workspace.Laid.setRoot (hl : ws.Laid t) (ho : ws.Nests t) (hs : ws.space? t.data = some s)
    (he : s'.ledger = s.ledger) (hf : Frame [t.data] [] ws (ws.setSpace t.data s'))
    (htaken : s'.region.taken.Perm s.region.taken) (hspaced : s'.region.Spaced) :
    (ws.setSpace t.data s').Laid t := by
  intro u hu
  obtain ⟨r, hr, hlaid⟩ := hl u hu
  -- no slot of the tree holds the root
  have hbelow : ∀ v ∈ u.children, v.data ∉ [t.data] := fun v hv => by
    simpa using Tree.data_ne_of_child ho.ids hu hv
  have hfits : ∀ slot ∈ r.region.taken, r.Fits (ws.setSpace t.data s') slot := fun slot hslot =>
    (hlaid.fits slot hslot).frame hf (by simp) (by simp) fun c hc => by
      obtain ⟨v, hv, rfl⟩ := hlaid.exists_child (ho.subtree hu) hr hslot hc
      exact hbelow v hv
  by_cases hroot : t.data = u.data
  · rw [← hroot] at hr ⊢
    obtain rfl := Option.mem_unique hs hr
    exact ⟨s', Workspace.space?_setSpace_self hs s', hlaid.congr he htaken hspaced hfits fun x =>
      hlaid.needs_frame (ho.subtree hu) (hroot ▸ hs) he hf hbelow⟩
  · exact ⟨r, by rwa [Workspace.space?_setSpace_of_ne hroot], hlaid.congr rfl (List.Perm.refl _)
      hlaid.spaced hfits fun x => hlaid.needs_frame (ho.subtree hu) hr rfl hf hbelow⟩

theorem Workspace.Based.setRoot (hb : ws.Based t) (hn : t.toList.Nodup) (hs : ws.space? t.data = some s)
    (hbase : s'.region.base = s.region.base) : (ws.setSpace t.data s').Based t := by
  intro u hu c hc
  obtain ⟨r, q, hr, hq, he⟩ := hb u hu c hc
  have hq' : (ws.setSpace t.data s').space? c.data = some q := by
    rwa [Workspace.space?_setSpace_of_ne (Tree.data_ne_of_child hn hu hc).symm]
  by_cases hroot : t.data = u.data
  · rw [← hroot] at hr ⊢
    obtain rfl := Option.mem_unique hs hr
    exact ⟨s', q, Workspace.space?_setSpace_self hs s', hq', by rw [hbase, he]⟩
  · exact ⟨r, q, by rwa [Workspace.space?_setSpace_of_ne hroot], hq', he⟩

namespace SpaceId

variable {ws ws' : Workspace} {id : SpaceId} {ids : List SpaceId} {ts : List (Tree SpaceId)}
  {u : Unit} {base : Int}

theorem updateRegion_ok {f : Region Occupant → Region Occupant}
    (h : id.updateRegion f ws = .ok u ws') :
    ∃ s, ws.space? id = some s ∧ ws' = ws.setSpace id { s with region := f s.region } :=
  update_ok h

theorem exists_slot_of_entry {r : Region Occupant} {entry : Entry Occupant} {c : SpaceId}
    (h : entry ∈ r.walk.entries) (hc : entry.item = some (.space c)) :
    ∃ slot ∈ r.taken, slot.item = .space c := by
  have := Walk.subset_merge _ _ _ h
  simp only [mem_append, mem_map] at this
  rcases this with (⟨slot, hslot, rfl⟩ | ⟨g, -, rfl⟩) | ⟨k, -, rfl⟩
  · exact ⟨slot, hslot, Option.some.inj hc⟩
  · cases hc
  · cases hc

theorem setBaseUpTo_run {fuel : Nat} (h : setBaseUpTo (fuel + 1) id base ws = .ok u ws') :
    ∃ s, ws.space? id = some s ∧ ∀ I : List (Slot Occupant) → Workspace → Prop,
      I [] (ws.setSpace id { s with region := { s.region with base := base } }) →
      (∀ done slot rest w w1, s.region.taken = done ++ slot :: rest → I done w →
        (∃ c u, slot.item = .space c ∧ setBaseUpTo fuel c (base + slot.lo) w = .ok u w1) ∨
          slot.item.inner? = none ∧ w1 = w → I (done ++ [slot]) w1) →
      I s.region.taken ws' := by
  unfold setBaseUpTo at h
  obtain ⟨_, ws1, hup, h1⟩ := bind_ok h
  obtain ⟨s, hs, rfl⟩ := updateRegion_ok hup
  obtain ⟨s1, hs1, h2⟩ := bind_region_ok h1
  obtain rfl := Option.mem_unique (Workspace.space?_setSpace_self hs _) hs1
  obtain ⟨_, hloop, -⟩ := bind_pure_ok h2
  refine ⟨s, hs, fun I h0 step => forIn_ok hloop I h0 ?_⟩
  intro done slot rest hslots w w1 out hI hrun
  cases hc : slot.item with
  | space c =>
    simp only [hc] at hrun
    obtain ⟨u, hset, rfl⟩ := bind_pure_ok hrun
    exact ⟨rfl, step done slot rest w w1 hslots hI (.inl ⟨c, u, hc, hset⟩)⟩
  | _ =>
    simp only [hc] at hrun
    obtain ⟨rfl, rfl⟩ := pure_ok hrun
    exact ⟨rfl, step done slot rest _ _ hslots hI (.inr ⟨by rw [hc]; rfl, rfl⟩)⟩

section Walks

variable {R : Workspace → Workspace → Prop} {Q : SpaceId → Workspace → Prop} [IsTrans Workspace R]
  (hinner : ∀ {ws j s}, Q j ws → ws.space? j = some s → ∀ slot ∈ s.region.taken, ∀ c,
    slot.item = .space c → Q c ws)
  (hstable : ∀ {ws ws'}, R ws ws' → ∀ j, Q j ws → Q j ws')

include hinner hstable

/-- Giving a space a path leads along `R` if giving one space a path does, for spaces with `Q`. -/
theorem setPathUpTo_along
    (hset : ∀ {ws j s} path, Q j ws → ws.space? j = some s →
      R ws (ws.setSpace j { s with region := ({ s.region with path := some path }).sorted }))
    (fuel : Nat) {path : Path} (hid : Q id ws) (h : setPathUpTo fuel id path ws = .ok u ws') :
    R ws ws' := by
  induction fuel generalizing id path ws ws' u with
  | zero => cases h
  | succ fuel ih =>
    unfold setPathUpTo at h
    obtain ⟨_, ws1, hup, h1⟩ := bind_ok h
    obtain ⟨s, hs, rfl⟩ := updateRegion_ok hup
    obtain ⟨r, ws2, hr, h2⟩ := bind_ok h1
    obtain ⟨s1, hs1, rfl, rfl⟩ := region_ok hr
    obtain ⟨_, ws3, hloop, h3⟩ := bind_ok h2
    obtain rfl := Option.mem_unique (Workspace.space?_setSpace_self hs _) hs1
    have hend : R ws ws3 := by
      refine forIn_ok hloop (fun _ w => R ws w) (hset path hid hs) ?_
      intro done entry rest hentries w w1 step hw hrun
      by_cases hitem : ∃ c, entry.item = some (.space c)
      · obtain ⟨c, hitem⟩ := hitem
        simp only [hitem] at hrun
        obtain ⟨r, w2, hr, hrun2⟩ := bind_ok hrun
        obtain ⟨-, -, -, rfl⟩ := region_ok hr
        obtain ⟨last, w3, hlast, hrun3⟩ := bind_ok hrun2
        obtain ⟨-, rfl⟩ := lift_ok hlast
        obtain ⟨_, w4, hrec, hrun4⟩ := bind_ok hrun3
        obtain ⟨rfl, rfl⟩ := pure_ok hrun4
        obtain ⟨slot, hslot, hc⟩ :=
          exists_slot_of_entry (hentries ▸ mem_append_right _ mem_cons_self) hitem
        have hq := hinner hid hs slot ((Region.sorted_taken_perm _).mem_iff.mp hslot) c hc
        exact ⟨rfl, IsTrans.trans _ _ _ hw (ih (hstable hw c hq) hrec)⟩
      · obtain ⟨rfl, rfl⟩ : step = .yield PUnit.unit ∧ w1 = w := by
          rcases hi : entry.item with _ | o
          · simp only [hi] at hrun
            exact pure_ok hrun
          · cases o <;> simp only [hi] at hrun <;> first
              | exact pure_ok hrun
              | exact absurd ⟨_, hi⟩ hitem
        exact ⟨rfl, hw⟩
    split at h3
    · cases h3
    · obtain ⟨-, rfl⟩ := pure_ok h3
      exact hend

theorem setBaseUpTo_along
    (hset : ∀ {ws j s} base, Q j ws → ws.space? j = some s →
      R ws (ws.setSpace j { s with region := { s.region with base := base } }))
    (fuel : Nat) {base : Int} (hid : Q id ws) (h : setBaseUpTo fuel id base ws = .ok u ws') :
    R ws ws' := by
  induction fuel generalizing id base ws ws' u with
  | zero => cases h
  | succ fuel ih =>
    obtain ⟨s, hs, hrun⟩ := setBaseUpTo_run h
    refine hrun (fun _ w => R ws w) (hset base hid hs) ?_
    rintro done slot rest w w1 hslots hw (⟨c, u, hc, hrec⟩ | ⟨-, rfl⟩)
    · have hq := hinner hid hs slot (hslots ▸ mem_append_right _ mem_cons_self) c hc
      exact IsTrans.trans _ _ _ hw (ih (hstable hw c hq) hrec)
    · exact hw

end Walks

theorem setPathUpTo_moves (fuel : Nat) {path : Path} (hc : ws.Enclosed ids) (hid : id ∈ ids)
    (h : setPathUpTo fuel id path ws = .ok u ws') : Moves ids ws ws' :=
  setPathUpTo_along (R := Moves ids) (Q := fun j ws => j ∈ ids ∧ ws.Enclosed ids)
    (fun hq hs slot hslot c hc => ⟨hq.2 _ hq.1 _ hs slot hslot c hc, hq.2⟩)
    (fun hm _ hq => ⟨hq.1, hm.enclosed hq.2⟩)
    (fun _ hq hs => by
      refine (Moves.setSpace hs ?_).mono (cons_subset.mpr ⟨hq.1, nil_subset _⟩)
      exact ⟨rfl, rfl, Region.sorted_taken_perm _, rfl, rfl⟩) fuel ⟨hid, hc⟩ h

theorem setBaseUpTo_moves (fuel : Nat) (hc : ws.Enclosed ids) (hid : id ∈ ids)
    (h : setBaseUpTo fuel id base ws = .ok u ws') : Moves ids ws ws' :=
  setBaseUpTo_along (R := Moves ids) (Q := fun j ws => j ∈ ids ∧ ws.Enclosed ids)
    (fun hq hs slot hslot c hc => ⟨hq.2 _ hq.1 _ hs slot hslot c hc, hq.2⟩)
    (fun hm _ hq => ⟨hq.1, hm.enclosed hq.2⟩)
    (fun _ hq hs => by
      refine (Moves.setSpace hs ?_).mono (cons_subset.mpr ⟨hq.1, nil_subset _⟩)
      exact ⟨rfl, rfl, List.Perm.refl _, rfl, rfl⟩) fuel ⟨hid, hc⟩ h

theorem setPathUpTo_ok (fuel : Nat) (t : Tree SpaceId) {path : Path} (ho : ws.Nests t)
    (hl : ws.Laid t) (h : setPathUpTo fuel t.data path ws = .ok u ws') : Moves t.toList ws ws' :=
  setPathUpTo_moves fuel (hl.enclosed ho) t.data_mem_toList h

theorem setBaseUpTo_ok (fuel : Nat) (t : Tree SpaceId) (ho : ws.Nests t)
    (hl : ws.Laid t) (h : setBaseUpTo fuel t.data base ws = .ok u ws') :
    Moves t.toList ws ws' ∧ ws'.Based t ∧
      ∃ s, ws'.space? t.data = some s ∧ s.region.base = base := by
  induction fuel generalizing t base ws ws' u with
  | zero => cases h
  | succ fuel ih =>
    cases t with
    | node id ts =>
      obtain ⟨s, hs, hrun⟩ := setBaseUpTo_run h
      have hs1 := Workspace.space?_setSpace_self hs { s with region := { s.region with base := base } }
      have hmove : Moves (Tree.node id ts).toList ws
          (ws.setSpace id { s with region := { s.region with base := base } }) := by
        refine (Moves.setSpace hs ?_).mono
          (cons_subset.mpr ⟨(Tree.node id ts).data_mem_toList, nil_subset _⟩)
        exact ⟨rfl, rfl, List.Perm.refl _, rfl, rfl⟩
      obtain ⟨s1, hs1', hl1⟩ := hmove.laid hl _ (Tree.mem_subtrees_self _)
      obtain rfl := Option.mem_unique hs1' hs1
      obtain ⟨-, hroot, hapart⟩ := Tree.nodup_node ho.ids
      have hend := hrun (fun done w => Moves (Tree.node id ts).toList ws w ∧
        w.space? id = some { s with region := { s.region with base := base } } ∧
        ∀ slot ∈ done, ∀ v ∈ ts, slot.item = .space v.data →
          w.Based v ∧ ∃ t, w.space? v.data = some t ∧ t.region.base = base + slot.lo)
        ⟨hmove, hs1, by simp⟩ ?_
      swap
      · rintro done slot rest w w1 hslots ⟨hw, hid, hdone⟩ (⟨c, _, hc, hset⟩ | ⟨hc, rfl⟩)
        · have hsub : done ++ [slot] ⊆ s.region.taken := by
            rw [hslots, append_cons done slot rest]
            exact subset_append_left _ _
          have hslot : slot ∈ s.region.taken := hsub (by simp)
          obtain ⟨v, hv, rfl⟩ := hl1.exists_child (ho.frame hmove.frame) hs1 hslot hc
          have hlv : w.Laid v := hw.laid ((Tree.forall_subtrees_node.mp hl).2 v hv)
          obtain ⟨hmv, hbv, t, ht, htb⟩ := ih v ((ho.child hv).frame hw.frame) hlv hset
          refine ⟨hw.trans (hmv.mono fun j hj => Tree.mem_toList_of_child hv hj), ?_, ?_⟩
          · rw [hmv.spaces id (hroot v hv)]
            exact hid
          · intro slot' hslot' v' hv' hitem
            by_cases he : v' = v
            · subst he
              have hlo : slot.lo = slot'.lo := by
                obtain ⟨t1, -, ht1, hrel1, -⟩ := (hl1.fits slot hslot).inner _ hc
                obtain ⟨t2, -, ht2, hrel2, -⟩ := (hl1.fits slot' (hsub hslot')).inner _ hitem
                rw [← hrel1, ← hrel2, Option.mem_unique ht1 ht2]
              exact ⟨hbv, t, ht, by rw [htb, hlo]⟩
            · rcases mem_append.mp hslot' with hm | hm
              · obtain ⟨hb, t', ht', htb'⟩ := hdone slot' hm v' hv' hitem
                have hsame : ∀ j ∈ v'.toList, w1.space? j = w.space? j := fun j hj =>
                  hmv.spaces j (hapart v' hv' v hv he hj)
                exact ⟨hb.congr hsame, t', by rwa [hsame _ v'.data_mem_toList], htb'⟩
              · rw [mem_singleton.mp hm, hc] at hitem
                exact absurd (Tree.eq_of_data_eq ho.ids hv' hv (Occupant.space.inj hitem).symm) he
        · refine ⟨hw, hid, forall_mem_append.mpr ⟨hdone, forall_mem_singleton.mpr ?_⟩⟩
          intro v' _ hitem
          rw [hitem] at hc
          cases hc
      obtain ⟨hm, hid, hall⟩ := hend
      obtain ⟨s1, hs1', hl'⟩ := hm.laid hl _ (Tree.mem_subtrees_self _)
      obtain rfl := Option.mem_unique hs1' hid
      -- every tree below has a slot
      have hslot : ∀ v ∈ ts, ∃ slot ∈ s.region.taken, slot.item = .space v.data := fun v hv =>
        mem_map.mp (hl'.items.mem_iff.mpr
          (mem_append_left _ ((ho.frame hm.frame).child_mem hid hv)))
      refine ⟨hm, Tree.forall_subtrees_node.mpr ⟨?_, ?_⟩, _, hid, rfl⟩
      · intro v hv
        obtain ⟨slot, hsm, hitem⟩ := hslot v hv
        obtain ⟨-, t, ht, htb⟩ := hall slot hsm v hv hitem
        obtain ⟨t', -, ht', hrel, -⟩ := (hl'.fits slot hsm).inner _ hitem
        obtain rfl := Option.mem_unique ht ht'
        exact ⟨_, t, hid, ht, by rw [htb, hrel]⟩
      · intro v hv
        obtain ⟨slot, hsm, hitem⟩ := hslot v hv
        exact (hall slot hsm v hv hitem).1

end SpaceId

end RegisterMap
