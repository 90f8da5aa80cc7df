import RegisterMap.Proofs.Region.Spaced
import RegisterMap.Proofs.Workspace.Run

/-! # What work leaves as it was

Registers, memories and passengers take addresses but hold no items: they are the leaves of an address
map.  Of a leaf only the address changes when spaces are resolved (`Register.unplaced`,
`Passenger.unplaced`).  Of a space the items of its requests stay (`AddressSpace.items`) and all that is
neither in its region nor in its ledger (`AddressSpace.profile`).  A resolved space keeps its slots
(`AddressSpace.Kept`).

`Frame ids xs ws ws'` says that work has led from `ws` to `ws'` in this way and has touched no spaces
but those in `ids` and no leaves but those in `xs`. -/

namespace RegisterMap

open Build Option

variable {ws : Workspace}

/-- What an address map depends on of a register, a memory or a passenger. -/
structure Leaf where
  aw : Int
  /-- Address inside its region. -/
  base : Option Int
  /-- The copies that a loop makes. -/
  copies : List Occupant
deriving DecidableEq, Repr, Inhabited

def Leaf.shape (l : Leaf) : Int × List Occupant := (l.aw, l.copies)

/-- A register without the addresses that it is told. -/
def Register.unplaced (r : Register) : Register := { r with base := none, blockAw := none }

/-- A passenger without the addresses that it is told. -/
def Passenger.unplaced (p : Passenger) : Passenger := { p with ownBase := none, ownBlockAw := none }

def Register.leaf (r : Register) : Leaf := ⟨r.aw, r.base, r.copies.map .register⟩

def Passenger.leaf (p : Passenger) : Leaf := ⟨p.aw, p.ownBase, p.copies.map .passenger⟩

/-- The space that an occupant is. -/
def Occupant.inner? : Occupant → Option SpaceId
  | .space c => some c
  | _ => none

theorem Occupant.inner?_eq_some {o : Occupant} {c : SpaceId} : o.inner? = some c ↔ o = .space c := by
  cases o <;> simp [Occupant.inner?]

/-- Registers, memories and passengers are leaves. -/
def Occupant.isLeaf : Occupant → Bool
  | .register _ | .passenger _ => true
  | _ => false

/-- The items of the requests on a shelf. -/
def AddressSpace.items (s : AddressSpace) (shelf : Shelf) : List Occupant :=
  (s.ledger.on shelf).map Staged.item

/-- The items that are placed one by one. -/
def AddressSpace.singles (s : AddressSpace) : List Occupant := s.items .explicits ++ s.items .entries

/-- The items that stand for all copies of a loop. -/
def AddressSpace.looped (s : AddressSpace) : List Occupant := s.items .explicitLoops ++ s.items .loops

/-- What a space is apart from its region and its requests. -/
def AddressSpace.profile (s : AddressSpace) : AddressSpace := { s with region := default, ledger := {} }

/-- A resolved space keeps its slots. -/
structure AddressSpace.Kept (s s' : AddressSpace) : Prop where
  ledger : s'.ledger = s.ledger
  taken : s'.region.taken.Perm s.region.taken

theorem AddressSpace.Kept.refl (s : AddressSpace) : s.Kept s := ⟨rfl, List.Perm.refl _⟩

theorem AddressSpace.Kept.trans {s s' s'' : AddressSpace} (h : s.Kept s') (h' : s'.Kept s'') :
    s.Kept s'' where
  ledger := h'.ledger.trans h.ledger
  taken := h'.taken.trans h.taken

namespace Workspace

variable {ws : Workspace} {x : Occupant}

def leaf? (ws : Workspace) : Occupant → Option Leaf
  | .register id => ws.registers[id.index]?.map Register.leaf
  | .passenger id => ws.passengers[id.index]?.map Passenger.leaf
  | _ => none

def copiesOf (ws : Workspace) (x : Occupant) : List Occupant := ((ws.leaf? x).map Leaf.copies).getD []

/-- The leaves that are staged in a space, all copies included. -/
def members (ws : Workspace) (s : AddressSpace) : List Occupant :=
  s.singles.filter (fun o => o.inner?.isNone) ++ s.looped.flatMap ws.copiesOf

/-- The leaves that are staged in the space of an identity. -/
def membersOf (ws : Workspace) (id : SpaceId) : List Occupant :=
  ((ws.space? id).map ws.members).getD []

theorem shape_eq {ws' : Workspace}
    (hr : ∀ n : Nat, ws'.registers[n]?.map Register.unplaced = ws.registers[n]?.map Register.unplaced)
    (hp : ∀ n : Nat,
      ws'.passengers[n]?.map Passenger.unplaced = ws.passengers[n]?.map Passenger.unplaced)
    (x : Occupant) : (ws'.leaf? x).map Leaf.shape = (ws.leaf? x).map Leaf.shape := by
  cases x with
  | register id =>
    have := congrArg (Option.map fun r => (Register.leaf r).shape) (hr id.index)
    simp only [map_map] at this
    simp only [leaf?, map_map]
    exact this
  | passenger id =>
    have := congrArg (Option.map fun p => (Passenger.leaf p).shape) (hp id.index)
    simp only [map_map] at this
    simp only [leaf?, map_map]
    exact this
  | _ => rfl

theorem copiesOf_eq_of_leaf? {l : Leaf} (h : ws.leaf? x = some l) : ws.copiesOf x = l.copies := by
  unfold copiesOf
  rw [h]
  rfl

theorem isLeaf_of_mem_copiesOf {y : Occupant} (h : y ∈ ws.copiesOf x) : y.isLeaf = true := by
  unfold copiesOf leaf? at h
  cases x with
  | register id =>
    cases hr : ws.registers[id.index]? with
    | none => simp [hr] at h
    | some r =>
      simp only [hr, map_some, getD_some, Register.leaf, List.mem_map] at h
      obtain ⟨_, -, rfl⟩ := h
      rfl
  | passenger id =>
    cases hp : ws.passengers[id.index]? with
    | none => simp [hp] at h
    | some p =>
      simp only [hp, map_some, getD_some, Passenger.leaf, List.mem_map] at h
      obtain ⟨_, -, rfl⟩ := h
      rfl
  | _ => cases h

theorem copiesOf_congr {ws' : Workspace}
    (h : (ws'.leaf? x).map Leaf.shape = (ws.leaf? x).map Leaf.shape) : ws'.copiesOf x = ws.copiesOf x := by
  have := congrArg (Option.map Prod.snd) h
  simp only [map_map] at this
  exact congrArg (fun o => o.getD []) this

end Workspace

/-- Nothing but the spaces `ids` and the leaves `xs` was touched, and what stays was kept. -/
structure Frame (ids : List SpaceId) (xs : List Occupant) (ws ws' : Workspace) : Prop where
  policy : ws'.policy = ws.policy
  busses : ws'.busses = ws.busses
  blocks : ws'.blocks = ws.blocks
  registers : ∀ n : Nat,
    ws'.registers[n]?.map Register.unplaced = ws.registers[n]?.map Register.unplaced
  passengers : ∀ n : Nat,
    ws'.passengers[n]?.map Passenger.unplaced = ws.passengers[n]?.map Passenger.unplaced
  profile : ∀ j, (ws'.space? j).map AddressSpace.profile = (ws.space? j).map AddressSpace.profile
  items : ∀ j, (ws'.space? j).map AddressSpace.items = (ws.space? j).map AddressSpace.items
  kept : ∀ j s, ws.space? j = some s → s.ledger.resolved = true →
    ∃ s', ws'.space? j = some s' ∧ s.Kept s'
  spaces : ∀ j, j ∉ ids → ws'.space? j = ws.space? j
  leaves : ∀ x, x ∉ xs → ws'.leaf? x = ws.leaf? x

namespace Frame

variable {ids ids' : List SpaceId} {xs xs' : List Occupant} {ws ws' ws'' : Workspace}
  {s : AddressSpace}

theorem refl (ids : List SpaceId) (xs : List Occupant) (ws : Workspace) : Frame ids xs ws ws :=
  ⟨rfl, rfl, rfl, fun _ => rfl, fun _ => rfl, fun _ => rfl, fun _ => rfl,
    fun _ s hs _ => ⟨s, hs, .refl s⟩, fun _ _ => rfl, fun _ _ => rfl⟩

section

variable (h : Frame ids xs ws ws')

include h

theorem size_eq : ws'.spaces.size = ws.spaces.size := by
  have hsome : ∀ n : Nat, n < ws'.spaces.size ↔ n < ws.spaces.size := fun n => by
    have := congrArg Option.isNone (h.profile ⟨n⟩)
    rw [isNone_map, isNone_map, Bool.eq_iff_iff, isNone_iff_eq_none, isNone_iff_eq_none] at this
    unfold Workspace.space? at this
    rw [Array.getElem?_eq_none_iff, Array.getElem?_eq_none_iff] at this
    dsimp only at this
    omega
  have := hsome ws.spaces.size
  have := hsome ws'.spaces.size
  omega

theorem trans (h' : Frame ids xs ws' ws'') : Frame ids xs ws ws'' where
  policy := h'.policy.trans h.policy
  busses := h'.busses.trans h.busses
  blocks := h'.blocks.trans h.blocks
  registers n := (h'.registers n).trans (h.registers n)
  passengers n := (h'.passengers n).trans (h.passengers n)
  profile j := (h'.profile j).trans (h.profile j)
  items j := (h'.items j).trans (h.items j)
  kept j s hs hr := by
    obtain ⟨s', hs', hk⟩ := h.kept j s hs hr
    obtain ⟨s'', hs'', hk'⟩ := h'.kept j s' hs' (by rw [hk.ledger]; exact hr)
    exact ⟨s'', hs'', hk.trans hk'⟩
  spaces j hj := (h'.spaces j hj).trans (h.spaces j hj)
  leaves x hx := (h'.leaves x hx).trans (h.leaves x hx)

theorem mono (hi : ids ⊆ ids') (hx : xs ⊆ xs') : Frame ids' xs' ws ws' :=
  { h with
    spaces := fun j hj => h.spaces j fun hm => hj (hi hm)
    leaves := fun x hm => h.leaves x fun hm' => hm (hx hm') }

theorem mono_ids (hi : ids ⊆ ids') : Frame ids' xs ws ws' :=
  h.mono hi (List.Subset.refl _)

theorem mono_leaves (hx : xs ⊆ xs') : Frame ids xs' ws ws' :=
  h.mono (List.Subset.refl _) hx

end

/-- First spaces are touched, then leaves. -/
theorem andLeaves (h : Frame ids [] ws ws') (h' : Frame [] xs ws' ws'') : Frame ids xs ws ws'' :=
  (h.mono_leaves (List.nil_subset _)).trans (h'.mono_ids (List.nil_subset _))

section

variable (h : Frame ids xs ws ws')

include h

theorem shape (x : Occupant) :
    (ws'.leaf? x).map Leaf.shape = (ws.leaf? x).map Leaf.shape :=
  Workspace.shape_eq h.registers h.passengers x

theorem copiesOf_eq (x : Occupant) : ws'.copiesOf x = ws.copiesOf x :=
  Workspace.copiesOf_congr (h.shape x)

theorem members_eq {s' : AddressSpace} (hs : s'.items = s.items) :
    ws'.members s' = ws.members s := by
  unfold Workspace.members AddressSpace.singles AddressSpace.looped
  rw [hs, show ws'.copiesOf = ws.copiesOf from funext h.copiesOf_eq]

theorem membersOf_eq (id : SpaceId) :
    ws'.membersOf id = ws.membersOf id := by
  have hi := h.items id
  unfold Workspace.membersOf
  cases hs : ws.space? id with
  | none =>
    rw [hs] at hi
    rw [map_eq_none_iff.mp hi]
    rfl
  | some s =>
    rw [hs] at hi
    obtain ⟨s', hs', he⟩ := map_eq_some_iff.mp hi
    rw [hs']
    exact h.members_eq he

theorem leaf?_eq_some {x : Occupant} {l : Leaf}
    (hl : ws.leaf? x = some l) : ∃ l', ws'.leaf? x = some l' ∧ l'.aw = l.aw ∧ l'.copies = l.copies := by
  have hs := h.shape x
  rw [hl] at hs
  obtain ⟨l', hl', he⟩ := map_eq_some_iff.mp hs
  exact ⟨l', hl', congrArg Prod.fst he, congrArg Prod.snd he⟩

theorem space?_eq_some {j : SpaceId}
    (hs : ws.space? j = some s) : ∃ s', ws'.space? j = some s' ∧ s'.items = s.items := by
  have hi := h.items j
  rw [hs] at hi
  exact map_eq_some_iff.mp hi

end

/-- Replacing a space by one with the same items, which keeps the slots if it was resolved. -/
theorem setSpace {id : SpaceId} {s' : AddressSpace} (hs : ws.space? id = some s)
    (hi : s'.items = s.items) (hp : s'.profile = s.profile)
    (hk : s.ledger.resolved = true → s.Kept s') : Frame [id] [] ws (ws.setSpace id s') where
  policy := rfl
  busses := rfl
  blocks := rfl
  registers _ := rfl
  passengers _ := rfl
  profile j := by
    by_cases hj : id = j
    · subst hj
      rw [Workspace.space?_setSpace_self hs, hs]
      exact congrArg some hp
    · rw [Workspace.space?_setSpace_of_ne hj]
  items j := by
    by_cases hj : id = j
    · subst hj
      rw [Workspace.space?_setSpace_self hs, hs]
      exact congrArg some hi
    · rw [Workspace.space?_setSpace_of_ne hj]
  kept j q hq hr := by
    by_cases hj : id = j
    · subst hj
      obtain rfl := mem_unique hs hq
      exact ⟨s', Workspace.space?_setSpace_self hs s', hk hr⟩
    · exact ⟨q, by rwa [Workspace.space?_setSpace_of_ne hj], .refl q⟩
  spaces j hj := Workspace.space?_setSpace_of_ne (by rintro rfl; simp at hj) _
  leaves _ _ := rfl

theorem of_spaces (hp : ws'.policy = ws.policy) (hb : ws'.busses = ws.busses)
    (hbl : ws'.blocks = ws.blocks) (hs : ws'.spaces = ws.spaces)
    (hr : ∀ n : Nat, ws'.registers[n]?.map Register.unplaced = ws.registers[n]?.map Register.unplaced)
    (hpa : ∀ n : Nat,
      ws'.passengers[n]?.map Passenger.unplaced = ws.passengers[n]?.map Passenger.unplaced)
    (hl : ∀ x, x ∉ xs → ws'.leaf? x = ws.leaf? x) : Frame [] xs ws ws' := by
  have hspace : ∀ j, ws'.space? j = ws.space? j := fun j => by
    unfold Workspace.space?
    rw [hs]
  exact ⟨hp, hb, hbl, hr, hpa, fun j => by rw [hspace], fun j => by rw [hspace],
    fun j s h _ => ⟨s, by rwa [hspace], .refl s⟩, fun j _ => hspace j, hl⟩

end Frame

/-! ### Telling a leaf its address -/

/-- A kind of leaf: where its entries stand in a workspace, and how an address map sees one. -/
structure LeafKind (ε : Type) where
  item : Nat → Occupant
  leaf : ε → Leaf
  unplaced : ε → ε
  entries : Workspace → Array ε
  put : Workspace → Array ε → Workspace
  entries_put : ∀ ws es, entries (put ws es) = es
  leaf?_item : ∀ ws n, ws.leaf? (item n) = (entries ws)[n]?.map leaf
  leaf?_put : ∀ ws es x, (∀ n, x ≠ item n) → (put ws es).leaf? x = ws.leaf? x
  rest : ∀ ws es, { put ws es with registers := ws.registers, passengers := ws.passengers } = ws
  /-- Entries that differ in addresses only make for a frame. -/
  frame : ∀ {ws es xs}, (∀ n : Nat, es[n]?.map unplaced = (entries ws)[n]?.map unplaced) →
    (∀ x, x ∉ xs → (put ws es).leaf? x = ws.leaf? x) → Frame [] xs ws (put ws es)

namespace LeafKind

abbrev register : LeafKind Register where
  item n := .register ⟨n⟩
  leaf := Register.leaf
  unplaced := Register.unplaced
  entries := Workspace.registers
  put ws es := { ws with registers := es }
  entries_put _ _ := rfl
  leaf?_item _ _ := rfl
  leaf?_put _ _ x h := by
    cases x with
    | register id => exact absurd rfl (h id.index)
    | _ => rfl
  rest _ _ := rfl
  frame hu hl := Frame.of_spaces rfl rfl rfl rfl hu (fun _ => rfl) hl

abbrev passenger : LeafKind Passenger where
  item n := .passenger ⟨n⟩
  leaf := Passenger.leaf
  unplaced := Passenger.unplaced
  entries := Workspace.passengers
  put ws es := { ws with passengers := es }
  entries_put _ _ := rfl
  leaf?_item _ _ := rfl
  leaf?_put _ _ x h := by
    cases x with
    | passenger id => exact absurd rfl (h id.index)
    | _ => rfl
  rest _ _ := rfl
  frame hu hl := Frame.of_spaces rfl rfl rfl rfl (fun _ => rfl) hu hl

variable {ε : Type} (k : LeafKind ε) {n : Nat} {e e' : ε}

theorem leaf?_of_entry (h : (k.entries ws)[n]? = some e) : ws.leaf? (k.item n) = some (k.leaf e) :=
  (k.leaf?_item ws n).trans (congrArg (Option.map k.leaf) h)

theorem leaf?_set (h : (k.entries ws)[n]? = some e) (e' : ε) (x : Occupant) :
    (k.put ws ((k.entries ws).setIfInBounds n e')).leaf? x =
      if x = k.item n then some (k.leaf e') else ws.leaf? x := by
  obtain ⟨hlt, -⟩ := Array.getElem?_eq_some_iff.mp h
  split
  · rename_i hx
    rw [hx, k.leaf?_item, k.entries_put, Array.getElem?_setIfInBounds_self_of_lt hlt]
    rfl
  · rename_i hx
    by_cases hitem : ∃ m, x = k.item m
    · obtain ⟨m, rfl⟩ := hitem
      rw [k.leaf?_item, k.entries_put, k.leaf?_item,
        Array.getElem?_setIfInBounds_ne fun hn => hx (congrArg k.item hn.symm)]
    · exact k.leaf?_put _ _ x (not_exists.mp hitem)

theorem frame_set {xs : List Occupant} (h : (k.entries ws)[n]? = some e)
    (hu : k.unplaced e' = k.unplaced e) (hx : k.leaf e' = k.leaf e ∨ k.item n ∈ xs) :
    Frame [] xs ws (k.put ws ((k.entries ws).setIfInBounds n e')) := by
  refine k.frame (fun m => ?_) fun x hm => ?_
  · obtain ⟨hlt, -⟩ := Array.getElem?_eq_some_iff.mp h
    by_cases hn : n = m
    · subst hn
      rw [Array.getElem?_setIfInBounds_self_of_lt hlt, h]
      exact congrArg some hu
    · rw [Array.getElem?_setIfInBounds_ne hn]
  · rw [k.leaf?_set h]
    split
    · rename_i he
      subst he
      rcases hx with hx | hx
      · rw [hx, k.leaf?_of_entry h]
      · exact absurd hx hm
    · rfl

end LeafKind

theorem RegisterId.update_ok {id : RegisterId} {f : Register → Register} {ws' : Workspace}
    {u : Unit} (h : id.update f ws = .ok u ws') :
    ∃ r, ws.registers[id.index]? = some r ∧
      ws' = { ws with registers := ws.registers.setIfInBounds id.index (f r) } := by
  obtain ⟨r, hr, hset⟩ := bind_entryOf_ok h
  cases hset
  exact ⟨r, hr, rfl⟩

theorem PassengerId.update_ok {id : PassengerId} {f : Passenger → Passenger} {ws' : Workspace}
    {u : Unit} (h : id.update f ws = .ok u ws') :
    ∃ p, ws.passengers[id.index]? = some p ∧
      ws' = { ws with passengers := ws.passengers.setIfInBounds id.index (f p) } := by
  obtain ⟨p, hp, hset⟩ := bind_entryOf_ok h
  cases hset
  exact ⟨p, hp, rfl⟩

namespace Occupant

variable {ws ws' : Workspace} {u : Unit} {o : Occupant} {l : Leaf}

/-- The leaf is replaced, and nothing else changes. -/
structure Retold (o : Occupant) (l' : Leaf) (ws ws' : Workspace) : Prop where
  frame : Frame [] [o] ws ws'
  leaf : ws'.leaf? o = some l'

theorem Retold.spaces {l' : Leaf} (h : o.Retold l' ws ws') (j : SpaceId) :
    ws'.space? j = ws.space? j :=
  h.frame.spaces j (by simp)

theorem Retold.leaves {l' : Leaf} (h : o.Retold l' ws ws') (x : Occupant) :
    ws'.leaf? x = if x = o then some l' else ws.leaf? x := by
  split
  · rename_i hx
    rw [hx]
    exact h.leaf
  · rename_i hx
    exact h.frame.leaves x (by simpa using hx)

theorem setBase_ok (hl : ws.leaf? o = some l) {base : Int}
    (h : o.setBase base ws = .ok u ws') : o.Retold { l with base := some base } ws ws' := by
  cases o with
  | register id =>
    obtain ⟨r, hr, rfl⟩ := RegisterId.update_ok h
    obtain rfl : r.leaf = l :=
      mem_unique (congrArg (Option.map Register.leaf) hr) hl
    exact ⟨LeafKind.register.frame_set hr rfl (.inr List.mem_cons_self),
      (LeafKind.register.leaf?_set hr _ _).trans (if_pos rfl)⟩
  | passenger id =>
    obtain ⟨p, hp, rfl⟩ := PassengerId.update_ok h
    obtain rfl : p.leaf = l :=
      mem_unique (congrArg (Option.map Passenger.leaf) hp) hl
    exact ⟨LeafKind.passenger.frame_set hp rfl (.inr List.mem_cons_self),
      (LeafKind.passenger.leaf?_set hp _ _).trans (if_pos rfl)⟩
  | _ => cases hl

theorem exists_leaf_of_setBase (ho : o.isLeaf = true) {base : Int}
    (h : o.setBase base ws = .ok u ws') : ∃ l, ws.leaf? o = some l := by
  cases o with
  | register id =>
    obtain ⟨r, hr, -⟩ := RegisterId.update_ok h
    exact ⟨r.leaf, congrArg (Option.map Register.leaf) hr⟩
  | passenger id =>
    obtain ⟨p, hp, -⟩ := PassengerId.update_ok h
    exact ⟨p.leaf, congrArg (Option.map Passenger.leaf) hp⟩
  | _ => cases ho

theorem setBlockAw_ok {aw : Int} (h : o.setBlockAw aw ws = .ok u ws') : Frame [] [] ws ws' := by
  cases o with
  | register id =>
    obtain ⟨r, hr, rfl⟩ := RegisterId.update_ok h
    exact LeafKind.register.frame_set hr rfl (.inl rfl)
  | passenger id =>
    obtain ⟨p, hp, rfl⟩ := PassengerId.update_ok h
    exact LeafKind.passenger.frame_set hp rfl (.inl rfl)
  | _ =>
    obtain ⟨-, rfl⟩ := pure_ok h
    exact Frame.refl _ _ _

/-! ### Reading an occupant -/

theorem copies_ok {cs : List Occupant} (h : o.copies ws = .ok cs ws') :
    ws' = ws ∧ cs = ws.copiesOf o := by
  cases o with
  | register id =>
    obtain ⟨r, hr, h1⟩ := bind_entryOf_ok h
    obtain ⟨rfl, rfl⟩ := pure_ok h1
    refine ⟨rfl, ?_⟩
    unfold Workspace.copiesOf Workspace.leaf?
    dsimp only
    rw [hr]
    rfl
  | passenger id =>
    obtain ⟨p, hp, h1⟩ := bind_entryOf_ok h
    obtain ⟨rfl, rfl⟩ := pure_ok h1
    refine ⟨rfl, ?_⟩
    unfold Workspace.copiesOf Workspace.leaf?
    dsimp only
    rw [hp]
    rfl
  | _ => cases h

theorem declaredWidth_ok (hl : ws.leaf? o = some l) {w : Option Int}
    (h : o.declaredWidth ws = .ok w ws') : ws' = ws ∧ w = some l.aw := by
  cases o with
  | register id =>
    obtain ⟨r, hr, h1⟩ := bind_entryOf_ok h
    obtain ⟨rfl, rfl⟩ := pure_ok h1
    obtain rfl : r.leaf = l :=
      mem_unique (congrArg (Option.map Register.leaf) hr) hl
    exact ⟨rfl, rfl⟩
  | passenger id =>
    obtain ⟨p, hp, h1⟩ := bind_entryOf_ok h
    obtain ⟨rfl, rfl⟩ := pure_ok h1
    obtain rfl : p.leaf = l :=
      mem_unique (congrArg (Option.map Passenger.leaf) hp) hl
    exact ⟨rfl, rfl⟩
  | _ => cases hl

theorem exists_leaf_of_declaredWidth (ho : o.isLeaf = true) {w : Option Int}
    (h : o.declaredWidth ws = .ok w ws') : ∃ l, ws.leaf? o = some l := by
  cases o with
  | register id =>
    obtain ⟨r, ws1, hr, -⟩ := bind_ok h
    exact ⟨r.leaf, congrArg (Option.map Register.leaf) (entryOf_ok hr).1⟩
  | passenger id =>
    obtain ⟨p, ws1, hp, -⟩ := bind_ok h
    exact ⟨p.leaf, congrArg (Option.map Passenger.leaf) (entryOf_ok hp).1⟩
  | _ => cases ho

theorem declaredWidth_leaf (hl : ws.leaf? item = some l) :
    item.declaredWidth ws = .ok (some l.aw) ws := by
  cases item with
  | register id =>
    obtain ⟨r, hr, rfl⟩ := map_eq_some_iff.mp hl
    exact bind_of_ok (entryOf_of_some hr) _
  | passenger id =>
    obtain ⟨p, hp, rfl⟩ := map_eq_some_iff.mp hl
    exact bind_of_ok (entryOf_of_some hp) _
  | _ => cases hl

end Occupant

end RegisterMap
