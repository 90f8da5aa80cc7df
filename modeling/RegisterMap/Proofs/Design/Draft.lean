import RegisterMap.Design.Module
import RegisterMap.Proofs.AddressSpace.Packing
import RegisterMap.Proofs.Workspace.Ensures

/-! # Workspaces while modules are read

While modules are read nothing is placed: requests for registers and passengers are collected in the
spaces of the modules, and no leaf has an address yet (`Workspace.Draft`).  Reading leads from a draft
to a draft in which every space is still there under its domain (`Workspace.Grows`). -/

namespace RegisterMap

open Build

theorem getElem?_push_of_some {α : Type} {xs : Array α} {n : Nat} {a b : α} (h : xs[n]? = some a) :
    (xs.push b)[n]? = some a := by
  obtain ⟨hlt, -⟩ := Array.getElem?_eq_some_iff.mp h
  rw [Array.getElem?_push, if_neg (by omega)]
  exact h

theorem AddressSpace.Waiting.of_leaves {s : AddressSpace} (ho : s.Open)
    (hl : ∀ x ∈ s.queue, x.isLeaf = true) : s.Waiting [] where
  opened := ho
  known x hx := .inl (hl x hx)
  nodup := by
    have hnil : s.guests = [] := List.filterMap_eq_nil_iff.mpr fun x hx => by
      cases x with
      | space c => exact absurd (hl _ hx) (by simp [Occupant.isLeaf])
      | _ => rfl
    rw [hnil]
    exact List.nodup_nil

theorem AddressSpace.Waiting.isLeaf {s : AddressSpace} (h : s.Waiting []) {x : Occupant}
    (hx : x ∈ s.queue) : x.isLeaf = true :=
  (h.known x hx).resolve_right (by simp)

theorem AddressSpace.Waiting.stage {s : AddressSpace} (h : s.Waiting []) {shelf : Shelf}
    (hshelf : shelf ≠ .keepouts) {request : Staged} (hp : request.placed = false)
    (hl : request.item.isLeaf = true) :
    ({ s with ledger := s.ledger.stage shelf request } : AddressSpace).Waiting [] := by
  refine .of_leaves (h.opened.stage hshelf hp) fun x hx => ?_
  have hold : x = request.item ∨ x ∈ s.queue := by
    simp only [queue, items, List.mem_flatMap, List.mem_map] at hx ⊢
    obtain ⟨pass, hpass, shelf', hshelf', r, hr, rfl⟩ := hx
    replace hr : r ∈ (s.ledger.put shelf (s.ledger.on shelf ++ [request])).on shelf' := by
      cases shelf' <;> exact hr
    rw [Ledger.on_put] at hr
    split at hr
    · rename_i he
      rcases List.mem_append.mp hr with hr | hr
      · exact .inr ⟨pass, hpass, shelf', hshelf', r, by rwa [he], rfl⟩
      · exact .inl (by rw [List.mem_singleton.mp hr])
    · exact .inr ⟨pass, hpass, shelf', hshelf', r, hr, rfl⟩
  rcases hold with rfl | hx
  · exact hl
  · exact h.isLeaf hx

namespace Workspace

/-- Nothing is placed: the spaces ask for leaves, and no leaf has an address. -/
structure Draft (ws : Workspace) : Prop where
  waiting : ∀ id s, ws.space? id = some s → s.Waiting []
  unplaced : ∀ x l, ws.leaf? x = some l → l.base = none

theorem Draft.nonneg {ws : Workspace} (h : ws.Draft) : ws.Nonneg := fun x l b hl hb => by
  rw [h.unplaced x l hl] at hb
  cases hb

/-- A draft has become another one, with the same spaces under the same domains or more. -/
def Grows (ws ws' : Workspace) : Prop :=
  ws.Draft → ws'.Draft ∧ ws'.policy = ws.policy ∧
    ∀ id s, ws.space? id = some s → ∃ s', ws'.space? id = some s' ∧ s'.domain = s.domain

instance : IsPreorder Workspace Grows where
  refl _ h := ⟨h, rfl, fun _ s hs => ⟨s, hs, rfl⟩⟩
  trans _ _ _ h h' hd := by
    obtain ⟨hd1, hp1, hs1⟩ := h hd
    obtain ⟨hd2, hp2, hs2⟩ := h' hd1
    refine ⟨hd2, hp2.trans hp1, fun id s hs => ?_⟩
    obtain ⟨s1, hs1, hdom1⟩ := hs1 id s hs
    obtain ⟨s2, hs2, hdom2⟩ := hs2 id s1 hs1
    exact ⟨s2, hs2, hdom2.trans hdom1⟩

namespace Grows

variable {ws ws' : Workspace} {id : SpaceId} {s s' : AddressSpace}

theorem of_leaves (hp : ws'.policy = ws.policy) (hs : ws'.spaces = ws.spaces)
    (hl : ∀ x l', ws'.leaf? x = some l' → l'.base = none ∨ ∃ l, ws.leaf? x = some l ∧ l.base = l'.base) :
    Grows ws ws' := by
  have hspace : ∀ id, ws'.space? id = ws.space? id := fun id => by
    unfold space?
    rw [hs]
  refine fun hd => ⟨⟨fun id s h => hd.waiting id s (by rwa [← hspace]), fun x l' hx => ?_⟩, hp,
    fun id s h => ⟨s, by rwa [hspace], rfl⟩⟩
  rcases hl x l' hx with hb | ⟨l, hx', hb⟩
  · exact hb
  · exact hb ▸ hd.unplaced x l hx'

theorem of_same (hp : ws'.policy = ws.policy) (hs : ws'.spaces = ws.spaces)
    (hl : ∀ x, ws'.leaf? x = ws.leaf? x) : Grows ws ws' :=
  of_leaves hp hs fun x l' hx => .inr ⟨l', (hl x).symm.trans hx, rfl⟩

theorem setSpace (hs : ws.space? id = some s) (hd : s'.domain = s.domain)
    (hw : s.Waiting [] → s'.Waiting []) : Grows ws (ws.setSpace id s') := by
  refine fun hdraft => ⟨⟨fun j t ht => ?_, hdraft.unplaced⟩, rfl, fun j t ht => ?_⟩
  · by_cases hj : id = j
    · subst hj
      rw [space?_setSpace_self hs] at ht
      exact Option.some.inj ht ▸ hw (hdraft.waiting id s hs)
    · rw [space?_setSpace_of_ne hj] at ht
      exact hdraft.waiting j t ht
  · by_cases hj : id = j
    · subst hj
      obtain rfl := Option.mem_unique hs ht
      exact ⟨s', space?_setSpace_self hs s', hd⟩
    · exact ⟨t, by rwa [space?_setSpace_of_ne hj], rfl⟩

theorem push (hw : s.Waiting []) : Grows ws { ws with spaces := ws.spaces.push s } := by
  refine fun hdraft => ⟨⟨fun j t ht => ?_, hdraft.unplaced⟩, rfl,
    fun j t ht => ⟨t, getElem?_push_of_some ht, rfl⟩⟩
  unfold space? at ht
  rw [Array.getElem?_push] at ht
  split at ht
  · exact Option.some.inj ht ▸ hw
  · exact hdraft.waiting j t ht

end Grows

end Workspace

open Workspace (Grows)

/-! ### Blocks, busses and messages -/

theorem Build.say_grows (line : String) : Along Grows (say line) := by
  intro ws u ws' h
  cases h
  exact .of_same rfl rfl fun x => by cases x <;> rfl

theorem Build.note_grows (line : String) : Along Grows (note line) := by
  refine readOnly_get.along.bind fun ws => ?_
  split
  · exact say_grows line
  · exact along_pure _

theorem BlockId.make_grows (b : Block) : Along Grows (make b) := by
  intro ws id ws' h
  cases h
  exact .of_same rfl rfl fun x => by cases x <;> rfl

theorem BlockId.updateLoop_grows (id : BlockId) (f : Loop → Loop) : Along Grows (id.updateLoop f) := by
  refine id.readOnly_get.along.bind fun b ws u ws' h => ?_
  cases h
  exact .of_same rfl rfl fun x => by cases x <;> rfl

theorem BusId.make_grows (b : Bus) : Along Grows (make b) := by
  intro ws id ws' h
  cases h
  exact .of_same rfl rfl fun x => by cases x <;> rfl

/-! ### Registers and passengers -/

namespace LeafKind

variable {ε : Type} (k : LeafKind ε) {ws : Workspace} {n : Nat} {e e' : ε}

theorem grows_put {es : Array ε} (h : ∀ (n : Nat) e, es[n]? = some e → (k.leaf e).base = none ∨
      ∃ e0, (k.entries ws)[n]? = some e0 ∧ (k.leaf e0).base = (k.leaf e).base) :
    Grows ws (k.put ws es) := by
  refine .of_leaves (congrArg Workspace.policy (k.rest ws es) :) (congrArg Workspace.spaces (k.rest ws es) :)
    fun x l hx => ?_
  by_cases hitem : ∃ n, x = k.item n
  · obtain ⟨n, rfl⟩ := hitem
    rw [k.leaf?_item, k.entries_put] at hx
    obtain ⟨e, he, rfl⟩ := Option.map_eq_some_iff.mp hx
    exact (h n e he).imp_right fun ⟨e0, he0, hb⟩ => ⟨_, k.leaf?_of_entry he0, hb⟩
  · exact .inr ⟨l, k.leaf?_put ws es x (not_exists.mp hitem) ▸ hx, rfl⟩

theorem grows_push (hb : (k.leaf e).base = none) : Grows ws (k.put ws ((k.entries ws).push e)) := by
  refine k.grows_put fun m e1 he1 => ?_
  rw [Array.getElem?_push] at he1
  split at he1
  · exact .inl (Option.some.inj he1 ▸ hb)
  · exact .inr ⟨e1, he1, rfl⟩

theorem grows_set (h : (k.entries ws)[n]? = some e) (hb : (k.leaf e').base = (k.leaf e).base) :
    Grows ws (k.put ws ((k.entries ws).setIfInBounds n e')) := by
  refine k.grows_put fun m e1 he1 => ?_
  rw [Array.getElem?_setIfInBounds] at he1
  split at he1
  · rename_i hn
    subst hn
    split at he1
    · exact .inr ⟨e, h, Option.some.inj he1 ▸ hb.symm⟩
    · cases he1
  · exact .inr ⟨e1, he1, rfl⟩

end LeafKind

namespace RegisterId

theorem make_grows {r : Register} (hb : r.base = none) : Along Grows (make r) := by
  intro ws id ws' h
  cases h
  exact LeafKind.register.grows_push hb

theorem update_grows (id : RegisterId) {f : Register → Register} (hf : ∀ r, (f r).base = r.base) :
    Along Grows (id.update f) := by
  intro ws u ws' h
  obtain ⟨r, hr, rfl⟩ := update_ok h
  exact LeafKind.register.grows_set hr (hf r)

theorem get_set_grows (id : RegisterId) {f : Register → Register} (hf : ∀ r, (f r).base = r.base)
    {α : Type} {k : Register → Build α} (hk : ∀ r, Along Grows (k r)) :
    Along Grows (id.get >>= fun r => id.set (f r) >>= fun _ => k r) := by
  intro ws a ws' h
  obtain ⟨r, ws1, hr, h1⟩ := bind_ok h
  obtain ⟨u, ws2, hset, h2⟩ := bind_ok h1
  obtain rfl := id.readOnly_get hr
  have hupdate : id.update f ws1 = .ok u ws2 := by
    unfold update
    rw [bind_of_ok hr]
    exact hset
  exact IsTrans.trans _ _ _ (id.update_grows hf hupdate) (hk r h2)

theorem readNet_grows (id : RegisterId) (source : String) : Along Grows (id.readNet source) := by
  refine Build.readOnly_get.along.bind fun ws => along_lift fun ⟨range, kind⟩ _ => ?_
  dsimp only
  cases range with
  | none =>
    exact id.readOnly_get.along.bind fun r => along_lift fun _ _ => along_throw _
  | some range =>
    refine id.get_set_grows (f := fun r => { r with range := knownBounds range, netKind := kind })
      (fun _ => rfl) fun r => ?_
    split
    · split
      · exact Along.bind (id.update_grows fun _ => rfl) fun _ => along_pure _
      · exact (say_grows _).bind fun _ => along_pure _
    · split
      · split
        · exact along_lift fun _ _ => along_throw_bind _ _
        · exact along_pure _
      · split
        · exact Along.bind (id.update_grows fun _ => rfl) fun _ => along_lift fun _ _ =>
            along_throw_bind _ _
        · exact along_pure _

theorem readDeclaration_grows (id : RegisterId) : Along Grows id.readDeclaration := by
  refine id.readOnly_get.along.bind fun r => ?_
  split
  · exact along_pure _
  · split
    · refine Build.readOnly_get.along.bind fun ws => along_lift fun ⟨range, depth⟩ _ => ?_
      dsimp only
      exact Along.bind (id.update_grows fun _ => rfl) fun _ => along_pure _
    · exact id.readNet_grows _
  · exact along_refuse _

theorem takeDeclaration_grows (id other : RegisterId) : Along Grows (id.takeDeclaration other) := by
  refine other.readOnly_get.along.bind fun o => ?_
  dsimp only
  split
  · exact along_refuse_bind _ _
  · refine id.readOnly_get.along.bind fun r => ?_
    split
    · exact id.update_grows fun _ => rfl
    · refine Along.bind (id.update_grows fun _ => rfl) fun _ => ?_
      split
      · exact along_refuse_bind _ _
      · exact id.update_grows fun _ => rfl

end RegisterId

namespace PassengerId

theorem make_grows {p : Passenger} (hb : p.ownBase = none) : Along Grows (make p) := by
  intro ws id ws' h
  cases h
  exact LeafKind.passenger.grows_push hb

theorem update_grows (id : PassengerId) {f : Passenger → Passenger}
    (hf : ∀ p, (f p).ownBase = p.ownBase) : Along Grows (id.update f) := by
  intro ws u ws' h
  obtain ⟨p, hp, rfl⟩ := update_ok h
  exact LeafKind.passenger.grows_set hp (hf p)

end PassengerId

/-! ### Spaces and their requests -/

theorem Occupant.readOnly_inLoop (x : Occupant) : ReadOnly x.inLoop := by
  refine x.readOnly_block?.bind fun block => ?_
  cases block with
  | none => exact readOnly_pure _
  | some id => exact id.readOnly_get.bind fun _ => readOnly_pure _

namespace SpaceId

variable {ws ws' : Workspace} {id : SpaceId}

theorem make_bus_ok {label : String} {path : Option Path} {domain : Value}
    (h : SpaceId.make .bus 0 (Number.twoPow 24) (some label) path domain ws = .ok id ws') :
    ∃ s, id = ⟨ws.spaces.size⟩ ∧ ws' = { ws with spaces := ws.spaces.push s } ∧ s.Waiting [] ∧
      s.ledger = SpaceKind.bus.ledger ∧ s.domain = domain ∧ s.pseudoDomain = .none := by
  obtain ⟨r, hr, hfresh⟩ := Region.create_two_pow (ρ := Occupant) (n := 24) (by decide) "" path
  unfold make at h
  rw [show ((Number.twoPow 24 : Nat) : Int) = 2 ^ 24 from Number.natCast_twoPow 24, hr] at h
  cases h
  refine ⟨_, rfl, rfl, .of_leaves ⟨rfl, rfl, rfl, rfl, rfl, fun shelf q hq => ?_, ?_⟩ ?_, rfl, rfl, rfl⟩
  · cases shelf <;> cases hq
  · exact ⟨hfresh.base, hfresh.relativeBase, hfresh.aw, hfresh.extent, hfresh.taken, hfresh.vacant,
      hfresh.reserved⟩
  · intro x hx
    cases hx

theorem update_grows (id : SpaceId) {f : AddressSpace → AddressSpace}
    (hf : ∀ s, (f s).kind = s.kind ∧ (f s).region = s.region ∧ (f s).ledger = s.ledger ∧
      (f s).domain = s.domain) : Along Grows (id.update f) := by
  intro ws u ws' h
  obtain ⟨s, hs, rfl⟩ := update_ok h
  obtain ⟨hk, hr, hl, hd⟩ := hf s
  refine .setSpace hs hd fun hw => .of_leaves ?_ fun x hx => hw.isLeaf ?_
  · have ho := hw.opened
    exact ⟨hk.trans ho.kind, by rw [hl]; exact ho.passes, by rw [hl]; exact ho.passCount,
      by rw [hl]; exact ho.unresolved, by rw [hl]; exact ho.keepouts, by rw [hl]; exact ho.pending,
      by rw [hr]; exact ho.fresh⟩
  · rwa [← AddressSpace.queue_congr (show (f s).items = s.items by unfold AddressSpace.items; rw [hl])]

theorem add_grows (id : SpaceId) (width : Int) {x : Occupant} (hx : x.isLeaf = true)
    (addr : Option Int) : Along Grows (id.add width x addr) := by
  intro ws a ws' h hdraft
  obtain ⟨s, hs, h1⟩ := bind_get_ok h
  rw [(hdraft.waiting id s hs).opened.kind] at h1
  obtain ⟨loop, -, h2⟩ := x.readOnly_inLoop.bind_ok h1
  obtain ⟨_, hstage, -⟩ := bind_pure_ok h2
  obtain ⟨s', hs', rfl⟩ := update_ok hstage
  refine Grows.setSpace hs' rfl (fun hw => hw.stage ?_ rfl hx) hdraft
  cases loop <;> cases addr <;> simp

end SpaceId

end RegisterMap
