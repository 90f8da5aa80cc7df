import RegisterMap.Proofs.AddressSpace.Family
import RegisterMap.Proofs.AddressSpace.LoopAddresses
import RegisterMap.Proofs.Design.Populate

/-! # Copies that share their leaves

The spaces of all instances of a module are copies of one space.  They share the leaves that it asks
for, and each copy asks for the spaces of inner instances behind them (`SpaceId.copyWith`).  A copy is
resolved side by side with the space itself (`Workspace.Beside`) until it comes to the inner spaces,
and these leave the shared leaves alone (`Workspace.Family`).  So all copies place the leaves alike, in
whichever order they are resolved (`copies_place_alike`). -/

namespace RegisterMap

open Build List

/-- What a region is made of does not depend on its label. -/
theorem Region.create_relabel {ρ : Type} {lo hi : Int} {label : String} {path : Option Path}
    {r : Region ρ} (h : create lo hi label path = .ok r) (label' : String) :
    create lo hi label' path = .ok { r with label := label' } ∧ r.label = label ∧ r.taken = [] ∧
      r.vacant.map (fun g => { g with fixed := false }) = r.vacant ∧ r.reserved = [] := by
  unfold create at h ⊢
  cases hw : bits (ρ := ρ) (hi - lo - 1) with
  | error e =>
    rw [hw] at h
    cases h
  | ok w =>
    rw [hw] at h
    cases h
    exact ⟨rfl, rfl, rfl, rfl, rfl⟩

/-- A space as it was made, not resolved, which asks for leaves only. -/
structure AddressSpace.Master (s : AddressSpace) : Prop where
  kind : s.kind = .bus
  passes : s.ledger.passes = SpaceKind.bus.passes
  passCount : s.ledger.passCount = SpaceKind.bus.passes.length
  unresolved : s.ledger.resolved = false
  leaves : ∀ shelf, ∀ r ∈ s.ledger.on shelf, r.item.isLeaf = true
  region : Region.create s.region.base s.region.top s.region.label s.region.path = .ok s.region

/-- The space `s` has the region of `t` and all its requests, and more entries behind them. -/
structure AddressSpace.Twin (more : List Staged) (s t : AddressSpace) : Prop where
  region : s.region = t.region
  ledger : s.ledger = { t.ledger with entries := t.ledger.entries ++ more }

theorem AddressSpace.Twin.getElem? {more : List Staged} {s t : AddressSpace} (h : s.Twin more t)
    {shelf : Shelf} {n : Nat} (hn : shelf = .entries → n < t.ledger.entries.length) :
    (s.ledger.on shelf)[n]? = (t.ledger.on shelf)[n]? := by
  rw [h.ledger]
  cases shelf with
  | entries => exact getElem?_append_left (hn rfl)
  | keepouts | explicits | loops | explicitLoops => rfl

namespace SpaceId

/-- A copy of a space that also asks for other spaces. -/
def copyWith (id : SpaceId) (kids : List SpaceId) : Build SpaceId := do
  let copy ← id.copy
  for kid in kids do
    let _ ← copy.addItem (.space kid) none false
  return copy

theorem copyWith_ok {ws ws' : Workspace} {o c : SpaceId} {kids : List SpaceId} {s : AddressSpace}
    (hs : ws.space? o = some s) (hm : s.Master) (h : o.copyWith kids ws = .ok c ws') :
    ws.space? c = none ∧ ws.Adds ws' ∧ ∃ s' more, ws'.space? c = some s' ∧ s'.Twin more s ∧
      ∀ r ∈ more, ∃ k ∈ kids, r.item = .space k := by
  obtain ⟨hr, -, ht, hv, hk⟩ := Region.create_relabel hm.region ""
  obtain ⟨c', w, hcopy, h1⟩ := bind_ok h
  obtain ⟨rfl, r, hr', rfl⟩ := copy_of_empty hs ht hcopy
  obtain rfl := Except.ok.inj (hr.symm.trans hr')
  obtain ⟨_, hloop, rfl⟩ := bind_pure_ok h1
  have hend := forIn_ok hloop (fun done w => ∃ s' more,
    w = { ws with spaces := ws.spaces.push s' } ∧ s'.kind = .bus ∧ s'.Twin more s ∧
      ∀ r ∈ more, ∃ k ∈ done, r.item = .space k) ?_ ?_
  · obtain ⟨s', more, rfl, -, htwin, hmore⟩ := hend
    exact ⟨Array.getElem?_eq_none (Nat.le_refl _), .push ws s', s', more, Workspace.space?_push ws s',
      htwin, hmore⟩
  · refine ⟨_, [], rfl, hm.kind, ⟨?_, ?_⟩, by simp⟩
    · unfold AddressSpace.copyOver
      dsimp only
      rw [hv, hk, map_nil, ← ht, ← hk]
    · rw [s.ledger_copyOver _ hm.kind hm.passes hm.passCount hm.unresolved, append_nil]
  · rintro done kid rest - w w1 step ⟨s', more, rfl, hkind, htwin, hmore⟩ hrun
    obtain ⟨_, hadd, rfl⟩ := bind_pure_ok hrun
    unfold addItem at hadd
    rw [bind_of_ok (get_of_space? (Workspace.space?_push ws s')), hkind] at hadd
    obtain ⟨width, -, hadd1⟩ := (Occupant.readOnly_declaredWidth _).bind_ok hadd
    obtain ⟨_, hstage, -⟩ := bind_pure_ok hadd1
    obtain ⟨q, hq, rfl⟩ := update_ok hstage
    obtain rfl := Option.mem_unique (Workspace.space?_push ws s') hq
    rw [Workspace.setSpace_push]
    refine ⟨rfl, _, more ++ [⟨.space kid, none, width, false⟩], rfl, hkind, ⟨htwin.region, ?_⟩,
      fun r hr => ?_⟩
    · simp [htwin.ledger, Ledger.stage, Ledger.put, Ledger.on, hm.unresolved]
    · rcases mem_append.mp hr with hr | hr
      · exact (hmore r hr).imp fun k hk => ⟨mem_append_left _ hk.1, hk.2⟩
      · exact ⟨kid, by simp, mem_singleton.mp hr ▸ rfl⟩

end SpaceId

/-! ### Side by side -/

/-- The requests are for leaves of the list, `n` of them entries, and the usual passes are to be made. -/
structure Ledger.Asking (ws : Workspace) (xs : List Occupant) (n : Nat) (l : Ledger) : Prop where
  passes : l.passes = SpaceKind.bus.passes
  passCount : l.passCount = SpaceKind.bus.passes.length
  unresolved : l.resolved = false
  entries : l.entries.length = n
  known : ∀ shelf, ∀ r ∈ l.on shelf, ws.addressees shelf r.item ⊆ xs

namespace Workspace

/-- The resolution of `c` has come from `w0` to `w` and that of `o` from `v0` to `v`, with the same
done for the leaves of the list. -/
structure Beside (c o : SpaceId) (more : List Staged) (n : Nat) (xs : List Occupant)
    (w0 v0 w v : Workspace) : Prop where
  here : w.background = v0.background
  there : v.background = v0.background
  others : ∀ j, j ≠ c → w.space? j = w0.space? j
  told : ∀ x ∈ xs, w.baseOf x = v.baseOf x ∨ w.baseOf x = w0.baseOf x ∧ v.baseOf x = v0.baseOf x
  twins : ∃ s t, w.space? c = some s ∧ v.space? o = some t ∧ s.Twin more t ∧ t.ledger.Asking v0 xs n

namespace Beside

variable {c o : SpaceId} {more : List Staged} {n : Nat} {xs : List Occupant} {w0 v0 w v w' v' : Workspace}
  {x : Occupant}

theorem of_frames {ys : List Occupant} (h : Beside c o more n xs w0 v0 w v) (hw : Frame [] ys w w')
    (hv : Frame [] ys v v') (ht : ∀ y ∈ ys, w'.baseOf y = v'.baseOf y) :
    Beside c o more n xs w0 v0 w' v' := by
  refine ⟨(background_frame hw).trans h.here, (background_frame hv).trans h.there,
    fun j hj => (hw.spaces j (by simp)).trans (h.others j hj), fun x hx => ?_, ?_⟩
  · by_cases hy : x ∈ ys
    · exact .inl (ht x hy)
    · unfold baseOf
      rw [hw.leaves x hy, hv.leaves x hy]
      exact h.told x hx
  · rw [hw.spaces c (by simp), hv.spaces o (by simp)]
    exact h.twins

theorem get_couples : Couples (Beside c o more n xs w0 v0)
    (fun s t => s.Twin more t ∧ t.ledger.Asking v0 xs n) c.get o.get := by
  intro w v s w' h hrun
  obtain ⟨hs, rfl⟩ := SpaceId.get_ok hrun
  obtain ⟨q, t, hq, ht, htwin⟩ := h.twins
  obtain rfl := Option.mem_unique hs hq
  exact ⟨t, v, SpaceId.get_of_space? ht, h, htwin⟩

theorem update_couples {f g : AddressSpace → AddressSpace}
    (hf : ∀ s t, s.Twin more t → t.ledger.Asking v0 xs n →
      (f s).Twin more (g t) ∧ (g t).ledger.Asking v0 xs n) :
    Couples (Beside c o more n xs w0 v0) Eq (c.update f) (o.update g) := by
  intro w v u w' h hrun
  obtain ⟨s, hs, rfl⟩ := SpaceId.update_ok hrun
  obtain ⟨q, t, hq, ht, htwin, hasking⟩ := h.twins
  obtain rfl := Option.mem_unique hs hq
  refine ⟨(), _, SpaceId.update_of_space? ht g, { h with others := fun j hj => ?_, twins := ?_ }, rfl⟩
  · rw [space?_setSpace_of_ne hj.symm]
    exact h.others j hj
  · exact ⟨_, _, space?_setSpace_self hs _, space?_setSpace_self ht _, hf s t htwin hasking⟩

theorem region_couples : Couples (Beside c o more n xs w0 v0) Eq c.region o.region :=
  get_couples.bind fun _ _ h => couples_pure h.1.region

theorem onRegion_couples {α : Type} (f : Region Occupant → Region.Outcome Occupant α) :
    Couples (Beside c o more n xs w0 v0) Eq (c.onRegion f) (o.onRegion f) := by
  have hset (r : Region Occupant) : Couples (Beside c o more n xs w0 v0) Eq
      (c.updateRegion fun _ => r) (o.updateRegion fun _ => r) :=
    update_couples fun s t h ha => ⟨⟨rfl, h.ledger⟩, ha⟩
  unfold SpaceId.onRegion
  refine region_couples.andThen fun r => (hset _).andThen fun _ => ?_
  split
  · exact inStep_pure _
  · exact couples_get.bind fun _ _ _ => couples_throw

/-! ### Leaves -/

theorem entry_couples {ε β : Type} {entry : Workspace → Option ε} {seen : ε → β}
    (hseen : ∀ {w v}, w.background = v.background → (entry w).map seen = (entry v).map seen) :
    Couples (Beside c o more n xs w0 v0) (fun e e2 => seen e = seen e2)
      (get >>= fun ws => entryOf (entry ws)) (get >>= fun ws => entryOf (entry ws)) := by
  intro w v e w' h hrun
  obtain ⟨he, rfl⟩ := entryOf_ok hrun
  have hsame := hseen (h.here.trans h.there.symm)
  rw [he] at hsame
  obtain ⟨e2, he2, heq⟩ := Option.map_eq_some_iff.mp hsame.symm
  exact ⟨e2, v, entryOf_of_some he2, h, heq.symm⟩

theorem register_couples (id : RegisterId) : Couples (Beside c o more n xs w0 v0)
    (fun r r2 => r.unplaced = r2.unplaced) id.get id.get :=
  entry_couples fun h => congrFun (congrArg (·.2.2.2.1) h) id.index

theorem passenger_couples (id : PassengerId) : Couples (Beside c o more n xs w0 v0)
    (fun p p2 => p.unplaced = p2.unplaced) id.get id.get :=
  entry_couples fun h => congrFun (congrArg (·.2.2.2.2) h) id.index

theorem bus_couples (id : BusId) : Couples (Beside c o more n xs w0 v0)
    (fun b b2 => b.block = b2.block) id.get id.get :=
  entry_couples fun h => congrFun (congrArg (·.2.2.1) h) id.index

/-- What does not depend on the addresses of an entry is the same on both sides. -/
theorem inStep_read {ε α : Type} {unplaced : ε → ε} {read : Build ε} {f : ε → Build α}
    (hread : Couples (Beside c o more n xs w0 v0) (fun e e2 => unplaced e = unplaced e2) read read)
    (hf : ∀ e, f (unplaced e) = f e) (hstep : ∀ e, InStep (Beside c o more n xs w0 v0) (f e)) :
    InStep (Beside c o more n xs w0 v0) (read >>= f) := by
  refine hread.bind fun e e2 h => ?_
  rw [← hf e, ← hf e2, h]
  exact hstep _

theorem name_inStep (hx : x.isLeaf = true) : InStep (Beside c o more n xs w0 v0) x.name? := by
  cases x with
  | register id =>
    exact inStep_read (register_couples id) (fun _ => rfl) fun _ =>
      (inStep_lift _).andThen fun _ => inStep_pure _
  | passenger id => exact inStep_read (passenger_couples id) (fun _ => rfl) fun _ => inStep_pure _
  | _ => cases hx

theorem block_inStep (hx : x.isLeaf = true) : InStep (Beside c o more n xs w0 v0) x.block? := by
  cases x with
  | register id => exact inStep_read (register_couples id) (fun _ => rfl) fun _ => inStep_pure _
  | passenger id =>
    exact inStep_read (passenger_couples id) (fun _ => rfl) fun p =>
      (bus_couples p.bus).bind fun _ _ => couples_pure
  | _ => cases hx

theorem copies_inStep (hx : x.isLeaf = true) : InStep (Beside c o more n xs w0 v0) x.copies := by
  cases x with
  | register id => exact inStep_read (register_couples id) (fun _ => rfl) fun _ => inStep_pure _
  | passenger id => exact inStep_read (passenger_couples id) (fun _ => rfl) fun _ => inStep_pure _
  | _ => cases hx

theorem declaredWidth_inStep (hx : x.isLeaf = true) :
    InStep (Beside c o more n xs w0 v0) x.declaredWidth := by
  cases x with
  | register id => exact inStep_read (register_couples id) (fun _ => rfl) fun _ => inStep_pure _
  | passenger id => exact inStep_read (passenger_couples id) (fun _ => rfl) fun _ => inStep_pure _
  | _ => cases hx

theorem exists_update {tell : Build Unit} {u : Unit}
    (ht : (∃ id f, tell = RegisterId.update id f) ∨ ∃ id f, tell = PassengerId.update id f)
    (h : Beside c o more n xs w0 v0 w v) (hrun : tell w = .ok u w') : ∃ v', tell v = .ok () v' := by
  rcases ht with ⟨id, f, rfl⟩ | ⟨id, f, rfl⟩
  · obtain ⟨r, _, hr, -⟩ := bind_ok hrun
    obtain ⟨r2, _, hr2, -⟩ := register_couples id h hr
    exact ⟨_, bind_of_ok hr2 _⟩
  · obtain ⟨p, _, hp, -⟩ := bind_ok hrun
    obtain ⟨p2, _, hp2, -⟩ := passenger_couples id h hp
    exact ⟨_, bind_of_ok hp2 _⟩

theorem setBase_inStep (hx : x.isLeaf = true) (base : Int) :
    InStep (Beside c o more n xs w0 v0) (x.setBase base) := by
  intro w v u w' h hrun
  obtain ⟨v', hv⟩ := exists_update (by
    cases x with
    | register id => exact .inl ⟨id, _, rfl⟩
    | passenger id => exact .inr ⟨id, _, rfl⟩
    | _ => cases hx) h hrun
  obtain ⟨l, hl⟩ := Occupant.exists_leaf_of_setBase hx hrun
  obtain ⟨l2, hl2⟩ := Occupant.exists_leaf_of_setBase hx hv
  have hw' := Occupant.setBase_ok hl hrun
  have hv' := Occupant.setBase_ok hl2 hv
  refine ⟨(), v', hv, h.of_frames hw'.frame hv'.frame fun y hy => ?_, rfl⟩
  rw [mem_singleton.mp hy]
  unfold baseOf
  rw [hw'.leaf, hv'.leaf]
  rfl

theorem setBlockAw_inStep (hx : x.isLeaf = true) (aw : Int) :
    InStep (Beside c o more n xs w0 v0) (x.setBlockAw aw) := by
  intro w v u w' h hrun
  obtain ⟨v', hv⟩ := exists_update (by
    cases x with
    | register id => exact .inl ⟨id, _, rfl⟩
    | passenger id => exact .inr ⟨id, _, rfl⟩
    | _ => cases hx) h hrun
  exact ⟨(), v', hv, h.of_frames (Occupant.setBlockAw_ok hrun) (Occupant.setBlockAw_ok hv) (by simp), rfl⟩

/-- The steps of a placement of leaves go through side by side. -/
theorem parallel (hx : ∀ x ∈ xs, x.isLeaf = true) :
    Build.Parallel False (Beside c o more n xs w0 v0) (fun i i2 => i = c ∧ i2 = o)
      (fun shelf x => v0.addressees shelf x ⊆ xs) (· ∈ xs) where
  policy h := congrArg (·.1) (h.here.trans h.there.symm)
  aligned := False.elim
  block b := by
    refine couples_get.bind fun w v h => ?_
    rw [show w.blocks = v.blocks from congrArg (·.2.1) (h.here.trans h.there.symm)]
    exact inStep_entryOf _
  region := by
    rintro _ _ ⟨rfl, rfl⟩
    exact region_couples.imp fun _ _ h => h ▸ ⟨rfl, rfl⟩
  place := by
    rintro _ _ _ ⟨rfl, rfl⟩ - _ _
    exact onRegion_couples _
  check := by
    rintro _ _ ⟨rfl, rfl⟩
    exact onRegion_couples _
  base := by
    rintro _ _ ⟨rfl, rfl⟩ width start
    exact onRegion_couples fun r => (r, r.availableBase width start)
  name h := name_inStep (hx _ h)
  path h := absurd (hx _ h) (by simp [Occupant.isLeaf])
  tell h := setBase_inStep (hx _ h)
  item {shelf _} h := h (by cases shelf <;> exact mem_cons_self)
  copies {shelf x} hp hshelf := by
    intro w v cs w' h hrun
    have hmem : x ∈ xs := hp (by cases shelf <;> exact mem_cons_self)
    obtain ⟨_, v', hv, h', rfl⟩ := copies_inStep (hx x hmem) h hrun
    refine ⟨_, v', hv, h', rfl, fun y hy => hp ?_⟩
    rw [(Occupant.copies_ok hrun).2, copiesOf_background h.here] at hy
    rcases hshelf with rfl | rfl <;> exact mem_cons_of_mem _ hy
  blockAw h := setBlockAw_inStep (hx _ h)
  block? h := block_inStep (hx _ h)

/-! ### Passes -/

theorem mark_couples {shelf : Shelf} {m : Nat} (hm : shelf = .entries → m < n) {q q2 : Staged}
    (hq : Build.Akin False (fun shelf x => v0.addressees shelf x ⊆ xs) shelf q q2) :
    Couples (Beside c o more n xs w0 v0) Eq
      (c.updateLedger fun l => l.put shelf ((l.on shelf).set m q))
      (o.updateLedger fun l => l.put shelf ((l.on shelf).set m q2)) := by
  obtain rfl := hq.addr.resolve_right fun h => h.2
  refine update_couples fun s t h ha => ⟨⟨h.region, ?_⟩, ?_⟩
  · dsimp only
    rw [h.ledger]
    cases shelf with
    | entries =>
      unfold Ledger.put Ledger.on
      dsimp only
      rw [set_append_left _ _ (ha.entries ▸ hm rfl)]
    | keepouts | explicits | loops | explicitLoops => rfl
  · obtain ⟨hp, hc, hu, he, hk⟩ := ha
    refine ⟨?_, ?_, ?_, ?_, fun shelf' r hr => ?_⟩
    · cases shelf <;> exact hp
    · cases shelf <;> exact hc
    · cases shelf <;> exact hu
    · cases shelf with
      | entries => exact (length_set ..).trans he
      | keepouts | explicits | loops | explicitLoops => exact he
    · rcases Ledger.mem_put_set hr with hr | ⟨rfl, rfl⟩
      · exact hk _ r hr
      · exact hq.known

theorem visit_couples (hx : ∀ x ∈ xs, x.isLeaf = true) {shelf : Shelf} {m : Nat}
    (hm : shelf = .entries → m < n) (fuel fuel2 : Nat) : Couples (Beside c o more n xs w0 v0) Eq
      (SpaceId.visit fuel c shelf m) (SpaceId.visit (fuel2 + 1) o shelf m) := by
  refine (parallel hx).visit ⟨rfl, rfl⟩ (fun _ _ _ => onRegion_couples _) (get_couples.imp fun s t h => ?_)
    (fun {x} hp width => ?_) (mark_couples hm)
  · rw [h.1.getElem? (h.2.entries ▸ hm)]
    have hknown := h.2.known shelf
    cases hget : (t.ledger.on shelf)[m]? with
    | none => exact .none
    | some r => exact .some (Build.Akin.of_item (hknown r (mem_of_getElem? hget)))
  · have hleaf := hx x (hp (by cases shelf <;> exact mem_cons_self))
    cases fuel with
    | zero => exact couples_throw
    | succ fuel =>
      unfold SpaceId.settleUpTo
      cases x with
      | register id | passenger id => exact declaredWidth_inStep hleaf
      | _ => cases hleaf

theorem pass_couples (hx : ∀ x ∈ xs, x.isLeaf = true) {k : Nat} (hk : k < 3) (fuel fuel2 : Nat) :
    Couples (Beside c o more n xs w0 v0) Eq (do SpaceId.runPassUpTo fuel c (← c.passAt k))
      (do SpaceId.runPassUpTo (fuel2 + 2) o (← o.passAt k)) := by
  have hpass : Couples (Beside c o more n xs w0 v0) (fun p p2 => p = p2 ∧ p ≠ .rest) (c.passAt k)
      (o.passAt k) := by
    refine get_couples.bind fun s t h => ?_
    rw [h.1.ledger, h.2.passes]
    obtain rfl | rfl | rfl : k = 0 ∨ k = 1 ∨ k = 2 := by omega
    all_goals exact couples_pure ⟨rfl, by decide⟩
  refine hpass.bind ?_
  rintro p _ ⟨rfl, hp⟩
  cases fuel with
  | zero => exact couples_throw
  | succ fuel =>
    rw [SpaceId.runPassUpTo_succ, SpaceId.runPassUpTo_succ]
    refine couples_forM fun shelf hshelf => get_couples.bind fun s t h => ?_
    have hne : shelf ≠ .entries := by
      rintro rfl
      cases p <;> simp [SpaceId.shelvesOf] at hshelf hp
    have hlen : (s.ledger.on shelf).length = (t.ledger.on shelf).length := by
      rw [h.1.ledger]
      cases shelf <;> first | rfl | exact absurd rfl hne
    rw [hlen]
    exact couples_forM fun m _ => visit_couples hx (fun he => absurd he hne) fuel fuel2

end Beside

/-- The slots of an item in a space. -/
def slotsOf (ws : Workspace) (id : SpaceId) (x : Occupant) : List (Slot Occupant) :=
  ((ws.space? id).map fun s => s.region.taken.filter fun slot => slot.item = x).getD []

theorem slotsOf_eq {ws : Workspace} {id : SpaceId} {s : AddressSpace} (hs : ws.space? id = some s)
    (x : Occupant) : ws.slotsOf id x = s.region.taken.filter fun slot => slot.item = x := by
  unfold slotsOf
  rw [hs]
  rfl

/-- The leaves that a space asks for, all copies included. -/
def tenants (ws : Workspace) (s : AddressSpace) : List Occupant :=
  [Shelf.keepouts, .explicits, .entries, .loops, .explicitLoops].flatMap fun shelf =>
    (s.ledger.on shelf).flatMap fun r => ws.addressees shelf r.item

/-- The spaces `F` hold and ask for only each other, and for none of the leaves `xs`. -/
structure Strangers (ws : Workspace) (F : List SpaceId) (xs : List Occupant) : Prop where
  exist : ∀ j ∈ F, ∃ s, ws.space? j = some s
  family : ws.Family F (fun j _ _ => j ∈ F) fun _ => ws.Asks False F xs

variable {c o : SpaceId} {more : List Staged} {n : Nat} {xs ls : List Occupant} {F : List SpaceId}
  {V : SpaceId → Shelf → Nat → Prop} {P P' : SpaceId → Shelf → Occupant → Prop} {w v w' : Workspace}

theorem Family.extend (h : w.Family F (fun j _ _ => j ∈ F) P)
    (hs : ∀ j ∈ F, w'.space? j = w.space? j) (hP : ∀ {j shelf x}, j ∈ F → P j shelf x → P' j shelf x)
    (hv : ∀ {j s shelf m r}, V j shelf m → j ∉ F → w'.space? j = some s →
      (s.ledger.on shelf)[m]? = some r → P' j shelf r.item) : w'.Family F V P' := by
  refine ⟨fun {j s shelf m r} hV hq hr => ?_, fun j hj s hq => h.enclosed j hj s (hs j hj ▸ hq)⟩
  by_cases hj : j ∈ F
  · exact hP hj (h.requests hj (hs j hj ▸ hq) hr)
  · exact hv hV hj hq hr

/-- The space `c` was resolved from `w` to `w'` like `o` from `v` to `v'`, apart from the spaces `F`,
which ask for none of the leaves `ls`. -/
structure Shares (c o : SpaceId) (F : List SpaceId) (xs ls : List Occupant) (v v' w w' : Workspace) :
    Prop where
  background : w'.background = w.background
  others : ∀ j, j ∉ c :: F → w'.space? j = w.space? j
  family : w'.Family F (fun j _ _ => j ∈ F) fun _ => v.Asks False F ls
  told : ∀ x ∈ ls, w'.baseOf x = v'.baseOf x ∨ w'.baseOf x = w.baseOf x ∧ v'.baseOf x = v.baseOf x
  slots : ∀ x ∈ xs, (w'.slotsOf c x).Perm (v'.slotsOf o x)

/-- The two resolutions before their last pass. -/
theorem Beside.firstPasses (h : Beside c o more n xs w v w v) (hx : ∀ x ∈ xs, x.isLeaf = true) {u : Unit}
    (hrun : c.resolve w = .ok u w') : ∃ fuel w1 v1, Beside c o more n xs w v w1 v1 ∧
      (do SpaceId.runPassUpTo fuel c (← c.passAt (3 : Nat))
          c.updateLedger fun l => { l with resolved := true } : Build Unit) w1 = .ok u w' ∧
      o.resolve v = (do
        SpaceId.runPassUpTo (4 * v.spaces.size + 1 + 2) o (← o.passAt (3 : Nat))
        o.updateLedger fun l => { l with resolved := true } : Build Unit) v1 := by
  obtain ⟨fuel, _, hfuel, hrun⟩ := bind_ok hrun
  obtain ⟨-, rfl⟩ := pure_ok hfuel
  obtain ⟨s, t, hs, ht, htwin, hasking⟩ := h.twins
  have hcount : t.ledger.passCount = 3 + 1 := hasking.passCount
  have hstart : o.resolve v = SpaceId.resolveUpTo (4 * v.spaces.size + 1 + 2 + 1) o v := rfl
  cases fuel with
  | zero => cases hrun
  | succ fuel =>
    rw [SpaceId.resolveUpTo_succ, bind_of_ok (SpaceId.get_of_space? hs), htwin.ledger] at hrun
    rw [SpaceId.resolveUpTo_succ, bind_of_ok (SpaceId.get_of_space? ht)] at hstart
    dsimp only at hrun
    rw [hasking.unresolved, hcount, Build.forM_range_succ, if_neg Bool.false_ne_true, bind_assoc] at hrun hstart
    obtain ⟨_, w1, hpasses, hrun⟩ := bind_ok hrun
    obtain ⟨_, v1, hpasses', h1, -⟩ := couples_forM
      (fun k hk => Beside.pass_couples hx (mem_range.mp hk) fuel (4 * v.spaces.size + 1)) h hpasses
    rw [bind_assoc] at hrun
    rw [bind_of_ok hpasses', bind_assoc] at hstart
    exact ⟨fuel, w1, v1, h1, hrun, hstart⟩

theorem passAt_rest {id : SpaceId} {s : AddressSpace} (hs : w.space? id = some s)
    (hp : s.ledger.passes = SpaceKind.bus.passes) : id.passAt (3 : Nat) w = .ok .rest w := by
  unfold SpaceId.passAt
  rw [bind_of_ok (SpaceId.get_of_space? hs), hp]
  rfl

/-- The last pass comes to the inner spaces when it has visited the leaves. -/
theorem Beside.lastPass {w0 v0 : Workspace} (h : Beside c o more n xs w0 v0 w v)
    (hx : ∀ x ∈ xs, x.isLeaf = true) {fuel fuel2 : Nat} {u : Unit}
    (hrun : SpaceId.runPassUpTo fuel c .rest w = .ok u w') : ∃ k w1 v1,
      Beside c o more n xs w0 v0 w1 v1 ∧
      forM ((List.range more.length).map (n + ·)) (SpaceId.visit k c .entries) w1 = .ok u w' ∧
      SpaceId.runPassUpTo (fuel2 + 2) o .rest v = .ok () v1 := by
  obtain ⟨s, t, hs, ht, htwin, hasking⟩ := h.twins
  have hlen : (s.ledger.on .entries).length = n + more.length := by
    rw [htwin.ledger, ← hasking.entries]
    exact length_append
  cases fuel with
  | zero => cases hrun
  | succ fuel =>
    rw [SpaceId.runPassUpTo_eq rfl fuel hs, hlen, range_add, forM_append] at hrun
    obtain ⟨_, w1, hfirst, hrun⟩ := bind_ok hrun
    obtain ⟨_, v1, hfirst', h1, -⟩ := couples_forM
      (fun m hm => Beside.visit_couples hx (fun _ => mem_range.mp hm) fuel fuel2) h hfirst
    refine ⟨fuel, w1, v1, h1, hrun, ?_⟩
    rw [SpaceId.runPassUpTo_eq rfl _ ht, show (t.ledger.on .entries).length = n from hasking.entries]
    exact hfirst'

/-- The resolution of a space that asks for inner spaces behind the leaves of another one. -/
theorem Beside.resolve (h : Beside c o more n xs w v w v) (hx : ∀ x ∈ xs, x.isLeaf = true) (hls : ls ⊆ xs)
    (hf : w.Family F (fun j _ _ => j ∈ F) fun _ => v.Asks False F ls) (hc : c ∉ F)
    (hmore : ∀ r ∈ more, ∃ k ∈ F, r.item = .space k) {u : Unit} (hrun : c.resolve w = .ok u w') :
    ∃ v', o.resolve v = .ok () v' ∧ Shares c o F xs ls v v' w w' := by
  have hne {j} (hj : j ∈ F) : j ≠ c := fun he => hc (he ▸ hj)
  obtain ⟨fuel, w1, v1, h1, hrun, hend⟩ := h.firstPasses hx hrun
  obtain ⟨s1, t1, hs1, ht1, htwin1, hasking1⟩ := h1.twins
  rw [bind_of_ok (passAt_rest hs1 (by rw [htwin1.ledger]; exact hasking1.passes))] at hrun
  rw [bind_of_ok (passAt_rest ht1 hasking1.passes)] at hend
  obtain ⟨_, w3, hpass, hfinish⟩ := bind_ok hrun
  obtain ⟨k, w2, v2, h2, hrest, hpass'⟩ := h1.lastPass hx hpass
  obtain ⟨s2, t2, hs2, ht2, htwin2, hasking2⟩ := h2.twins
  rw [bind_of_ok hpass'] at hend
  have hf2 : w2.Family F (fun j shelf m => j ∈ F ∨ j = c ∧ shelf = .entries ∧ n ≤ m)
      fun j => v.Asks (j = c) F ls := by
    refine hf.extend (fun j hj => h2.others j (hne hj)) (fun hj ha => Asks.mono ha fun he => hne hj he)
      fun {j s shelf m r} hV hj hs hr y hy => ?_
    obtain ⟨rfl, rfl, hm⟩ := hV.resolve_left hj
    obtain rfl := Option.mem_unique hs2 hs
    rw [htwin2.ledger] at hr
    obtain ⟨k, hk, hitem⟩ := hmore r (mem_of_getElem?
      ((getElem?_append_right (hasking2.entries ▸ hm)).symm.trans hr))
    obtain rfl : y = .space k := (mem_singleton.mp hy).trans hitem
    refine ⟨fun hl => ?_, fun j hj => ?_, fun _ => rfl⟩
    · cases hx _ (hls hl)
    · cases hj
      exact hk
  have hrests := hf2.visits h2.here hc (fun j hj _ _ => .inl hj) (by decide)
    (fun m hm => .inr ⟨rfl, rfl, by obtain ⟨i, -, rfl⟩ := mem_map.mp hm; omega⟩) hrest
  obtain ⟨s3, extra, hs3, hperm, hextra⟩ := hrests.gains s2 hs2
  obtain ⟨q, hq, rfl⟩ := SpaceId.update_ok hfinish
  obtain rfl := Option.mem_unique hs3 hq
  refine ⟨_, hend.trans (SpaceId.update_of_space? ht2 _), ?_, fun j hj => ?_, ?_, fun x hm => ?_,
    fun x hm => ?_⟩
  · exact (hrests.background.trans h2.here).trans h.here.symm
  · obtain ⟨hjc, hjF⟩ := not_or.mp fun hor => hj (mem_cons.mpr hor)
    rw [space?_setSpace_of_ne (Ne.symm hjc), hrests.others j hj, h2.others j hjc]
  · have hf3 := hrests.family hf2
    refine Family.extend (w := w3) ⟨fun hj => hf3.requests (.inl hj), hf3.enclosed⟩
      (fun j hj => space?_setSpace_of_ne (hne hj).symm _) (fun _ ha => Asks.mono ha False.elim)
      fun hV hj => absurd hV hj
  · exact (hrests.told x hm).symm ▸ h2.told x (hls hm)
  · rw [slotsOf_eq (space?_setSpace_self hs3 _), slotsOf_eq (space?_setSpace_self ht2 _)]
    have hnone : (extra.filter fun slot => slot.item = x) = [] := by
      refine filter_eq_nil_iff.mpr fun slot hslot hitem => ?_
      have hinner := hextra slot hslot
      rw [of_decide_eq_true hitem, hx x hm] at hinner
      cases hinner
    refine (hperm.filter _).trans ?_
    rw [filter_append, hnone, append_nil, htwin2.region]

theorem isLeaf_of_mem_tenants {ws : Workspace} {s : AddressSpace} (hm : s.Master) {x : Occupant}
    (hx : x ∈ ws.tenants s) : x.isLeaf = true := by
  obtain ⟨shelf, -, hx⟩ := mem_flatMap.mp hx
  obtain ⟨r, hr, hx⟩ := mem_flatMap.mp hx
  have hitem := hm.leaves shelf r hr
  cases shelf with
  | loops | explicitLoops =>
    rcases mem_cons.mp hx with rfl | hx
    · exact hitem
    · exact isLeaf_of_mem_copiesOf hx
  | keepouts | explicits | entries => exact mem_singleton.mp hx ▸ hitem

theorem Beside.start {ws : Workspace} {s s' : AddressSpace} (hs : ws.space? o = some s) (hm : s.Master)
    (hw : w.background = ws.background) (hc : w.space? c = some s') (htwin : s'.Twin more s) :
    Beside c o more s.ledger.entries.length (ws.tenants s) w ws w ws := by
  refine ⟨hw, rfl, fun _ _ => rfl, fun _ _ => .inr ⟨rfl, rfl⟩, s', s, hc, hs, htwin, hm.passes, hm.passCount,
    hm.unresolved, rfl, fun shelf r hr x hx => ?_⟩
  exact mem_flatMap.mpr ⟨shelf, by cases shelf <;> simp, mem_flatMap.mpr ⟨r, hr, hx⟩⟩

end Workspace

open Workspace

/-- When both copies were resolved, all leaves have their slots, and addresses if no inner space asks
for them. -/
theorem copies_share {ws ws1 ws2 ws3 ws4 : Workspace} {o c1 c2 a b : SpaceId} {s : AddressSpace}
    {F ys zs : List SpaceId} {ls : List Occupant} {u u' : Unit} (hs : ws.space? o = some s) (hm : s.Master)
    (hls : ls ⊆ ws.tenants s) (hF : ws.Strangers F ls) (hys : ys ⊆ F) (hzs : zs ⊆ F)
    (h1 : o.copyWith ys ws = .ok c1 ws1) (h2 : o.copyWith zs ws1 = .ok c2 ws2)
    (hab : [a, b].Perm [c1, c2]) (ha : a.resolve ws2 = .ok u ws3) (hb : b.resolve ws3 = .ok u' ws4) :
    ∃ alone, o.resolve ws = .ok () alone ∧ (∀ x ∈ ls, ws4.baseOf x = alone.baseOf x) ∧
      ∀ x ∈ ws.tenants s, ∀ c ∈ [c1, c2], (ws4.slotsOf c x).Perm (alone.slotsOf o x) := by
  have hleaf : ∀ x ∈ ws.tenants s, x.isLeaf = true := fun x => isLeaf_of_mem_tenants hm
  obtain ⟨hnew1, hadds1, s1, more1, hs1, htwin1, hmore1⟩ := SpaceId.copyWith_ok hs hm h1
  obtain ⟨hnew2, hadds2, s2, more2, hs2, htwin2, hmore2⟩ :=
    SpaceId.copyWith_ok (hadds1.space o s hs) hm h2
  have hadds : ws.Adds ws2 := IsTrans.trans _ _ _ hadds1 hadds2
  have hinner {more : List Staged} {ks : List SpaceId} (hk : ks ⊆ F)
      (hmore : ∀ r ∈ more, ∃ k ∈ ks, r.item = .space k) : ∀ r ∈ more, ∃ k ∈ F, r.item = .space k :=
    fun r hr => (hmore r hr).imp fun k h => ⟨hk h.1, h.2⟩
  have hfar {c} (hnew : ws.space? c = none) : c ∉ F := fun hc => by
    obtain ⟨q, hq⟩ := hF.exist c hc
    cases hnew.symm.trans hq
  have hcopies : ∀ c ∈ [a, b], c ∉ F ∧ ∃ q more, ws2.space? c = some q ∧ q.Twin more s ∧
      ∀ r ∈ more, ∃ k ∈ F, r.item = .space k := by
    intro c hc
    rcases mem_cons.mp (hab.mem_iff.mp hc) with rfl | hc
    · exact ⟨hfar hnew1, s1, more1, hadds2.space _ _ hs1, htwin1, hinner hys hmore1⟩
    · obtain rfl := mem_singleton.mp hc
      refine ⟨hfar ?_, s2, more2, hs2, htwin2, hinner hzs hmore2⟩
      exact Option.eq_none_iff_forall_ne_some.mpr fun q hq => by
        cases hnew2.symm.trans (hadds1.space _ q hq)
  have hne : a ≠ b := by
    have hnodup : [c1, c2].Nodup := by
      rw [nodup_cons, mem_singleton]
      refine ⟨fun he => ?_, nodup_singleton _⟩
      rw [he, hnew2] at hs1
      cases hs1
    simpa using hab.nodup_iff.mpr hnodup
  have hback : ws2.background = ws.background := by rw [hadds.rest]; rfl
  have hf : ws2.Family F (fun j _ _ => j ∈ F) fun _ => ws.Asks False F ls :=
    hF.family.extend (fun j hj => by
      obtain ⟨q, hq⟩ := hF.exist j hj
      rw [hq, hadds.space j q hq]) (fun _ ha => ha) fun hj hn => absurd hj hn
  obtain ⟨haF, qa, moreA, hqa, htwinA, hmoreA⟩ := hcopies a (by simp)
  obtain ⟨hbF, qb, moreB, hqb, htwinB, hmoreB⟩ := hcopies b (by simp)
  obtain ⟨alone, halone, hA⟩ := (Beside.start hs hm hback hqa htwinA).resolve hleaf hls hf haF hmoreA ha
  have hqb' : ws3.space? b = some qb := by
    rw [hA.others b (by simp [hbF, hne.symm]), hqb]
  obtain ⟨alone', halone', hB⟩ := (Beside.start hs hm (hA.background.trans hback) hqb' htwinB).resolve
    hleaf hls hA.family hbF hmoreB hb
  obtain rfl : alone = alone' := by
    cases halone.symm.trans halone'
    rfl
  refine ⟨alone, halone, fun x hx => ?_, fun x hx c hc => ?_⟩
  · rcases hB.told x hx with hb | ⟨hb, halone⟩
    · exact hb
    · rcases hA.told x hx with ha | ⟨ha, -⟩
      · exact hb.trans ha
      · rw [hb, ha, halone, hadds.rest]
        rfl
  · rcases mem_cons.mp (hab.mem_iff.mpr hc) with rfl | hc
    · have hkept : ws4.slotsOf c x = ws3.slotsOf c x := by
        unfold slotsOf
        rw [hB.others c (by simp [haF, hne])]
      exact hkept ▸ hA.slots x hx
    · exact mem_singleton.mp hc ▸ hB.slots x hx

/-- **Shared leaves.**  A space without inner spaces is copied twice, and each copy also asks for
spaces that are there.  When both copies were resolved, in either order, the space can be resolved on
its own as well, and its leaves have the same slots in both copies as in itself.  If the inner spaces
do not ask for the leaves, these have been told the same addresses, too. -/
theorem copies_place_alike {ws ws1 ws2 ws3 ws4 : Workspace} {o c1 c2 a b : SpaceId} {s : AddressSpace}
    {F ys zs : List SpaceId} {u u' : Unit} (hs : ws.space? o = some s) (hm : s.Master)
    (hF : ws.Strangers F []) (hys : ys ⊆ F) (hzs : zs ⊆ F)
    (h1 : o.copyWith ys ws = .ok c1 ws1) (h2 : o.copyWith zs ws1 = .ok c2 ws2)
    (hab : [a, b].Perm [c1, c2]) (ha : a.resolve ws2 = .ok u ws3) (hb : b.resolve ws3 = .ok u' ws4) :
    ∃ alone, o.resolve ws = .ok () alone ∧
      (∀ x ∈ ws.tenants s, ∀ c ∈ [c1, c2], (ws4.slotsOf c x).Perm (alone.slotsOf o x)) ∧
      (ws.Strangers F (ws.tenants s) → ∀ x ∈ ws.tenants s, ws4.baseOf x = alone.baseOf x) := by
  obtain ⟨alone, halone, -, hslots⟩ :=
    copies_share hs hm (nil_subset _) hF hys hzs h1 h2 hab ha hb
  refine ⟨alone, halone, hslots, fun hstrange => ?_⟩
  obtain ⟨alone', halone', hbases, -⟩ :=
    copies_share hs hm (List.Subset.refl _) hstrange hys hzs h1 h2 hab ha hb
  cases halone.symm.trans halone'
  exact hbases

/-- Copy the first of two spaces twice, ask for the second one in a copy, and resolve the copies in an
order. -/
def resolveCopies (order : SpaceId → SpaceId → List SpaceId) : Build Unit := do
  let c1 ← (⟨0⟩ : SpaceId).copyWith [⟨1⟩]
  let c2 ← (⟨0⟩ : SpaceId).copyWith []
  forM (order c1 c2) SpaceId.resolve

theorem pinned_strangers {xs : List Occupant}
    (hxs : ∀ y ∈ [Occupant.register ⟨1⟩, .register ⟨1⟩, .register ⟨2⟩], y ∉ xs) :
    (pinned 8).Strangers [⟨1⟩] xs := by
  refine ⟨by simp [pinned, space?], fun {j s shelf n r} hj hs hr => ?_, fun j hj s hs slot hslot => ?_⟩
  · obtain rfl := mem_singleton.mp hj
    obtain rfl := Option.some.inj hs
    replace hr := mem_of_getElem? hr
    cases shelf with
    | explicitLoops =>
      rw [mem_singleton.mp hr]
      intro y hy
      replace hy : y ∈ [Occupant.register ⟨1⟩, .register ⟨1⟩, .register ⟨2⟩] := hy
      refine ⟨hxs y hy, fun k hk => ?_, False.elim⟩
      rw [hk] at hy
      simp at hy
    | keepouts | explicits | entries | loops => cases hr
  · obtain rfl := mem_singleton.mp hj
    obtain rfl := Option.some.inj hs
    cases hslot

/-- The space with a register at 15 is copied twice; one copy asks for the space with a loop, the other
is resolved first. -/
theorem copies_place_alike_pinned : ∃ c1 ws1 c2 ws2 ws3 ws4 alone,
    (⟨0⟩ : SpaceId).copyWith [⟨1⟩] (pinned 8) = .ok c1 ws1 ∧
    (⟨0⟩ : SpaceId).copyWith [] ws1 = .ok c2 ws2 ∧
    c2.resolve ws2 = .ok () ws3 ∧ c1.resolve ws3 = .ok () ws4 ∧
    (⟨0⟩ : SpaceId).resolve (pinned 8) = .ok () alone ∧
    alone.slotsOf ⟨0⟩ (.register ⟨0⟩) = [⟨15, 16, .register ⟨0⟩⟩] ∧
    (∀ c ∈ [c1, c2], ws4.slotsOf c (.register ⟨0⟩) = [⟨15, 16, .register ⟨0⟩⟩]) ∧
    ws4.baseOf (.register ⟨0⟩) = alone.baseOf (.register ⟨0⟩) := by
  obtain ⟨_, ws4, hall⟩ : ∃ u w, resolveCopies (fun c1 c2 => [c2, c1]) (pinned 8) = .ok u w :=
    exists_ok (by decide +kernel)
  obtain ⟨c1, ws1, h1, hall⟩ := bind_ok hall
  obtain ⟨c2, ws2, h2, hall⟩ := bind_ok hall
  obtain ⟨_, ws3, ha, hall⟩ := bind_ok hall
  obtain ⟨_, hb, -⟩ := bind_pure_ok hall
  have hm : ((pinned 8).spaces[0]).Master := by
    refine ⟨rfl, rfl, rfl, rfl, fun shelf r hr => ?_, rfl⟩
    cases shelf with
    | explicits =>
      rw [mem_singleton.mp hr]
      rfl
    | keepouts | entries | loops | explicitLoops => cases hr
  obtain ⟨alone, halone, hcopies, hbases⟩ := copies_place_alike rfl hm (pinned_strangers (by simp))
    (List.Subset.refl _) (nil_subset _) h1 h2 (List.Perm.swap _ _ _) ha hb
  have hslots : alone.slotsOf ⟨0⟩ (.register ⟨0⟩) = [⟨15, 16, .register ⟨0⟩⟩] := by
    have hafter : (Build.after (SpaceId.resolve ⟨0⟩) (pinned 8)).slotsOf ⟨0⟩ (.register ⟨0⟩) =
        [⟨15, 16, .register ⟨0⟩⟩] := by decide +kernel
    rwa [Build.after, halone] at hafter
  refine ⟨c1, ws1, c2, ws2, ws3, ws4, alone, h1, h2, ha, hb, halone, hslots, fun c hc => ?_,
    hbases (pinned_strangers (by decide)) (.register ⟨0⟩) (by decide)⟩
  exact perm_singleton.mp (hslots ▸ hcopies (.register ⟨0⟩) (by decide) c hc)

/-- If the space with the loop asks for the register, too, the copy that is resolved last decides where
the register is told to be. -/
theorem shared_base_depends_on_order :
    let ws := Build.after (SpaceId.stage ⟨1⟩ .entries (.register ⟨0⟩) none (some 0)) (pinned 8)
    ∃ w w', resolveCopies (fun c1 c2 => [c2, c1]) ws = .ok () w ∧
      resolveCopies (fun c1 c2 => [c1, c2]) ws = .ok () w' ∧
      w.slotsOf ⟨2⟩ (.register ⟨0⟩) = w.slotsOf ⟨3⟩ (.register ⟨0⟩) ∧
      w.baseOf (.register ⟨0⟩) = some 2 ∧ w'.baseOf (.register ⟨0⟩) = some 15 := by
  intro ws
  obtain ⟨_, w, h⟩ : ∃ u w, resolveCopies (fun c1 c2 => [c2, c1]) ws = .ok u w :=
    exists_ok (by decide +kernel)
  obtain ⟨_, w', h'⟩ : ∃ u w, resolveCopies (fun c1 c2 => [c1, c2]) ws = .ok u w :=
    exists_ok (by decide +kernel)
  have hslots : (Build.after (resolveCopies fun c1 c2 => [c2, c1]) ws).slotsOf ⟨2⟩ (.register ⟨0⟩) =
      (Build.after (resolveCopies fun c1 c2 => [c2, c1]) ws).slotsOf ⟨3⟩ (.register ⟨0⟩) := by
    decide +kernel
  have hbase : (Build.after (resolveCopies fun c1 c2 => [c2, c1]) ws).baseOf (.register ⟨0⟩) = some 2 ∧
      (Build.after (resolveCopies fun c1 c2 => [c1, c2]) ws).baseOf (.register ⟨0⟩) = some 15 := by
    decide +kernel
  simp only [Build.after, h, h'] at hslots hbase
  exact ⟨w, w', h, h', hslots, hbase⟩

end RegisterMap
