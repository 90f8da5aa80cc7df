import RegisterMap.Proofs.AddressSpace.Explicit

/-! # What the resolution of inner spaces leaves alone

Spaces that are asked for are resolved first.  Spaces that ask for and hold no spaces but each other,
and ask for no leaf of a list, are a family (`Workspace.Family`).  While a space visits requests for
members of a family, only these and the space itself are touched; the space gains no slots for leaves,
and no leaf of the list is told an address (`Workspace.Rests`, `Workspace.Family.visits`). -/

namespace RegisterMap

open Build List

theorem Region.reserve_taken {r r' : Region Occupant} {aw addr base : Int}
    (h : r.place Occupant.isSome aw .nothing (some addr) .reserve = (r', .ok base)) :
    r'.taken.Perm r.taken := by
  have h : r.insert Occupant.isSome addr aw .reserve .nothing = (r', .ok base) := h
  rcases r.insert_cases Occupant.isSome addr aw .reserve .nothing with
    ⟨e, he⟩ | ⟨e, he⟩ | ⟨w, gaps, -, -, -, -, he⟩
  · cases he.symm.trans h
  · cases he.symm.trans h
  · cases he.symm.trans h
    exact r.sorted_taken_perm

namespace Workspace

variable {ws ws' w0 : Workspace} {c j : SpaceId} {F : List SpaceId} {xs : List Occupant}
  {V : SpaceId → Shelf → Nat → Prop} {P : SpaceId → Shelf → Occupant → Prop} {s s' : AddressSpace}
  {p q : Prop}

/-- What can be read of a workspace apart from its spaces and the addresses of its leaves. -/
def background (ws : Workspace) : Policy × Array Block × (Nat → Option (Option BlockId)) ×
    (Nat → Option Register) × (Nat → Option Passenger) :=
  (ws.policy, ws.blocks, fun n => ws.busses[n]?.map Bus.block,
    fun n => ws.registers[n]?.map Register.unplaced, fun n => ws.passengers[n]?.map Passenger.unplaced)

theorem background_frame {ids : List SpaceId} {ys : List Occupant} (h : Frame ids ys ws ws') :
    ws'.background = ws.background := by
  unfold background
  rw [h.policy, h.busses, h.blocks, funext h.registers, funext h.passengers]

theorem copiesOf_background (h : ws'.background = ws.background) (x : Occupant) :
    ws'.copiesOf x = ws.copiesOf x :=
  copiesOf_congr (shape_eq (congrFun (congrArg (·.2.2.2.1) h)) (congrFun (congrArg (·.2.2.2.2) h)) x)

/-- No leaf of the list, and no space outside the family.  With `p`, no leaf at all. -/
structure Kin (p : Prop) (F : List SpaceId) (xs : List Occupant) (x : Occupant) : Prop where
  apart : x ∉ xs
  inside : ∀ k, x = .space k → k ∈ F
  inner : p → x.isLeaf = false

/-- A request on a shelf whose addressees are kin. -/
def Asks (ws : Workspace) (p : Prop) (F : List SpaceId) (xs : List Occupant) (shelf : Shelf)
    (x : Occupant) : Prop :=
  ∀ y ∈ ws.addressees shelf x, Kin p F xs y

theorem Asks.mono {shelf : Shelf} {x : Occupant} (h : ws.Asks p F xs shelf x) (hqp : q → p) :
    ws.Asks q F xs shelf x :=
  fun y hy => { h y hy with inner := fun hq => (h y hy).inner (hqp hq) }

/-- The spaces `F` hold only each other, and the requests at the places `V` satisfy `P`. -/
structure Family (ws : Workspace) (F : List SpaceId) (V : SpaceId → Shelf → Nat → Prop)
    (P : SpaceId → Shelf → Occupant → Prop) : Prop where
  requests : ∀ {j s shelf n r}, V j shelf n → ws.space? j = some s →
    (s.ledger.on shelf)[n]? = some r → P j shelf r.item
  enclosed : ws.Enclosed F

theorem Family.setSpace (h : ws.Family F V P) (hs : ws.space? j = some s)
    (hr : ∀ shelf (n : Nat) r, (s'.ledger.on shelf)[n]? = some r →
      (s.ledger.on shelf)[n]? = some r ∨ P j shelf r.item)
    (ht : ∀ slot ∈ s'.region.taken, slot ∈ s.region.taken ∨ ∀ k, slot.item = .space k → k ∈ F) :
    (ws.setSpace j s').Family F V P := by
  refine ⟨fun {i q shelf n r} hv hq hn => ?_, fun i hi q hq slot hslot k hk => ?_⟩
  · by_cases hj : j = i
    · subst hj
      obtain rfl := Option.mem_unique (space?_setSpace_self hs s') hq
      exact (hr shelf n r hn).elim (h.requests hv hs) id
    · rw [space?_setSpace_of_ne hj] at hq
      exact h.requests hv hq hn
  · by_cases hj : j = i
    · subst hj
      obtain rfl := Option.mem_unique (space?_setSpace_self hs s') hq
      exact (ht slot hslot).elim (fun hm => h.enclosed _ hi s hs slot hm k hk) fun hm => hm k hk
    · rw [space?_setSpace_of_ne hj] at hq
      exact h.enclosed i hi q hq slot hslot k hk

/-- Only the family and the space `c` were touched, which has gained slots for inner spaces, and no
leaf of the list was told an address. -/
structure Rests (c : SpaceId) (F : List SpaceId) (V : SpaceId → Shelf → Nat → Prop)
    (P : SpaceId → Shelf → Occupant → Prop) (xs : List Occupant) (ws ws' : Workspace) : Prop where
  background : ws'.background = ws.background
  others : ∀ j, j ∉ c :: F → ws'.space? j = ws.space? j
  gains : ∀ s, ws.space? c = some s → ∃ s' more, ws'.space? c = some s' ∧
    s'.region.taken.Perm (s.region.taken ++ more) ∧ ∀ slot ∈ more, slot.item.isLeaf = false
  told : ∀ x ∈ xs, ws'.baseOf x = ws.baseOf x
  family : ws.Family F V P → ws'.Family F V P

namespace Rests

theorem of_spaces (hb : ws'.background = ws.background) (hs : ∀ j, ws'.space? j = ws.space? j)
    (ht : ∀ x ∈ xs, ws'.baseOf x = ws.baseOf x) : Rests c F V P xs ws ws' where
  background := hb
  others j _ := hs j
  gains s h := ⟨s, [], (hs c).trans h, by simp, by simp⟩
  told := ht
  family h := ⟨fun hv hq => h.requests hv ((hs _).symm.trans hq),
    fun j hj s hq => h.enclosed j hj s ((hs j).symm.trans hq)⟩

instance : IsPreorder Workspace (Rests c F V P xs) where
  refl _ := .of_spaces rfl (fun _ => rfl) fun _ _ => rfl
  trans _ _ _ h h' := by
    refine ⟨h'.background.trans h.background, fun j hj => (h'.others j hj).trans (h.others j hj),
      fun s hs => ?_, fun x hx => (h'.told x hx).trans (h.told x hx), fun hf => h'.family (h.family hf)⟩
    obtain ⟨s', more, hs', hp, hm⟩ := h.gains s hs
    obtain ⟨s'', more', hs'', hp', hm'⟩ := h'.gains s' hs'
    refine ⟨s'', more ++ more', hs'', ?_, fun slot hslot => (mem_append.mp hslot).elim (hm slot)
      (hm' slot)⟩
    rw [← append_assoc]
    exact hp'.trans (hp.append_right _)

section

variable (hj : j ∈ c :: F) (hs : ws.space? j = some s)

include hj hs

theorem setSpace (hr : ∀ shelf (n : Nat) r, (s'.ledger.on shelf)[n]? = some r →
      (s.ledger.on shelf)[n]? = some r ∨ P j shelf r.item)
    {more : List (Slot Occupant)} (ht : s'.region.taken.Perm (s.region.taken ++ more))
    (hm : ∀ slot ∈ more, Kin (j = c) F xs slot.item) : Rests c F V P xs ws (ws.setSpace j s') := by
  refine ⟨rfl, fun i hi => space?_setSpace_of_ne (by rintro rfl; exact hi hj) s', fun q hq => ?_,
    fun _ _ => rfl, fun hf => hf.setSpace hs hr fun slot hslot => ?_⟩
  · by_cases hc : j = c
    · subst hc
      obtain rfl := Option.mem_unique hs hq
      exact ⟨s', more, space?_setSpace_self hs s', ht, fun slot hslot => (hm slot hslot).inner rfl⟩
    · exact ⟨q, [], by rwa [space?_setSpace_of_ne hc], by simp, by simp⟩
  · exact (mem_append.mp (ht.mem_iff.mp hslot)).imp_right fun h => (hm slot h).inside

theorem setRegion {r : Region Occupant}
    (ht : r.taken.Perm s.region.taken) : Rests c F V P xs ws (ws.setSpace j { s with region := r }) :=
  setSpace hj hs (fun _ _ _ h => .inl h) (by rwa [append_nil]) (by simp)

theorem setLedger {l : Ledger} (hr : ∀ shelf (n : Nat) r, (l.on shelf)[n]? = some r →
      (s.ledger.on shelf)[n]? = some r ∨ P j shelf r.item) :
    Rests c F V P xs ws (ws.setSpace j { s with ledger := l }) :=
  setSpace hj hs hr (by rw [append_nil]) (by simp)

end

theorem of_frame {ys : List Occupant} (h : Frame [] ys ws ws') (hy : ∀ y ∈ ys, y ∉ xs) :
    Rests c F V P xs ws ws' :=
  .of_spaces (background_frame h) (fun j => h.spaces j (by simp)) fun x hx => by
    unfold baseOf
    rw [h.leaves x fun hm => hy x hm hx]

theorem of_moves (h : Moves F ws ws') : Rests c F V P xs ws ws' := by
  refine ⟨background_frame h.frame, fun j hj => h.spaces j fun hm => hj (mem_cons_of_mem _ hm),
    fun s hs => ?_, fun x _ => by unfold baseOf; rw [h.leaves x],
    fun hf => ⟨fun {j s' shelf n r} hv hs' hr => ?_, h.enclosed hf.enclosed⟩⟩
  · obtain ⟨s', hs', hm⟩ := h.moved c s hs
    exact ⟨s', [], hs', by simpa using hm.taken, by simp⟩
  · cases hs : ws.space? j with
    | none => cases (h.missing j hs).symm.trans hs'
    | some s =>
      obtain ⟨q, hq, hm⟩ := h.moved j s hs
      obtain rfl := Option.mem_unique hq hs'
      exact hf.requests hv hs (hm.ledger ▸ hr)

end Rests

theorem hosts_rests {D : List SpaceId} (hD : D ⊆ c :: F) (hp : c ∈ D → p) (hf : w0.Family F V P)
    (hb : w0.background = ws.background) :
    Build.Hosts (Rests c F V P xs) w0 (· ∈ D) (ws.Asks p F xs) (Kin p F xs) where
  place hj hx hs hr := by
    obtain ⟨w, -, hgain⟩ := Region.place_eq_ok hr
    refine .setSpace (hD hj) hs (fun _ _ _ h => .inl h)
      (hgain.taken.trans (perm_append_singleton _ _).symm) fun slot hslot => ?_
    rw [mem_singleton.mp hslot]
    exact { hx with inner := fun hc => hx.inner (hp (hc ▸ hj)) }
  sort hj hs := .setRegion (hD hj) hs (Region.sorted_taken_perm _)
  path hq hr h := .of_moves (SpaceId.setPathUpTo_moves _ (hr.family hf).enclosed (hq.inside _ rfl) h)
  tell hq hr h := by
    rcases Occupant.setBase_cases h with ⟨l, hl⟩ | ⟨hno, busses, rfl, hbusses⟩ |
      ⟨k, s, fuel, ws1, rfl, hset, hs, rfl⟩
    · exact .of_frame hl.frame fun x hx => mem_singleton.mp hx ▸ hq.apart
    · refine .of_spaces ?_ (fun _ => rfl) fun _ _ => rfl
      unfold Workspace.background
      rw [funext hbusses]
    · have hk := hq.inside k rfl
      exact IsTrans.trans _ _ _ (.of_moves (SpaceId.setBaseUpTo_moves _ (hr.family hf).enclosed hk hset))
        (.setRegion (mem_cons_of_mem _ hk) hs (List.Perm.refl _))
  note h := .of_frame h (by simp)
  item {shelf x} h := h x (by cases shelf <;> exact mem_cons_self)
  copies h hshelf hr y hy := by
    rw [copiesOf_background (hr.background.trans hb)] at hy
    rcases hshelf with rfl | rfl <;> exact h y (mem_cons_of_mem _ hy)

theorem mark_rests (hj : j ∈ c :: F) {shelf : Shelf} {A : Shelf → Occupant → Prop} {r r2 : Staged}
    (hr : Build.Akin False A shelf r r2) (hA : A shelf r.item → P j shelf r.item) (n : Nat) :
    Build.Couples (Build.Since (Rests c F V P xs) w0) Eq
      (j.updateLedger fun l => l.put shelf ((l.on shelf).set n r))
      (j.updateLedger fun l => l.put shelf ((l.on shelf).set n r2)) := by
  obtain rfl := hr.addr.resolve_right fun h => h.2
  refine inStep_since fun hreach hrun => ?_
  obtain ⟨s, hs, rfl⟩ := SpaceId.update_ok hrun
  refine IsTrans.trans _ _ _ hreach (.setLedger hj hs fun shelf' m r' hr' => ?_)
  dsimp only at hr'
  rw [Ledger.on_put] at hr'
  split at hr'
  · rename_i he
    subst he
    rw [getElem?_set] at hr'
    split at hr'
    · split at hr'
      · exact .inr (Option.some.inj hr' ▸ hA hr.known)
      · cases hr'
    · exact .inl hr'
  · exact .inl hr'

theorem lockstep_rests (hc : c ∉ F) (hV : ∀ j ∈ F, ∀ shelf n, V j shelf n)
    (hf : w0.Family F V fun j => ws.Asks (j = c) F xs) (hb : w0.background = ws.background) :
    Build.Lockstep False (Build.Since (Rests c F V (fun j => ws.Asks (j = c) F xs) xs) w0)
      (fun i i2 => i = i2 ∧ i ∈ F) (ws.Asks False F xs) (Kin False F xs) where
  toParallel := (hosts_rests (subset_cons_self c F) hc hf hb).parallel
  inner {shelf j} h := ⟨rfl, (h (.space j) (by cases shelf <;> exact mem_cons_self)).inside j rfl⟩
  width _ := (Occupant.readOnly_declaredWidth _).inStep
  reserve hj _ _ := inStep_since fun hr hrun => by
    obtain ⟨s, r, hs, hplace, rfl⟩ := SpaceId.onRegion_ok hrun
    exact IsTrans.trans _ _ _ hr (.setRegion (mem_cons_of_mem _ hj.2) hs (Region.reserve_taken hplace))
  shrink hj := inStep_since fun hr hrun => by
    obtain ⟨s, r, hs, hshrink, rfl⟩ := SpaceId.onRegion_ok hrun
    exact IsTrans.trans _ _ _ hr (.setRegion (mem_cons_of_mem _ hj.2) hs (Region.shrink_keeps hshrink).1)
  ledger := by
    rintro j hj w _ s w' ⟨rfl, hr⟩ hrun
    obtain ⟨hs, rfl⟩ := SpaceId.get_ok hrun
    refine ⟨s, _, hrun, ⟨rfl, hr⟩, rfl, rfl, rfl, rfl, fun shelf => forall₂_same.mpr fun r hm => ?_⟩
    obtain ⟨n, hn⟩ := mem_iff_getElem?.mp hm
    exact .of_item (((hr.family hf).requests (hV j hj.2 shelf n) hs hn).mono False.elim)
  mark hj hq n := mark_rests (mem_cons_of_mem _ hj.2) hq
    (fun h => Asks.mono h fun he : _ = c => hc (he ▸ hj.2)) n
  finish hj := inStep_since fun hr hrun => by
    obtain ⟨s, hs, rfl⟩ := SpaceId.update_ok hrun
    refine IsTrans.trans _ _ _ hr (.setLedger (mem_cons_of_mem _ hj.2) hs fun shelf n r h => .inl ?_)
    cases shelf <;> exact h

theorem Family.visits (hf : w0.Family F V fun j => ws.Asks (j = c) F xs)
    (hb : w0.background = ws.background) (hc : c ∉ F) (hV : ∀ j ∈ F, ∀ shelf n, V j shelf n) {fuel : Nat}
    {shelf : Shelf} (hshelf : shelf ≠ .keepouts) {ns : List Nat} (hns : ∀ n ∈ ns, V c shelf n) {u : PUnit}
    (h : forM ns (SpaceId.visit fuel c shelf) w0 = .ok u ws') :
    Rests c F V (fun j => ws.Asks (j = c) F xs) xs w0 ws' := by
  have hlock := lockstep_rests hc hV hf hb
  have hhosts : Build.Hosts (Rests c F V (fun j => ws.Asks (j = c) F xs) xs) w0 (· ∈ [c])
      (ws.Asks True F xs) (Kin True F xs) :=
    hosts_rests (cons_subset_cons c (nil_subset F)) (fun _ => trivial) hf hb
  have hstep : Build.InStep (Build.Since (Rests c F V (fun j => ws.Asks (j = c) F xs) xs) w0)
      (forM ns (SpaceId.visit fuel c shelf)) := by
    refine couples_forM fun n hn => hhosts.parallel.visit ⟨rfl, mem_singleton_self c⟩
      (fun he => absurd he hshelf) ?_ (fun hx w => hlock.settleUpTo
        (fun k _ _ hj => hlock.resolveUpTo k hj) (hx.mono fun _ => trivial) w) fun hq =>
          mark_rests mem_cons_self hq (fun hx => hx.mono fun _ => trivial) n
    rintro w _ s w' ⟨rfl, hr⟩ hrun
    obtain ⟨hs, rfl⟩ := SpaceId.get_ok hrun
    refine ⟨s, _, hrun, ⟨rfl, hr⟩, ?_⟩
    have hask {r} := (hr.family hf).requests (r := r) (hns n hn) hs
    dsimp only
    generalize (s.ledger.on shelf)[n]? = q at hask ⊢
    cases q with
    | none => exact .none
    | some r => exact .some (Build.Akin.of_item ((hask rfl).mono fun _ => rfl))
  obtain ⟨_, _, -, ⟨-, hend⟩, -⟩ := hstep ⟨rfl, Std.Refl.refl _⟩ h
  exact hend

end Workspace

end RegisterMap
