import RegisterMap.Proofs.AddressSpace.Staging
import RegisterMap.Proofs.Workspace.Ensures

/-! # Two runs side by side

Work is *coupled* to other work if the other work goes through whenever it does itself, from all
workspaces in a relation, which holds again at the end (`Build.Couples`).  The placement of a request is
put together from a few steps on a space and on the items; if these steps are coupled, the placement is
(`Build.Parallel`), and with it a whole resolution (`Build.Lockstep`). -/

namespace RegisterMap

theorem rel_getElem? {α β : Type} {R : α → β → Prop} {xs : List α} {ys : List β}
    (h : List.Forall₂ R xs ys) (n : Nat) : Option.Rel R xs[n]? ys[n]? := by
  induction h generalizing n with
  | nil => exact .none
  | cons hr _ ih =>
    cases n with
    | zero => exact .some hr
    | succ n => simpa using ih n

namespace Build

variable {α β γ δ : Type} {T : Workspace → Workspace → Prop} {S : α → β → Prop} {U : γ → δ → Prop}
  {x : Build α} {y : Build β}

/-- Whenever the work `x` goes through, `y` goes through from every workspace in the relation `T`, to
one in `T`, with an answer related by `S`. -/
def Couples (T : Workspace → Workspace → Prop) (S : α → β → Prop) (x : Build α) (y : Build β) : Prop :=
  ∀ ⦃ws ws2 a ws'⦄, T ws ws2 → x ws = .ok a ws' →
    ∃ b ws2', y ws2 = .ok b ws2' ∧ T ws' ws2' ∧ S a b

/-- The work is coupled to itself. -/
abbrev InStep (T : Workspace → Workspace → Prop) (x : Build α) : Prop := Couples T Eq x x

theorem Couples.bind {f : α → Build γ} {g : β → Build δ}
    (h : Couples T S x y) (hf : ∀ a b, S a b → Couples T U (f a) (g b)) :
    Couples T U (x >>= f) (y >>= g) := by
  intro ws ws2 c ws' ht hrun
  obtain ⟨a, ws1, ha, hc⟩ := bind_ok hrun
  obtain ⟨b, ws3, hb, ht1, hS⟩ := h ht ha
  obtain ⟨d, ws2', hd, ht', hU⟩ := hf a b hS ht1 hc
  exact ⟨d, ws2', (bind_of_ok hb g).trans hd, ht', hU⟩

theorem Couples.imp {S' : α → β → Prop} (h : Couples T S x y) (hi : ∀ a b, S a b → S' a b) :
    Couples T S' x y := by
  intro ws ws2 a ws' ht hrun
  obtain ⟨b, ws2', hb, ht', hS⟩ := h ht hrun
  exact ⟨b, ws2', hb, ht', hi a b hS⟩

theorem Couples.andThen {y : Build α} {f : α → Build γ} {g : α → Build δ} (h : Couples T Eq x y)
    (hf : ∀ a, Couples T U (f a) (g a)) : Couples T U (x >>= f) (y >>= g) := by
  refine h.bind fun a b hab => ?_
  subst hab
  exact hf a

theorem couples_pure {a : α} {b : β} (h : S a b) : Couples T S (pure a) (pure b) := by
  intro ws ws2 c ws' ht hrun
  obtain ⟨rfl, rfl⟩ := pure_ok hrun
  exact ⟨b, ws2, rfl, ht, h⟩

theorem inStep_pure (a : α) : InStep T (pure a) := couples_pure rfl

theorem couples_throw {e : Error} : Couples T S (throw e : Build α) y :=
  fun _ _ _ _ _ hrun => (throw_ok hrun).elim

theorem couples_refuse {f : Fault} : Couples T S (refuse f : Build α) y := couples_throw

theorem Couples.map {y : Build α} (h : Couples T Eq x y) (f : α → β) :
    Couples T Eq (f <$> x) (f <$> y) := by
  rw [← bind_pure_comp, ← bind_pure_comp]
  exact h.andThen fun a => inStep_pure (f a)

theorem inStep_lift (x : Result α) : InStep T (liftM x : Build α) := by
  cases x with
  | ok a => exact inStep_pure a
  | error e => exact couples_throw

theorem inStep_entryOf (x : Option α) : InStep T (entryOf x) := by
  cases x with
  | some a => exact inStep_pure a
  | none => exact couples_throw

theorem couples_get :
    Couples T T (getThe Workspace : Build Workspace) (getThe Workspace : Build Workspace) := by
  intro ws ws2 w ws' ht hrun
  obtain ⟨rfl, rfl⟩ := get_ok hrun
  exact ⟨ws2, ws2, rfl, ht, ht⟩

theorem couples_forIn {xs : List α} {f g : α → PUnit → Build (ForInStep PUnit)}
    (h : ∀ x ∈ xs, Couples T Eq (f x PUnit.unit) (g x PUnit.unit)) :
    Couples T Eq (forIn xs PUnit.unit f) (forIn xs PUnit.unit g) := by
  induction xs with
  | nil => exact inStep_pure _
  | cons x xs ih =>
    rw [List.forIn_cons, List.forIn_cons]
    refine (h x List.mem_cons_self).andThen fun step => ?_
    cases step with
    | done u => exact inStep_pure u
    | yield u => exact ih fun y hy => h y (List.mem_cons_of_mem _ hy)

theorem couples_forM {xs : List α} {f g : α → Build PUnit} (h : ∀ x ∈ xs, Couples T Eq (f x) (g x)) :
    Couples T Eq (forM xs f) (forM xs g) := by
  induction xs with
  | nil => exact inStep_pure _
  | cons x xs ih =>
    rw [List.forM_cons, List.forM_cons]
    exact (h x List.mem_cons_self).andThen fun _ => ih fun y hy => h y (List.mem_cons_of_mem _ hy)

/-! ### Placements -/

/-- Requests for the same placement.  With `blind`, an address in a loop does not count. -/
structure Akin (blind : Prop) (P : Shelf → Occupant → Prop) (shelf : Shelf) (r r2 : Staged) : Prop where
  known : P shelf r.item
  item : r.item = r2.item
  width : r.width = r2.width
  placed : r.placed = r2.placed
  addr : r = r2 ∨ shelf = .explicitLoops ∧ blind

theorem Akin.of_item {blind : Prop} {P : Shelf → Occupant → Prop} {shelf : Shelf} {r : Staged}
    (h : P shelf r.item) : Akin blind P shelf r r :=
  ⟨h, rfl, rfl, rfl, .inl rfl⟩

/-- The steps of a placement in two spaces related by `E` are coupled, for requests with `P` and items
with `Q`. -/
structure Parallel (blind : Prop) (T : Workspace → Workspace → Prop) (E : SpaceId → SpaceId → Prop)
    (P : Shelf → Occupant → Prop) (Q : Occupant → Prop) : Prop where
  policy : ∀ {ws ws2}, T ws ws2 → ws.policy = ws2.policy
  aligned : blind → ∀ {ws ws2}, T ws ws2 → ws.policy.alignedLoops = true
  block : ∀ b : BlockId, InStep T b.get
  region : ∀ {i i2}, E i i2 →
    Couples T (fun r r2 => r.path = r2.path ∧ r.vacant = r2.vacant) i.region i2.region
  place : ∀ {i i2 x}, E i i2 → Q x → ∀ width addr,
    Couples T Eq (i.onRegion fun r => r.place Occupant.isSome width x addr .item)
      (i2.onRegion fun r => r.place Occupant.isSome width x addr .item)
  check : ∀ {i i2}, E i i2 → Couples T Eq i.checkComplete i2.checkComplete
  base : ∀ {i i2}, E i i2 → ∀ width start,
    Couples T Eq (i.availableBase width start) (i2.availableBase width start)
  name : ∀ {x}, Q x → InStep T x.name?
  path : ∀ {c}, Q (.space c) → Couples T (fun r r2 => r.path = r2.path) c.region c.region ∧
    ∀ path, InStep T (c.setPath path)
  tell : ∀ {x}, Q x → ∀ base, InStep T (x.setBase base)
  item : ∀ {shelf x}, P shelf x → Q x
  copies : ∀ {shelf x}, P shelf x → shelf = .loops ∨ shelf = .explicitLoops →
    Couples T (fun cs cs2 => cs = cs2 ∧ ∀ y ∈ cs, Q y) x.copies x.copies
  blockAw : ∀ {x}, Q x → ∀ aw, InStep T (x.setBlockAw aw)
  block? : ∀ {x}, Q x → InStep T x.block?

namespace Parallel

variable {blind : Prop} {E : SpaceId → SpaceId → Prop} {P : Shelf → Occupant → Prop}
  {Q : Occupant → Prop} {i i2 : SpaceId} {item : Occupant} {shelf : Shelf} {r r2 : Staged}

theorem knownWidth (width : Option Int) : InStep T (knownWidth width) := by
  cases width with
  | some w => exact inStep_pure w
  | none => exact couples_refuse

variable (h : Parallel blind T E P Q)

include h

theorem requireName (hi : Q item) : InStep T item.requireName := by
  unfold Occupant.requireName
  split
  · exact couples_refuse
  · exact couples_refuse
  · exact h.name hi

theorem placing (he : E i i2) (hi : item = .nothing ∨ Q item) {width : Int} {addr : Option Int}
    {purpose : Purpose}
    (hplace : Couples T Eq (i.onRegion fun r => r.place Occupant.isSome width item addr purpose)
      (i2.onRegion fun r => r.place Occupant.isSome width item addr purpose)) :
    Couples T Eq (i.place width item addr purpose) (i2.place width item addr purpose) := by
  unfold SpaceId.place
  have hname : InStep T item.name? := by
    rcases hi with rfl | hi
    · exact inStep_pure _
    · exact h.name hi
  refine hplace.andThen fun base => hname.andThen fun _ => (h.region he).bind fun r r2 hr => ?_
  have hend : Couples T Eq (i.checkComplete >>= fun _ => pure base)
      (i2.checkComplete >>= fun _ => pure base) :=
    (h.check he).andThen fun _ => inStep_pure _
  rw [hr.1]
  split
  · have hpath := h.path (hi.resolve_left (by simp))
    refine hpath.1.bind fun q q2 hq => ?_
    rw [hq]
    split
    · exact (hpath.2 _).andThen fun _ => hend
    · exact Couples.andThen couples_refuse fun _ => hend
  · exact hend

theorem addNow (he : E i i2) (hi : Q item) (width : Int) (addr : Option Int) :
    Couples T Eq (i.addNow width item addr) (i2.addNow width item addr) :=
  (h.placing he (.inr hi) (h.place he hi width addr)).andThen fun base =>
    (h.tell hi base).andThen fun _ => inStep_pure _

theorem placeAligned (he : E i i2) (hi : Q item) {aw blockAw : Int} {copies : List Occupant}
    (hc : ∀ y ∈ copies, Q y) :
    Couples T Eq (i.placeAligned item aw blockAw copies) (i2.placeAligned item aw blockAw copies) := by
  unfold SpaceId.placeAligned
  refine (h.addNow he hi blockAw none).andThen fun base => ?_
  refine (couples_forIn fun p hp => ?_).andThen fun _ => inStep_pure _
  dsimp only
  split
  · exact (inStep_lift _).andThen fun size =>
      (h.tell (hc p.1 (List.fst_mem_of_mem_zipIdx hp)) _).andThen fun _ => inStep_pure _
  · exact inStep_pure _

theorem baseList (he : E i i2) (width count : Int) (start : Option Int) :
    Couples T Eq (i.baseList width count start) (i2.baseList width count start) := by
  unfold SpaceId.baseList
  refine (inStep_lift _).andThen fun size => couples_get.bind fun ws ws2 ht => ?_
  rw [h.policy ht]
  split
  · refine (inStep_lift _).andThen fun more => (h.base he _ _).andThen fun base? => ?_
    split
    · exact inStep_pure _
    · split
      · exact couples_refuse
      · exact inStep_pure _
  · refine (h.base he _ _).andThen fun base? => ?_
    split
    · refine (h.region he).bind fun r r2 hr => ?_
      rw [hr.2]
      exact (inStep_lift _).andThen fun bases => inStep_pure _
    · split
      · exact couples_refuse
      · exact inStep_pure _

theorem placeSpaced (he : E i i2) {aw length : Int} {start : Option Int} {copies : List Occupant}
    (hc : ∀ y ∈ copies, Q y) :
    Couples T Eq (i.placeSpaced aw length start copies) (i2.placeSpaced aw length start copies) := by
  unfold SpaceId.placeSpaced
  refine (h.baseList he aw length start).andThen fun bases => ?_
  refine (couples_forIn fun p hp => ?_).andThen fun _ => inStep_lift _
  dsimp only
  refine (inStep_lift _).andThen fun base => ?_
  refine (h.addNow he (hc p.1 (List.fst_mem_of_mem_zipIdx hp)) aw base).andThen fun placed => ?_
  split
  · exact Couples.andThen couples_refuse fun _ => inStep_pure _
  · exact inStep_pure _

/-- Where an item in an aligned loop is asked for does not matter. -/
theorem placeLoop (he : E i i2) (hshelf : shelf = .loops ∨ shelf = .explicitLoops)
    (hr : Akin blind P shelf r r2) (width : Option Int) :
    Couples T (Akin blind P shelf) (i.placeLoop r width) (i2.placeLoop r2 width) := by
  have hi := h.item hr.known
  unfold SpaceId.placeLoop
  rw [← hr.item, ← hr.placed]
  refine (h.requireName hi).andThen fun name => (h.copies hr.known hshelf).bind ?_
  rintro copies _ ⟨rfl, hc⟩
  refine (knownWidth width).andThen fun aw => (inStep_lift _).andThen fun more => ?_
  refine (h.blockAw hi _).andThen fun _ => (h.block? hi).andThen fun b => ?_
  refine (inStep_entryOf b).andThen fun b => (h.block b).andThen fun block => ?_
  cases block.loop.bind Loop.length with
  | none => exact couples_throw
  | some length =>
    dsimp only
    split
    · exact couples_pure hr
    · refine couples_get.bind fun ws ws2 ht => ?_
      have hend (base : Option Int) : Couples T (Akin blind P shelf)
          (pure ⟨r.item, base, some aw, true⟩) (pure ⟨r.item, base, some aw, true⟩) :=
        couples_pure (.of_item hr.known)
      rw [← h.policy ht]
      split
      · exact ((h.placeAligned he hi hc).map some).andThen hend
      · rename_i hspaced
        rcases hr.addr with rfl | ⟨-, haligned⟩
        · exact (h.placeSpaced he hc).andThen hend
        · exact absurd (h.aligned haligned ht) hspaced

variable (he : E i i2) (hreserve : shelf = .keepouts → ∀ aw addr, Couples T Eq
  (i.onRegion fun r => r.place Occupant.isSome aw .nothing (some addr) .reserve)
  (i2.onRegion fun r => r.place Occupant.isSome aw .nothing (some addr) .reserve))

include he hreserve

theorem placeRequest (hr : Akin blind P shelf r r2) (width : Option Int) :
    Couples T (Akin blind P shelf) (i.placeRequest shelf r width) (i2.placeRequest shelf r2 width) := by
  rcases hr.addr with rfl | ⟨rfl, -⟩
  · cases shelf with
    | loops => exact h.placeLoop he (.inl rfl) hr width
    | explicitLoops => exact h.placeLoop he (.inr rfl) hr width
    | keepouts =>
      unfold SpaceId.placeRequest
      dsimp only
      split
      · exact couples_pure hr
      · exact (knownWidth width).andThen fun aw =>
          (h.placing he (.inl rfl) (hreserve rfl _ _)).andThen fun _ => couples_pure (.of_item hr.known)
    | explicits | entries =>
      refine (h.requireName (h.item hr.known)).andThen fun _ => ?_
      split
      · exact couples_pure hr
      · exact (knownWidth width).andThen fun aw =>
          (h.addNow he (h.item hr.known) aw _).andThen fun _ => couples_pure (.of_item hr.known)
  · exact h.placeLoop he (.inr rfl) hr width

theorem visit {n fuel fuel2 : Nat}
    (hget : Couples T (fun s s2 => Option.Rel (Akin blind P shelf) (s.ledger.on shelf)[n]?
      (s2.ledger.on shelf)[n]?) i.get i2.get)
    (hsettle : ∀ {x}, P shelf x → ∀ w,
      Couples T Eq (SpaceId.settleUpTo fuel x w) (SpaceId.settleUpTo fuel2 x w))
    (hmark : ∀ {q q2}, Akin blind P shelf q q2 →
      Couples T Eq (i.updateLedger fun l => l.put shelf ((l.on shelf).set n q))
        (i2.updateLedger fun l => l.put shelf ((l.on shelf).set n q2))) :
    Couples T Eq (SpaceId.visit fuel i shelf n) (SpaceId.visit fuel2 i2 shelf n) := by
  refine hget.bind fun s s2 hs => ?_
  generalize (s.ledger.on shelf)[n]? = q, (s2.ledger.on shelf)[n]? = q2 at hs
  cases hs with
  | none => exact inStep_pure _
  | some hr =>
    dsimp only
    rw [← hr.item, ← hr.width]
    exact (hsettle hr.known _).andThen fun width =>
      (h.placeRequest he hreserve hr width).bind fun _ _ => hmark

end Parallel

/-! ### Resolutions -/

/-- The steps of a resolution are coupled as well. -/
structure Lockstep (blind : Prop) (T : Workspace → Workspace → Prop) (E : SpaceId → SpaceId → Prop)
    (P : Shelf → Occupant → Prop) (Q : Occupant → Prop) : Prop extends Parallel blind T E P Q where
  inner : ∀ {shelf j}, P shelf (.space j) → E j j
  width : ∀ {x}, Q x → InStep T x.declaredWidth
  reserve : ∀ {j}, E j j → ∀ aw addr,
    InStep T (j.onRegion fun r => r.place Occupant.isSome aw .nothing (some addr) .reserve)
  shrink : ∀ {j}, E j j → InStep T (j.onRegion Region.shrink)
  ledger : ∀ {j}, E j j → Couples T (fun s s2 => s.kind = s2.kind ∧
    s.ledger.resolved = s2.ledger.resolved ∧ s.ledger.passes = s2.ledger.passes ∧
    s.ledger.passCount = s2.ledger.passCount ∧
    ∀ shelf, List.Forall₂ (Akin blind P shelf) (s.ledger.on shelf) (s2.ledger.on shelf)) j.get j.get
  mark : ∀ {j shelf q q2}, E j j → Akin blind P shelf q q2 → ∀ n,
    Couples T Eq (j.updateLedger fun l => l.put shelf ((l.on shelf).set n q))
      (j.updateLedger fun l => l.put shelf ((l.on shelf).set n q2))
  finish : ∀ {j}, E j j → InStep T (j.updateLedger fun l => { l with resolved := true })

namespace Lockstep

variable {blind : Prop} {E : SpaceId → SpaceId → Prop} {P : Shelf → Occupant → Prop}
  {Q : Occupant → Prop} (h : Lockstep blind T E P Q) {j : SpaceId} {fuel : Nat}

include h

theorem passAt (hj : E j j) (n : Int) : InStep T (j.passAt n) := by
  unfold SpaceId.passAt
  refine (h.ledger hj).bind fun s s2 hs => ?_
  rw [hs.2.2.1]
  dsimp only
  split
  · exact couples_throw
  · exact inStep_lift _

variable (ih : ∀ k < fuel, ∀ {j}, E j j → InStep T (SpaceId.resolveUpTo k j))

include ih

theorem shrinkUpTo (hj : E j j) : InStep T (SpaceId.shrinkUpTo fuel j) := by
  cases fuel with
  | zero => exact couples_throw
  | succ fuel =>
    unfold SpaceId.shrinkUpTo
    refine (h.ledger hj).bind fun s s2 hs => ?_
    rw [hs.1]
    dsimp only
    split
    · exact (ih fuel (by omega) hj).andThen fun _ => h.shrink hj
    · exact h.shrink hj

theorem settleUpTo {shelf : Shelf} {item : Occupant} (hi : P shelf item) (width : Option Int) :
    InStep T (SpaceId.settleUpTo fuel item width) := by
  cases fuel with
  | zero => exact couples_throw
  | succ fuel =>
    unfold SpaceId.settleUpTo
    cases item with
    | space inner =>
      have hj := h.inner hi
      have hshrink : InStep T (SpaceId.shrinkUpTo fuel inner) :=
        h.shrinkUpTo (fun k hk => ih k (by omega)) hj
      refine (h.ledger hj).bind fun s s2 hs => ?_
      rw [hs.1]
      dsimp only
      split
      · exact (ih fuel (by omega) hj).andThen fun _ => hshrink.andThen fun _ => h.width (h.item hi)
      · exact hshrink.andThen fun _ => h.width (h.item hi)
    | register _ | passenger _ | bus _ => exact h.width (h.item hi)
    | nothing | number _ | text _ => exact inStep_pure _

theorem runPassUpTo (hj : E j j) (pass : Pass) : InStep T (SpaceId.runPassUpTo fuel j pass) := by
  cases fuel with
  | zero => exact couples_throw
  | succ fuel =>
    rw [SpaceId.runPassUpTo_succ]
    refine couples_forM fun shelf _ => (h.ledger hj).bind fun s s2 hs => ?_
    rw [(hs.2.2.2.2 shelf).length_eq]
    refine couples_forM fun n _ => h.visit hj (fun _ => h.reserve hj) ?_
      (fun hx => h.settleUpTo (fun k hk => ih k (by omega)) hx) fun hq => h.mark hj hq n
    exact (h.ledger hj).imp fun _ _ hs => rel_getElem? (hs.2.2.2.2 shelf) n

omit ih in
theorem resolveUpTo (fuel : Nat) (hj : E j j) : InStep T (SpaceId.resolveUpTo fuel j) := by
  induction fuel using Nat.strong_induction_on generalizing j with
  | _ fuel ih =>
    cases fuel with
    | zero => exact couples_throw
    | succ fuel =>
      rw [SpaceId.resolveUpTo_succ]
      refine (h.ledger hj).bind fun s s2 hs => ?_
      rw [hs.2.1, hs.2.2.2.1]
      split
      · exact inStep_pure _
      · refine (couples_forM fun n _ => ?_).andThen fun _ => h.finish hj
        exact (h.passAt hj n).andThen fun pass =>
          h.runPassUpTo (fun k hk => ih k (by omega)) hj pass

end Lockstep

/-! ### One run -/

/-- Work on a workspace that was reached along `R`, next to itself. -/
def Since (R : Workspace → Workspace → Prop) (w0 ws ws2 : Workspace) : Prop := ws = ws2 ∧ R w0 ws

variable {R : Workspace → Workspace → Prop} {w0 : Workspace}

theorem inStep_since (h : ∀ {ws a ws'}, R w0 ws → x ws = .ok a ws' → R w0 ws') : InStep (Since R w0) x := by
  rintro ws _ a ws' ⟨rfl, hr⟩ hrun
  exact ⟨a, ws', hrun, ⟨rfl, h hr hrun⟩, rfl⟩

theorem ReadOnly.inStep (h : ReadOnly x) : InStep (Since R w0) x :=
  inStep_since fun hr hrun => h hrun ▸ hr

/-- The steps of a placement in the spaces with `E` lead along `R` from `w0` on. -/
structure Hosts (R : Workspace → Workspace → Prop) (w0 : Workspace) (E : SpaceId → Prop)
    (P : Shelf → Occupant → Prop) (Q : Occupant → Prop) : Prop where
  place : ∀ {j x ws s r width addr base}, E j → Q x → ws.space? j = some s →
    s.region.place Occupant.isSome width x addr .item = (r, .ok base) →
    R ws (ws.setSpace j { s with region := r })
  sort : ∀ {j ws s}, E j → ws.space? j = some s →
    R ws (ws.setSpace j { s with region := s.region.sorted })
  path : ∀ {c ws path u ws'}, Q (.space c) → R w0 ws → c.setPath path ws = .ok u ws' → R ws ws'
  tell : ∀ {x ws base u ws'}, Q x → R w0 ws → x.setBase base ws = .ok u ws' → R ws ws'
  note : ∀ {ws ws'}, Frame [] [] ws ws' → R ws ws'
  item : ∀ {shelf x}, P shelf x → Q x
  copies : ∀ {shelf x ws}, P shelf x → shelf = .loops ∨ shelf = .explicitLoops → R w0 ws →
    ∀ y ∈ ws.copiesOf x, Q y

namespace Hosts

variable [IsPreorder Workspace R] {E : SpaceId → Prop} {P : Shelf → Occupant → Prop}
  {Q : Occupant → Prop}

theorem parallel (h : Hosts R w0 E P Q) : Parallel False (Since R w0) (fun i i2 => i = i2 ∧ E i) P Q where
  policy ht := ht.1 ▸ rfl
  aligned := False.elim
  block b := b.readOnly_get.inStep
  region := by
    rintro i _ ⟨rfl, -⟩
    exact (SpaceId.readOnly_region i).inStep.imp fun _ _ hr => hr ▸ ⟨rfl, rfl⟩
  place := by
    rintro i _ x ⟨rfl, he⟩ hx width addr
    refine inStep_since fun hr hrun => ?_
    obtain ⟨s, r, hs, hplace, rfl⟩ := SpaceId.onRegion_ok hrun
    exact IsTrans.trans _ _ _ hr (h.place he hx hs hplace)
  check := by
    rintro i _ ⟨rfl, he⟩
    refine inStep_since fun hr hrun => ?_
    obtain ⟨s, hs, rfl⟩ := SpaceId.checkComplete_ok hrun
    exact IsTrans.trans _ _ _ hr (h.sort he hs)
  base := by
    rintro i _ ⟨rfl, -⟩ width start
    refine ReadOnly.inStep fun ws a ws' hrun => ?_
    unfold SpaceId.availableBase SpaceId.readRegion at hrun
    obtain ⟨s, r, hs, hr, rfl⟩ := SpaceId.onRegion_ok hrun
    rw [← show s.region = r from congrArg Prod.fst hr]
    exact Workspace.setSpace_self hs
  name _ := (Occupant.readOnly_name? _).inStep
  path hq := ⟨(SpaceId.readOnly_region _).inStep.imp fun _ _ hr => hr ▸ rfl,
    fun path => inStep_since fun hr hrun => IsTrans.trans _ _ _ hr (h.path hq hr hrun)⟩
  tell hq base := inStep_since fun hr hrun => IsTrans.trans _ _ _ hr (h.tell hq hr hrun)
  item := h.item
  copies := by
    rintro shelf x hp hshelf ws _ cs ws' ⟨rfl, hr⟩ hrun
    obtain ⟨rfl, rfl⟩ := Occupant.copies_ok hrun
    exact ⟨_, _, hrun, ⟨rfl, hr⟩, rfl, h.copies hp hshelf hr⟩
  blockAw _ _ := inStep_since fun hr hrun =>
    IsTrans.trans _ _ _ hr (h.note (Occupant.setBlockAw_ok hrun))
  block? _ := (Occupant.readOnly_block? _).inStep

theorem placeRequest (h : Hosts R w0 E P Q) {i : SpaceId} (he : E i) {shelf : Shelf} {r r' : Staged}
    (hreserve : shelf = .keepouts → ∀ {ws s r' aw addr base}, ws.space? i = some s →
      s.region.place Occupant.isSome aw .nothing (some addr) .reserve = (r', .ok base) →
      R ws (ws.setSpace i { s with region := r' }))
    (hr : P shelf r.item) {width : Option Int} {ws' : Workspace}
    (hrun : i.placeRequest shelf r width w0 = .ok r' ws') : R w0 ws' := by
  have hreserve' (hs : shelf = .keepouts) (aw addr : Int) : InStep (Since R w0)
      (i.onRegion fun r => r.place Occupant.isSome aw .nothing (some addr) .reserve) := by
    refine inStep_since fun hr hrun => ?_
    obtain ⟨s, r, hspace, hplace, rfl⟩ := SpaceId.onRegion_ok hrun
    exact IsTrans.trans _ _ _ hr (hreserve hs hspace hplace)
  obtain ⟨_, _, -, ⟨-, hend⟩, -⟩ := h.parallel.placeRequest ⟨rfl, he⟩ hreserve' (.of_item hr) width
    ⟨rfl, Std.Refl.refl _⟩ hrun
  exact hend

end Hosts

end Build

end RegisterMap
