import RegisterMap.Proofs.AddressSpace.Placement
import RegisterMap.Proofs.AddressSpace.Passes
import RegisterMap.Proofs.Region.Vacancy

/-! # Requests to a staged space

A staged space places its requests when it is resolved, and a request that is refused stops the
resolution where it stands.  This module says what one visit of a request does (`SpaceId.visit_placed`,
`SpaceId.visit_refused`, `SpaceId.visit_granted`), for requests without an item and for registers,
memories and passengers (`Workspace.isSimple`), what a pass does (`Workspace.Stages.pass`) and what a
resolution does (`Workspace.Stages.resolve`), whether they go through or not. -/

namespace RegisterMap

open Build List

/-! ### Simple items -/

namespace Workspace

/-- No item, or a register, a memory or a passenger that can be named. -/
def isSimple (ws : Workspace) : Occupant → Bool
  | .nothing => true
  | .register id => ((ws.registers[id.index]?).bind Register.given).isSome
  | .passenger id => (ws.passengers[id.index]?).isSome
  | _ => false

/-- The address width of a request: that of the item if it has one. -/
def need (ws : Workspace) (q : Staged) : Int := ((ws.leaf? q.item).map Leaf.aw).getD (q.width.getD 0)

variable {ws ws' : Workspace} {ids : List SpaceId} {xs : List Occupant} {item : Occupant}

theorem isSimple_frame (h : Frame ids xs ws ws') (item : Occupant) :
    ws'.isSimple item = ws.isSimple item := by
  cases item with
  | register id =>
    have := congrArg (fun o => (o.bind Register.given).isSome) (h.registers id.index)
    simpa [isSimple, Option.bind_map, Function.comp_def, Register.unplaced] using this
  | passenger id =>
    have := congrArg Option.isSome (h.passengers id.index)
    simpa [isSimple] using this
  | _ => rfl

theorem need_frame (h : Frame ids xs ws ws') (q : Staged) : ws'.need q = ws.need q := by
  have := congrArg (Option.map Prod.fst) (h.shape q.item)
  simp only [Option.map_map] at this
  unfold need
  exact congrArg (fun o => o.getD (q.width.getD 0)) this

end Workspace

namespace Occupant

variable {ws : Workspace} {item : Occupant}

section

variable (h : ws.isSimple item = true)

include h

theorem name?_simple : ∃ name, item.name? ws = .ok name ws := by
  cases item with
  | nothing => exact ⟨none, rfl⟩
  | register id =>
    obtain ⟨name, hname⟩ := Option.isSome_iff_exists.mp h
    obtain ⟨r, hr, hgiven⟩ := Option.bind_eq_some_iff.mp hname
    have hr' : (liftM r.name : Build String) ws = .ok name ws := by
      unfold Register.name
      rw [hgiven]
      rfl
    exact ⟨some name, (bind_of_ok (entryOf_of_some hr) _).trans (bind_of_ok hr' _)⟩
  | passenger id =>
    obtain ⟨p, hp⟩ := Option.isSome_iff_exists.mp h
    exact ⟨some p.name, bind_of_ok (entryOf_of_some hp) _⟩
  | _ => cases h

theorem requireName_simple :
    ∃ name, item.requireName ws = .ok name ws := by
  cases item with
  | nothing | register id | passenger id => exact name?_simple h
  | _ => cases h

theorem leaf_simple :
    item = .nothing ∨ ∃ l, ws.leaf? item = some l := by
  cases item with
  | nothing => exact .inl rfl
  | register id =>
    obtain ⟨name, hname⟩ := Option.isSome_iff_exists.mp h
    obtain ⟨r, hr, -⟩ := Option.bind_eq_some_iff.mp hname
    exact .inr ⟨r.leaf, congrArg (Option.map Register.leaf) hr⟩
  | passenger id =>
    obtain ⟨p, hp⟩ := Option.isSome_iff_exists.mp h
    exact .inr ⟨p.leaf, congrArg (Option.map Passenger.leaf) hp⟩
  | _ => cases h

theorem setBase_simple (base : Int) :
    ∃ ws', item.setBase base ws = .ok () ws' ∧ Frame [] [item] ws ws' := by
  cases item with
  | nothing => exact ⟨ws, rfl, Frame.refl _ _ _⟩
  | register id =>
    obtain ⟨name, hname⟩ := Option.isSome_iff_exists.mp h
    obtain ⟨r, hr, -⟩ := Option.bind_eq_some_iff.mp hname
    exact ⟨_, bind_of_ok (entryOf_of_some hr) _,
      LeafKind.register.frame_set hr rfl (.inr mem_cons_self)⟩
  | passenger id =>
    obtain ⟨p, hp⟩ := Option.isSome_iff_exists.mp h
    exact ⟨_, bind_of_ok (entryOf_of_some hp) _,
      LeafKind.passenger.frame_set hp rfl (.inr mem_cons_self)⟩
  | _ => cases h

end

end Occupant

namespace SpaceId

variable {ws : Workspace} {id : SpaceId} {s : AddressSpace} {n : Nat} {item : Occupant}
  {width : Int} {addr : Option Int} {r : Region Occupant}

theorem settleUpTo_simple (fuel : Nat) {q : Staged} (h : ws.isSimple q.item = true)
    (hw : q.width.isSome) :
    settleUpTo (fuel + 1) q.item q.width ws = .ok (some (ws.need q)) ws := by
  obtain ⟨w, hw⟩ := Option.isSome_iff_exists.mp hw
  obtain ⟨item, addr, width, placed⟩ := q
  obtain rfl : width = some w := hw
  unfold Workspace.need
  rcases Occupant.leaf_simple h with rfl | ⟨l, hl⟩
  · rfl
  · rw [hl]
    cases item with
    | register id | passenger id => exact Occupant.declaredWidth_leaf hl
    | _ => cases hl

theorem place_refused (h : ws.space? id = some s) {e : Refusal Occupant}
    (hp : s.region.place Occupant.isSome width item addr .item = (r, .error e)) :
    id.place width item addr .item ws =
      .error (e.toError (ws.setSpace id { s with region := r }).occupantText)
        (ws.setSpace id { s with region := r }) := by
  have hplace := onRegion_of_space? h fun r => r.place Occupant.isSome width item addr .item
  rw [hp] at hplace
  unfold place
  rw [bind_of_error hplace]

theorem addNow_refused (h : ws.space? id = some s) {e : Refusal Occupant}
    (hp : s.region.place Occupant.isSome width item addr .item = (r, .error e)) :
    id.addNow width item addr ws =
      .error (e.toError (ws.setSpace id { s with region := r }).occupantText)
        (ws.setSpace id { s with region := r }) := by
  unfold addNow
  rw [bind_of_error (place_refused h hp)]

section Granted

variable (h : ws.space? id = some s) (hi : ws.isSimple item = true) (hr : r.sorted.check = .ok ())
  {base : Int} (hp : s.region.place Occupant.isSome width item addr .item = (r, .ok base))

include h hi hr hp

theorem place_granted :
    id.place width item addr .item ws = .ok base (ws.setSpace id { s with region := r.sorted }) := by
  have hplace := onRegion_of_space? h fun r => r.place Occupant.isSome width item addr .item
  rw [hp] at hplace
  have hs1 := Workspace.space?_setSpace_self h { s with region := r }
  have hi1 : (ws.setSpace id { s with region := r }).isSimple item = true := hi
  obtain ⟨name, hname⟩ := Occupant.name?_simple hi1
  have hcheck := onRegion_of_space? hs1 Region.checkComplete
  simp only [Region.checkComplete, hr, Workspace.setSpace_setSpace] at hcheck
  unfold place
  rw [bind_of_ok hplace, bind_of_ok hname, bind_of_ok (region_of_space? hs1)]
  have hfinish : (do id.checkComplete; pure base : Build Int) (ws.setSpace id { s with region := r }) =
      .ok base (ws.setSpace id { s with region := r.sorted }) := bind_of_ok hcheck _
  cases item with
  | space c => cases hi
  | _ => cases hpath : r.path <;> simpa only [hpath] using hfinish

theorem addNow_granted : ∃ ws', id.addNow width item addr ws = .ok base ws' ∧
      Frame [] [item] (ws.setSpace id { s with region := r.sorted }) ws' := by
  have hi1 : (ws.setSpace id { s with region := r.sorted }).isSimple item = true := hi
  obtain ⟨ws', hset, hframe⟩ := Occupant.setBase_simple hi1 base
  refine ⟨ws', ?_, hframe⟩
  unfold addNow
  rw [bind_of_ok (place_granted h hi hr hp), bind_of_ok hset]
  rfl

end Granted

/-! ### Visits -/

/-- Visit a request: it is settled, placed and marked. -/
def visit (fuel : Nat) (id : SpaceId) (shelf : Shelf) (m : Nat) : Build Unit := do
  match ((← id.get).ledger.on shelf)[m]? with
  | none => pure ()
  | some request =>
    let width ← settleUpTo fuel request.item request.width
    let request ← id.placeRequest shelf request width
    id.updateLedger fun l => l.put shelf ((l.on shelf).set m request)

/-- Visit the requests of a shelf one after the other. -/
def visitAll (fuel : Nat) (id : SpaceId) (shelf : Shelf) : Build Unit := do
  let s ← id.get
  forM (List.range (s.ledger.on shelf).length) (visit fuel id shelf)

theorem visitAll_of_space? (h : ws.space? id = some s) (fuel : Nat) (shelf : Shelf) :
    visitAll fuel id shelf ws = forM (List.range (s.ledger.on shelf).length) (visit fuel id shelf) ws :=
  bind_of_ok (get_of_space? h) _

theorem runPassUpTo_succ (fuel : Nat) (id : SpaceId) (pass : Pass) :
    runPassUpTo (fuel + 1) id pass = forM (shelvesOf pass) (visitAll fuel id) := by
  unfold runPassUpTo
  rw [forIn_eq_forM (g := visitAll fuel id)]
  · exact bind_pure_unit
  · intro shelf
    unfold visitAll
    rw [bind_assoc]
    refine congrArg _ (funext fun s => ?_)
    rw [forIn_eq_forM (g := visit fuel id shelf)]
    intro m
    unfold visit
    rw [bind_assoc]
    refine congrArg _ (funext fun space => ?_)
    cases (space.ledger.on shelf)[m]? with
    | none => rw [pure_bind]
    | some request => simp only [bind_assoc]

theorem runPassUpTo_eq {pass : Pass} {shelf : Shelf} (hpass : shelvesOf pass = [shelf]) (fuel : Nat)
    (h : ws.space? id = some s) :
    runPassUpTo (fuel + 1) id pass ws =
      forM (List.range (s.ledger.on shelf).length) (visit fuel id shelf) ws := by
  rw [runPassUpTo_succ, hpass, forM_cons, forM_nil, bind_pure_unit, visitAll_of_space? h]

theorem resolveUpTo_succ (fuel : Nat) (id : SpaceId) :
    resolveUpTo (fuel + 1) id = (do
      let s ← id.get
      if s.ledger.resolved then pure () else do
        forM (List.range s.ledger.passCount) fun k : Nat => do runPassUpTo fuel id (← id.passAt k)
        id.updateLedger fun l => { l with resolved := true }) := by
  unfold resolveUpTo
  refine congrArg _ (funext fun s => ?_)
  dsimp only
  split
  · rfl
  · rw [forIn_eq_forM (g := fun k : Nat => do runPassUpTo fuel id (← id.passAt k))]
    intro k
    rw [bind_assoc]

end SpaceId

/-- The address that a request on a shelf is placed at, unless it takes the first gap with room. -/
def Shelf.wanted (shelf : Shelf) (q : Staged) : Option Int :=
  match shelf with
  | .explicits => q.addr
  | _ => none

def Workspace.orderOn (ws : Workspace) (shelf : Shelf) (q : Staged) : Region.Order Occupant :=
  ⟨ws.need q, q.item, shelf.wanted q⟩

/-- The request after it was placed. -/
def Staged.marked (q : Staged) (base width : Int) : Staged := ⟨q.item, some base, some width, true⟩

namespace SpaceId

variable {ws : Workspace} {id : SpaceId} {s : AddressSpace} {r : Region Occupant} {shelf : Shelf}
  {m : Nat} {q : Staged}

variable (fuel : Nat) (hshelf : shelf = .explicits ∨ shelf = .entries) (h : ws.space? id = some s)
  (hq : (s.ledger.on shelf)[m]? = some q) (hi : ws.isSimple q.item = true) (hw : q.width.isSome)

include h hq hi hw

theorem visit_simple : visit (fuel + 1) id shelf m ws = (do
    let request ← id.placeRequest shelf q (some (ws.need q))
    id.updateLedger fun l => l.put shelf ((l.on shelf).set m request)) ws := by
  unfold visit
  rw [bind_of_ok (get_of_space? h)]
  simp only [hq]
  rw [bind_of_ok (settleUpTo_simple fuel hi hw)]

include hshelf

theorem visit_placed (hp : q.placed = true) : visit (fuel + 1) id shelf m ws = .ok () ws := by
  obtain ⟨name, hname⟩ := Occupant.requireName_simple hi
  have hplace : id.placeRequest shelf q (some (ws.need q)) ws = .ok q ws := by
    rcases hshelf with rfl | rfl
    all_goals
      refine (bind_of_ok hname _).trans ?_
      rw [if_pos hp]
      rfl
  have hsame : (s.ledger.on shelf).set m q = s.ledger.on shelf := by
    obtain ⟨hlt, rfl⟩ := List.getElem?_eq_some_iff.mp hq
    exact set_getElem_self hlt
  rw [visit_simple fuel h hq hi hw, bind_of_ok hplace]
  refine (update_of_space? h _).trans ?_
  show EStateM.Result.ok ()
    (ws.setSpace id { s with ledger := s.ledger.put shelf ((s.ledger.on shelf).set m q) }) = _
  rw [hsame, Ledger.put_on]
  exact congrArg _ (Workspace.setSpace_self h)

theorem visit_refused (hp : q.placed = false) {e : Refusal Occupant}
    (hr : s.region.place Occupant.isSome (ws.need q) q.item (shelf.wanted q) .item = (r, .error e)) :
    visit (fuel + 1) id shelf m ws =
      .error (e.toError (ws.setSpace id { s with region := r }).occupantText)
        (ws.setSpace id { s with region := r }) := by
  obtain ⟨name, hname⟩ := Occupant.requireName_simple hi
  have hplace : id.placeRequest shelf q (some (ws.need q)) ws =
      .error (e.toError (ws.setSpace id { s with region := r }).occupantText)
        (ws.setSpace id { s with region := r }) := by
    rcases hshelf with rfl | rfl
    all_goals
      refine (bind_of_ok hname _).trans ?_
      rw [if_neg (by simp [hp])]
      exact bind_of_error (addNow_refused h hr) _
  rw [visit_simple fuel h hq hi hw, bind_of_error hplace]

theorem visit_granted (hp : q.placed = false) (ha : shelf = .explicits → q.addr.isSome)
    (hc : r.sorted.check = .ok ()) {base : Int}
    (hr : s.region.place Occupant.isSome (ws.need q) q.item (shelf.wanted q) .item = (r, .ok base)) :
    ∃ ws', visit (fuel + 1) id shelf m ws = .ok () (ws'.setSpace id { s with
        region := r.sorted
        ledger := s.ledger.put shelf ((s.ledger.on shelf).set m (q.marked base (ws.need q))) }) ∧
      Frame [] [q.item] (ws.setSpace id { s with region := r.sorted }) ws' := by
  obtain ⟨name, hname⟩ := Occupant.requireName_simple hi
  obtain ⟨ws', hadd, hframe⟩ := addNow_granted h hi hc hr
  refine ⟨ws', ?_, hframe⟩
  have hplace : id.placeRequest shelf q (some (ws.need q)) ws =
      .ok (q.marked base (ws.need q)) ws' := by
    rcases hshelf with rfl | rfl
    · obtain ⟨addr, haddr⟩ := Option.isSome_iff_exists.mp (ha rfl)
      have hbase : base = addr := by
        have hwanted : Shelf.explicits.wanted q = some addr := haddr
        rw [hwanted] at hr
        exact Region.insert_base hr
      refine (bind_of_ok hname _).trans ?_
      rw [if_neg (by simp [hp])]
      refine (bind_of_ok hadd _).trans ?_
      show EStateM.Result.ok ({ q with width := some (ws.need q), placed := true } : Staged) ws' = _
      rw [hbase, haddr]
      rfl
    · refine (bind_of_ok hname _).trans ?_
      rw [if_neg (by simp [hp])]
      exact bind_of_ok hadd _
  have hs' : ws'.space? id = some { s with region := r.sorted } := by
    rw [hframe.spaces id (by simp), Workspace.space?_setSpace_self h]
  rw [visit_simple fuel h hq hi hw, bind_of_ok hplace]
  exact update_of_space? hs' _

end SpaceId

/-! ### Ledger and map -/

/-- The block of a request, if it has an address and a width. -/
def Staged.slot? (q : Staged) : Option (Slot Occupant) :=
  match q.addr, q.width with
  | some addr, some width =>
    if 0 ≤ width then some ⟨addr, addr + 2 ^ width.toNat, q.item⟩ else none
  | _, _ => none

theorem filter_set_perm {α : Type} {p : α → Bool} {xs : List α} {m : Nat} {x x' : α}
    (h : xs[m]? = some x) (hx : p x = false) (hx' : p x' = true) :
    ((xs.set m x').filter p).Perm (x' :: xs.filter p) := by
  induction xs generalizing m with
  | nil => cases h
  | cons y ys ih =>
    cases m with
    | zero =>
      obtain rfl : y = x := Option.some.inj h
      simp [hx, hx']
    | succ m =>
      have hrest := ih (m := m) h
      rw [set_cons_succ, filter_cons, filter_cons]
      split
      · exact (hrest.cons y).trans (List.Perm.swap _ _ _)
      · exact hrest

namespace AddressSpace

variable {shelf : Shelf} {q : Staged}

/-- The requests for single items. -/
def requests (s : AddressSpace) : List Staged := s.ledger.explicits ++ s.ledger.entries

/-- The requests that have been placed. -/
def placedRequests (s : AddressSpace) : List Staged := s.requests.filter Staged.placed

variable {s : AddressSpace}

theorem mem_requests (hshelf : shelf = .explicits ∨ shelf = .entries)
    (h : q ∈ s.ledger.on shelf) : q ∈ s.requests := by
  rcases hshelf with rfl | rfl
  · exact mem_append_left _ h
  · exact mem_append_right _ h

theorem requests_put (hshelf : shelf = .explicits ∨ shelf = .entries) (r : Region Occupant)
    (qs : List Staged) :
    ∃ before after, s.requests = before ++ s.ledger.on shelf ++ after ∧
      ({ s with region := r, ledger := s.ledger.put shelf qs } : AddressSpace).requests =
        before ++ qs ++ after := by
  rcases hshelf with rfl | rfl
  · exact ⟨[], s.ledger.entries, rfl, rfl⟩
  · exact ⟨s.ledger.explicits, [], (append_nil _).symm, (append_nil _).symm⟩

/-- What was placed stays placed, and stays where it is. -/
structure Later (s s' : AddressSpace) : Prop where
  requests : s.placedRequests ⊆ s'.placedRequests
  taken : s.region.taken ⊆ s'.region.taken

theorem Later.trans {s' s'' : AddressSpace} (h : s.Later s') (h' : s'.Later s'') : s.Later s'' :=
  ⟨List.Subset.trans h.requests h'.requests, List.Subset.trans h.taken h'.taken⟩

theorem placedRequests_marked (hshelf : shelf = .explicits ∨ shelf = .entries) {m : Nat}
    (hq : (s.ledger.on shelf)[m]? = some q) (hp : q.placed = false) (r : Region Occupant)
    (base width : Int) :
    ({ s with
      region := r
      ledger := s.ledger.put shelf ((s.ledger.on shelf).set m (q.marked base width)) } : AddressSpace).placedRequests.Perm
      (q.marked base width :: s.placedRequests) := by
  obtain ⟨before, after, hold, hnew⟩ :=
    requests_put (s := s) hshelf r ((s.ledger.on shelf).set m (q.marked base width))
  unfold placedRequests
  rw [hnew, hold, filter_append, filter_append, filter_append, filter_append]
  have hset : (((s.ledger.on shelf).set m (q.marked base width)).filter Staged.placed).Perm
      (q.marked base width :: (s.ledger.on shelf).filter Staged.placed) := filter_set_perm hq hp rfl
  refine ((hset.append_left _).append_right _).trans ?_
  rw [append_assoc, append_assoc]
  exact perm_middle

theorem items_marked {m : Nat} (hq : (s.ledger.on shelf)[m]? = some q)
    (r : Region Occupant) (base width : Int) :
    ({ s with
      region := r
      ledger := s.ledger.put shelf ((s.ledger.on shelf).set m (q.marked base width)) } : AddressSpace).items =
      s.items :=
  funext (Ledger.map_item_set hq rfl)

end AddressSpace

namespace Workspace

/-- A staged space over `[0, 2 ^ n)` without reserved blocks, with requests for simple items; its slots
are those of the placed ones. -/
structure Stages (ws : Workspace) (id : SpaceId) (n : Nat) (s : AddressSpace) : Prop where
  space : ws.space? id = some s
  kind : s.kind = .staged
  passes : s.ledger.passes = SpaceKind.staged.passes
  passCount : s.ledger.passCount = SpaceKind.staged.passes.length
  keepouts : s.ledger.keepouts = []
  ready : s.region.Ready n
  simple : ∀ q ∈ s.requests, ws.isSimple q.item = true
  widths : ∀ q ∈ s.requests, q.width.isSome
  addrs : ∀ q ∈ s.ledger.explicits, q.addr.isSome
  matched : (s.placedRequests.map Staged.slot?).Perm (s.region.taken.map some)

variable {ws ws' : Workspace} {id : SpaceId} {s : AddressSpace} {n : Nat} {shelf : Shelf} {m : Nat}
  {q : Staged} {r : Region Occupant}

theorem Stages.refused (h : ws.Stages id n s) (hr : r.Ready n) (ht : r.taken.Perm s.region.taken) :
    (ws.setSpace id { s with region := r }).Stages id n { s with region := r } :=
  { h with
    space := Workspace.space?_setSpace_self h.space _
    ready := hr
    matched := h.matched.trans (ht.map some).symm }

theorem Stages.granted (h : ws.Stages id n s) (hshelf : shelf = .explicits ∨ shelf = .entries)
    (hq : (s.ledger.on shelf)[m]? = some q) (hp : q.placed = false) {base width : Int}
    (hr : r.Ready n) {w : Nat} (hw : width = w)
    (ht : r.taken.Perm (⟨base, base + 2 ^ w, q.item⟩ :: s.region.taken)) {s' : AddressSpace}
    (hs' : s' = { s with
      region := r
      ledger := s.ledger.put shelf ((s.ledger.on shelf).set m (q.marked base width)) })
    (hspace : ws'.space? id = some s') (hsimple : ws'.isSimple = ws.isSimple) :
    ws'.Stages id n s' := by
  have hmem : q ∈ s.requests := AddressSpace.mem_requests hshelf (mem_of_getElem? hq)
  obtain ⟨before, after, hold, hnew⟩ :=
    AddressSpace.requests_put (s := s) hshelf r ((s.ledger.on shelf).set m (q.marked base width))
  rw [← hs'] at hnew
  -- a request is one of the old ones or the one that is marked
  have hcases : ∀ x ∈ s'.requests, x ∈ s.requests ∨ x = q.marked base width := by
    intro x hx
    rw [hnew] at hx
    rw [hold]
    simp only [mem_append] at hx ⊢
    rcases hx with (hx | hx) | hx
    · exact .inl (.inl (.inl hx))
    · rcases mem_or_eq_of_mem_set hx with hx | hx
      · exact .inl (.inl (.inr hx))
      · exact .inr hx
    · exact .inl (.inr hx)
  have hplaced : s'.placedRequests.Perm (q.marked base width :: s.placedRequests) := by
    rw [hs']
    exact AddressSpace.placedRequests_marked hshelf hq hp r base width
  have hslot : (q.marked base width).slot? = some ⟨base, base + 2 ^ w, q.item⟩ := by
    subst hw
    simp [Staged.slot?, Staged.marked]
  refine ⟨hspace, ?_, ?_, ?_, ?_, ?_, ?_, ?_, ?_, ?_⟩
  · rw [hs']
    exact h.kind
  · rw [hs']
    exact (Ledger.put_passes _ _ _).trans h.passes
  · rw [hs']
    rcases hshelf with rfl | rfl <;> exact h.passCount
  · rw [hs']
    rcases hshelf with rfl | rfl <;> exact h.keepouts
  · rw [hs']
    exact hr
  · intro x hx
    rw [hsimple]
    rcases hcases x hx with hx | rfl
    · exact h.simple x hx
    · exact h.simple q hmem
  · intro x hx
    rcases hcases x hx with hx | rfl
    · exact h.widths x hx
    · rfl
  · intro x hx
    rw [hs'] at hx
    rcases hshelf with rfl | rfl
    · rcases mem_or_eq_of_mem_set hx with hx | rfl
      · exact h.addrs x hx
      · rfl
    · exact h.addrs x hx
  · have hregion : s'.region = r := by rw [hs']
    rw [hregion]
    refine (hplaced.map Staged.slot?).trans ?_
    rw [map_cons, hslot]
    exact (h.matched.cons _).trans ((ht.map some).symm)

/-- A visit leaves a placed request as it is; otherwise it is granted and marked, or refused for good. -/
theorem Stages.visit (h : ws.Stages id n s) (hn : n ≤ 32) (hopen : s.ledger.resolved = false)
    (hshelf : shelf = .explicits ∨ shelf = .entries) (hq : (s.ledger.on shelf)[m]? = some q)
    (fuel : Nat) :
    (q.placed = true ∧ id.visit (fuel + 1) shelf m ws = .ok () ws) ∨
    (q.placed = false ∧ ∃ r base ws' s',
      s.region.place Occupant.isSome (ws.need q) q.item (shelf.wanted q) .item = (r, .ok base) ∧
      s' = { s with
        region := r.sorted
        ledger := s.ledger.put shelf ((s.ledger.on shelf).set m (q.marked base (ws.need q))) } ∧
      id.visit (fuel + 1) shelf m ws = .ok () ws' ∧ ws'.Stages id n s' ∧
      Frame [id] [q.item] ws ws') ∨
    (q.placed = false ∧ ∃ r e e' ws',
      s.region.place Occupant.isSome (ws.need q) q.item (shelf.wanted q) .item = (r, .error e') ∧
      ws' = ws.setSpace id { s with region := r } ∧
      id.visit (fuel + 1) shelf m ws = .error e ws' ∧ ws'.Stages id n { s with region := r } ∧
      id.visit (fuel + 1) shelf m ws' = .error e ws') := by
  have hmem : q ∈ s.requests := AddressSpace.mem_requests hshelf (mem_of_getElem? hq)
  have hi := h.simple q hmem
  have hw := h.widths q hmem
  have hready := h.ready.place (by omega) Occupant.isSome (ws.need q) q.item (shelf.wanted q)
  cases hp : q.placed with
  | true => exact .inl ⟨rfl, SpaceId.visit_placed fuel hshelf h.space hq hi hw hp⟩
  | false =>
    refine .inr ?_
    cases hplace : s.region.place Occupant.isSome (ws.need q) q.item (shelf.wanted q) .item with
    | mk r out =>
      rw [hplace] at hready
      cases out with
      | ok base =>
        have ha : shelf = .explicits → q.addr.isSome := by
          rintro rfl
          exact h.addrs q (mem_of_getElem? hq)
        obtain ⟨w, hwidth, hgain⟩ := Region.place_eq_ok hplace
        obtain ⟨ws1, hrun, hframe⟩ := SpaceId.visit_granted fuel hshelf h.space hq hi hw hp ha
          (hready.check (by omega)) hplace
        have hs1 : ws1.space? id = some { s with region := r.sorted } := by
          rw [hframe.spaces id (by simp), space?_setSpace_self h.space]
        have hfirst : Frame [id] [] ws (ws.setSpace id { s with region := r.sorted }) :=
          Frame.setSpace h.space rfl rfl fun hres => by rw [hopen] at hres; cases hres
        have hlast : Frame [id] [] ws1 (ws1.setSpace id { s with
            region := r.sorted
            ledger := s.ledger.put shelf
              ((s.ledger.on shelf).set m (q.marked base (ws.need q))) }) := by
          refine Frame.setSpace hs1 (AddressSpace.items_marked hq _ _ _) rfl fun hres => ?_
          have hres : s.ledger.resolved = true := hres
          rw [hopen] at hres
          cases hres
        have hall : Frame [id] [q.item] ws _ :=
          (hfirst.andLeaves hframe).trans
            (hlast.mono_leaves (nil_subset _))
        refine .inl ⟨rfl, r, base, _, _, rfl, rfl, hrun, ?_, hall⟩
        exact h.granted hshelf hq hp hready.sorted hwidth
          (r.sorted_taken_perm.trans hgain.taken) rfl (space?_setSpace_self hs1 _)
          (funext (isSimple_frame hall))
      | error e =>
        have hagain := Region.place_refused_again hplace
        have hstages := h.refused hready (Region.taken_of_refused hplace)
        refine .inr ⟨rfl, r, _, e, _, rfl, rfl,
          SpaceId.visit_refused fuel hshelf h.space hq hi hw hp hplace, hstages, ?_⟩
        have hneed : (ws.setSpace id { s with region := r }).need q = ws.need q := rfl
        have hrun := SpaceId.visit_refused (r := r) fuel hshelf hstages.space hq hi hw hp
          (by rw [hneed]; exact hagain)
        rw [setSpace_setSpace] at hrun
        exact hrun

/-! ### Passes -/

/-- The orders that the open requests of a shelf make. -/
def pending (ws : Workspace) (shelf : Shelf) (qs : List Staged) : List (Region.Order Occupant) :=
  (qs.filter fun q => !q.placed).map (ws.orderOn shelf)

theorem pending_append (ws : Workspace) (shelf : Shelf) (qs qs' : List Staged) :
    ws.pending shelf (qs ++ qs') = ws.pending shelf qs ++ ws.pending shelf qs' := by
  unfold pending
  rw [filter_append, map_append]

/-- Requests of a shelf were visited: the other shelves are as they were, and what was placed stays. -/
structure Reached (id : SpaceId) (shelf : Shelf) (ws : Workspace) (s : AddressSpace) (ws' : Workspace)
    (s' : AddressSpace) : Prop where
  frame : Frame [id] (s.requests.map Staged.item) ws ws'
  others : ∃ r qs, s' = { s with region := r, ledger := s.ledger.put shelf qs }
  length : (s'.ledger.on shelf).length = (s.ledger.on shelf).length
  later : s.Later s'

/-- The first `m` requests of a shelf were visited and granted. -/
structure Visited (id : SpaceId) (shelf : Shelf) (m : Nat) (ws : Workspace) (s : AddressSpace)
    (ws' : Workspace) (s' : AddressSpace) : Prop extends Reached id shelf ws s ws' s' where
  ahead : (s'.ledger.on shelf).drop m = (s.ledger.on shelf).drop m
  done : ∀ q ∈ (s'.ledger.on shelf).take m, q.placed = true
  run : s.region.placeAll Occupant.isSome (ws.pending shelf ((s.ledger.on shelf).take m)) =
    some s'.region

theorem Visited.refl (id : SpaceId) (shelf : Shelf) (ws : Workspace) (s : AddressSpace) :
    Visited id shelf 0 ws s ws s where
  frame := Frame.refl _ _ _
  others := ⟨s.region, s.ledger.on shelf, by rw [Ledger.put_on]⟩
  length := rfl
  later := ⟨List.Subset.refl _, List.Subset.refl _⟩
  ahead := rfl
  done := by simp
  run := rfl

variable {s' s'' : AddressSpace} {ws'' : Workspace}

theorem Visited.get (h : Visited id shelf m ws s ws' s') :
    (s'.ledger.on shelf)[m]? = (s.ledger.on shelf)[m]? := by
  have := congrArg (fun qs => qs[0]?) h.ahead
  simpa using this

theorem Reached.resolved (h : Reached id shelf ws s ws' s') :
    s'.ledger.resolved = s.ledger.resolved := by
  obtain ⟨r, qs, rfl⟩ := h.others
  exact Ledger.put_resolved _ _ _

theorem Visited.pass (h : Visited id shelf m ws s ws' s') (hq : (s.ledger.on shelf)[m]? = some q)
    (hp : q.placed = true) : Visited id shelf (m + 1) ws s ws' s' := by
  refine { h with ahead := ?_, done := ?_, run := ?_ }
  · rw [← drop_drop, ← drop_drop, h.ahead]
  · intro x hx
    rw [take_add_one, h.get, hq] at hx
    rcases mem_append.mp hx with hx | hx
    · exact h.done x hx
    · rw [mem_singleton.mp hx]
      exact hp
  · rw [take_add_one, hq, pending_append]
    have hnone : ws.pending shelf (some q).toList = [] := by simp [pending, hp]
    rw [hnone, append_nil]
    exact h.run

theorem Visited.add (h : Visited id shelf m ws s ws' s') (hshelf : shelf = .explicits ∨ shelf = .entries)
    (hq : (s.ledger.on shelf)[m]? = some q) (hp : q.placed = false) {base : Int}
    (hr : s'.region.place Occupant.isSome (ws'.need q) q.item (shelf.wanted q) .item = (r, .ok base))
    (hs'' : s'' = { s' with
      region := r.sorted
      ledger := s'.ledger.put shelf ((s'.ledger.on shelf).set m (q.marked base (ws'.need q))) })
    (hframe : Frame [id] [q.item] ws' ws'') : Visited id shelf (m + 1) ws s ws'' s'' := by
  obtain ⟨hlt, -⟩ := List.getElem?_eq_some_iff.mp (h.get.trans hq)
  have hon : s''.ledger.on shelf = (s'.ledger.on shelf).set m (q.marked base (ws'.need q)) := by
    rw [hs'', Ledger.on_put, if_pos rfl]
  have hmem : q ∈ s.requests := AddressSpace.mem_requests hshelf (mem_of_getElem? hq)
  refine ⟨⟨?_, ?_, ?_, h.later.trans ⟨fun x hx => ?_, fun slot hslot => ?_⟩⟩, ?_, ?_, ?_⟩
  · refine h.frame.trans (hframe.mono_leaves ?_)
    intro x hx
    rw [mem_singleton.mp hx]
    exact mem_map_of_mem hmem
  · obtain ⟨r0, qs, rfl⟩ := h.others
    exact ⟨r.sorted, _, by rw [hs'', Ledger.put_put]⟩
  · rw [hon, length_set]
    exact h.length
  · rw [hs'']
    exact (AddressSpace.placedRequests_marked hshelf (h.get.trans hq) hp _ _ _).mem_iff.mpr
      (mem_cons_of_mem _ hx)
  · obtain ⟨w, -, hgain⟩ := Region.place_eq_ok hr
    rw [hs'']
    exact (r.sorted_taken_perm.trans hgain.taken).mem_iff.mpr (mem_cons_of_mem _ hslot)
  · rw [hon, drop_set_of_lt (by omega), ← drop_drop, ← drop_drop, h.ahead]
  · intro x hx
    rw [hon, take_add_one, take_set_of_le (by omega), getElem?_set_self hlt] at hx
    rcases mem_append.mp hx with hx | hx
    · exact h.done x hx
    · rw [mem_singleton.mp hx]
      rfl
  · have horder : ws.pending shelf (some q).toList = [⟨ws'.need q, q.item, shelf.wanted q⟩] := by
      rw [need_frame h.frame]
      simp [pending, hp, orderOn]
    rw [take_add_one, hq, pending_append, Region.placeAll_append, h.run, horder, hs'']
    show (Region.granted (s'.region.place _ _ _ _ _)).bind _ = _
    rw [hr]
    rfl

theorem Reached.refused (h : Reached id shelf ws s ws' s') (hs : ws'.space? id = some s')
    (hopen : s.ledger.resolved = false) (ht : r.taken.Perm s'.region.taken) :
    Reached id shelf ws s (ws'.setSpace id { s' with region := r }) { s' with region := r } where
  frame := by
    have hset : Frame [id] [] ws' (ws'.setSpace id { s' with region := r }) :=
      Frame.setSpace hs rfl rfl fun hres => by rw [h.resolved, hopen] at hres; cases hres
    exact h.frame.trans (hset.mono_leaves (nil_subset _))
  others := by
    obtain ⟨r0, qs, rfl⟩ := h.others
    exact ⟨r, qs, rfl⟩
  length := h.length
  later := ⟨h.later.requests, List.Subset.trans h.later.taken ht.symm.subset⟩

/-- **A pass** grants the open requests of a shelf in turn, or stops at the first that is refused,
there again each time. -/
theorem Stages.pass (h : ws.Stages id n s) (hn : n ≤ 32) (hopen : s.ledger.resolved = false)
    (hshelf : shelf = .explicits ∨ shelf = .entries) {pass : Pass}
    (hpass : SpaceId.shelvesOf pass = [shelf]) (fuel : Nat) :
    (∃ ws' s', SpaceId.runPassUpTo (fuel + 2) id pass ws = .ok () ws' ∧ ws'.Stages id n s' ∧
      Visited id shelf (s.ledger.on shelf).length ws s ws' s') ∨
    ∃ e ws' s', SpaceId.runPassUpTo (fuel + 2) id pass ws = .error e ws' ∧ ws'.Stages id n s' ∧
      Reached id shelf ws s ws' s' ∧ SpaceId.runPassUpTo (fuel + 2) id pass ws' = .error e ws' ∧
      s.region.placeAll Occupant.isSome (ws.pending shelf (s.ledger.on shelf)) = none := by
  have hrun := Build.forM_range_cases (g := id.visit (fuel + 1) shelf)
    (k := (s.ledger.on shelf).length)
    (fun m w => ∃ s', w.Stages id n s' ∧ Visited id shelf m ws s w s')
    (fun m e w => ∃ s', w.Stages id n s' ∧ Reached id shelf ws s w s' ∧
      (∀ i < m, id.visit (fuel + 1) shelf i w = .ok () w) ∧
      id.visit (fuel + 1) shelf m w = .error e w ∧
      s.region.placeAll Occupant.isSome (ws.pending shelf (s.ledger.on shelf)) = none)
    (⟨s, h, Visited.refl id shelf ws s⟩ : ∃ s', ws.Stages id n s' ∧ Visited id shelf 0 ws s ws s') ?_
  · rcases hrun with ⟨w, hrun, s', hs', hv⟩ | ⟨m, hm, e, w, hrun, s', hs', hreach, hidle, hstuck, hnone⟩
    · exact .inl ⟨w, s', (SpaceId.runPassUpTo_eq hpass _ h.space).trans hrun, hs', hv⟩
    · refine .inr ⟨e, w, s', (SpaceId.runPassUpTo_eq hpass _ h.space).trans hrun, hs', hreach, ?_, hnone⟩
      rw [SpaceId.runPassUpTo_eq hpass _ hs'.space, hreach.length]
      exact Build.forM_range_stuck hm hidle hstuck
  · rintro m hm w ⟨s', hs', hv⟩
    obtain ⟨q, hq⟩ : ∃ q, (s.ledger.on shelf)[m]? = some q := ⟨_, getElem?_eq_getElem hm⟩
    have hopen' : s'.ledger.resolved = false := hv.resolved.trans hopen
    rcases hs'.visit hn hopen' hshelf (hv.get.trans hq) fuel with
      ⟨hp, hok⟩ | ⟨hp, r, base, w', s'', hplace, hs'', hok, hstages, hframe⟩ |
      ⟨hp, r, e, e', w', hplace, rfl, herr, hstages, hagain⟩
    · exact .inl ⟨w, hok, s', hs', hv.pass hq hp⟩
    · exact .inl ⟨w', hok, s'', hstages, hv.add hshelf hq hp hplace hs'' hframe⟩
    · refine .inr ⟨e, _, herr, _, hstages,
        hv.toReached.refused hs'.space hopen (Region.taken_of_refused hplace), ?_, hagain, ?_⟩
      · intro i hi
        obtain ⟨x, hx⟩ : ∃ x, (s'.ledger.on shelf)[i]? = some x :=
          ⟨_, getElem?_eq_getElem (by rw [hv.length]; omega)⟩
        have hdone : x.placed = true := by
          apply hv.done
          rw [← getElem?_take_of_lt hi] at hx
          exact mem_of_getElem? hx
        have hmem : x ∈ s'.requests := AddressSpace.mem_requests hshelf (mem_of_getElem? hx)
        exact SpaceId.visit_placed fuel hshelf hstages.space hx (hstages.simple x hmem)
          (hstages.widths x hmem) hdone
      · have hsplit : s.ledger.on shelf =
            (s.ledger.on shelf).take m ++ q :: (s.ledger.on shelf).drop (m + 1) := by
          obtain ⟨hlt, rfl⟩ := List.getElem?_eq_some_iff.mp hq
          rw [getElem_cons_drop, take_append_drop]
        have horder : ws.pending shelf [q] = [⟨w.need q, q.item, shelf.wanted q⟩] := by
          rw [need_frame hv.frame]
          simp [pending, hp, orderOn]
        rw [hsplit, ← singleton_append, pending_append, pending_append, Region.placeAll_append,
          hv.run, horder]
        show (Region.granted (s'.region.place _ _ _ _ _)).bind _ = _
        rw [hplace]
        rfl

theorem Stages.pass_idle (h : ws.Stages id n s) (hshelf : shelf = .explicits ∨ shelf = .entries)
    {pass : Pass} (hpass : SpaceId.shelvesOf pass = [shelf]) (fuel : Nat)
    (hp : ∀ q ∈ s.ledger.on shelf, q.placed = true) :
    SpaceId.runPassUpTo (fuel + 2) id pass ws = .ok () ws := by
  rw [SpaceId.runPassUpTo_eq hpass _ h.space]
  refine Build.forM_range_idle fun i hi => ?_
  have hget := getElem?_eq_getElem hi
  have hmem := mem_of_getElem? hget
  have hreq := AddressSpace.mem_requests hshelf hmem
  exact SpaceId.visit_placed fuel hshelf h.space hget (h.simple _ hreq) (h.widths _ hreq) (hp _ hmem)

end Workspace

/-! ### Resolution -/

namespace SpaceId

variable {ws : Workspace} {id : SpaceId} {s : AddressSpace} {n : Nat} {k : Nat}

theorem passAt_of_space? (h : ws.space? id = some s) {pass : Pass}
    (hp : s.ledger.passes[k]? = some pass) : id.passAt k ws = .ok pass ws := by
  obtain ⟨hlt, -⟩ := List.getElem?_eq_some_iff.mp hp
  have hitem : Text.itemAt s.ledger.passes (k : Int) = .ok pass := by
    unfold Text.itemAt Text.itemAt?
    rw [if_neg (by omega), Int.toNat_natCast, hp]
  unfold passAt
  rw [bind_of_ok (get_of_space? h)]
  dsimp only
  rw [if_neg (by omega), hitem]
  rfl

theorem resolveUpTo_eq (h : ws.Stages id n s) (hopen : s.ledger.resolved = false) (fuel : Nat)
    (hnext : ∀ ws', runPassUpTo (fuel + 1) id .explicits ws = .ok () ws' →
      ∃ s', ws'.space? id = some s' ∧ s'.ledger.passes = SpaceKind.staged.passes) :
    resolveUpTo (fuel + 2) id ws = (do
      runPassUpTo (fuel + 1) id .explicits
      runPassUpTo (fuel + 1) id .rest
      id.updateLedger fun l => { l with resolved := true } : Build Unit) ws := by
  have hkeepouts : runPassUpTo (fuel + 1) id .keepouts ws = .ok () ws := by
    have hshelf : shelvesOf .keepouts = [.keepouts] := rfl
    rw [runPassUpTo_eq hshelf _ h.space, show s.ledger.on .keepouts = [] from h.keepouts]
    rfl
  have hpass : ∀ (k : Nat) (pass : Pass) {w : Workspace} {s' : AddressSpace}, w.space? id = some s' →
      s'.ledger.passes = SpaceKind.staged.passes → SpaceKind.staged.passes[k]? = some pass →
      (do runPassUpTo (fuel + 1) id (← id.passAt k) : Build Unit) w = runPassUpTo (fuel + 1) id pass w := by
    intro k pass w s' hs' hpasses hget
    exact bind_of_ok (passAt_of_space? hs' (by rw [hpasses]; exact hget)) _
  have hthree : ∀ (g : Nat → Build PUnit) (x : Build Unit), (forM (List.range 3) g >>= fun _ => x) =
      (g 0 >>= fun _ => g 1 >>= fun _ => g 2 >>= fun _ => x) := by
    intro g x
    rw [show List.range 3 = [0, 1, 2] from rfl]
    simp only [forM_cons, forM_nil, bind_assoc, pure_bind]
  rw [resolveUpTo_succ, bind_of_ok (get_of_space? h.space), hopen, h.passCount]
  refine (congrFun (hthree _ _) ws).trans ?_
  rw [bind_of_ok ((hpass 0 .keepouts h.space h.passes rfl).trans hkeepouts)]
  refine (bind_congr_left (hpass 1 .explicits h.space h.passes rfl) _).trans ?_
  refine bind_congr fun _ ws' hexp => ?_
  obtain ⟨s', hs', hpasses⟩ := hnext ws' hexp
  exact bind_congr_left (hpass 2 .rest hs' hpasses rfl) _

theorem resolve_apply (id : SpaceId) (ws : Workspace) :
    id.resolve ws = resolveUpTo (4 * ws.spaces.size + 1 + 3) id ws := rfl

theorem resolve_of_error (h : ws.Stages id n s) (hopen : s.ledger.resolved = false)
    (hk : ws.spaces.size = k) {e : Error} {ws' : Workspace}
    (hrun : runPassUpTo (4 * k + 1 + 2) id .explicits ws = .error e ws') :
    id.resolve ws = .error e ws' := by
  rw [resolve_apply, hk, resolveUpTo_eq h hopen _ ?_, bind_of_error hrun]
  intro w hw
  rw [hrun] at hw
  cases hw

theorem resolve_of_ok (h : ws.Stages id n s) (hopen : s.ledger.resolved = false)
    (hk : ws.spaces.size = k) {ws' : Workspace} {s' : AddressSpace} (h' : ws'.Stages id n s')
    (hrun : runPassUpTo (4 * k + 1 + 2) id .explicits ws = .ok () ws') :
    id.resolve ws = (do
      runPassUpTo (4 * k + 1 + 2) id .rest
      id.updateLedger fun l => { l with resolved := true } : Build Unit) ws' := by
  rw [resolve_apply, hk, resolveUpTo_eq h hopen _ ?_, bind_of_ok hrun]
  intro w hw
  rw [hrun] at hw
  cases hw
  exact ⟨s', h'.space, h'.passes⟩

theorem resolve_of_resolved (h : ws.space? id = some s) (hr : s.ledger.resolved = true) :
    id.resolve ws = .ok () ws := by
  rw [resolve_apply]
  unfold resolveUpTo
  rw [bind_of_ok (get_of_space? h)]
  simp only [hr, if_true]
  rfl

end SpaceId

namespace Workspace

variable {ws ws' : Workspace} {id : SpaceId} {s s' : AddressSpace} {n : Nat}

/-- What the resolution of a space is about to place. -/
def orders (ws : Workspace) (s : AddressSpace) : List (Region.Order Occupant) :=
  ws.pending .explicits (s.ledger.on .explicits) ++ ws.pending .entries (s.ledger.on .entries)

theorem pending_frame {ids : List SpaceId} {xs : List Occupant} (h : Frame ids xs ws ws')
    (shelf : Shelf) (qs : List Staged) : ws'.pending shelf qs = ws.pending shelf qs := by
  unfold pending orderOn
  simp only [need_frame h]

theorem Stages.mark (h : ws.Stages id n s) :
    (ws.setSpace id { s with ledger := { s.ledger with resolved := true } }).Stages id n
      { s with ledger := { s.ledger with resolved := true } } :=
  { h with space := space?_setSpace_self h.space _ }

/-- **A resolution** places all open requests, those with an address first, or stops at the first that
is refused, there again each time. -/
theorem Stages.resolve (h : ws.Stages id n s) (hn : n ≤ 32) (hopen : s.ledger.resolved = false) :
    (∃ ws' s', id.resolve ws = .ok () ws' ∧ ws'.Stages id n s' ∧ s.Later s' ∧
      ws'.isSimple = ws.isSimple ∧
      s.region.placeAll Occupant.isSome (ws.orders s) = some s'.region) ∨
    ∃ e ws' s', id.resolve ws = .error e ws' ∧ ws'.Stages id n s' ∧ s.Later s' ∧
      ws'.isSimple = ws.isSimple ∧ id.resolve ws' = .error e ws' ∧
      s.region.placeAll Occupant.isSome (ws.orders s) = none := by
  have hexplicits : SpaceId.shelvesOf .explicits = [.explicits] := rfl
  have hentries : SpaceId.shelvesOf .rest = [.entries] := rfl
  rcases h.pass hn hopen (.inl rfl) hexplicits (4 * ws.spaces.size + 1) with
    ⟨ws1, s1, hexp, hs1, hv1⟩ | ⟨e, ws1, s1, hexp, hs1, hreach, hagain, hnone⟩
  · have hopen1 : s1.ledger.resolved = false := hv1.resolved.trans hopen
    have hsame : s1.ledger.on .entries = s.ledger.on .entries := by
      obtain ⟨r, qs, rfl⟩ := hv1.others
      rfl
    have hrun1 : s.region.placeAll Occupant.isSome (ws.pending .explicits (s.ledger.on .explicits)) =
        some s1.region := by
      have := hv1.run
      rwa [take_length] at this
    have horders : s.region.placeAll Occupant.isSome (ws.orders s) =
        s1.region.placeAll Occupant.isSome (ws1.pending .entries (s1.ledger.on .entries)) := by
      rw [orders, Region.placeAll_append, hrun1, pending_frame hv1.frame, hsame]
      rfl
    have hresolve := SpaceId.resolve_of_ok h hopen rfl hs1 hexp
    rcases hs1.pass hn hopen1 (.inr rfl) hentries (4 * ws.spaces.size + 1) with
      ⟨ws2, s2, hrest, hs2, hv2⟩ | ⟨e, ws2, s2, hrest, hs2, hreach, hagain, hnone⟩
    · have hmark := SpaceId.update_of_space? hs2.space fun s =>
        { s with ledger := { s.ledger with resolved := true } }
      rw [bind_of_ok hrest] at hresolve
      refine .inl ⟨_, _, hresolve.trans hmark, hs2.mark,
        hv1.later.trans ⟨hv2.later.requests, hv2.later.taken⟩, ?_, ?_⟩
      · exact (funext (isSimple_frame hv2.frame)).trans (funext (isSimple_frame hv1.frame))
      · have := hv2.run
        rw [take_length] at this
        exact horders.trans this
    · rw [bind_of_error hrest] at hresolve
      have hsize : ws2.spaces.size = ws.spaces.size :=
        hreach.frame.size_eq.trans hv1.frame.size_eq
      -- the requests of the first pass have been placed and are left alone
      have hidle : SpaceId.runPassUpTo (4 * ws.spaces.size + 1 + 2) id .explicits ws2 = .ok () ws2 := by
        refine hs2.pass_idle (.inl rfl) rfl _ fun q hq => hv1.done q ?_
        rw [← hv1.length, take_length]
        obtain ⟨r, qs, rfl⟩ := hreach.others
        exact hq
      have hagain2 := SpaceId.resolve_of_ok hs2 (hreach.resolved.trans hopen1) hsize hs2 hidle
      rw [bind_of_error hagain] at hagain2
      exact .inr ⟨e, ws2, s2, hresolve, hs2,
        hv1.later.trans hreach.later,
        (funext (isSimple_frame hreach.frame)).trans (funext (isSimple_frame hv1.frame)), hagain2,
        horders.trans hnone⟩
  · refine .inr ⟨e, ws1, s1, SpaceId.resolve_of_error h hopen rfl hexp, hs1,
      hreach.later, funext (isSimple_frame hreach.frame),
      SpaceId.resolve_of_error hs1 (hreach.resolved.trans hopen) hreach.frame.size_eq hagain, ?_⟩
    rw [orders, Region.placeAll_append, hnone]
    rfl

end Workspace

end RegisterMap
