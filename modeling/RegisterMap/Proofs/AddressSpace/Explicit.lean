import RegisterMap.Proofs.AddressSpace.Effects
import RegisterMap.Proofs.AddressSpace.Passes

/-! # Addresses that are asked for

A leaf outside loops that is asked for at an address has this address once its space is resolved
(`SpaceId.resolve_explicit`).  Neither blocks that are reserved nor any other requests matter, in this
space or in the spaces inside it, as long as the leaf is asked for at no other address
(`Workspace.OnlyAt`).

Two relations carry the proof.  Work between two marks in a ledger is *calm*: it leaves the ledgers, and
it tells the leaf no other address (`Workspace.Calm`).  A whole resolution *advances*: items and
addresses stay on the shelf of explicit requests, and what is placed stays placed
(`Workspace.Advances`). -/

namespace RegisterMap

open List Option

namespace Workspace

/-- No ledger is touched, and the leaf `x` is told no address but `a`. -/
structure Calm (x : Occupant) (a : Int) (ws ws' : Workspace) : Prop where
  ledgers : ∀ j, (ws'.space? j).map AddressSpace.ledger = (ws.space? j).map AddressSpace.ledger
  copies : ∀ y, ws'.copiesOf y = ws.copiesOf y
  base : ws'.baseOf x = ws.baseOf x ∨ ws'.baseOf x = some a

variable {x y : Occupant} {a : Int} {ws ws' : Workspace}

theorem Serves.calm {xs : List Occupant} (h : Serves xs ws ws')
    (hx : x ∉ xs ∨ ws'.baseOf x = ws.baseOf x ∨ ws'.baseOf x = some a) : Calm x a ws ws' :=
  ⟨h.ledgers, h.copies, hx.elim (fun hx => .inl (h.told x hx)) fun hx => hx⟩

theorem Calm.setSpace {id : SpaceId} {s s' : AddressSpace} (hs : ws.space? id = some s)
    (hl : s'.ledger = s.ledger) : Calm x a ws (ws.setSpace id s') := by
  have hserves : Serves [] ws (ws.setSpace id s') := .setSpace hs hl
  exact hserves.calm (.inl not_mem_nil)

end Workspace

open Build
open Workspace (Calm Serves)

/-! ### Calm work -/

variable {x : Occupant} {a : Int}

/-- The work is calm if it goes through. -/
abbrev Build.Calms {α : Type} (x : Occupant) (a : Int) (w : Build α) : Prop :=
  Ensures (Calm x a) (fun _ => True) w fun _ _ => True

namespace SpaceId

theorem onRegion_calms {α : Type} (id : SpaceId) (f : Region Occupant → Region.Outcome Occupant α) :
    Build.Calms x a (id.onRegion f) := by
  intro ws b ws' _ h
  obtain ⟨s, r, hs, -, rfl⟩ := onRegion_ok h
  exact ⟨.setSpace hs rfl, trivial⟩

/-- What is known of the leaf `x` when a request is visited: it is the item of explicit requests for
`a` only, and no copy. -/
structure Visit (x : Occupant) (a : Int) (ws : Workspace) (shelf : Shelf) (request : Staged) : Prop where
  alone : request.item = x → shelf = .explicits ∧ request.addr = some a
  copies : shelf = .loops ∨ shelf = .explicitLoops → x ∉ ws.copiesOf request.item

theorem Visit.of_mem {ws : Workspace} {shelf : Shelf} {request : Staged} (h : Visit x a ws shelf request)
    (hx : x ∈ ws.addressees shelf request.item) :
    request.item = x ∧ shelf = .explicits ∧ request.addr = some a := by
  have hitem : request.item = x := by
    unfold Workspace.addressees at hx
    cases shelf with
    | loops => exact (mem_cons.mp hx).elim Eq.symm fun hc => (h.copies (.inl rfl) hc).elim
    | explicitLoops => exact (mem_cons.mp hx).elim Eq.symm fun hc => (h.copies (.inr rfl) hc).elim
    | _ => exact (mem_singleton.mp hx).symm
  exact ⟨hitem, h.alone hitem⟩

theorem placeRequest_calms {id : SpaceId} {shelf : Shelf} {request : Staged} {width : Option Int} :
    Ensures (Calm x a) (fun ws => Visit x a ws shelf request) (id.placeRequest shelf request width)
      fun request' ws => request'.item = request.item ∧ request'.placed = true ∧
        (shelf = .explicits → request'.addr = request.addr ∧
          (request.item = x → x.isLeaf = true → request.placed = true ∨ ws.baseOf x = some a)) := by
  intro ws request' ws' hvisit h
  -- a request that was granted before is for nobody
  obtain ⟨hserves, hitem, hplaced, hexplicit⟩ := placeRequest_serves
    (if request.placed then [] else ws.addressees shelf request.item)
    (fun hopen => by rw [hopen]; exact List.Subset.refl _) h
  refine ⟨hserves.calm ?_, hitem, hplaced, fun hshelf => ?_⟩
  · by_cases hx : x ∈ if request.placed then [] else ws.addressees shelf request.item
    · refine .inr ?_
      cases hp : request.placed with
      | true =>
        rw [hp] at hx
        cases hx
      | false =>
        rw [hp] at hx
        obtain ⟨rfl, hshelf, haddr⟩ := hvisit.of_mem hx
        cases hleaf : request.item.isLeaf with
        | true => exact .inr (((hexplicit hshelf).2 a haddr hleaf).resolve_left (by simp [hp]))
        | false => exact .inl (by rw [Workspace.baseOf_eq_none hleaf, Workspace.baseOf_eq_none hleaf])
    · exact .inl hx
  · obtain ⟨haddr, htold⟩ := hexplicit hshelf
    refine ⟨haddr, ?_⟩
    rintro rfl hleaf
    exact htold a (hvisit.alone rfl).2 hleaf

end SpaceId

/-! ### A ledger that advances -/

namespace Ledger

/-- The explicit requests for an item are placed, as far as they are among the first ones. -/
def Placed (l : Ledger) (x : Occupant) (n : Nat) : Prop :=
  ∀ (m : Nat) r, m < n → l.explicits[m]? = some r → r.item = x → r.placed = true

/-- A resolution of the ledger makes a pass over the explicit requests. -/
def PlacesExplicits (l : Ledger) : Prop := Pass.explicits ∈ l.passes.take l.passCount

instance (l : Ledger) : Decidable l.PlacesExplicits :=
  inferInstanceAs (Decidable (Pass.explicits ∈ l.passes.take l.passCount))

/-- Items stay on their shelves, explicit requests keep their addresses, and what is placed stays
placed.  An explicit request for `x` that becomes placed has `told` its item, and all are placed in a
ledger that becomes resolved. -/
structure Advances (x : Occupant) (told : Prop) (l l' : Ledger) : Prop where
  items : ∀ shelf, (l'.on shelf).map Staged.item = (l.on shelf).map Staged.item
  explicits : ∀ (n : Nat) r r', l.explicits[n]? = some r → l'.explicits[n]? = some r' →
    r'.addr = r.addr ∧ (r.placed = true → r'.placed = true) ∧
      (r.item = x → r'.placed = true → r.placed = true ∨ told)
  passes : l'.passes = l.passes
  passCount : l'.passCount = l.passCount
  finished : l'.resolved = true →
    l.resolved = true ∨ (l'.PlacesExplicits → l'.Placed x l'.explicits.length)

variable {l l' l'' : Ledger} {x : Occupant} {told told' : Prop}

theorem Advances.refl (x : Occupant) (told : Prop) (l : Ledger) : l.Advances x told l := by
  refine ⟨fun _ => rfl, fun n r r' hr hr' => ?_, rfl, rfl, .inl⟩
  rw [hr] at hr'
  cases hr'
  exact ⟨rfl, id, fun _ => .inl⟩

section

variable (h : l.Advances x told l')

include h

theorem Advances.getElem? (shelf : Shelf) {n : Nat} {r' : Staged} (hr' : (l'.on shelf)[n]? = some r') :
    ∃ r, (l.on shelf)[n]? = some r ∧ r'.item = r.item ∧ (shelf = .explicits → r'.addr = r.addr) := by
  have hitem : ((l.on shelf).map Staged.item)[n]? = some r'.item := by
    rw [← h.items shelf, getElem?_map, hr']
    rfl
  rw [getElem?_map] at hitem
  obtain ⟨r, hr, hri⟩ := map_eq_some_iff.mp hitem
  refine ⟨r, hr, hri.symm, ?_⟩
  rintro rfl
  exact (h.explicits n r r' hr hr').1

theorem Advances.length_eq (shelf : Shelf) :
    (l'.on shelf).length = (l.on shelf).length := by
  simpa using congrArg List.length (h.items shelf)

theorem Advances.placed {n : Nat} (hp : l.Placed x n) :
    l'.Placed x n := by
  intro m r' hm hr' hx
  obtain ⟨r, hr, hitem, -⟩ := h.getElem? .explicits hr'
  exact (h.explicits m r r' hr hr').2.1 (hp m r hm hr (hitem.symm.trans hx))

theorem Advances.trans (h' : l'.Advances x told' l'') (htold : told → told') : l.Advances x told' l'' := by
  refine ⟨fun shelf => (h'.items shelf).trans (h.items shelf), fun n r r'' hr hr'' => ?_,
    h'.passes.trans h.passes, h'.passCount.trans h.passCount, fun hres => ?_⟩
  · obtain ⟨r', hr', -⟩ := h'.getElem? .explicits hr''
    obtain ⟨q, hq, hitem, -⟩ := h.getElem? .explicits hr'
    obtain rfl : r = q := mem_unique hr hq
    obtain ⟨haddr, hkeep, hnew⟩ := h.explicits n r r' hr hr'
    obtain ⟨haddr', hkeep', hnew'⟩ := h'.explicits n r' r'' hr' hr''
    refine ⟨haddr'.trans haddr, fun hp => hkeep' (hkeep hp), fun hx hp => ?_⟩
    rcases hnew' (hitem.trans hx) hp with hp' | ht
    · exact (hnew hx hp').imp_right htold
    · exact .inr ht
  · rcases h'.finished hres with hres' | hdone
    · refine (h.finished hres').imp_right fun hdone hplaces => ?_
      unfold PlacesExplicits at hplaces
      rw [h'.passes, h'.passCount] at hplaces
      have hlen : l''.explicits.length = l'.explicits.length := h'.length_eq .explicits
      rw [hlen]
      exact h'.placed (hdone hplaces)
    · exact .inr hdone

end

theorem advances_set {shelf : Shelf} {n : Nat} {r r' : Staged} (hr : (l.on shelf)[n]? = some r)
    (hitem : r'.item = r.item)
    (hnew : shelf = .explicits → r'.addr = r.addr ∧ (r.placed = true → r'.placed = true) ∧
      (r.item = x → r'.placed = true → r.placed = true ∨ told)) :
    l.Advances x told (l.put shelf ((l.on shelf).set n r')) := by
  have hexplicits := l.on_put shelf .explicits ((l.on shelf).set n r')
  refine ⟨fun shelf' => ?_, fun m q q' hq hq' => ?_, put_passes .., ?_, fun hres => .inl ?_⟩
  · exact map_item_set hr hitem shelf'
  · replace hq : (l.on .explicits)[m]? = some q := hq
    replace hq' : ((l.put shelf ((l.on shelf).set n r')).on .explicits)[m]? = some q' := hq'
    rw [hexplicits] at hq'
    split at hq'
    · rename_i he
      subst he
      by_cases hm : n = m
      · subst hm
        rw [List.getElem?_set_self (List.getElem?_eq_some_iff.mp hq).1] at hq'
        obtain rfl : r' = q' := Option.some.inj hq'
        obtain rfl : r = q := mem_unique hr hq
        exact hnew rfl
      · rw [getElem?_set_ne hm, hq] at hq'
        cases hq'
        exact ⟨rfl, id, fun _ => .inl⟩
    · rw [hq] at hq'
      cases hq'
      exact ⟨rfl, id, fun _ => .inl⟩
  · cases shelf <;> rfl
  · rwa [put_resolved] at hres

theorem Advances.resolved (h : l.PlacesExplicits → l.Placed x l.explicits.length) :
    l.Advances x told { l with resolved := true } := by
  have hsame := Advances.refl x told l
  refine ⟨fun shelf => ?_, hsame.explicits, rfl, rfl, fun _ => .inr h⟩
  cases shelf <;> rfl

end Ledger

namespace Workspace

/-- Every ledger advances, and the leaf `x` is told no address but `a`. -/
structure Advances (x : Occupant) (a : Int) (ws ws' : Workspace) : Prop where
  ledgers : ∀ j s', ws'.space? j = some s' →
    ∃ s, ws.space? j = some s ∧ s.ledger.Advances x (ws'.baseOf x = some a) s'.ledger
  copies : ∀ y, ws'.copiesOf y = ws.copiesOf y
  base : ws'.baseOf x = ws.baseOf x ∨ ws'.baseOf x = some a

variable {ws ws' : Workspace}

instance : IsPreorder Workspace (Advances x a) where
  refl _ := ⟨fun _ s hs => ⟨s, hs, .refl ..⟩, fun _ => rfl, .inl rfl⟩
  trans ws ws' ws'' h h' := by
    have hbase : ws'.baseOf x = some a → ws''.baseOf x = some a := by
      intro hb
      rcases h'.base with he | he
      · rwa [he]
      · exact he
    refine ⟨fun j s'' hs'' => ?_, fun y => (h'.copies y).trans (h.copies y), ?_⟩
    · obtain ⟨s', hs', hl'⟩ := h'.ledgers j s'' hs''
      obtain ⟨s, hs, hl⟩ := h.ledgers j s' hs'
      exact ⟨s, hs, hl.trans hl' hbase⟩
    · rcases h'.base with hb | hb
      · rw [hb]
        exact h.base
      · exact .inr hb

theorem Calm.advances (h : Calm x a ws ws') : Advances x a ws ws' := by
  refine ⟨fun j s' hs' => ?_, h.copies, h.base⟩
  have hl := h.ledgers j
  rw [hs', map_some] at hl
  obtain ⟨s, hs, hl⟩ := map_eq_some_iff.mp hl.symm
  exact ⟨s, hs, hl ▸ .refl ..⟩

theorem Advances.setLedger {id : SpaceId} {s : AddressSpace} {l : Ledger} (hs : ws.space? id = some s)
    (hl : s.ledger.Advances x (ws.baseOf x = some a) l) :
    Advances x a ws (ws.setSpace id { s with ledger := l }) := by
  refine ⟨fun j s' hs' => ?_, fun _ => rfl, .inl rfl⟩
  by_cases hj : id = j
  · subst hj
    rw [space?_setSpace_self hs] at hs'
    cases hs'
    exact ⟨s, hs, hl⟩
  · rw [space?_setSpace_of_ne hj] at hs'
    exact ⟨s', hs', .refl ..⟩

/-- All requests for the leaf `x` are explicit ones for `a`, and it is no copy in a loop. -/
structure OnlyAt (ws : Workspace) (x : Occupant) (a : Int) : Prop where
  leaf : x.isLeaf = true
  requests : ∀ {j s shelf r}, ws.space? j = some s → r ∈ s.ledger.on shelf → r.item = x →
    shelf = .explicits ∧ r.addr = some a
  copies : ∀ {j s shelf r}, ws.space? j = some s → r ∈ s.ledger.on shelf →
    shelf = .loops ∨ shelf = .explicitLoops → x ∉ ws.copiesOf r.item

theorem stable_onlyAt : Build.Stable (Advances x a) fun ws => ws.OnlyAt x a := by
  intro ws ws' h ho
  have before {j s' shelf r'} (hs' : ws'.space? j = some s') (hr' : r' ∈ s'.ledger.on shelf) :
      ∃ s r, ws.space? j = some s ∧ r ∈ s.ledger.on shelf ∧ r'.item = r.item ∧
        (shelf = .explicits → r'.addr = r.addr) := by
    obtain ⟨s, hs, hl⟩ := h.ledgers j s' hs'
    obtain ⟨n, hn⟩ := mem_iff_getElem?.mp hr'
    obtain ⟨r, hr, hsame⟩ := hl.getElem? _ hn
    exact ⟨s, r, hs, mem_of_getElem? hr, hsame⟩
  refine ⟨ho.leaf, fun hs' hr' hx => ?_, fun hs' hr' hshelf => ?_⟩
  · obtain ⟨s, r, hs, hr, hitem, haddr⟩ := before hs' hr'
    obtain ⟨hshelf, ha⟩ := ho.requests hs hr (hitem.symm.trans hx)
    exact ⟨hshelf, (haddr hshelf).trans ha⟩
  · obtain ⟨s, r, hs, hr, hitem, -⟩ := before hs' hr'
    rw [h.copies, hitem]
    exact ho.copies hs hr hshelf

end Workspace

/-! ### Resolutions advance -/

theorem Build.Calms.advances {α : Type} {w : Build α} (h : Build.Calms x a w) :
    Ensures (Workspace.Advances x a) (fun ws => ws.OnlyAt x a) w fun _ ws => ws.OnlyAt x a := by
  intro ws b ws' ho hrun
  have hadv := (h trivial hrun).1.advances
  exact ⟨hadv, Workspace.stable_onlyAt hadv ho⟩

namespace SpaceId

open Workspace (Advances OnlyAt)

variable {ws ws' : Workspace} {id : SpaceId} {s : AddressSpace} {shelf : Shelf} {fuel n : Nat} {u : Unit}

/-- With this bound, every resolution advances, and leaves a resolved space. -/
def ResolvesAt (x : Occupant) (a : Int) (fuel : Nat) : Prop :=
  ∀ id : SpaceId, Ensures (Advances x a) (fun ws => ws.OnlyAt x a) (resolveUpTo fuel id) fun _ ws =>
    ws.OnlyAt x a ∧ ∃ s, ws.space? id = some s ∧ s.ledger.resolved = true

theorem shrinkUpTo_advances (ih : ∀ k < fuel, ResolvesAt x a k) (id : SpaceId) :
    Ensures (Advances x a) (fun ws => ws.OnlyAt x a) (shrinkUpTo fuel id) fun _ ws =>
      ws.OnlyAt x a := by
  cases fuel with
  | zero => exact ensures_throw
  | succ fuel =>
    unfold shrinkUpTo
    refine (readOnly_get id).keeps.bind fun s => ?_
    dsimp only
    split
    · refine (ih fuel (by omega) id).bind fun _ => ?_
      exact (onRegion_calms id _).advances.pre fun _ h => h.1
    · exact (onRegion_calms id _).advances

theorem settleUpTo_advances (ih : ∀ k < fuel, ResolvesAt x a k) (item : Occupant) (width : Option Int) :
    Ensures (Advances x a) (fun ws => ws.OnlyAt x a) (settleUpTo fuel item width) fun _ ws =>
      ws.OnlyAt x a := by
  cases fuel with
  | zero => exact ensures_throw
  | succ fuel =>
    unfold settleUpTo
    cases item with
    | space inner =>
      refine (readOnly_get inner).keeps.bind fun s => ?_
      dsimp only
      split
      · refine (ih fuel (by omega) inner).bind fun _ => ?_
        refine (shrinkUpTo_advances (fun k hk => ih k (by omega)) inner).andThen (fun _ h => h.1) fun _ => ?_
        exact (Occupant.readOnly_declaredWidth _).keeps
      · refine (shrinkUpTo_advances (fun k hk => ih k (by omega)) inner).bind fun _ => ?_
        exact (Occupant.readOnly_declaredWidth _).keeps
    | register _ | passenger _ | bus _ => exact (Occupant.readOnly_declaredWidth _).keeps
    | nothing | number _ | text _ => exact ensures_pure fun _ h => h

/-- The requests of a shelf keep their number, and those before the present one are placed. -/
def FilledTo (x : Occupant) (a : Int) (id : SpaceId) (shelf : Shelf) (k n : Nat) (ws : Workspace) : Prop :=
  ws.OnlyAt x a ∧ ∀ s, ws.space? id = some s →
    (s.ledger.on shelf).length = k ∧ (shelf = .explicits → s.ledger.Placed x n)

section Visit

variable (ih : ∀ k < fuel, ResolvesAt x a k) (hs : ws.space? id = some s) {request request' : Staged}
  (hold : (s.ledger.on shelf)[n]? = some request) {width : Option Int} {ws1 ws2 : Workspace}
  (hsettle : settleUpTo fuel request.item request.width ws = .ok width ws1)
  (hplace : id.placeRequest shelf request width ws1 = .ok request' ws2)
  (hmark : id.updateLedger (fun l => l.put shelf ((l.on shelf).set n request')) ws2 = .ok u ws')

include ih hs hold hsettle hplace hmark

theorem visit_advances (ho : ws.OnlyAt x a) : Advances x a ws ws' ∧
      ∀ s', ws'.space? id = some s' → ∀ r, (s'.ledger.on shelf)[n]? = some r → r.placed = true := by
  obtain ⟨hadv, ho1⟩ := settleUpTo_advances ih _ _ ho hsettle
  have hmem := mem_of_getElem? hold
  have hvisit : Visit x a ws1 shelf request := by
    refine ⟨fun hx => ho.requests hs hmem hx, fun hshelf => ?_⟩
    rw [hadv.copies]
    exact ho.copies hs hmem hshelf
  obtain ⟨hcalm, hitem, hplaced, hexplicit⟩ := placeRequest_calms hvisit hplace
  have hadv2 : Advances x a ws ws2 := IsTrans.trans _ _ _ hadv hcalm.advances
  obtain ⟨s2, hs2, rfl⟩ := update_ok hmark
  obtain ⟨s', hs', hl⟩ := hadv2.ledgers id s2 hs2
  obtain rfl := mem_unique hs hs'
  have hn : n < (s2.ledger.on shelf).length := by
    rw [hl.length_eq]
    exact (List.getElem?_eq_some_iff.mp hold).1
  obtain ⟨r, hr, hri, hra⟩ := hl.getElem? _ (getElem?_eq_getElem hn)
  obtain rfl := mem_unique hold hr
  refine ⟨IsTrans.trans _ _ _ hadv2 (.setLedger hs2 ?_), fun s' hs' r hr => ?_⟩
  · refine Ledger.advances_set (getElem?_eq_getElem hn) (hitem.trans hri.symm) fun hshelf => ?_
    obtain ⟨haddr, htold⟩ := hexplicit hshelf
    refine ⟨haddr.trans (hra hshelf).symm, fun _ => hplaced, fun hx _ => ?_⟩
    refine (htold (hri.symm.trans hx) ho.leaf).imp_left fun hp => ?_
    subst hshelf
    exact (hl.explicits n _ _ hold (getElem?_eq_getElem hn)).2.1 hp
  · rw [Workspace.space?_setSpace_self hs2] at hs'
    cases hs'
    rw [Ledger.on_put, if_pos rfl, getElem?_set_self hn] at hr
    cases hr
    exact hplaced

theorem visit_filledTo {k : Nat} (h : FilledTo x a id shelf k n ws) :
    Advances x a ws ws' ∧ FilledTo x a id shelf k (n + 1) ws' := by
  obtain ⟨hadv, hplaced⟩ := visit_advances ih hs hold hsettle hplace hmark h.1
  refine ⟨hadv, Workspace.stable_onlyAt hadv h.1, fun s' hs' => ?_⟩
  obtain ⟨s0, hs0, hl⟩ := hadv.ledgers id s' hs'
  obtain ⟨hlen, hbefore⟩ := h.2 s0 hs0
  refine ⟨(hl.length_eq shelf).trans hlen, ?_⟩
  rintro rfl m r hm hr hx
  rcases Nat.lt_succ_iff_lt_or_eq.mp hm with hm | rfl
  · exact hl.placed (hbefore rfl) m r hm hr hx
  · exact hplaced s' hs' r hr

end Visit

/-- The explicit requests of a space for the leaf are placed. -/
def AllPlaced (x : Occupant) (id : SpaceId) (ws : Workspace) : Prop :=
  ∀ s, ws.space? id = some s → s.ledger.Placed x s.ledger.explicits.length

theorem stable_allPlaced (x : Occupant) (a : Int) (id : SpaceId) (p : Prop) :
    Build.Stable (Advances x a) fun ws => p → AllPlaced x id ws := by
  intro ws ws' h hp hp' s' hs'
  obtain ⟨s, hs, hl⟩ := h.ledgers id s' hs'
  have hlen : s'.ledger.explicits.length = s.ledger.explicits.length := hl.length_eq .explicits
  rw [hlen]
  exact hl.placed (hp hp' s hs)

/-- A pass advances; one over the explicit requests places all those for the leaf. -/
theorem runPassUpTo_advances (ih : ∀ k < fuel, ResolvesAt x a k) (id : SpaceId) (pass : Pass) :
    Ensures (Advances x a) (fun ws => ws.OnlyAt x a) (runPassUpTo fuel id pass) fun _ ws =>
      ws.OnlyAt x a ∧ (pass = .explicits → AllPlaced x id ws) := by
  cases fuel with
  | zero => exact ensures_throw
  | succ fuel =>
    unfold runPassUpTo
    refine Ensures.andThen (ensures_forIn_done (fun shelves ws => ws.OnlyAt x a ∧
      (Shelf.explicits ∈ shelves → AllPlaced x id ws)) ?_) (fun ws ho => ⟨ho, by simp⟩) fun _ => ?_
    · intro done shelf rest _
      refine (readOnly_get id).ensures.bind fun s => ?_
      refine Ensures.andThen ((ensures_forRange (FilledTo x a id shelf
        (s.ledger.on shelf).length) fun n hn => ?_).frame
          (stable_allPlaced x a id (Shelf.explicits ∈ done))) ?_ fun _ => ?_
      · rintro w step w1 hfilled hrun
        obtain ⟨s0, hs0, hrun2⟩ := bind_get_ok hrun
        have hlen := (hfilled.2 s0 hs0).1
        rw [← hlen] at hn
        simp only [getElem?_eq_getElem hn] at hrun2
        obtain ⟨width, w3, hsettle, hrun3⟩ := bind_ok hrun2
        obtain ⟨request', w4, hplace, hrun4⟩ := bind_ok hrun3
        obtain ⟨_, hmark, rfl⟩ := bind_pure_ok hrun4
        obtain ⟨hadv, hfilled'⟩ := visit_filledTo (fun k hk => ih k (by omega)) hs0
          (getElem?_eq_getElem hn) hsettle hplace hmark hfilled
        exact ⟨hadv, rfl, hfilled'⟩
      · rintro ws ⟨hget, ho, hdone⟩
        refine ⟨⟨ho, fun s' hs' => ?_⟩, hdone⟩
        obtain rfl := Option.some.inj ((get_ok hget).1.symm.trans hs')
        exact ⟨rfl, fun _ m r hm => absurd hm (Nat.not_lt_zero m)⟩
      · refine ensures_pure fun ws hend => ⟨rfl, hend.1.1, fun hmem => ?_⟩
        rcases mem_append.mp hmem with hmem | hmem
        · exact hend.2 hmem
        · obtain rfl := mem_singleton.mp hmem
          intro s' hs'
          obtain ⟨hlen, hplaced⟩ := hend.1.2 s' hs'
          exact hlen ▸ hplaced rfl
    · refine ensures_pure fun ws h => ⟨h.1, ?_⟩
      rintro rfl
      exact h.2 (by decide)

/-- The first passes of a space are run; a pass over the explicit requests is among them. -/
def RunTo (x : Occupant) (a : Int) (id : SpaceId) (passes : List Pass) (count n : Nat)
    (ws : Workspace) : Prop :=
  (ws.OnlyAt x a ∧ ∀ s, ws.space? id = some s →
    s.ledger.passes = passes ∧ s.ledger.passCount = count) ∧
  (Pass.explicits ∈ passes.take n → AllPlaced x id ws)

theorem runPass_runTo (ih : ∀ k < fuel, ResolvesAt x a k) {passes : List Pass} {count : Nat}
    (h : RunTo x a id passes count n ws) {pass : Pass} {ws1 : Workspace}
    (hpass : id.passAt n ws = .ok pass ws1) (hrun : runPassUpTo fuel id pass ws1 = .ok u ws') :
    Advances x a ws ws' ∧ RunTo x a id passes count (n + 1) ws' := by
  obtain ⟨s, w, hs, -⟩ := bind_ok (show (id.get >>= _) ws = _ from hpass)
  obtain ⟨hs, rfl⟩ := get_ok hs
  obtain ⟨rfl, hget⟩ := passAt_ok hs hpass
  obtain ⟨⟨ho, hsame⟩, hdone⟩ := h
  obtain ⟨rfl, -⟩ := hsame s hs
  obtain ⟨hadv, ho', hall⟩ := runPassUpTo_advances ih id pass ho hrun
  refine ⟨hadv, ⟨ho', fun s' hs' => ?_⟩, fun hmem => ?_⟩
  · obtain ⟨s0, hs0, hl⟩ := hadv.ledgers id s' hs'
    rw [hl.passes, hl.passCount]
    exact hsame s0 hs0
  · rw [take_add_one, hget] at hmem
    rcases mem_append.mp hmem with hmem | hmem
    · exact stable_allPlaced x a id _ hadv hdone hmem
    · exact hall (mem_singleton.mp hmem).symm

theorem resolvesAt (x : Occupant) (a : Int) (fuel : Nat) : ResolvesAt x a fuel := by
  induction fuel using Nat.strong_induction_on with
  | _ fuel ih =>
    intro id
    cases fuel with
    | zero => exact ensures_throw
    | succ fuel =>
      unfold resolveUpTo
      refine (readOnly_get id).ensures.bind fun s => ?_
      dsimp only
      split
      · rename_i hres
        exact ensures_pure fun ws h => ⟨h.2, s, (get_ok h.1).1, hres⟩
      · refine Ensures.andThen (ensures_forRange (RunTo x a id s.ledger.passes
          s.ledger.passCount) fun n hn => ?_) ?_ fun _ => ?_
        · rintro w step w1 hto hrun
          obtain ⟨pass, w2, hpass, hrun2⟩ := bind_ok hrun
          obtain ⟨_, hpass', rfl⟩ := bind_pure_ok hrun2
          obtain ⟨hadv, hto'⟩ := runPass_runTo (fun k hk => ih k (by omega)) hto hpass hpass'
          exact ⟨hadv, rfl, hto'⟩
        · rintro ws ⟨hget, ho⟩
          refine ⟨⟨ho, fun s' hs' => ?_⟩, by simp⟩
          obtain rfl := Option.some.inj ((get_ok hget).1.symm.trans hs')
          exact ⟨rfl, rfl⟩
        · rintro ws u ws' ⟨⟨ho, hsame⟩, hall⟩ hmark
          obtain ⟨s1, hs1, rfl⟩ := update_ok hmark
          obtain ⟨hpasses, hcount⟩ := hsame s1 hs1
          have hadv : Advances x a ws (ws.setSpace id
              { s1 with ledger := { s1.ledger with resolved := true } }) := by
            refine .setLedger hs1 (.resolved fun hplaces => hall ?_ s1 hs1)
            rw [← hpasses, ← hcount]
            exact hplaces
          exact ⟨hadv, Workspace.stable_onlyAt hadv ho, _, Workspace.space?_setSpace_self hs1 _, rfl⟩

end SpaceId

open Workspace (Advances) in
theorem Workspace.Advances.baseOf_eq {ws ws' : Workspace} (h : Advances x a ws ws') {j : SpaceId}
    {s s' : AddressSpace} (hs : ws.space? j = some s) (hopen : s.ledger.resolved = false)
    (hpass : s.ledger.PlacesExplicits) {r : Staged} (hr : r ∈ s.ledger.explicits) (hx : r.item = x)
    (hnew : r.placed = false) (hs' : ws'.space? j = some s') (hres : s'.ledger.resolved = true) :
    ws'.baseOf x = some a := by
  obtain ⟨s0, hs0, hl⟩ := h.ledgers j s' hs'
  obtain rfl := mem_unique hs hs0
  obtain ⟨n, hn⟩ := mem_iff_getElem?.mp hr
  have hn' : n < s'.ledger.explicits.length := by
    have hlen : s'.ledger.explicits.length = s.ledger.explicits.length := hl.length_eq .explicits
    rw [hlen]
    exact (List.getElem?_eq_some_iff.mp hn).1
  have hr' := getElem?_eq_getElem hn'
  obtain ⟨r0, hr0, hitem, -⟩ := hl.getElem? .explicits hr'
  obtain rfl : r = r0 := mem_unique hn hr0
  have hall : s'.ledger.Placed x s'.ledger.explicits.length := by
    refine (hl.finished hres).resolve_left (by rw [hopen]; decide) ?_
    unfold Ledger.PlacesExplicits
    rw [hl.passes, hl.passCount]
    exact hpass
  have hplaced := hall n _ hn' hr' (hitem.trans hx)
  exact ((hl.explicits n _ _ hn hr').2.2 hx hplaced).resolve_left (by rw [hnew]; decide)

/-- A leaf that is asked for at one address only has this address once its space is resolved. -/
theorem SpaceId.resolve_explicit {ws ws' : Workspace} {id : SpaceId} {s : AddressSpace} {u : Unit}
    (ho : ws.OnlyAt x a) (hs : ws.space? id = some s) (hopen : s.ledger.resolved = false)
    (hpass : s.ledger.PlacesExplicits) {r : Staged} (hr : r ∈ s.ledger.explicits) (hx : r.item = x)
    (hnew : r.placed = false) (h : id.resolve ws = .ok u ws') : ws'.baseOf x = some a := by
  obtain ⟨fuel, w, hfuel, hrun⟩ := bind_ok h
  obtain rfl : w = ws := (readOnly_depthBound.bind fun _ => readOnly_pure _) hfuel
  obtain ⟨hadv, -, s', hs', hres⟩ := resolvesAt x a fuel id ho hrun
  exact hadv.baseOf_eq hs hopen hpass hr hx hnew hs' hres

end RegisterMap
