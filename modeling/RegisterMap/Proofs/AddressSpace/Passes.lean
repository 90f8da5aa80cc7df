import Mathlib.Data.List.Infix
import RegisterMap.Proofs.AddressSpace.Trace

/-! # The passes over the requests of a space

The passes reach the requests of a space one after the other.  What one visit of a request does to the
items that are placed (`SpaceId.Fillable`) therefore says what a pass does
(`SpaceId.runPassUpTo_fills`) and what the whole resolution does (`SpaceId.resolveUpTo_fills`). -/

namespace RegisterMap

open Build List

theorem Ledger.on_put (l : Ledger) (shelf shelf' : Shelf) (rs : List Staged) :
    (l.put shelf rs).on shelf' = if shelf' = shelf then rs else l.on shelf' := by
  cases shelf <;> cases shelf' <;> rfl

theorem Ledger.mem_put_set {l : Ledger} {shelf shelf' : Shelf} {n : Nat} {q r : Staged}
    (h : r ∈ (l.put shelf ((l.on shelf).set n q)).on shelf') :
    r ∈ l.on shelf' ∨ shelf' = shelf ∧ r = q := by
  rw [on_put] at h
  split at h
  · rename_i he
    subst he
    exact (mem_or_eq_of_mem_set h).imp_right fun hr => ⟨rfl, hr⟩
  · exact .inl h

section

variable (l : Ledger) (shelf : Shelf)

include l shelf

theorem Ledger.put_on : l.put shelf (l.on shelf) = l := by
  cases shelf <;> rfl

theorem Ledger.put_put (qs qs' : List Staged) :
    (l.put shelf qs).put shelf qs' = l.put shelf qs' := by
  cases shelf <;> rfl

theorem Ledger.put_passes (rs : List Staged) :
    (l.put shelf rs).passes = l.passes := by
  cases shelf <;> rfl

theorem Ledger.put_resolved (rs : List Staged) :
    (l.put shelf rs).resolved = l.resolved := by
  cases shelf <;> rfl

end

theorem Ledger.keepouts_put_set {l : Ledger} (h : l.keepouts = []) (shelf : Shelf) (n : Nat)
    (q : Staged) : (l.put shelf ((l.on shelf).set n q)).keepouts = [] := by
  cases shelf with
  | keepouts => exact (congrArg (List.set · n q) h).trans set_nil
  | _ => exact h

theorem Ledger.map_item_set {l : Ledger} {shelf : Shelf} {n : Nat} {q q' : Staged}
    (hq : (l.on shelf)[n]? = some q) (hitem : q'.item = q.item) (shelf' : Shelf) :
    ((l.put shelf ((l.on shelf).set n q')).on shelf').map Staged.item =
      (l.on shelf').map Staged.item := by
  rw [on_put]
  split
  · rename_i he
    subst he
    obtain ⟨hn, rfl⟩ := List.getElem?_eq_some_iff.mp hq
    rw [map_set, hitem, ← map_set, set_getElem_self hn]
  · rfl

theorem AddressSpace.shelf_cases {s : AddressSpace} (hk : s.ledger.keepouts = []) {shelf : Shelf}
    {n : Nat} {request : Staged} (h : (s.ledger.on shelf)[n]? = some request) :
    ((shelf = .explicits ∨ shelf = .entries) ∧ request.item ∈ s.singles) ∨
      ((shelf = .loops ∨ shelf = .explicitLoops) ∧ request.item ∈ s.looped) := by
  have hmem : request.item ∈ s.items shelf := mem_map_of_mem (mem_of_getElem? h)
  unfold singles looped
  cases shelf with
  | keepouts =>
    rw [show s.ledger.on .keepouts = [] from hk] at h
    cases h
  | explicits => exact .inl ⟨.inl rfl, mem_append_left _ hmem⟩
  | entries => exact .inl ⟨.inr rfl, mem_append_right _ hmem⟩
  | loops => exact .inr ⟨.inl rfl, mem_append_right _ hmem⟩
  | explicitLoops => exact .inr ⟨.inr rfl, mem_append_left _ hmem⟩

namespace SpaceId

variable {ws ws' : Workspace} {id : SpaceId} {s : AddressSpace} {done queue : List Occupant}
  {items : Shelf → List Occupant} {passes : List Pass} {F : List Occupant → Workspace → Prop}
  {fuel : Nat} {u : Unit}

/-- `F done` describes the workspace while the items of a space are placed: a visit of the next request
in the queue leads to `F` with its item. -/
structure Fillable (passes : List Pass) (fuel : Nat) (id : SpaceId) (items : Shelf → List Occupant)
    (queue : List Occupant) (F : List Occupant → Workspace → Prop) : Prop where
  space : ∀ {done ws}, F done ws →
    ∃ s, ws.space? id = some s ∧ s.items = items ∧ s.ledger.passes = passes
  visit : ∀ {done ws ws1 ws2 ws3 s shelf n request request' width u}, F done ws →
    ws.space? id = some s → (s.ledger.on shelf)[n]? = some request →
    done ++ [request.item] <+: queue →
    settleUpTo fuel request.item request.width ws = .ok width ws1 →
    id.placeRequest shelf request width ws1 = .ok request' ws2 →
    id.updateLedger (fun l => l.put shelf ((l.on shelf).set n request')) ws2 = .ok u ws3 →
    F (done ++ [request.item]) ws3

theorem fillShelf_fills (hF : Fillable passes fuel id items queue F) (h : F done ws) {shelf : Shelf}
    (hq : done ++ items shelf <+: queue) {visit : Nat → PUnit → Build (ForInStep PUnit)}
    (hvisit : ∀ {w w1 : Workspace} {done' : List Occupant} {s : AddressSpace} {n : Nat}
      {request : Staged} {step : ForInStep PUnit}, F done' w → w.space? id = some s →
      (s.ledger.on shelf)[n]? = some request → done' ++ [request.item] <+: queue →
      visit n PUnit.unit w = .ok step w1 → step = .yield PUnit.unit ∧ F (done' ++ [request.item]) w1)
    {v : PUnit} (hloop : forIn (List.range (items shelf).length) PUnit.unit visit ws = .ok v ws') :
    F (done ++ items shelf) ws' := by
  have hend := Build.forRange_ok hloop (fun n w => F (done ++ (items shelf).take n) w) ?_ ?_
  · rwa [take_length] at hend
  · rwa [take_zero, append_nil]
  · intro n hlt w w1 step hw hrun
    obtain ⟨x, hx⟩ : ∃ x, (items shelf)[n]? = some x := ⟨_, getElem?_eq_getElem hlt⟩
    have htake : (items shelf).take (n + 1) = (items shelf).take n ++ [x] := by
      rw [take_add_one, hx]
      rfl
    have hnext : done ++ (items shelf).take n ++ [x] <+: queue := by
      rw [append_assoc, ← htake]
      exact ((prefix_append_right_inj _).mpr ( take_prefix _ _)).trans hq
    obtain ⟨s, hs, hitems, -⟩ := hF.space hw
    rw [← hitems] at hx
    unfold AddressSpace.items at hx
    rw [getElem?_map] at hx
    obtain ⟨request, hrequest, rfl⟩ := Option.map_eq_some_iff.mp hx
    obtain ⟨rfl, hfills⟩ := hvisit hw hs hrequest hnext hrun
    refine ⟨rfl, ?_⟩
    rwa [htake, ← append_assoc]

theorem runPassUpTo_fills (hF : Fillable passes fuel id items queue F) (h : F done ws) {pass : Pass}
    (hq : done ++ (shelvesOf pass).flatMap items <+: queue)
    (hrun : runPassUpTo (fuel + 1) id pass ws = .ok u ws') :
    F (done ++ (shelvesOf pass).flatMap items) ws' := by
  unfold runPassUpTo at hrun
  obtain ⟨_, hloop, -⟩ := bind_pure_ok hrun
  refine forIn_ok hloop (fun shelves w => F (done ++ shelves.flatMap items) w) ?_ ?_
  · rwa [flatMap_nil, append_nil]
  · intro shelves shelf rest hshelves w w1 step hw hbody
    rw [flatMap_append, flatMap_singleton, ← append_assoc]
    obtain ⟨s, hs, hbody2⟩ := bind_get_ok hbody
    obtain ⟨_, hinner, rfl⟩ := bind_pure_ok hbody2
    obtain ⟨s', hs', hitems, -⟩ := hF.space hw
    obtain rfl := Option.mem_unique hs hs'
    rw [hshelves, flatMap_append, flatMap_cons, ← append_assoc, ← append_assoc] at hq
    have hlength : (s.ledger.on shelf).length = (items shelf).length := by
      rw [← hitems]
      exact (length_map _).symm
    rw [hlength] at hinner
    refine ⟨rfl, fillShelf_fills hF hw ((prefix_append _ _).trans hq) ?_ hinner⟩
    intro w w1 done' s' n request step hfill hs' hold hnext hvisit
    obtain ⟨s'', hs'', hvisit2⟩ := bind_get_ok hvisit
    obtain rfl := Option.mem_unique hs' hs''
    simp only [hold] at hvisit2
    obtain ⟨width, w3, hsettle, hvisit3⟩ := bind_ok hvisit2
    obtain ⟨request', w4, hplace, hvisit4⟩ := bind_ok hvisit3
    obtain ⟨_, hmark, rfl⟩ := bind_pure_ok hvisit4
    exact ⟨rfl, hF.visit hfill hs' hold hnext hsettle hplace hmark⟩

theorem passAt_ok {n : Nat} {pass : Pass} (hs : ws.space? id = some s)
    (h : id.passAt n ws = .ok pass ws') : ws' = ws ∧ s.ledger.passes[n]? = some pass := by
  unfold passAt at h
  obtain ⟨s', hs', h1⟩ := bind_get_ok h
  obtain rfl := Option.mem_unique hs hs'
  dsimp only at h1
  split at h1
  · cases h1
  · obtain ⟨hitem, rfl⟩ := lift_ok h1
    refine ⟨rfl, ?_⟩
    unfold Text.itemAt Text.itemAt? at hitem
    rw [if_neg (by omega), Int.toNat_natCast] at hitem
    cases hget : s.ledger.passes[n]? with
    | none => rw [hget] at hitem; cases hitem
    | some p =>
      rw [hget] at hitem
      rw [Except.ok.inj hitem]

theorem resolveUpTo_fills (hF : ∀ k < fuel, Fillable passes k id s.items queue F)
    (hqueue : queue = passes.flatMap fun pass => (shelvesOf pass).flatMap s.items) (h : F [] ws)
    (hs : ws.space? id = some s) (hun : s.ledger.resolved = false)
    (hcount : s.ledger.passCount = passes.length) (hrun : resolveUpTo fuel id ws = .ok u ws') :
    ∃ ws1 s1, F queue ws1 ∧ ws1.space? id = some s1 ∧
      ws' = ws1.setSpace id { s1 with ledger := { s1.ledger with resolved := true } } := by
  cases fuel with
  | zero => cases hrun
  | succ fuel =>
    unfold resolveUpTo at hrun
    obtain ⟨s', hs', h1⟩ := bind_get_ok hrun
    obtain rfl := Option.mem_unique hs hs'
    dsimp only at h1
    rw [hun, hcount] at h1
    obtain ⟨_, ws2, hloop, h2⟩ := bind_ok h1
    have hfills := Build.forRange_ok hloop
      (fun n w => F ((passes.take n).flatMap fun p => (shelvesOf p).flatMap s.items) w) h ?_
    · rw [take_length, ← hqueue] at hfills
      obtain ⟨s2, hs2, rfl⟩ := update_ok h2
      exact ⟨ws2, s2, hfills, hs2, rfl⟩
    · intro n _ w w1 step hw hrun
      obtain ⟨pass, w2, hpass, hrun2⟩ := bind_ok hrun
      obtain ⟨_, hrun3, rfl⟩ := bind_pure_ok hrun2
      cases fuel with
      | zero => cases hrun3
      | succ fuel =>
        obtain ⟨s2, hs2, -, hpasses⟩ := (hF fuel (by omega)).space hw
        obtain ⟨rfl, hget⟩ := passAt_ok hs2 hpass
        rw [hpasses] at hget
        have htake : passes.take (n + 1) = passes.take n ++ [pass] := by
          rw [take_add_one, hget]
          rfl
        rw [htake, flatMap_append, flatMap_singleton]
        have hq : ((passes.take n ++ [pass]).flatMap fun p =>
            (shelvesOf p).flatMap s.items) <+: queue := by
          rw [← htake, hqueue]
          exact List.IsPrefix.flatMap ( take_prefix _ _) _
        rw [flatMap_append, flatMap_singleton] at hq
        exact ⟨rfl, runPassUpTo_fills (hF fuel (by omega)) hw hq hrun3⟩

end SpaceId

end RegisterMap
