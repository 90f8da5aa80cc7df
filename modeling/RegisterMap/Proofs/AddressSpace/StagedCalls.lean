import RegisterMap.Proofs.AddressSpace.Plain
import RegisterMap.Proofs.AddressSpace.Staging

/-! # Calls to a staged space

A staged space is asked for addresses and resolved in any order, and a resolution may be refused.  At
every time its slots are those of the requests that have been placed, a slot stays where it is, and a
resolution that was refused is refused again (`staging_ledger_matches`).

Where the slots are depends on what was asked for.  Requests with an address may come in any order, and
requests without one may come between them (`staging_order_irrelevant`). -/

namespace RegisterMap

open Build List

theorem Build.exists_error {α : Type} {x : Build α} {ws : Workspace} (h : x.isOk ws = false) :
    ∃ e ws', x ws = .error e ws' := by
  unfold Build.isOk at h
  cases hx : x ws with
  | ok a ws' => rw [hx] at h; cases h
  | error e ws' => exact ⟨e, ws', rfl⟩

namespace SpaceId

variable {ws ws' : Workspace} {id : SpaceId} {s : AddressSpace} {n : Nat}

theorem create_ledger {kind : SpaceKind} {span : Option (Int × Int)} {label : Option String}
    {path : Option Path} {domain : Value} (h : create kind span label path domain ws = .ok id ws')
    (hs : ws'.space? id = some s) : s.ledger = kind.ledger := by
  unfold create make at h
  cases hr : Region.create (ρ := Occupant) (span.getD defaultSpan).1 (span.getD defaultSpan).2 "" path with
  | error e =>
    simp only [hr] at h
    obtain ⟨_, _, -, h⟩ := bind_ok h
    cases h
  | ok region =>
    simp only [hr] at h
    have h1 := Build.bind_get_ok h
    have hpush : ∀ {spaces : Array AddressSpace} {t : AddressSpace},
        (spaces.push t)[spaces.size]? = some s → s = t := by
      intro spaces t hget
      rw [Array.getElem?_push_size] at hget
      exact (Option.some.inj hget).symm
    cases label with
    | none =>
      cases h1
      rw [hpush hs]
    | some label =>
      cases h1
      rw [hpush hs]

theorem create_eq {kind : SpaceKind} {label : Option String} {path : Option Path} {domain : Value}
    (h : create kind (some (0, 2 ^ n)) label path domain ws = .ok id ws') (hn : n ≤ 48) :
    id = ⟨ws.spaces.size⟩ ∧ ws' = Build.after (create kind (some (0, 2 ^ n)) label path domain) ws := by
  obtain ⟨w, s, hmake, -⟩ := create_two_pow hn ws kind label path domain
  rw [after_of_ok h]
  exact ⟨(EStateM.Result.ok.inj (hmake.symm.trans h)).1.symm, rfl⟩

end SpaceId

theorem Staged.item_of_slot? {q : Staged} {slot : Slot Occupant} (h : q.slot? = some slot) :
    slot.item = q.item := by
  unfold slot? at h
  split at h
  · split at h
    · cases h
      rfl
    · cases h
  · cases h

/-- The order of a request that is staged. -/
def Region.Order.staged (o : Region.Order Occupant) : Staged := ⟨o.item, o.addr, some o.width, false⟩

def Region.Order.shelf (o : Region.Order Occupant) : Shelf := if o.addr.isSome then .explicits else .entries

def Region.Order.ask (id : SpaceId) (o : Region.Order Occupant) : Build (Option Int) :=
  id.add o.width o.item o.addr

namespace Workspace

variable {ws ws' : Workspace} {id : SpaceId} {s s' : AddressSpace} {n : Nat}

theorem ask_staged (h : ws.space? id = some s) (hk : s.kind = .staged) (o : Region.Order Occupant) :
    o.ask id ws = .ok none (ws.setSpace id { s with ledger := s.ledger.stage o.shelf o.staged }) := by
  unfold Region.Order.ask SpaceId.add
  rw [bind_of_ok (SpaceId.get_of_space? h), hk]
  dsimp only
  rw [if_neg (by decide), pure_bind, ← hk]
  have hstage := SpaceId.update_of_space? h fun s => { s with ledger := s.ledger.stage o.shelf o.staged }
  obtain ⟨width, item, _ | addr⟩ := o
  · exact bind_of_ok hstage _
  · exact bind_of_ok hstage _

theorem requests_stage (s : AddressSpace) (o : Region.Order Occupant) :
    ({ s with ledger := s.ledger.stage o.shelf o.staged } : AddressSpace).requests.Perm
      (o.staged :: s.requests) := by
  obtain ⟨width, item, _ | addr⟩ := o
  · exact (perm_append_singleton _ _).append_left _ |>.trans perm_middle
  · exact ((perm_append_singleton _ _).append_right _)

theorem placedRequests_stage (s : AddressSpace) (o : Region.Order Occupant) :
    ({ s with ledger := s.ledger.stage o.shelf o.staged } : AddressSpace).placedRequests.Perm s.placedRequests := by
  have hperm := (requests_stage s o).filter Staged.placed
  rwa [filter_cons_of_neg (by simp [Region.Order.staged])] at hperm

theorem Stages.ask (h : ws.Stages id n s) {o : Region.Order Occupant} (hi : ws.isSimple o.item = true) :
    (ws.setSpace id { s with ledger := s.ledger.stage o.shelf o.staged }).Stages id n
      { s with ledger := s.ledger.stage o.shelf o.staged } := by
  have hcases : ∀ q ∈ ({ s with ledger := s.ledger.stage o.shelf o.staged } : AddressSpace).requests,
      q = o.staged ∨ q ∈ s.requests := fun q hq =>
    mem_cons.mp ((requests_stage s o).mem_iff.mp hq)
  refine ⟨space?_setSpace_self h.space _, h.kind, ?_, ?_, ?_, h.ready, ?_, ?_, ?_, ?_⟩
  · exact (Ledger.put_passes _ _ _).trans h.passes
  · obtain ⟨width, item, _ | addr⟩ := o <;> exact h.passCount
  · obtain ⟨width, item, _ | addr⟩ := o <;> exact h.keepouts
  · intro q hq
    rcases hcases q hq with rfl | hq
    · exact hi
    · exact h.simple q hq
  · intro q hq
    rcases hcases q hq with rfl | hq
    · rfl
    · exact h.widths q hq
  · obtain ⟨width, item, _ | addr⟩ := o
    · exact h.addrs
    · intro q hq
      rcases mem_append.mp hq with hq | hq
      · exact h.addrs q hq
      · rw [mem_singleton.mp hq]
        rfl
  · exact ((placedRequests_stage s o).map _).trans h.matched

theorem Stages.resolve_again (h : ws.Stages id n s) (hn : n ≤ 32) {e : Error}
    (hrun : id.resolve ws = .error e ws') : id.resolve ws' = .error e ws' := by
  cases hres : s.ledger.resolved with
  | true =>
    rw [SpaceId.resolve_of_resolved h.space hres] at hrun
    cases hrun
  | false =>
    rcases h.resolve hn hres with ⟨_, _, hok, -⟩ | ⟨e', ws1, _, herr, -, -, -, hagain, -⟩
    · rw [hok] at hrun
      cases hrun
    · rw [herr] at hrun
      cases hrun
      exact hagain

theorem Stages.fresh (hs : ws.space? id = some s) (hkind : s.kind = .staged)
    (hledger : s.ledger = SpaceKind.staged.ledger) (hfresh : s.region.Fresh n) : ws.Stages id n s := by
  have hrequests : s.requests = [] := by
    unfold AddressSpace.requests
    rw [hledger]
    rfl
  refine ⟨hs, hkind, by rw [hledger]; rfl, by rw [hledger]; rfl, by rw [hledger]; rfl, hfresh.ready, ?_, ?_,
    ?_, ?_⟩
  · rw [hrequests]
    simp
  · rw [hrequests]
    simp
  · rw [hledger]
    intro q hq
    cases hq
  · unfold AddressSpace.placedRequests
    rw [hrequests, hfresh.taken]
    exact List.Perm.refl _

end Workspace

/-- A call to a staged space. -/
inductive StagingCall where
  /-- Ask for addresses. -/
  | ask (o : Region.Order Occupant)
  /-- Place all requests. -/
  | resolve

namespace StagingCall

def run (id : SpaceId) : StagingCall → Build Unit
  | ask o => do let _ ← o.ask id
  | resolve => id.resolve

/-- The call is about a simple item, or about none. -/
def isSimple (ws : Workspace) : StagingCall → Bool
  | ask o => ws.isSimple o.item
  | resolve => true

theorem isSimple_congr {ws ws' : Workspace} (h : ws'.isSimple = ws.isSimple) (call : StagingCall) :
    call.isSimple ws' = call.isSimple ws := by
  cases call with
  | ask o => exact congrFun h o.item
  | resolve => rfl

variable {ws : Workspace} {id : SpaceId} {s : AddressSpace} {n : Nat}

theorem run_stages (hn : n ≤ 32) (h : ws.Stages id n s) {call : StagingCall}
    (hc : call.isSimple ws = true) :
    ∃ s', (Build.after (call.run id) ws).Stages id n s' ∧ s.Later s' ∧
      (Build.after (call.run id) ws).isSimple = ws.isSimple := by
  cases call with
  | ask o =>
    have hrun : run id (ask o) ws = .ok ()
        (ws.setSpace id { s with ledger := s.ledger.stage o.shelf o.staged }) :=
      bind_of_ok (Workspace.ask_staged h.space h.kind o) _
    rw [after_of_ok hrun]
    exact ⟨_, h.ask hc, ⟨(Workspace.placedRequests_stage s o).symm.subset, List.Subset.refl _⟩, rfl⟩
  | resolve =>
    have hrun : run id resolve = id.resolve := rfl
    rw [hrun]
    cases hres : s.ledger.resolved with
    | true =>
      rw [after_of_ok (SpaceId.resolve_of_resolved h.space hres)]
      exact ⟨s, h, ⟨List.Subset.refl _, List.Subset.refl _⟩, rfl⟩
    | false =>
      rcases h.resolve hn hres with ⟨ws', s', hok, hs', hlater, hsimple, -⟩ |
        ⟨e, ws', s', herr, hs', hlater, hsimple, -⟩
      · rw [after_of_ok hok]
        exact ⟨s', hs', hlater, hsimple⟩
      · rw [Build.after_of_error herr]
        exact ⟨s', hs', hlater, hsimple⟩

/-- The workspace after some calls, each of which may be granted or refused. -/
def runAll (id : SpaceId) (calls : List StagingCall) (ws : Workspace) : Workspace :=
  afterAll (calls.map (run id)) ws

theorem runAll_append (id : SpaceId) (calls more : List StagingCall) (ws : Workspace) :
    runAll id (calls ++ more) ws = runAll id more (runAll id calls ws) := by
  unfold runAll afterAll
  rw [map_append, foldl_append]

theorem runAll_stages (hn : n ≤ 32) (h : ws.Stages id n s) {calls : List StagingCall}
    (hc : ∀ call ∈ calls, call.isSimple ws = true) :
    ∃ s', (runAll id calls ws).Stages id n s' ∧ s.Later s' ∧
      (runAll id calls ws).isSimple = ws.isSimple := by
  refine afterAll_induct (P := fun w => ∃ s', w.Stages id n s' ∧ s.Later s' ∧
    w.isSimple = ws.isSimple) ?_ ⟨s, h, ⟨List.Subset.refl _, List.Subset.refl _⟩, rfl⟩
  rintro x hx w ⟨s', hs', hlater, hsimple⟩
  obtain ⟨call, hcall, rfl⟩ := mem_map.mp hx
  have hc' : call.isSimple w = true := (isSimple_congr hsimple call).trans (hc call hcall)
  obtain ⟨s'', hs'', hlater', hsimple'⟩ := run_stages hn hs' hc'
  exact ⟨s'', hs'', hlater.trans hlater', hsimple'.trans hsimple⟩

end StagingCall

/-- **Ledger and map agree, also after refusals.**  After any calls to a staged space over `[0, 2 ^
n)`, refused or not, the requests that have been placed are one-to-one with the slots, by item, address
and width.  They and the slots stay in all further calls, and a resolution that is refused is refused
again for the same reason and changes nothing. -/
theorem staging_ledger_matches {n : Nat} (hn : n ≤ 32) (ws : Workspace) (label : Option String)
    (path : Option Path) (domain : Value) :
    ∃ id ws0, SpaceId.create .staged (some (0, 2 ^ n)) label path domain ws = .ok id ws0 ∧
      ∀ calls : List StagingCall, (∀ call ∈ calls, call.isSimple ws0 = true) →
        ∃ s, (StagingCall.runAll id calls ws0).space? id = some s ∧
          (s.placedRequests.map Staged.slot?).Perm (s.region.taken.map some) ∧
          (∀ x, (∀ q ∈ s.requests, q.item = x → q.placed = false) →
            ∀ slot ∈ s.region.taken, slot.item ≠ x) ∧
          (∀ more : List StagingCall, (∀ call ∈ more, call.isSimple ws0 = true) →
            ∃ s', (StagingCall.runAll id (calls ++ more) ws0).space? id = some s' ∧
              s.placedRequests ⊆ s'.placedRequests ∧ s.region.taken ⊆ s'.region.taken) ∧
          ∀ e ws', id.resolve (StagingCall.runAll id calls ws0) = .error e ws' →
            id.resolve ws' = .error e ws' := by
  obtain ⟨ws0, s0, hmake, hspaces, hk, hfresh⟩ :=
    SpaceId.create_two_pow (by omega : n ≤ 48) ws .staged label path domain
  have hs0 := Workspace.space?_of_push hspaces
  have hstages := Workspace.Stages.fresh hs0 hk (SpaceId.create_ledger hmake hs0) hfresh
  refine ⟨_, ws0, hmake, fun calls hcalls => ?_⟩
  obtain ⟨s, hs, -, hsimple⟩ := StagingCall.runAll_stages hn hstages hcalls
  refine ⟨s, hs.space, hs.matched, fun x hx slot hslot hitem => ?_, fun more hmore => ?_,
    fun e ws' hrun => ?_⟩
  · obtain ⟨q, hq, hqslot⟩ := mem_map.mp
      (hs.matched.mem_iff.mpr (mem_map_of_mem (f := some) hslot))
    obtain ⟨hq, hplaced⟩ := mem_filter.mp hq
    have := hx q hq ((Staged.item_of_slot? hqslot).symm.trans hitem)
    rw [hplaced] at this
    cases this
  · have hmore' : ∀ call ∈ more, call.isSimple (StagingCall.runAll ⟨ws.spaces.size⟩ calls ws0) = true := by
      intro call hcall
      exact (StagingCall.isSimple_congr hsimple call).trans (hmore call hcall)
    obtain ⟨s', hs', hlater, -⟩ := StagingCall.runAll_stages hn hs hmore'
    rw [StagingCall.runAll_append]
    exact ⟨s', hs'.space, hlater.requests, hlater.taken⟩
  · exact hs.resolve_again hn hrun

/-- A block of four addresses, one of eight that has no room then, and one that is asked for after the
refusal. -/
def crowdedCalls : List StagingCall :=
  [.ask ⟨2, .nothing, some 0⟩, .ask ⟨3, .nothing, none⟩, .resolve, .ask ⟨0, .nothing, none⟩]

theorem staging_ledger_matches_crowded :
    3 ≤ 32 ∧ ∃ id ws0, SpaceId.create .staged (some (0, 2 ^ 3)) none none .none {} = .ok id ws0 ∧
      (∀ call ∈ crowdedCalls, call.isSimple ws0 = true) ∧
      ∃ s, (StagingCall.runAll id crowdedCalls ws0).space? id = some s ∧
        (s.placedRequests.map Staged.slot?).Perm (s.region.taken.map some) ∧ s.placedRequests.length = 1 ∧
        s.requests.length = 3 ∧
        ∃ e ws', id.resolve (StagingCall.runAll id crowdedCalls ws0) = .error e ws' ∧
          id.resolve ws' = .error e ws' := by
  obtain ⟨id, ws0, hmake, h⟩ := staging_ledger_matches (n := 3) (by decide) {} none none .none
  have hcalls : ∀ call ∈ crowdedCalls, call.isSimple ws0 = true := by
    simp [crowdedCalls, StagingCall.isSimple, Workspace.isSimple]
  obtain ⟨s, hs, hmatched, -, -, hagain⟩ := h crowdedCalls hcalls
  obtain ⟨rfl, rfl⟩ := SpaceId.create_eq hmake (by decide)
  have hcounts : ((StagingCall.runAll ⟨0⟩ crowdedCalls (Build.after
      (SpaceId.create .staged (some (0, 2 ^ 3)) none none .none) {})).space? ⟨0⟩).map
      (fun s => (s.placedRequests.length, s.requests.length)) = some (1, 3) := by decide +kernel
  obtain ⟨e, ws', hrun⟩ := Build.exists_error (show (SpaceId.resolve ⟨0⟩).isOk
    (StagingCall.runAll ⟨0⟩ crowdedCalls (Build.after
      (SpaceId.create .staged (some (0, 2 ^ 3)) none none .none) {})) = false by decide +kernel)
  obtain ⟨t, ht, hcount⟩ := Option.map_eq_some_iff.mp hcounts
  obtain rfl : s = t := Option.some.inj (hs.symm.trans ht)
  exact ⟨by decide, _, _, hmake, hcalls, s, hs, hmatched, congrArg Prod.fst hcount,
    congrArg Prod.snd hcount, e, ws', hrun, hagain e ws' hrun⟩

/-! ### The order of requests -/

/-- The order with the address width of its item, if the item has one. -/
def Workspace.sized (ws : Workspace) (o : Region.Order Occupant) : Region.Order Occupant :=
  ⟨((ws.leaf? o.item).map Leaf.aw).getD o.width, o.item, o.addr⟩

/-- The orders at an address. -/
def explicitOrders (os : List (Region.Order Occupant)) : List (Region.Order Occupant) :=
  os.filter fun o => o.addr.isSome

/-- The orders without an address. -/
def implicitOrders (os : List (Region.Order Occupant)) : List (Region.Order Occupant) :=
  os.filter fun o => o.addr.isNone

/-- The workspace after a space was asked for addresses. -/
def askAll (id : SpaceId) (os : List (Region.Order Occupant)) (ws : Workspace) : Workspace :=
  afterAll (os.map (Region.Order.ask id)) ws

namespace Workspace

variable {ws ws' : Workspace} {id : SpaceId} {s s' : AddressSpace} {n : Nat}
  {os os' : List (Region.Order Occupant)}

theorem Stages.asked (h : ws.Stages id n s) (hos : ∀ o ∈ os, ws.isSimple o.item = true) :
    ∃ s', (askAll id os ws).Stages id n s' ∧ s'.region = s.region ∧
      (s.ledger.resolved = false → s'.ledger.resolved = false) ∧
      s'.ledger.explicits = s.ledger.explicits ++ (explicitOrders os).map Region.Order.staged ∧
      s'.ledger.entries = s.ledger.entries ++ (implicitOrders os).map Region.Order.staged ∧
      (askAll id os ws).leaf? = ws.leaf? := by
  induction os generalizing ws s with
  | nil => exact ⟨s, h, rfl, fun h => h, by simp [explicitOrders], by simp [implicitOrders], rfl⟩
  | cons o os ih =>
    have hrun := after_of_ok (ask_staged h.space h.kind o)
    obtain ⟨s', hs', hregion, hopen, hexp, himp, hleaf⟩ :=
      ih (h.ask (hos o mem_cons_self)) fun o' ho' => hos o' (mem_cons_of_mem _ ho')
    have hall : askAll id (o :: os) ws = askAll id os
        (ws.setSpace id { s with ledger := s.ledger.stage o.shelf o.staged }) := by
      show afterAll _ (Build.after (o.ask id) ws) = _
      rw [hrun]
      rfl
    rw [hall]
    refine ⟨s', hs', hregion, fun _ => hopen rfl, ?_, ?_, hleaf⟩
    · rw [hexp]
      obtain ⟨width, item, _ | addr⟩ := o
      · rfl
      · exact append_assoc _ _ _
    · rw [himp]
      obtain ⟨width, item, _ | addr⟩ := o
      · exact append_assoc _ _ _
      · rfl

theorem pending_explicits (ws : Workspace) (os : List (Region.Order Occupant)) :
    ws.pending .explicits (os.map Region.Order.staged) = os.map ws.sized := by
  unfold pending
  rw [filter_eq_self.mpr, map_map]
  · rfl
  · intro q hq
    obtain ⟨o, -, rfl⟩ := mem_map.mp hq
    rfl

theorem pending_entries (ws : Workspace) (hos : ∀ o ∈ os, o.addr = none) :
    ws.pending .entries (os.map Region.Order.staged) = os.map ws.sized := by
  unfold pending
  rw [filter_eq_self.mpr, map_map]
  · refine map_congr_left fun o ho => ?_
    have haddr := hos o ho
    obtain ⟨width, item, addr⟩ := o
    obtain rfl : addr = none := haddr
    rfl
  · intro q hq
    obtain ⟨o, -, rfl⟩ := mem_map.mp hq
    rfl

variable (h : ws.Stages id n s) (hledger : s.ledger = SpaceKind.staged.ledger)
  (hos : ∀ o ∈ os, ws.isSimple o.item = true)

include h hledger hos

theorem Stages.askAll_fresh :
    ∃ s', (askAll id os ws).Stages id n s' ∧ s'.region = s.region ∧
      s'.ledger.resolved = false ∧
      (askAll id os ws).pending .explicits (s'.ledger.on .explicits) =
        (explicitOrders os).map ws.sized ∧
      (askAll id os ws).pending .entries (s'.ledger.on .entries) =
        (implicitOrders os).map ws.sized := by
  obtain ⟨s', hs', hregion, hopen, hexp, himp, hleaf⟩ := h.asked hos
  rw [hledger] at hopen hexp himp
  have hsized : (askAll id os ws).sized = ws.sized := by
    unfold sized
    rw [hleaf]
  have hexp : s'.ledger.on .explicits = (explicitOrders os).map Region.Order.staged := hexp
  have himp : s'.ledger.on .entries = (implicitOrders os).map Region.Order.staged := himp
  refine ⟨s', hs', hregion, hopen rfl, ?_, ?_⟩
  · rw [hexp, pending_explicits, hsized]
  · rw [himp, pending_entries, hsized]
    intro o ho
    exact Option.isNone_iff_eq_none.mp (mem_filter.mp ho).2

theorem Stages.resolve_askAll (hn : n ≤ 32) :
    (∃ ws' s', id.resolve (askAll id os ws) = .ok () ws' ∧ ws'.space? id = some s' ∧
      s.region.placeAll Occupant.isSome ((explicitOrders os).map ws.sized ++
        (implicitOrders os).map ws.sized) = some s'.region) ∨
    ∃ e ws', id.resolve (askAll id os ws) = .error e ws' ∧
      s.region.placeAll Occupant.isSome ((explicitOrders os).map ws.sized ++
        (implicitOrders os).map ws.sized) = none := by
  obtain ⟨s1, hs1, hregion, hopen, hexp, himp⟩ := h.askAll_fresh hledger hos
  rw [← hexp, ← himp, ← hregion]
  rcases hs1.resolve hn hopen with
    ⟨ws', s', hrun, hs', -, -, hplace⟩ | ⟨e, ws', s', hrun, -, -, -, -, hnone⟩
  · exact .inl ⟨ws', s', hrun, hs'.space, hplace⟩
  · exact .inr ⟨e, ws', hrun, hnone⟩

theorem Stages.explicits_askAll (hn : n ≤ 32) :
    (id.runPass .explicits).isOk (askAll id os ws) = true ↔
      ∃ r, s.region.placeAll Occupant.isSome ((explicitOrders os).map ws.sized) = some r := by
  obtain ⟨s1, hs1, hregion, hopen, hexp, -⟩ := h.askAll_fresh hledger hos
  have hrun : id.runPass .explicits (askAll id os ws) = SpaceId.runPassUpTo
      (4 * (askAll id os ws).spaces.size + 2 + 2) id .explicits
      (askAll id os ws) := rfl
  unfold Build.isOk
  rw [hrun, ← hexp, ← hregion]
  have hshelf : SpaceId.shelvesOf .explicits = [.explicits] := rfl
  rcases hs1.pass hn hopen (.inl rfl) hshelf _ with
    ⟨ws', s', hok, -, hv⟩ | ⟨e, ws', s', herr, -, -, -, hnone⟩
  · rw [hok]
    have hplace := hv.run
    rw [take_length] at hplace
    exact iff_of_true rfl ⟨_, hplace⟩
  · rw [herr, hnone]
    exact iff_of_false (by simp) (by simp)

end Workspace

/-- **What is placed where depends on what is asked for, not on the order.**  Ask a new staged space
over `[0, 2 ^ n)` for the same blocks, those with an address in any order and those without one in one
order, mixed in any way.  Then both resolutions are refused, or both go through with the same slots.
The pass over the blocks with an address goes through exactly if each is aligned and inside the space
and no two have an address in common. -/
theorem staging_order_irrelevant {n : Nat} (hn : n ≤ 32) (ws : Workspace) (label : Option String)
    (path : Option Path) (domain : Value) :
    ∃ id ws0, SpaceId.create .staged (some (0, 2 ^ n)) label path domain ws = .ok id ws0 ∧
      ∀ os os' : List (Region.Order Occupant), (∀ o ∈ os, ws0.isSimple o.item = true) →
        (explicitOrders os).Perm (explicitOrders os') → implicitOrders os = implicitOrders os' →
        id.resolve.isOk (askAll id os ws0) = id.resolve.isOk (askAll id os' ws0) ∧
        (∀ ws1 ws2, id.resolve (askAll id os ws0) = .ok () ws1 →
          id.resolve (askAll id os' ws0) = .ok () ws2 →
          ∃ s1 s2, ws1.space? id = some s1 ∧ ws2.space? id = some s2 ∧
            s1.region.taken.Perm s2.region.taken) ∧
        ((id.runPass .explicits).isOk (askAll id os ws0) = true ↔
          (∀ o ∈ explicitOrders os, (ws0.sized o).Fits n) ∧
            ((explicitOrders os).map fun o => (ws0.sized o).slot).Pairwise Slot.Clear) := by
  obtain ⟨ws0, s0, hmake, hspaces, hk, hfresh⟩ :=
    SpaceId.create_two_pow (by omega : n ≤ 48) ws .staged label path domain
  have hs0 := Workspace.space?_of_push hspaces
  have hledger := SpaceId.create_ledger hmake hs0
  have hstages := Workspace.Stages.fresh hs0 hk hledger hfresh
  refine ⟨_, ws0, hmake, fun os os' hos hexp himp => ?_⟩
  have hos' : ∀ o ∈ os', ws0.isSimple o.item = true := by
    intro o ho
    apply hos
    cases ha : o.addr with
    | none =>
      have hmem : o ∈ implicitOrders os' := mem_filter.mpr ⟨ho, by simp [ha]⟩
      rw [← himp] at hmem
      exact (mem_filter.mp hmem).1
    | some addr =>
      have hmem : o ∈ explicitOrders os' := mem_filter.mpr ⟨ho, by simp [ha]⟩
      exact (mem_filter.mp (hexp.mem_iff.mpr hmem)).1
  have haddr : ∀ {os : List (Region.Order Occupant)}, ∀ o ∈ (explicitOrders os).map ws0.sized,
      o.addr.isSome := by
    intro os o ho
    obtain ⟨o', ho', rfl⟩ := mem_map.mp ho
    exact (mem_filter.mp ho').2
  have hready := hfresh.ready
  have hsame : ∀ {xs ys : List (Region.Order Occupant)}, (explicitOrders xs).Perm (explicitOrders ys) →
      implicitOrders xs = implicitOrders ys → ∀ {p}, s0.region.placeAll Occupant.isSome
        ((explicitOrders xs).map ws0.sized ++ (implicitOrders xs).map ws0.sized) = some p →
      ∃ p', s0.region.placeAll Occupant.isSome ((explicitOrders ys).map ws0.sized ++
        (implicitOrders ys).map ws0.sized) = some p' ∧ p.taken.Perm p'.taken := by
    intro xs ys hx hy p hp
    rw [← hy]
    exact hready.placeAll_perm hready hn (List.Perm.refl _) (hx.map _) haddr hp
  have hpass : (∀ o ∈ (explicitOrders os).map ws0.sized, o.Fits n) ∧
      (((explicitOrders os).map ws0.sized).map Region.Order.slot ++ s0.region.taken).Pairwise Slot.Clear ↔
      (∀ o ∈ explicitOrders os, (ws0.sized o).Fits n) ∧
        ((explicitOrders os).map fun o => (ws0.sized o).slot).Pairwise Slot.Clear := by
    rw [hfresh.taken, append_nil, map_map, forall_mem_map]
    rfl
  have hexplicits := (hstages.explicits_askAll hledger hos hn).trans
    ((hready.placeAll_iff hn haddr).trans hpass)
  rcases hstages.resolve_askAll hledger hos hn with ⟨ws1, s1, hrun, hs1, hp⟩ | ⟨e, ws1, hrun, hp⟩ <;>
    rcases hstages.resolve_askAll hledger hos' hn with ⟨ws2, s2, hrun', hs2, hp'⟩ | ⟨e', ws2, hrun', hp'⟩
  · refine ⟨by rw [Build.isOk, Build.isOk, hrun, hrun'], fun w1 w2 h1 h2 => ?_, hexplicits⟩
    obtain ⟨p', hq, hperm⟩ := hsame hexp himp hp
    obtain rfl := Option.some.inj (hq.symm.trans hp')
    rw [hrun] at h1
    rw [hrun'] at h2
    cases h1
    cases h2
    exact ⟨s1, s2, hs1, hs2, hperm⟩
  · obtain ⟨p', hq, -⟩ := hsame hexp himp hp
    rw [hp'] at hq
    cases hq
  · obtain ⟨p', hq, -⟩ := hsame hexp.symm himp.symm hp'
    rw [hp] at hq
    cases hq
  · refine ⟨by rw [Build.isOk, Build.isOk, hrun, hrun'], fun w1 w2 h1 _ => ?_, hexplicits⟩
    rw [hrun] at h1
    cases h1

/-- A workspace with a memory of two words. -/
def twoWords : Workspace :=
  Build.after (RegisterId.create .memory (some "words") 8 1 none .none .readWrite none none) {}

def mixedOrders : List (Region.Order Occupant) :=
  [⟨0, .nothing, none⟩, ⟨1, .register ⟨0⟩, some 4⟩, ⟨1, .nothing, some 2⟩]

def sortedOrders : List (Region.Order Occupant) :=
  [⟨1, .nothing, some 2⟩, ⟨1, .register ⟨0⟩, some 4⟩, ⟨0, .nothing, none⟩]

theorem staging_order_irrelevant_mixed :
    3 ≤ 32 ∧ ∃ id ws0, SpaceId.create .staged (some (0, 2 ^ 3)) none none .none twoWords = .ok id ws0 ∧
      (∀ o ∈ mixedOrders, ws0.isSimple o.item = true) ∧
      (explicitOrders mixedOrders).Perm (explicitOrders sortedOrders) ∧
      implicitOrders mixedOrders = implicitOrders sortedOrders ∧
      id.resolve.isOk (askAll id mixedOrders ws0) = id.resolve.isOk (askAll id sortedOrders ws0) ∧
      (id.runPass .explicits).isOk (askAll id mixedOrders ws0) = true := by
  obtain ⟨id, ws0, hmake, h⟩ := staging_order_irrelevant (n := 3) (by decide) twoWords none none .none
  obtain ⟨rfl, rfl⟩ := SpaceId.create_eq hmake (by decide)
  have hsimple : ∀ o ∈ mixedOrders, (Build.after (SpaceId.create .staged (some (0, 2 ^ 3)) none none .none)
      twoWords).isSimple o.item = true := by
    simp only [mixedOrders, forall_mem_cons]
    exact ⟨rfl, rfl, rfl, by simp⟩
  have hexp : (explicitOrders mixedOrders).Perm (explicitOrders sortedOrders) := List.Perm.swap _ _ _
  obtain ⟨hok, -, hpass⟩ := h mixedOrders sortedOrders hsimple hexp rfl
  refine ⟨by decide, _, _, hmake, hsimple, hexp, rfl, hok, hpass.mpr ⟨?_, ?_⟩⟩
  · have hlist : explicitOrders mixedOrders =
        [⟨1, .register ⟨0⟩, some 4⟩, ⟨1, .nothing, some 2⟩] := rfl
    rw [hlist]
    simp only [forall_mem_cons]
    exact ⟨⟨1, 4, rfl, rfl, by decide⟩, ⟨1, 2, rfl, rfl, by decide⟩, by simp⟩
  · decide +kernel

/-- The width of an item counts, not the one asked for: a memory of two words is refused at an odd
address. -/
theorem staging_width_of_item :
    ∃ id ws0, SpaceId.create .staged (some (0, 2 ^ 3)) none none .none twoWords = .ok id ws0 ∧
      ∃ os : List (Region.Order Occupant), (∀ o ∈ os, ws0.isSimple o.item = true) ∧
        (∀ o ∈ explicitOrders os, o.Fits 3) ∧
        ((explicitOrders os).map Region.Order.slot).Pairwise Slot.Clear ∧
        (id.runPass .explicits).isOk (askAll id os ws0) = false ∧
        id.resolve.isOk (askAll id os ws0) = false := by
  obtain ⟨ws0, s0, hmake, -⟩ :=
    SpaceId.create_two_pow (n := 3) (by decide) twoWords .staged none none .none
  obtain ⟨-, rfl⟩ := SpaceId.create_eq hmake (by decide)
  refine ⟨_, _, hmake, [⟨0, .register ⟨0⟩, some 1⟩], ?_, ?_, ?_, ?_, ?_⟩
  · simp only [forall_mem_singleton]
    rfl
  · intro o ho
    obtain rfl := mem_singleton.mp ho
    exact ⟨0, 1, rfl, rfl, by decide⟩
  · exact pairwise_singleton _ _
  · show (SpaceId.runPass ⟨0⟩ .explicits).isOk (askAll ⟨0⟩ _ _) = false
    decide +kernel
  · show (SpaceId.resolve ⟨0⟩).isOk (askAll ⟨0⟩ _ _) = false
    decide +kernel

end RegisterMap
