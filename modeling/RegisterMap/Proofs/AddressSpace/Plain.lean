import RegisterMap.Proofs.Region.Tiling
import RegisterMap.Proofs.Workspace.Run

/-! # Requests to a plain space

A plain space places requests at once.  A request for addresses without an item touches nothing but
the region of the space: the block is placed, and then the ranges are sorted and checked
(`SpaceId.place_nothing`).  So the tiling of the region survives every sequence of requests, granted
or refused (`tiling_after_requests`). -/

namespace RegisterMap

open Build

namespace SpaceId

variable {ws : Workspace} {id : SpaceId} {s : AddressSpace}

/-- Placing a block without an item changes the region, which is sorted and checked if it was placed. -/
theorem place_nothing (h : ws.space? id = some s) (width : Int) (addr : Option Int)
    (purpose : Purpose) :
    id.place width .nothing addr purpose ws =
      let placed := s.region.place Occupant.isSome width .nothing addr purpose
      let ws1 := ws.setSpace id { s with region := placed.1 }
      match placed.2 with
      | .error e => .error (e.toError ws1.occupantText) ws1
      | .ok base =>
        let ws2 := ws.setSpace id { s with region := placed.1.sorted }
        match placed.1.sorted.check with
        | .error e => .error (e.toError ws2.occupantText) ws2
        | .ok () => .ok base ws2 := by
  unfold place
  cases hp : s.region.place Occupant.isSome width .nothing addr purpose with
  | mk r res =>
    simp only
    have hplace := onRegion_of_space? h
      (fun r => r.place Occupant.isSome width .nothing addr purpose)
    rw [hp] at hplace
    cases res with
    | error e => rw [bind_of_error hplace]
    | ok base =>
      rw [bind_of_ok hplace]
      have hs1 := Workspace.space?_setSpace_self h { s with region := r }
      have hname : Occupant.nothing.name? (ws.setSpace id { s with region := r }) =
        .ok none (ws.setSpace id { s with region := r }) := rfl
      rw [bind_of_ok hname, bind_of_ok (region_of_space? hs1)]
      have hcheck := onRegion_of_space? hs1 Region.checkComplete
      simp only [Region.checkComplete, Workspace.setSpace_setSpace] at hcheck
      -- with or without a path of the space nothing is handed on, and the check comes next
      dsimp only
      cases r.path <;> dsimp only <;> unfold checkComplete <;>
        cases hc : r.sorted.check <;> rw [hc] at hcheck
      · rw [bind_of_error hcheck]
      · rw [bind_of_ok hcheck]; rfl
      · rw [bind_of_error hcheck]
      · rw [bind_of_ok hcheck]; rfl

theorem after_place_nothing (h : ws.space? id = some s) (width : Int) (addr : Option Int)
    (purpose : Purpose) :
    ∃ r, Build.after (id.place width .nothing addr purpose) ws = ws.setSpace id { s with region := r } ∧
      (r = (s.region.place Occupant.isSome width .nothing addr purpose).1 ∨
        r = (s.region.place Occupant.isSome width .nothing addr purpose).1.sorted) := by
  unfold Build.after
  rw [place_nothing h]
  simp only
  cases (s.region.place Occupant.isSome width .nothing addr purpose).2 with
  | error e => exact ⟨_, rfl, .inl rfl⟩
  | ok base =>
    cases (s.region.place Occupant.isSome width .nothing addr purpose).1.sorted.check with
    | error e | ok u => exact ⟨_, rfl, .inr rfl⟩

theorem add_of_plain (h : ws.space? id = some s) (hk : s.kind = .plain) (width : Int)
    (item : Occupant) (addr : Option Int) :
    id.add width item addr ws = (some <$> id.addNow width item addr) ws := by
  unfold add
  rw [bind_of_ok (get_of_space? h), hk, map_eq_pure_bind]

theorem addNow_nothing (id : SpaceId) (width : Int) (addr : Option Int) :
    id.addNow width .nothing addr = id.place width .nothing addr .item := by
  funext ws
  unfold addNow
  simp only [Occupant.setBase, bind_apply]
  cases id.place width .nothing addr .item ws <;> rfl

section

variable (h : ws.space? id = some s) (hk : s.kind = .plain)

include h hk

theorem after_add_plain (width : Int) (item : Occupant) (addr : Option Int) :
    Build.after (id.add width item addr) ws = Build.after (id.addNow width item addr) ws := by
  rw [← after_map some (id.addNow width item addr)]
  unfold Build.after
  rw [add_of_plain h hk]

theorem keepout_of_plain (addr width : Int) :
    id.keepout addr width ws = (some <$> id.place width .nothing (some addr) .reserve) ws := by
  unfold keepout
  rw [bind_of_ok (get_of_space? h), hk, map_eq_pure_bind]
  rfl

theorem after_keepout_plain (addr width : Int) :
    Build.after (id.keepout addr width) ws =
      Build.after (id.place width .nothing (some addr) .reserve) ws := by
  rw [← after_map some (id.place width .nothing (some addr) .reserve)]
  unfold Build.after
  rw [keepout_of_plain h hk]

end

theorem create_two_pow {n : Nat} (hn : n ≤ 48) (ws : Workspace) (kind : SpaceKind)
    (label : Option String) (path : Option Path) (domain : Value) :
    ∃ ws' s, create kind (some (0, 2 ^ n)) label path domain ws = .ok ⟨ws.spaces.size⟩ ws' ∧
      ws'.spaces = ws.spaces.push s ∧ s.kind = kind ∧ s.region.Fresh n := by
  obtain ⟨r, hr, hf⟩ := Region.create_two_pow (ρ := Occupant) hn "" path
  unfold create make
  simp only [Option.getD_some, hr]
  rw [bind_of_ok (show (getThe Workspace : Build Workspace) ws = .ok ws ws from rfl)]
  cases label with
  | none | some label => exact ⟨_, _, rfl, rfl, rfl, hf.1, hf.2, hf.3, hf.4, hf.5, hf.6, hf.7⟩

end SpaceId

/-! ### Sequences of requests -/

/-- A request for a block of `2 ^ width` addresses. -/
inductive Request where
  /-- Take the first block with room, or the one at an address. -/
  | add (width : Nat) (addr : Option Int)
  /-- Reserve the block at an address. -/
  | keepout (addr : Int) (width : Nat)
deriving DecidableEq, Repr

def Request.run (id : SpaceId) : Request → Build (Option Int)
  | .add width addr => id.add width .nothing addr
  | .keepout addr width => id.keepout addr width

/-- The workspace after some requests to a space, each of which may be granted or refused. -/
def afterRequests (id : SpaceId) (requests : List Request) (ws : Workspace) : Workspace :=
  afterAll (requests.map (Request.run id)) ws

theorem Request.run_tiled {n : Nat} (hn : n ≤ 53) {ws : Workspace} {id : SpaceId} {s : AddressSpace}
    (h : ws.space? id = some s) (hk : s.kind = .plain) (ht : s.region.Tiled n) (q : Request) :
    ∃ s', (Build.after (q.run id) ws).space? id = some s' ∧ s'.kind = .plain ∧ s'.region.Tiled n := by
  have key : ∀ (width : Int) (addr : Option Int) (purpose : Purpose),
      purpose = .item ∨ purpose = .reserve →
      ∃ s', (Build.after (id.place width .nothing addr purpose) ws).space? id = some s' ∧
        s'.kind = .plain ∧ s'.region.Tiled n := by
    intro width addr purpose hp
    obtain ⟨r, hafter, hr⟩ := SpaceId.after_place_nothing h width addr purpose
    rw [hafter]
    refine ⟨_, Workspace.space?_setSpace_self h _, hk, ?_⟩
    have hplace := ht.place hn Occupant.isSome width .nothing addr hp
    rcases hr with rfl | rfl
    · exact hplace
    · exact hplace.sorted
  cases q with
  | add width addr =>
    show ∃ s', (Build.after (id.add width .nothing addr) ws).space? id = some s' ∧ _
    rw [SpaceId.after_add_plain h hk, SpaceId.addNow_nothing]
    exact key width addr .item (.inl rfl)
  | keepout addr width =>
    show ∃ s', (Build.after (id.keepout addr width) ws).space? id = some s' ∧ _
    rw [SpaceId.after_keepout_plain h hk]
    exact key width (some addr) .reserve (.inr rfl)

theorem afterRequests_tiled {n : Nat} (hn : n ≤ 53) {id : SpaceId} (requests : List Request)
    {ws : Workspace} {s : AddressSpace} (h : ws.space? id = some s) (hk : s.kind = .plain)
    (ht : s.region.Tiled n) :
    ∃ s', (afterRequests id requests ws).space? id = some s' ∧ s'.kind = .plain ∧
      s'.region.Tiled n := by
  refine afterAll_induct (P := fun ws => ∃ s, ws.space? id = some s ∧ s.kind = .plain ∧
    s.region.Tiled n) ?_ ⟨s, h, hk, ht⟩
  rintro x hx ws ⟨s, h, hk, ht⟩
  obtain ⟨q, -, rfl⟩ := List.mem_map.mp hx
  exact q.run_tiled hn h hk ht

/-- **The ranges of a space tile its addresses, whatever was requested.**  In a space over `[0, 2 ^
n)`, after any requests, granted or refused, every address is in exactly one of the ranges; taken and
reserved ranges are aligned blocks, and the gaps ascend without touching. -/
theorem tiling_after_requests {n : Nat} (hn : n ≤ 32) (ws : Workspace) (label : Option String)
    (path : Option Path) (domain : Value) :
    ∃ id ws0, SpaceId.create .plain (some (0, 2 ^ n)) label path domain ws = .ok id ws0 ∧
      ∀ requests : List Request, ∃ s, (afterRequests id requests ws0).space? id = some s ∧
        Tiles s.region.ranges 0 (2 ^ n) ∧
        (∀ slot ∈ s.region.taken, IsBlock slot.lo slot.hi) ∧
        (∀ k ∈ s.region.reserved, IsBlock k.lo k.hi) ∧
        Gap.Apart s.region.vacant := by
  obtain ⟨ws0, s, hmake, hspaces, hk, hfresh⟩ :=
    SpaceId.create_two_pow (by omega : n ≤ 48) ws .plain label path domain
  have hs := Workspace.space?_of_push hspaces
  refine ⟨_, ws0, hmake, fun requests => ?_⟩
  obtain ⟨s', hs', -, htiled⟩ := afterRequests_tiled (by omega) requests hs hk hfresh.tiled
  exact ⟨s', hs', htiled.ranges, htiled.taken_block, htiled.reserved_block, htiled.apart⟩

/-- Two reserved blocks in descending order with items around them. -/
theorem tiling_after_requests_sixteen :
    4 ≤ 32 ∧ ∃ id ws0,
      SpaceId.create .plain (some (0, 2 ^ 4)) none none .none {} = .ok id ws0 ∧
      ∃ s, (afterRequests id [.keepout 8 2, .keepout 4 1, .add 1 none, .add 0 (some 7), .add 5 none]
          ws0).space? id = some s ∧ Tiles s.region.ranges 0 (2 ^ 4) := by
  obtain ⟨id, ws0, hmake, h⟩ :=
    tiling_after_requests (n := 4) (by decide) {} none none .none
  obtain ⟨s, hs, ht, -⟩ :=
    h [.keepout 8 2, .keepout 4 1, .add 1 none, .add 0 (some 7), .add 5 none]
  exact ⟨by decide, id, ws0, hmake, s, hs, ht⟩

end RegisterMap
