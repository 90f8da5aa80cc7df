import RegisterMap.Proofs.AddressSpace.Demands
import RegisterMap.Proofs.Region.FirstFit

/-! # The blocks that a plain space gives

After any demands a plain space over `[0, 2 ^ n)` finds, for each width, the least block that is vacant
and aligned, and automatic placement takes this block (`first_fit_after_demands`).  Without reserved
ranges a block at an address is taken exactly if it is aligned, in range and clear of all slots
(`explicit_block_after_demands`). -/

namespace RegisterMap

open Build

namespace SpaceId

variable {ws : Workspace} {id : SpaceId} {s : AddressSpace} {n w : Nat}

variable (h : ws.space? id = some s)

include h

theorem onRegion_granted {α : Type} {f : Region Occupant → Region.Outcome Occupant α}
    {r : Region Occupant} {a : α} (hf : f s.region = (r, .ok a)) :
    id.onRegion f ws = .ok a (ws.setSpace id { s with region := r }) := by
  rw [onRegion_of_space? h, hf]

theorem onRegion_refused {α : Type} {f : Region Occupant → Region.Outcome Occupant α}
    {e : Refusal Occupant} (hf : f s.region = (s.region, .error e)) :
    id.onRegion f ws = .error (e.toError ws.occupantText) ws := by
  rw [onRegion_of_space? h, hf]
  simp only [Workspace.setSpace_self h]

theorem readRegion_granted {α : Type} {f : Region Occupant → Except (Refusal Occupant) α} {a : α}
    (hf : f s.region = .ok a) : id.readRegion f ws = .ok a ws := by
  unfold readRegion
  rw [onRegion_granted h (congrArg (Prod.mk s.region) hf), Workspace.setSpace_self h]

theorem readRegion_refused {α : Type} {f : Region Occupant → Except (Refusal Occupant) α}
    {e : Refusal Occupant} (hf : f s.region = .error e) :
    id.readRegion f ws = .error (e.toError ws.occupantText) ws := by
  unfold readRegion
  rw [onRegion_refused h (congrArg (Prod.mk s.region) hf)]

section

variable (hr : s.region.Sound n) (hn : n ≤ 53) (hw : w < Number.memoryBits)

include hr hn hw

theorem availableBase_isFirst {start : Int} (h0 : 0 ≤ start) :
    ∃ found, id.availableBase w start ws = .ok found ws ∧ IsFirst (s.region.Offers w start) found := by
  obtain ⟨found, hfound, hfirst⟩ := hr.availableBase_isFirst hn hw h0
  exact ⟨found, readRegion_granted h hfound, hfirst⟩

theorem push_of_some (item : Occupant) {b : Int} (hfirst : IsFirst (s.region.Offers w 0) (some b)) :
    ∃ ws' s', id.push w item ws = .ok (b, b + 2 ^ w) ws' ∧ ws'.space? id = some s' ∧
      s.region.Takes s'.region ⟨b, b + 2 ^ w, item⟩ := by
  obtain ⟨r', hpush, htakes⟩ := hr.push_of_some hn hw item hfirst
  have hrun := onRegion_granted (f := fun r => r.push w item) h hpush
  refine ⟨_, _, ?_, Workspace.space?_setSpace_self h { s with region := r' }, htakes⟩
  unfold push
  rw [bind_of_ok hrun, Int.toNat_natCast, Number.natCast_twoPow]
  rfl

theorem push_of_none (item : Occupant) (hfirst : IsFirst (s.region.Offers w 0) none) :
    ∃ e, id.push w item ws = .error e ws := by
  have hrun := onRegion_refused (f := fun r => r.push w item) h (hr.push_of_none hn hw item hfirst)
  exact ⟨_, bind_of_error hrun _⟩

end

/-- A block that is offered can be taken at its address, where a walk is complete. -/
theorem insert_of_offers (hr : s.region.Sound n) (hn : n ≤ 32)
    (hwalk : s.region.sorted.walk.complete = true) (item : Occupant) {b : Int}
    (hoffer : s.region.Offers w 0 b) :
    ∃ ws' s', id.insert b w .item item ws = .ok (b, b + 2 ^ w) ws' ∧ ws'.space? id = some s' ∧
      s.region.Takes s'.region ⟨b, b + 2 ^ w, item⟩ := by
  obtain ⟨r', hinsert, htakes⟩ := hr.insert_takes hn hwalk Occupant.isSome item hoffer
  have hrun := onRegion_granted (f := fun r => r.insert Occupant.isSome b w .item item) h hinsert
  refine ⟨_, _, ?_, Workspace.space?_setSpace_self h { s with region := r' }, htakes⟩
  unfold insert
  rw [bind_of_ok hrun, Int.toNat_natCast, Number.natCast_twoPow]
  rfl

/-! ### First fit -/

/-- The space answers by first fit: a search gives the least block of `2 ^ w` addresses that is offered
from a start on, automatic placement takes the first one or is refused without a trace, and without
reserved ranges what a search gives can be taken at its address. -/
structure FitsFirst (id : SpaceId) (s : AddressSpace) (w : Nat) (ws : Workspace) : Prop where
  search : ∀ start, 0 ≤ start → ∃ found,
    id.availableBase w start ws = .ok found ws ∧ IsFirst (s.region.Offers w start) found
  push_some : ∀ b, id.availableBase w 0 ws = .ok (some b) ws → ∀ item, ∃ ws' s',
    id.push w item ws = .ok (b, b + 2 ^ w) ws' ∧ ws'.space? id = some s' ∧
      s.region.Takes s'.region ⟨b, b + 2 ^ w, item⟩
  push_none : id.availableBase w 0 ws = .ok none ws → ∀ item, ∃ e, id.push w item ws = .error e ws
  insert_some : s.region.reserved = [] → ∀ start, 0 ≤ start → ∀ b,
    id.availableBase w start ws = .ok (some b) ws → ∀ item, ∃ ws' s',
      id.insert b w .item item ws = .ok (b, b + 2 ^ w) ws' ∧ ws'.space? id = some s' ∧
        s.region.Takes s'.region ⟨b, b + 2 ^ w, item⟩

theorem fitsFirst (hr : s.region.Sound n) (hn : n ≤ 32) (hw : w < Number.memoryBits) :
    id.FitsFirst s w ws := by
  have hfirst : ∀ {start found}, 0 ≤ start → id.availableBase w start ws = .ok found ws →
      IsFirst (s.region.Offers w start) found := by
    intro start found h0 hfound
    obtain ⟨found', hfound', hfirst⟩ := availableBase_isFirst h hr (by omega) hw h0
    obtain ⟨rfl, -⟩ := EStateM.Result.ok.inj (hfound'.symm.trans hfound)
    exact hfirst
  exact {
    search := fun start h0 => availableBase_isFirst h hr (by omega) hw h0
    push_some := fun b hb item => push_of_some h hr (by omega) hw item (hfirst (le_refl 0) hb)
    push_none := fun hnone item => push_of_none h hr (by omega) hw item (hfirst (le_refl 0) hnone)
    insert_some := fun hk start h0 b hb item => by
      obtain ⟨hoffer, -⟩ := hfirst h0 hb
      exact insert_of_offers h hr hn (Region.complete_walk hk) item
        ⟨h0.trans hoffer.from_start, hoffer.aligned, hoffer.vacant⟩ }

/-- A width whose power of two does not fit into memory is refused without a trace. -/
theorem refused_of_ge (hw : Number.memoryBits ≤ w) (start : Int) (item : Occupant) :
    (∃ e, id.availableBase w start ws = .error e ws) ∧ ∃ e, id.push w item ws = .error e ws := by
  obtain ⟨e, he⟩ := Region.exponent_of_ge (ρ := Occupant) hw
  have hpush := onRegion_refused (f := fun r => r.push w item) h (Region.push_of_exponent_error he item)
  exact ⟨⟨_, readRegion_refused h (Region.availableBase_of_exponent_error he start)⟩,
    _, bind_of_error hpush _⟩

end SpaceId

/-- **First fit is exact.**  In a space over `[0, 2 ^ n)`, after any demands, granted or refused,
searches and automatic placement follow first fit, for every width whose power of two fits into memory;
wider requests are refused and change nothing. -/
theorem first_fit_after_demands {n : Nat} (hn : n ≤ 32) {ws : Workspace}
    (hws : ws.Unheld ⟨ws.spaces.size⟩) (label : Option String) (path : Option Path) (domain : Value) :
    ∃ id ws0, SpaceId.create .plain (some (0, 2 ^ n)) label path domain ws = .ok id ws0 ∧
      ∀ demands : List Demand, ∃ s, (afterDemands id demands ws0).space? id = some s ∧
        (∀ w < Number.memoryBits, id.FitsFirst s w (afterDemands id demands ws0)) ∧
        ∀ w ≥ Number.memoryBits, ∀ start item,
          (∃ e, id.availableBase w start (afterDemands id demands ws0) =
            .error e (afterDemands id demands ws0)) ∧
          ∃ e, id.push w item (afterDemands id demands ws0) = .error e (afterDemands id demands ws0) := by
  obtain ⟨ws0, hmake, hstart⟩ := SpaceId.create_guarded (by omega : n ≤ 48) hws label path domain
  refine ⟨_, ws0, hmake, fun demands => ?_⟩
  have hguard := afterDemands_sound (by omega : n ≤ 53) demands (hstart.imp fun _ hr => hr.1)
  obtain ⟨s, hs, -, hr⟩ := hguard.exists_space
  exact ⟨s, hs, fun w hw => SpaceId.fitsFirst hs hr hn hw,
    fun w hw start item => SpaceId.refused_of_ge hs hw start item⟩

/-- A reserved block and a slot leave `[1, 2)` and `[4, 8)` vacant. -/
theorem first_fit_after_demands_eight :
    3 ≤ 32 ∧ ({} : Workspace).Unheld ⟨0⟩ ∧ ∃ id ws0,
      SpaceId.create .plain (some (0, 2 ^ 3)) none none .none {} = .ok id ws0 ∧
      ∃ s, (afterDemands id [.keepout 2 1, .add 0 .nothing none, .add 3 .nothing none] ws0).space? id =
          some s ∧ 1 < Number.memoryBits ∧
        id.FitsFirst s 1
          (afterDemands id [.keepout 2 1, .add 0 .nothing none, .add 3 .nothing none] ws0) := by
  have hnone := Workspace.unheld_empty ⟨0⟩
  obtain ⟨id, ws0, hmake, h⟩ := first_fit_after_demands (n := 3) (by decide) hnone none none .none
  obtain ⟨s, hs, hfits, -⟩ := h [.keepout 2 1, .add 0 .nothing none, .add 3 .nothing none]
  have hone : 1 < Number.memoryBits := by decide
  exact ⟨by decide, hnone, id, ws0, hmake, s, hs, hone, hfits 1 hone⟩

/-- A search for `2 ^ 2 ^ 70` addresses in an empty space of 16 is refused instead of finding none. -/
theorem search_refused_wide :
    ∃ id ws0, SpaceId.create .plain (some (0, 2 ^ 4)) none none .none {} = .ok id ws0 ∧
      (∃ s, ws0.space? id = some s ∧ ∀ b, ¬ s.region.Offers (2 ^ 70) 0 b) ∧
      ∃ e, id.availableBase (2 ^ 70 : Nat) 0 ws0 = .error e ws0 := by
  obtain ⟨ws0, hmake, hstart⟩ := SpaceId.create_guarded (by decide : 4 ≤ 48)
    (Workspace.unheld_empty ⟨0⟩) none none .none
  obtain ⟨s, hs, -, hr, -⟩ := hstart.exists_space
  have hwide : Number.memoryBits ≤ 2 ^ 70 := by decide
  refine ⟨_, ws0, hmake, ⟨s, hs, fun b hoffer => ?_⟩, (SpaceId.refused_of_ge hs hwide 0 .nothing).1⟩
  exact absurd (hr.width_le hoffer) (by norm_num)

/-! ### Blocks at an address -/

namespace SpaceId

variable {ws : Workspace} {id : SpaceId} {s : AddressSpace} {n w : Nat} {addr : Int}

variable (h : ws.space? id = some s) (hk : s.kind = .plain)

include h hk

theorem add_nothing_granted {width : Int} {r : Region Occupant}
    (hp : s.region.insert Occupant.isSome addr width .item .nothing = (r, .ok addr))
    (hcheck : r.sorted.check = .ok ()) :
    id.add width .nothing (some addr) ws =
      .ok (some addr) (ws.setSpace id { s with region := r.sorted }) := by
  have hp : s.region.place Occupant.isSome width .nothing (some addr) .item = (r, .ok addr) := hp
  rw [add_of_plain h hk, map_apply, addNow_nothing, place_nothing h]
  simp only [hp, hcheck]

theorem add_nothing_refused {width : Int} {r : Region Occupant} {e : Refusal Occupant}
    (hp : s.region.insert Occupant.isSome addr width .item .nothing = (r, .error e)) :
    ∃ e', id.add width .nothing (some addr) ws = .error e' (ws.setSpace id { s with region := r }) := by
  have hp : s.region.place Occupant.isSome width .nothing (some addr) .item = (r, .error e) := hp
  rw [add_of_plain h hk, map_apply, addNow_nothing, place_nothing h]
  simp only [hp]
  exact ⟨_, rfl⟩

theorem add_nothing_of_offers (hr : s.region.Sound n) (hres : s.region.reserved = []) (hn : n ≤ 32)
    (hoffer : s.region.Offers w 0 addr) :
    ∃ ws' s', id.add w .nothing (some addr) ws = .ok (some addr) ws' ∧ ws'.space? id = some s' ∧
      s.region.Takes s'.region ⟨addr, addr + 2 ^ w, .nothing⟩ := by
  obtain ⟨r, hinsert, htakes⟩ :=
    hr.insert_takes hn (Region.complete_walk hres) Occupant.isSome .nothing hoffer
  have hsound : r.Sound n := by
    have := hr.place (by omega) Occupant.isSome w .nothing (some addr) (.inl (Eq.refl Purpose.item))
    rwa [show s.region.place Occupant.isSome w .nothing (some addr) .item = (r, .ok addr) from hinsert]
      at this
  have hcheck := (hsound.check_iff (by omega)).mpr
    (Region.isOrderly_of_nil (htakes.reserved.trans hres))
  exact ⟨_, _, add_nothing_granted h hk hinsert hcheck, Workspace.space?_setSpace_self h _,
    htakes.sorted⟩

theorem add_nothing_of_not_offers (hr : s.region.Sound n) (hoffer : ¬ s.region.Offers w 0 addr) :
    ∃ e, id.add w .nothing (some addr) ws = .error e ws ∨
      id.add w .nothing (some addr) ws =
        .error e (ws.setSpace id { s with region := s.region.sorted }) := by
  obtain ⟨e, he | he⟩ : ∃ e,
      s.region.insert Occupant.isSome addr w .item .nothing = (s.region, .error e) ∨
        s.region.insert Occupant.isSome addr w .item .nothing = (s.region.sorted, .error e) :=
    Region.insert_of_not_offers hr.tiled .item .nothing hoffer
  · obtain ⟨e', hadd⟩ := add_nothing_refused h hk he
    rw [Workspace.setSpace_self h] at hadd
    exact ⟨e', .inl hadd⟩
  · obtain ⟨e', hadd⟩ := add_nothing_refused h hk he
    exact ⟨e', .inr hadd⟩

end SpaceId

/-- **A block at an address is taken exactly if it is free.**  In a space over `[0, 2 ^ n)`, after any
demands for items, granted or refused, the request for a block is granted exactly if the block is
aligned, in range and clear of all slots.  It then takes this block and nothing else; a refused one
changes neither slots nor gaps, and nothing at all if the slots are listed in ascending order. -/
theorem explicit_block_after_demands {n : Nat} (hn : n ≤ 32) {ws : Workspace}
    (hws : ws.Unheld ⟨ws.spaces.size⟩) (label : Option String) (path : Option Path) (domain : Value) :
    ∃ id ws0, SpaceId.create .plain (some (0, 2 ^ n)) label path domain ws = .ok id ws0 ∧
      ∀ demands : List Demand, (∀ d ∈ demands, d.isAdd = true) →
        ∃ s, (afterDemands id demands ws0).space? id = some s ∧ ∀ (addr : Int) (w : Nat),
          (s.region.IsFree n addr w →
            ∃ ws1 s1, id.add w .nothing (some addr) (afterDemands id demands ws0) = .ok (some addr) ws1 ∧
              ws1.space? id = some s1 ∧ s.region.Takes s1.region ⟨addr, addr + 2 ^ w, .nothing⟩) ∧
          (¬ s.region.IsFree n addr w →
            ∃ e ws1 s1, id.add w .nothing (some addr) (afterDemands id demands ws0) = .error e ws1 ∧
              ws1.space? id = some s1 ∧ s1.region.taken.Perm s.region.taken ∧
              s1.region.vacant = s.region.vacant ∧
              (s.region.taken.Pairwise (fun a b => a.lo ≤ b.lo) →
                ws1 = afterDemands id demands ws0)) := by
  obtain ⟨ws0, hmake, hstart⟩ := SpaceId.create_guarded (by omega : n ≤ 48) hws label path domain
  refine ⟨_, ws0, hmake, fun demands hd => ?_⟩
  obtain ⟨s, hs, hk, hr, hres⟩ := (afterDemands_unreserved (by omega : n ≤ 53) hd hstart).exists_space
  refine ⟨s, hs, fun addr w => ?_⟩
  rw [← hr.offers_iff_free hres]
  refine ⟨fun hoffer => SpaceId.add_nothing_of_offers hs hk hr hres hn hoffer, fun hoffer => ?_⟩
  obtain ⟨e, hadd | hadd⟩ := SpaceId.add_nothing_of_not_offers hs hk hr hoffer
  · exact ⟨e, _, s, hadd, hs, List.Perm.refl _, rfl, fun _ => rfl⟩
  · refine ⟨e, _, _, hadd, Workspace.space?_setSpace_self hs _, s.region.sorted_taken_perm,
      hr.tiled.sorted_vacant, fun hasc => ?_⟩
    rw [hr.tiled.sorted_of_ascending hasc, Workspace.setSpace_self hs]

/-- A slot at `[8, 12)`, one that automatic placement puts before it, and a request that is refused. -/
theorem explicit_block_after_demands_sixteen :
    4 ≤ 32 ∧ ({} : Workspace).Unheld ⟨0⟩ ∧
      (∀ d ∈ [Demand.add 2 .nothing (some 8), .add 0 (.text "a") none, .add 2 .nothing (some 8)],
        d.isAdd = true) ∧
      ∃ id ws0, SpaceId.create .plain (some (0, 2 ^ 4)) none none .none {} = .ok id ws0 ∧
        ∃ s, (afterDemands id [.add 2 .nothing (some 8), .add 0 (.text "a") none,
            .add 2 .nothing (some 8)] ws0).space? id = some s ∧
          ∀ (addr : Int) (w : Nat), s.region.IsFree 4 addr w →
            ∃ ws1, id.add w .nothing (some addr) (afterDemands id [.add 2 .nothing (some 8),
              .add 0 (.text "a") none, .add 2 .nothing (some 8)] ws0) = .ok (some addr) ws1 := by
  have hnone := Workspace.unheld_empty ⟨0⟩
  have hadds : ∀ d ∈ [Demand.add 2 .nothing (some 8), .add 0 (.text "a") none,
      .add 2 .nothing (some 8)], d.isAdd = true := by decide
  obtain ⟨id, ws0, hmake, h⟩ := explicit_block_after_demands (n := 4) (by decide) hnone none none .none
  obtain ⟨s, hs, hblocks⟩ := h _ hadds
  refine ⟨by decide, hnone, hadds, id, ws0, hmake, s, hs, fun addr w hfree => ?_⟩
  obtain ⟨ws1, -, hadd, -⟩ := (hblocks addr w).1 hfree
  exact ⟨ws1, hadd⟩

end RegisterMap
