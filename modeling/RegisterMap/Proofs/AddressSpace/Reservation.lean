import RegisterMap.Proofs.AddressSpace.Blocks

/-! # Reserved blocks of a plain space

Demands that are all granted leave a space whose ranges are met in ascending order, each once.  The next
demand for a vacant block is granted exactly if the reserved blocks are orderly with it: they have to be
reserved in ascending order, and a block is refused if it takes the last vacant address behind a
reserved block that has a slot behind it (`walk_after_granted_demands`). -/

namespace RegisterMap

namespace SpaceId

variable {ws : Workspace} {id : SpaceId} {s : AddressSpace} {n w : Nat} {addr width : Int}
  {r : Region Occupant}

variable (h : ws.space? id = some s)

include h

theorem place_nothing_iff {at? : Option Int} {purpose : Purpose} {base : Int}
    (hp : s.region.place Occupant.isSome width .nothing at? purpose = (r, .ok base)) :
    (∃ ws', id.place width .nothing at? purpose ws = .ok base ws') ↔ r.sorted.check = .ok () := by
  rw [place_nothing h]
  simp only [hp]
  cases r.sorted.check with
  | error e => simp
  | ok u => simp

section

variable (hk : s.kind = .plain)

include hk

theorem add_nothing_iff_place {at? : Option Int} {base : Int} :
    (∃ ws', id.add width .nothing at? ws = .ok (some base) ws') ↔
      ∃ ws', id.place width .nothing at? .item ws = .ok base ws' := by
  rw [add_of_plain h hk, Build.map_apply, addNow_nothing]
  cases id.place width .nothing at? .item ws with
  | ok base' ws' => simp
  | error e ws' => simp

theorem keepout_iff_place {base : Int} :
    (∃ ws', id.keepout addr width ws = .ok (some base) ws') ↔
      ∃ ws', id.place width .nothing (some addr) .reserve ws = .ok base ws' := by
  rw [keepout_of_plain h hk, Build.map_apply]
  cases id.place width .nothing (some addr) .reserve ws with
  | ok base' ws' => simp
  | error e ws' => simp

theorem add_at_iff (hr : s.region.Sound n) (ho : s.region.IsOrderly)
    (hn : n ≤ 32) (hoffer : s.region.Offers w 0 addr) :
    (∃ ws', id.add w .nothing (some addr) ws = .ok (some addr) ws') ↔
      Orderly (addr :: s.region.slotStarts) s.region.reservedStarts (s.region.LeavesVacant addr w) := by
  obtain ⟨r, hinsert, htakes⟩ :=
    hr.insert_takes hn (hr.tiled.complete_walk ho) Occupant.isSome .nothing hoffer
  have hplace : s.region.place Occupant.isSome w .nothing (some addr) .item = (r, .ok addr) := hinsert
  have hsound := hr.place (by omega) Occupant.isSome w .nothing (some addr) (.inl (Eq.refl Purpose.item))
  rw [hplace] at hsound
  rw [add_nothing_iff_place h hk, place_nothing_iff h hplace, hsound.check_iff (by omega),
    htakes.isOrderly_iff]

theorem add_first_iff (hr : s.region.Sound n) (hn : n ≤ 32) {b : Int}
    (hfirst : IsFirst (s.region.Offers w 0) (some b)) :
    (∃ ws', id.add w .nothing none ws = .ok (some b) ws') ↔
      Orderly (b :: s.region.slotStarts) s.region.reservedStarts (s.region.LeavesVacant b w) := by
  have hw : w < Number.memoryBits := (hr.width_le hfirst.1).trans_lt (hn.trans_lt (by decide))
  obtain ⟨r, hpush, htakes⟩ := hr.push_of_some (by omega) hw .nothing hfirst
  have hplace : s.region.place Occupant.isSome w .nothing none .item = (r, .ok b) := hpush
  have hsound := hr.place (by omega) Occupant.isSome w .nothing none (.inl (Eq.refl Purpose.item))
  rw [hplace] at hsound
  rw [add_nothing_iff_place h hk, place_nothing_iff h hplace, hsound.check_iff (by omega),
    htakes.isOrderly_iff]

theorem keepout_iff (hr : s.region.Sound n) (ho : s.region.IsOrderly)
    (hn : n ≤ 32) (hoffer : s.region.Offers w 0 addr) :
    (∃ ws', id.keepout addr w ws = .ok (some addr) ws') ↔
      Orderly s.region.slotStarts (s.region.reservedStarts ++ [addr]) (s.region.LeavesVacant addr w) := by
  obtain ⟨r, hinsert, hreserves⟩ :=
    hr.insert_reserves hn (hr.tiled.complete_walk ho) Occupant.isSome .nothing hoffer
  have hplace : s.region.place Occupant.isSome w .nothing (some addr) .reserve = (r, .ok addr) := hinsert
  have hsound :=
    hr.place (by omega) Occupant.isSome w .nothing (some addr) (.inr (Eq.refl Purpose.reserve))
  rw [hplace] at hsound
  rw [keepout_iff_place h hk, place_nothing_iff h hplace, hsound.check_iff (by omega),
    hreserves.isOrderly_iff]

end

end SpaceId

/-- **Walks and requests after granted demands.**  In a space over `[0, 2 ^ n)`, after demands that
were all granted, the ranges are listed once each in ascending order, and the space passes its check.
A vacant block is then granted exactly if the reserved blocks are orderly with it. -/
theorem walk_after_granted_demands {n : Nat} (hn : n ≤ 32) {ws : Workspace}
    (hws : ws.Unheld ⟨ws.spaces.size⟩) (label : Option String) (path : Option Path) (domain : Value) :
    ∃ id ws0, SpaceId.create .plain (some (0, 2 ^ n)) label path domain ws = .ok id ws0 ∧
      ∀ (demands : List Demand) (ws1 : Workspace), forM demands (Demand.run id) ws0 = .ok () ws1 →
        ∃ s, ws1.space? id = some s ∧
          (∃ es, s.region.entries = (s.region.sorted, .ok es) ∧ es.Perm s.region.ranges ∧
            es.Pairwise fun a b => a.hi ≤ b.lo) ∧
          (∃ ws2, id.checkComplete ws1 = .ok () ws2) ∧
          (∀ addr w, s.region.Offers w 0 addr →
            ((∃ ws2, id.add w .nothing (some addr) ws1 = .ok (some addr) ws2) ↔
              Orderly (addr :: s.region.slotStarts) s.region.reservedStarts
                (s.region.LeavesVacant addr w)) ∧
            ((∃ ws2, id.keepout addr w ws1 = .ok (some addr) ws2) ↔
              Orderly s.region.slotStarts (s.region.reservedStarts ++ [addr])
                (s.region.LeavesVacant addr w))) ∧
          ∀ b w, IsFirst (s.region.Offers w 0) (some b) →
            ((∃ ws2, id.add w .nothing none ws1 = .ok (some b) ws2) ↔
              Orderly (b :: s.region.slotStarts) s.region.reservedStarts (s.region.LeavesVacant b w)) := by
  obtain ⟨ws0, hmake, hstart⟩ := SpaceId.create_guarded (by omega : n ≤ 48) hws label path domain
  refine ⟨_, ws0, hmake, fun demands ws1 hrun => ?_⟩
  have hguard := orderly_of_granted (by omega : n ≤ 48)
    (hstart.imp fun r hr => ⟨hr.1, Region.isOrderly_of_nil hr.2⟩) hrun
  obtain ⟨s, hs, hk, hr, ho⟩ := hguard.exists_space
  have hcheck := SpaceId.onRegion_granted (f := Region.checkComplete) hs
    (congrArg (Prod.mk s.region.sorted) ((hr.check_iff (by omega)).mpr ho))
  refine ⟨s, hs, hr.tiled.entries_of_orderly ho, ⟨_, hcheck⟩, fun addr w hoffer => ?_,
    fun b w hfirst => ?_⟩
  · exact ⟨SpaceId.add_at_iff hs hk hr ho hn hoffer, SpaceId.keepout_iff hs hk hr ho hn hoffer⟩
  · exact SpaceId.add_first_iff hs hk hr hn hfirst

/-- A reserved block at 0 and a slot behind it. -/
theorem walk_after_granted_demands_four :
    2 ≤ 32 ∧ ({} : Workspace).Unheld ⟨0⟩ ∧ ∃ id ws0 ws1,
      SpaceId.create .plain (some (0, 2 ^ 2)) none none .none {} = .ok id ws0 ∧
      forM [Demand.keepout 0 1, .add 0 .nothing none] (Demand.run id) ws0 = .ok () ws1 ∧
      ∃ s, ws1.space? id = some s ∧ ∀ b w, IsFirst (s.region.Offers w 0) (some b) →
        ((∃ ws2, id.add w .nothing none ws1 = .ok (some b) ws2) ↔
          Orderly (b :: s.region.slotStarts) s.region.reservedStarts (s.region.LeavesVacant b w)) := by
  have hnone := Workspace.unheld_empty ⟨0⟩
  obtain ⟨id, ws0, hmake, h⟩ := walk_after_granted_demands (n := 2) (by decide) hnone none none .none
  have hruns : Build.isOk (do
      let id ← SpaceId.create .plain (some (0, 2 ^ 2)) none none .none
      forM [Demand.keepout 0 1, .add 0 .nothing none] (Demand.run id)) {} = true := by decide +kernel
  obtain ⟨_, ws1, hrun⟩ := Build.exists_ok hruns
  rw [Build.bind_of_ok hmake] at hrun
  obtain ⟨s, hs, -, -, -, hfirst⟩ := h _ ws1 hrun
  exact ⟨by decide, hnone, id, ws0, ws1, hmake, hrun, s, hs, hfirst⟩

end RegisterMap
