import RegisterMap.Proofs.AddressSpace.Demands
import RegisterMap.Proofs.Region.Shrink

/-! # Shrinking a plain space

After any demands for items a plain space can be shrunk to the addresses that its items need
(`shrink_after_demands`). -/

namespace RegisterMap

namespace SpaceId

variable {ws : Workspace} {id : SpaceId} {s : AddressSpace}

variable (h : ws.space? id = some s) (hk : s.kind = .plain)

include h hk

theorem shrink_of_plain :
    id.shrink ws = id.onRegion Region.shrink ws := by
  have hbound : resolveBound ws = .ok (4 * (ws.spaces.size + 1)) ws := rfl
  unfold shrink
  rw [Build.bind_of_ok hbound, show 4 * (ws.spaces.size + 1) = 4 * ws.spaces.size + 3 + 1 by omega]
  unfold shrinkUpTo
  rw [Build.bind_of_ok (get_of_space? h), if_neg (by simp [hk])]

theorem shrink_granted {r : Region Occupant} (hr : s.region.shrink = (r, .ok ())) :
    id.shrink ws = .ok () (ws.setSpace id { s with region := r }) := by
  rw [shrink_of_plain h hk, onRegion_of_space? h, hr]

theorem shrink_again {r : Region Occupant} (hr : r.shrink = (r, .ok ())) :
    id.shrink (ws.setSpace id { s with region := r }) = .ok () (ws.setSpace id { s with region := r }) := by
  have hself := Workspace.space?_setSpace_self h { s with region := r }
  rw [shrink_granted hself hk hr, Workspace.setSpace_self hself]

end SpaceId

/-- **Shrinking keeps the slots and the tiling.**  In a space over `[0, 2 ^ n)`, after any demands for
items, granted or refused, shrinking is granted and keeps every slot.  With slots, the space then has
the least power of two that holds them, at least two, and slots and gaps tile it; without slots, it has
no addresses.  To shrink once more changes nothing. -/
theorem shrink_after_demands {n : Nat} (h1 : 1 ≤ n) (hn : n ≤ 32) {ws : Workspace}
    (hws : ws.Unheld ⟨ws.spaces.size⟩) (label : Option String) (path : Option Path) (domain : Value) :
    ∃ id ws0, SpaceId.create .plain (some (0, 2 ^ n)) label path domain ws = .ok id ws0 ∧
      ∀ demands : List Demand, (∀ d ∈ demands, d.isAdd = true) →
        ∃ s ws1 s1, (afterDemands id demands ws0).space? id = some s ∧
          id.shrink (afterDemands id demands ws0) = .ok () ws1 ∧ ws1.space? id = some s1 ∧
          s1.region.taken.Perm s.region.taken ∧ id.shrink ws1 = .ok () ws1 ∧
          (s.region.taken ≠ [] →
            ∃ top ∈ s.region.taken, (∀ slot ∈ s.region.taken, slot.hi ≤ top.hi) ∧
              ∃ w : Nat, s1.region.aw = w ∧ s1.region.extent = 2 ^ w ∧
                (2 : Int) ^ w = max 2 (2 ^ Nat.clog 2 top.hi.toNat) ∧
                Tiles (s1.region.taken.map Slot.entry ++ s1.region.vacant.map Gap.entry) 0 (2 ^ w)) ∧
          (s.region.taken = [] → s1.region.aw = 0 ∧ s1.region.extent = 0 ∧ s1.region.vacant = []) := by
  obtain ⟨ws0, hmake, hstart⟩ := SpaceId.create_guarded (by omega : n ≤ 48) hws label path domain
  refine ⟨_, ws0, hmake, fun demands hd => ?_⟩
  obtain ⟨s, hs, hk, hr, hres⟩ := (afterDemands_unreserved (by omega : n ≤ 53) hd hstart).exists_space
  by_cases ht : s.region.taken = []
  · obtain ⟨r, hshrink, ht1, hv1, -, he1, haw1, hagain⟩ := hr.shrink_of_empty hres (by omega) ht
    refine ⟨s, _, _, hs, SpaceId.shrink_granted hs hk hshrink, Workspace.space?_setSpace_self hs _, ?_,
      SpaceId.shrink_again hs hk hagain, fun hne => absurd ht hne, fun _ => ⟨haw1, he1, hv1⟩⟩
    simp only [ht, ht1, List.Perm.refl]
  · obtain ⟨r, w, hshrink, hperm, hr1, hres1, haw1, hw, hagain⟩ :=
      hr.shrink_of_slots hres h1 (by omega) ht
    refine ⟨s, _, _, hs, SpaceId.shrink_granted hs hk hshrink, Workspace.space?_setSpace_self hs _, hperm,
      SpaceId.shrink_again hs hk hagain, fun _ => ?_, fun hnil => absurd hnil ht⟩
    obtain ⟨top, htop, hhigh, hmax⟩ := hr.exists_highest (by omega) ht
    refine ⟨top, htop, hmax, w, haw1, hr1.extent, hhigh ▸ hw, ?_⟩
    have htiles := hr1.tiled.ranges
    rwa [Region.ranges, hres1, List.map_nil, List.append_nil] at htiles

/-- Slots at 0 and 4 need eight of sixteen addresses. -/
theorem shrink_after_demands_sixteen :
    1 ≤ 4 ∧ 4 ≤ 32 ∧ ({} : Workspace).Unheld ⟨0⟩ ∧
      (∀ d ∈ [Demand.add 0 (.text "a") none, .add 2 .nothing (some 4), .add 4 .nothing none],
        d.isAdd = true) ∧
      ∃ id ws0 ws1, SpaceId.create .plain (some (0, 2 ^ 4)) none none .none {} = .ok id ws0 ∧
        id.shrink (afterDemands id [.add 0 (.text "a") none, .add 2 .nothing (some 4),
          .add 4 .nothing none] ws0) = .ok () ws1 ∧ id.shrink ws1 = .ok () ws1 := by
  have hnone := Workspace.unheld_empty ⟨0⟩
  have hadds : ∀ d ∈ [Demand.add 0 (.text "a") none, .add 2 .nothing (some 4), .add 4 .nothing none],
      d.isAdd = true := by decide
  obtain ⟨id, ws0, hmake, h⟩ :=
    shrink_after_demands (n := 4) (by decide) (by decide) hnone none none .none
  obtain ⟨-, ws1, -, -, hshrink, -, -, hagain, -⟩ := h _ hadds
  exact ⟨by decide, by decide, hnone, hadds, id, ws0, ws1, hmake, hshrink, hagain⟩

end RegisterMap
