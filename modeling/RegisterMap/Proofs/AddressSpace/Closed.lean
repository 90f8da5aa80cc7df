import RegisterMap.Proofs.AddressSpace.Partway
import RegisterMap.Proofs.AddressSpace.Links

/-! # Closed sets of settled spaces

A space that is resolved and shrunk is *settled*.  A set of settled spaces is *closed* when it has all
spaces that stand in slots of its spaces, each in a slot of its size (`Workspace.Closed`). -/

namespace RegisterMap

open Build Option

variable {s s' : AddressSpace}

/-- A space that is resolved and shrunk; nothing but what was asked for has a slot. -/
structure AddressSpace.Settled (s : AddressSpace) : Prop where
  kind : s.kind = .bus
  resolved : s.ledger.resolved = true
  spaced : s.region.Spaced
  tight : s.region.Tight
  asked : ∀ slot ∈ s.region.taken, slot.item ∈ s.queue

theorem AddressSpace.Settled.congr (hs : s.Settled) (hk : s'.kind = s.kind)
    (hl : s'.ledger = s.ledger) (hp : s'.region.taken.Perm s.region.taken)
    (haw : s'.region.aw = s.region.aw) : s'.Settled where
  kind := hk.trans hs.kind
  resolved := (congrArg Ledger.resolved hl).trans hs.resolved
  spaced := hs.spaced.of_perm hp haw
  tight := hs.tight.of_perm hp haw
  asked slot hslot := by
    have hqueue : s'.queue = s.queue := queue_congr (by unfold items; rw [hl])
    rw [hqueue]
    exact hs.asked slot (hp.mem_iff.mp hslot)

theorem AddressSpace.Settled.aw_eq (h : s.Settled) (h' : s'.Settled)
    (hp : s'.region.taken.Perm s.region.taken) : s'.region.aw = s.region.aw :=
  h'.tight.aw_eq h.tight (fun a ha => ⟨a, hp.mem_iff.mp ha, rfl⟩)
    fun a ha => ⟨a, hp.mem_iff.mpr ha, rfl⟩

theorem AddressSpace.Moved.settled (h : s.Moved s') (hs : s.Settled) : s'.Settled :=
  hs.congr (congrArg AddressSpace.kind h.profile :) h.ledger h.taken h.aw

/-- All spaces are settled, and what stands in their slots is among them and of their sizes. -/
structure Workspace.Closed (ws : Workspace) (ids : List SpaceId) : Prop where
  settled : ∀ j ∈ ids, ∃ s, ws.space? j = some s ∧ s.Settled
  inner : ws.Enclosed ids
  sized : ∀ j ∈ ids, ∀ slot c, ws.Contains j slot c →
    ∃ w : Nat, ws.widthOf (.space c) = w ∧ slot.hi = slot.lo + 2 ^ w

namespace Workspace.Closed

variable {ws ws' : Workspace} {ids : List SpaceId} {ids' : List SpaceId}

variable (h : ws.Closed ids)

include h

theorem congr
    (hs : ∀ j ∈ ids, ∀ s, ws.space? j = some s → s.Settled → ∃ s', ws'.space? j = some s' ∧ s'.Settled ∧
      s'.region.taken.Perm s.region.taken) : ws'.Closed ids := by
  have hwidth : ∀ c ∈ ids, ws'.widthOf (.space c) = ws.widthOf (.space c) := fun c hc => by
    obtain ⟨s, hs0, hset⟩ := h.settled c hc
    obtain ⟨s', hs', hset', hp⟩ := hs c hc s hs0 hset
    rw [widthOf_space hs0, widthOf_space hs', hset.aw_eq hset' hp]
  refine ⟨fun j hj => ?_, fun j hj s' hs' slot hslot c hc => ?_, fun j hj slot c hslot => ?_⟩
  · obtain ⟨s, hs0, hset⟩ := h.settled j hj
    obtain ⟨s', hs', hset', -⟩ := hs j hj s hs0 hset
    exact ⟨s', hs', hset'⟩
  · obtain ⟨s, hs0, hset⟩ := h.settled j hj
    obtain ⟨s'', hs'', -, hp⟩ := hs j hj s hs0 hset
    obtain rfl := mem_unique hs' hs''
    exact h.inner j hj s hs0 slot (hp.mem_iff.mp hslot) c hc
  · obtain ⟨s, hs0, hset⟩ := h.settled j hj
    obtain ⟨s', hs', -, hp⟩ := hs j hj s hs0 hset
    obtain ⟨hm, hc⟩ := (contains_iff hs').mp hslot
    replace hm := hp.mem_iff.mp hm
    rw [hwidth c (h.inner j hj s hs0 slot hm c hc)]
    exact h.sized j hj slot c ⟨s, hs0, hm, hc⟩

theorem of_mem_iff (hm : ∀ j, j ∈ ids' ↔ j ∈ ids) : ws.Closed ids' where
  settled j hj := h.settled j ((hm j).mp hj)
  inner j hj s hs slot hslot c hc := (hm c).mpr (h.inner j ((hm j).mp hj) s hs slot hslot c hc)
  sized j hj := h.sized j ((hm j).mp hj)

theorem block_of_contains {j c : SpaceId} (hj : j ∈ ids) {slot : Slot Occupant}
    (hslot : ws.Contains j slot c) :
    ∃ w k : Nat, ws.widthOf (.space c) = w ∧ ws.widthOf (.space j) = k ∧ 0 ≤ slot.lo ∧
      slot.hi = slot.lo + 2 ^ w ∧ slot.hi ≤ 2 ^ k ∧ (2 ^ w : Int) ∣ slot.lo := by
  obtain ⟨s, hs, hset⟩ := h.settled j hj
  obtain ⟨hmem, -⟩ := (contains_iff hs).mp hslot
  obtain ⟨w, hw, hhi⟩ := h.sized j hj slot c hslot
  obtain ⟨k, -, hk, hinside⟩ := hset.spaced.inside
  obtain ⟨w', hhi', hdvd⟩ := hset.spaced.block slot hmem
  have hsize : (2 : Int) ^ w = 2 ^ w' := by omega
  obtain rfl : w = w' := Nat.pow_right_injective le_rfl (by exact_mod_cast hsize)
  exact ⟨w, k, hw, (widthOf_space hs).trans hk, (hinside slot hmem).1, hhi, (hinside slot hmem).2, hdvd⟩

theorem moves (hm : Moves ids' ws ws') : ws'.Closed ids :=
  h.congr fun j _ s hs hset => by
    obtain ⟨s', hs', hmoved⟩ := hm.moved j s hs
    exact ⟨s', hs', hmoved.settled hset, hmoved.taken⟩

theorem frame {xs : List Occupant} (hf : Frame ids' xs ws ws') (hi : ids.Disjoint ids') :
    ws'.Closed ids :=
  h.congr fun j hj s hs hset =>
    ⟨s, (hf.spaces j fun hm => hi hj hm).trans hs, hset, List.Perm.refl _⟩

theorem setSpace {id : SpaceId} {s s' : AddressSpace} (hs : ws.space? id = some s) (hset : s'.Settled)
    (hp : s'.region.taken.Perm s.region.taken) : (ws.setSpace id s').Closed ids := by
  refine h.congr fun j _ t ht hset' => ?_
  by_cases hj : id = j
  · subst hj
    obtain rfl := mem_unique hs ht
    exact ⟨s', Workspace.space?_setSpace_self hs s', hset, hp⟩
  · exact ⟨t, by rwa [Workspace.space?_setSpace_of_ne hj], hset', List.Perm.refl _⟩

theorem widthOf_eq (h' : ws'.Closed ids) {xs : List Occupant} (hf : Frame ids' xs ws ws') {c : SpaceId}
    (hc : c ∈ ids) : ws'.widthOf (.space c) = ws.widthOf (.space c) := by
  obtain ⟨s, hs, hset⟩ := h.settled c hc
  obtain ⟨s', hs', hset'⟩ := h'.settled c hc
  obtain ⟨s'', hs'', hkept⟩ := hf.kept c s hs hset.resolved
  obtain rfl := mem_unique hs' hs''
  rw [widthOf_space hs, widthOf_space hs', hset.aw_eq hset' hkept.taken]

end Workspace.Closed

namespace SpaceId

variable {ws ws' : Workspace} {ids : List SpaceId} {id : SpaceId} {u : Unit} {fuel : Nat}

theorem setBase_moves {base : Int} (hc : ws.Closed ids) (hid : id ∈ ids)
    (h : id.setBase base ws = .ok u ws') : Moves ids ws ws' :=
  setBaseUpTo_moves _ hc.inner hid h

/-! ### Settled spaces stay as they are -/

theorem resolveUpTo_resolved {s : AddressSpace} (hs : ws.space? id = some s)
    (hr : s.ledger.resolved = true) (h : resolveUpTo fuel id ws = .ok u ws') : ws' = ws := by
  cases fuel with
  | zero => cases h
  | succ fuel =>
    unfold resolveUpTo at h
    obtain ⟨s', hs', h1⟩ := bind_get_ok h
    obtain rfl := mem_unique hs hs'
    dsimp only at h1
    rw [hr] at h1
    exact (pure_ok h1).2

theorem shrinkUpTo_resolved {s : AddressSpace} (hs : ws.space? id = some s)
    (hk : s.kind = .bus) (hr : s.ledger.resolved = true) (hspaced : s.region.Spaced)
    (hasked : ∀ slot ∈ s.region.taken, slot.item ∈ s.queue) (h : shrinkUpTo fuel id ws = .ok u ws') :
    ∃ r, ws' = ws.setSpace id { s with region := r } ∧ r.taken.Perm s.region.taken ∧
      ({ s with region := r } : AddressSpace).Settled ∧
      Frame [id] [] ws (ws.setSpace id { s with region := r }) ∧
      ws.Steady (ws.setSpace id { s with region := r }) := by
  cases fuel with
  | zero => cases h
  | succ fuel =>
    unfold shrinkUpTo at h
    obtain ⟨s', hs', h1⟩ := bind_get_ok h
    obtain rfl := mem_unique hs hs'
    rw [hk] at h1
    obtain ⟨_, ws2, hres, h2⟩ := bind_ok h1
    obtain rfl := resolveUpTo_resolved hs hr hres
    obtain ⟨s', r, hs', hshrink, rfl⟩ := onRegion_ok h2
    obtain rfl := mem_unique hs hs'
    obtain ⟨htaken, hbase, -, hspaced', -⟩ := hspaced.shrink hshrink
    exact ⟨r, rfl, htaken, ⟨hk, hr, hspaced', hspaced.shrink_tight hshrink,
      fun slot hslot => hasked slot (htaken.mem_iff.mp hslot)⟩,
      Frame.setSpace hs rfl rfl fun _ => ⟨rfl, htaken⟩, .setSpace_perm hs hbase htaken⟩

/-- To settle a settled space once more changes nothing but the order of its ranges. -/
theorem settleUpTo_settled {width width' : Option Int} (hc : ws.Closed ids)
    (hid : id ∈ ids) (h : settleUpTo fuel (.space id) width ws = .ok width' ws') :
    Frame [id] [] ws ws' ∧ ws'.Closed ids ∧ ws.Steady ws' ∧
      width' = some (ws'.widthOf (.space id)) := by
  cases fuel with
  | zero => cases h
  | succ fuel =>
    obtain ⟨s, hs, hset⟩ := hc.settled id hid
    unfold settleUpTo at h
    obtain ⟨s', hs', h1⟩ := bind_get_ok h
    obtain rfl := mem_unique hs hs'
    rw [hset.kind] at h1
    obtain ⟨_, ws2, hres, h2⟩ := bind_ok h1
    obtain rfl := resolveUpTo_resolved hs hset.resolved hres
    obtain ⟨_, ws3, hshrink, h3⟩ := bind_ok h2
    obtain ⟨r, rfl, htaken, hset', hf, hsteady⟩ :=
      shrinkUpTo_resolved hs hset.kind hset.resolved hset.spaced hset.asked hshrink
    have hs' := Workspace.space?_setSpace_self hs { s with region := r }
    obtain ⟨q, hq, h4⟩ := bind_region_ok h3
    obtain rfl := mem_unique hs' hq
    obtain ⟨rfl, rfl⟩ := pure_ok h4
    refine ⟨hf, hc.setSpace hs hset' htaken, hsteady, ?_⟩
    rw [Workspace.widthOf_space hs']

/-- Placing a settled space moves the closed set that it belongs to. -/
theorem addNow_settled {inner : SpaceId} {width base : Int} {addr : Option Int} (hc : ws.Closed ids)
    (hin : inner ∈ ids) (hid : id ∉ ids)
    (hopen : ∀ s, ws.space? id = some s → s.ledger.resolved = false)
    (h : id.addNow width (.space inner) addr ws = .ok base ws') :
    ∃ s r, ws.space? id = some s ∧
      s.region.place Occupant.isSome width (.space inner) addr .item = (r, .ok base) ∧
      ws'.space? id = some { s with region := r.sorted } ∧ Frame (id :: ids) [] ws ws' ∧
      ws'.Closed ids := by
  unfold addNow at h
  obtain ⟨base', ws2, hp, h1⟩ := bind_ok h
  obtain ⟨_, hset, rfl⟩ := bind_pure_ok h1
  obtain ⟨s, r, ws1, s1, hs, hr, hpath, hs1, rfl⟩ := place_ok hp
  have hroot : [id] ⊆ id :: ids := by simp
  have hsub : ids ⊆ id :: ids := List.subset_cons_self _ _
  have hapart : ids.Disjoint [id] := by
    rw [List.disjoint_singleton]
    exact hid
  have hun : s.ledger.resolved ≠ true := by rw [hopen s hs]; decide
  have hf0 : Frame [id] [] ws (ws.setSpace id { s with region := r }) :=
    Frame.setSpace hs rfl rfl fun hr => absurd hr hun
  have hc0 := hc.frame hf0 hapart
  have hm1 : Moves ids (ws.setSpace id { s with region := r }) ws1 := by
    rcases hpath with rfl | ⟨c, path, hitem, hset⟩
    · exact Moves.refl _ _
    · obtain rfl := Occupant.space.inj hitem
      exact setPathUpTo_moves _ hc0.inner hin hset
  obtain rfl : s1 = { s with region := r } := by
    rw [hm1.spaces id hid, Workspace.space?_setSpace_self hs] at hs1
    exact (Option.some.inj hs1).symm
  have hf2 : Frame [id] [] ws1 (ws1.setSpace id { s with region := r.sorted }) :=
    Frame.setSpace hs1 rfl rfl fun hr => absurd hr hun
  have hc2 := (hc0.moves hm1).frame hf2 hapart
  obtain ⟨_, ws4, hbase, hrel⟩ := bind_ok hset
  have hm3 := setBase_moves hc2 hin hbase
  have hc3 := hc2.moves hm3
  obtain ⟨t, ht, rfl⟩ := updateRegion_ok hrel
  obtain ⟨t', ht', hsettled⟩ := hc3.settled inner hin
  obtain rfl := mem_unique ht ht'
  have hf4 : Frame [inner] [] ws4
      (ws4.setSpace inner { t with region := { t.region with relativeBase := base } }) :=
    Frame.setSpace ht rfl rfl fun _ => ⟨rfl, List.Perm.refl _⟩
  have hne : inner ≠ id := fun he => hid (he ▸ hin)
  refine ⟨s, r, hs, hr, ?_, ?_, hc3.setSpace ht (hsettled.congr rfl rfl (List.Perm.refl _) rfl)
    (List.Perm.refl _)⟩
  · rw [Workspace.space?_setSpace_of_ne hne, hm3.spaces id hid, Workspace.space?_setSpace_self hs1]
  · refine (((hf0.mono_ids hroot).trans
      (hm1.frame.mono_ids hsub)).trans (hf2.mono_ids hroot)).trans
      ((hm3.frame.mono_ids hsub).trans (hf4.mono_ids ?_))
    exact List.cons_subset.mpr ⟨hsub hin, List.nil_subset _⟩

end SpaceId

end RegisterMap
