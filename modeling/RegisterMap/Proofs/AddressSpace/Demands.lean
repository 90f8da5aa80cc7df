import RegisterMap.Proofs.AddressSpace.Removal
import RegisterMap.Proofs.Region.Reserved

/-! # Demands on a plain space

A plain space is asked for blocks, for items of all kinds or to keep them free.  An item is told its
address, and a space as an item hands address and path on to the spaces inside it.  If no other space
holds the space that is asked, all this reaches its region only in so far as the space may be placed in
itself; then the region gets another path or address, and is sorted.  So a property of regions that does
not depend on these (`Region.Lasting`) survives every demand if it survives the request on the region
(`Demand.run_guarded`). -/

namespace RegisterMap

open Build

variable {ρ : Type}

/-- A property of regions that does not depend on their place, their name and the order of their
ranges. -/
structure Region.Lasting (C : Region ρ → Prop) : Prop where
  sorted : ∀ {r}, C r → C r.sorted
  path : ∀ {r}, C r → ∀ path, C { r with path := path }
  base : ∀ {r}, C r → ∀ {base}, 0 ≤ base → C { r with base := base }
  relativeBase : ∀ {r}, C r → ∀ base, C { r with relativeBase := base }
  slot_nonneg : ∀ {r}, C r → ∀ slot ∈ r.taken, 0 ≤ slot.lo

namespace Region

variable {n : Nat}

theorem lasting_sound (n : Nat) : Lasting fun r : Region ρ => r.Sound n where
  sorted h := h.sorted
  path h _ := { h with tiled := { h.tiled with } }
  base h _ hb := { h with tiled := { h.tiled with }, base := hb }
  relativeBase h _ := { h with tiled := { h.tiled with } }
  slot_nonneg h _ hs := (h.tiled.slot_bounds hs).1

theorem Lasting.and {C D : Region ρ → Prop} (hC : Lasting C) (hsorted : ∀ {r}, D r → D r.sorted)
    (hpath : ∀ {r}, D r → ∀ path, D { r with path := path })
    (hbase : ∀ {r}, D r → ∀ base, D { r with base := base })
    (hrelative : ∀ {r}, D r → ∀ base, D { r with relativeBase := base }) :
    Lasting fun r => C r ∧ D r where
  sorted h := ⟨hC.sorted h.1, hsorted h.2⟩
  path h path := ⟨hC.path h.1 path, hpath h.2 path⟩
  base h _ hb := ⟨hC.base h.1 hb, hbase h.2 _⟩
  relativeBase h base := ⟨hC.relativeBase h.1 base, hrelative h.2 base⟩
  slot_nonneg h := hC.slot_nonneg h.1

theorem lasting_unreserved (n : Nat) : Lasting fun r : Region ρ => r.Sound n ∧ r.reserved = [] :=
  (lasting_sound n).and (fun h => h) (fun h _ => h) (fun h _ => h) (fun h _ => h)

theorem lasting_orderly (n : Nat) : Lasting fun r : Region ρ => r.Sound n ∧ r.IsOrderly :=
  (lasting_sound n).and isOrderly_sorted.mpr (fun h _ => h) (fun h _ => h) (fun h _ => h)

end Region

/-! ### The steps of a placement -/

namespace SpaceId

/-- What follows a placement: an item needs its name, and an inner space gets the joined path. -/
def handOn (id : SpaceId) (item : Occupant) : Build Unit := do
  let _ ← item.name?
  match (← id.region).path, item with
  | some path, .space inner =>
    match (← inner.region).path with
    | some own => inner.setPath ⟨path.names ++ own.names, false⟩
    | none => Build.refuse .wrongType
  | _, _ => pure ()

theorem place_eq (id : SpaceId) (width : Int) (item : Occupant) (addr : Option Int) (purpose : Purpose) :
    id.place width item addr purpose = (do
      let base ← id.onRegion fun r => r.place Occupant.isSome width item addr purpose
      id.handOn item
      id.checkComplete
      return base) := by
  unfold place handOn
  simp only [bind_assoc]
  refine congrArg _ (funext fun base => congrArg _ (funext fun _ => congrArg _ (funext fun r => ?_)))
  cases r.path with
  | none => rfl
  | some path =>
    cases item with
    | space inner =>
      dsimp only
      rw [bind_assoc]
      refine congrArg _ (funext fun r' => ?_)
      cases r'.path <;> rfl
    | _ => rfl

end SpaceId

/-! ### Spaces under guard -/

/-- The region of `c` has the property if `c` is under guard, and else does not hold that space. -/
def SpaceId.Fits (id : SpaceId) (C : Region Occupant → Prop) (c : SpaceId) (r : Region Occupant) : Prop :=
  (c = id → C r) ∧ (c ≠ id → ∀ slot ∈ r.taken, slot.item ≠ .space id)

/-- The space is plain, its region has the property, and no other space holds it. -/
structure Guarded (id : SpaceId) (C : Region Occupant → Prop) (ws : Workspace) : Prop where
  plain : ∃ s, ws.space? id = some s ∧ s.kind = .plain
  fits : ∀ c s, ws.space? c = some s → id.Fits C c s.region

namespace Guarded

open Build

variable {id c : SpaceId} {C C' : Region Occupant → Prop} {ws : Workspace} {s : AddressSpace}
  {r : Region Occupant} {base : Int}

theorem exists_space (h : Guarded id C ws) :
    ∃ s, ws.space? id = some s ∧ s.kind = .plain ∧ C s.region := by
  obtain ⟨s, hs, hk⟩ := h.plain
  exact ⟨s, hs, hk, (h.fits id s hs).1 rfl⟩

theorem imp (h : Guarded id C ws) (hi : ∀ r, C r → C' r) : Guarded id C' ws :=
  ⟨h.plain, fun c s hs => ⟨fun hc => hi _ ((h.fits c s hs).1 hc), (h.fits c s hs).2⟩⟩

theorem setSpace (h : Guarded id C ws) (hs : ws.space? c = some s) (hr : id.Fits C' c r)
    (hC : c ≠ id → ∀ r, C r → C' r) : Guarded id C' (ws.setSpace c { s with region := r }) where
  plain := by
    obtain ⟨t, ht, hk⟩ := h.plain
    by_cases hc : c = id
    · subst hc
      obtain rfl : s = t := Option.mem_unique hs ht
      exact ⟨_, Workspace.space?_setSpace_self hs _, hk⟩
    · exact ⟨t, by rw [Workspace.space?_setSpace_of_ne hc]; exact ht, hk⟩
  fits := by
    intro j t ht
    by_cases hj : c = j
    · subst hj
      rw [Workspace.space?_setSpace_self hs] at ht
      obtain rfl := Option.some.inj ht
      exact hr
    · rw [Workspace.space?_setSpace_of_ne hj] at ht
      obtain ⟨hself, hother⟩ := h.fits j t ht
      exact ⟨fun hji => hC (fun hc => hj (hc.trans hji.symm)) _ (hself hji), hother⟩

theorem keeps_get (c : SpaceId) : Keeps (Guarded id C) c.get fun s => id.Fits C c s.region := by
  intro ws h
  rw [SpaceId.get_apply]
  cases hs : ws.space? c with
  | none => exact h
  | some t => exact ⟨h, h.fits c t hs⟩

theorem keeps_region (c : SpaceId) : Keeps (Guarded id C) c.region (id.Fits C c) :=
  (keeps_get c).bind fun _ ht => keeps_pure ht

theorem keeps_updateRegion {f : Region Occupant → Region Occupant}
    (hf : ∀ r, id.Fits C c r → id.Fits C c (f r)) :
    Keeps (Guarded id C) (c.updateRegion f) fun _ => True := by
  intro ws h
  unfold SpaceId.updateRegion
  cases hs : ws.space? c with
  | none =>
    have : c.get ws = .error (.inconsistency danglingText) ws := by
      rw [SpaceId.get_apply, hs]
      rfl
    unfold SpaceId.update
    rw [bind_of_error this]
    exact h
  | some t =>
    rw [SpaceId.update_of_space? hs]
    exact ⟨h.setSpace hs (hf _ (h.fits c t hs)) fun _ _ hr => hr, trivial⟩

theorem fits_of_perm {f : Region Occupant → Region Occupant} (hself : c = id → ∀ r, C r → C (f r))
    (htaken : ∀ r, (f r).taken.Perm r.taken) (r : Region Occupant) (h : id.Fits C c r) :
    id.Fits C c (f r) :=
  ⟨fun hc => hself hc r (h.1 hc), fun hc slot hslot => h.2 hc slot ((htaken r).mem_iff.mp hslot)⟩

theorem keeps_setPathUpTo (hC : Region.Lasting C) (fuel : Nat) (c : SpaceId) (path : Path) :
    Keeps (Guarded id C) (SpaceId.setPathUpTo fuel c path) fun _ => True := by
  induction fuel generalizing c path with
  | zero => exact keeps_throw
  | succ fuel ih =>
    unfold SpaceId.setPathUpTo
    refine (keeps_updateRegion (fits_of_perm (fun _ r h => ?_) fun r => ?_)).bind fun _ _ => ?_
    · exact hC.sorted (hC.path h _)
    · exact Region.sorted_taken_perm _
    refine (keeps_region c).bind fun r _ => ?_
    refine (keeps_forIn fun entry _ => ?_).bind fun _ _ => ?_
    · split
      · refine (keeps_region _).bind fun r' _ => ?_
        refine keeps_lift.bind fun last _ => ?_
        exact (ih _ _).bind fun _ _ => keeps_pure trivial
      · exact keeps_pure trivial
    · split
      · exact keeps_throw
      · exact keeps_pure trivial

/-- The space under guard is told no negative address: only from itself can it get one. -/
theorem keeps_setBaseUpTo (hC : Region.Lasting C) (fuel : Nat) (c : SpaceId) (hb : c = id → 0 ≤ base) :
    Keeps (Guarded id C) (SpaceId.setBaseUpTo fuel c base) fun _ => True := by
  induction fuel generalizing c base with
  | zero => exact keeps_throw
  | succ fuel ih =>
    unfold SpaceId.setBaseUpTo
    refine (keeps_updateRegion (fits_of_perm (fun hc r h => ?_) fun r => ?_)).bind fun _ _ => ?_
    · exact hC.base h (hb hc)
    · exact List.Perm.refl _
    refine (keeps_region c).bind fun r hr => ?_
    refine (keeps_forIn fun slot hslot => ?_).bind fun _ _ => keeps_pure trivial
    split
    · rename_i inner hitem
      refine (ih inner fun hinner => ?_).bind fun _ _ => keeps_pure trivial
      by_cases hc : c = id
      · have := hC.slot_nonneg (hr.1 hc) slot hslot
        have := hb hc
        omega
      · exact absurd (hinner ▸ hitem) (hr.2 hc slot hslot)
    · exact keeps_pure trivial

theorem keeps_setBase (hC : Region.Lasting C) (o : Occupant) (hb : 0 ≤ base) :
    Keeps (Guarded id C) (o.setBase base) fun _ => True := by
  cases o with
  | register r | passenger p =>
    refine (Build.keeps_get.bind fun _ _ => keeps_entryOf).bind fun r _ => ?_
    exact keeps_modify fun ws h => ⟨h.plain, h.fits⟩
  | space c =>
    refine (keeps_depthBound.bind fun n _ => keeps_setBaseUpTo hC n c fun _ => hb).bind fun _ _ => ?_
    refine keeps_updateRegion (fits_of_perm (fun _ r h => hC.relativeBase h _) fun r => ?_)
    exact List.Perm.refl _
  | bus b =>
    refine (Build.keeps_get.bind fun _ _ => keeps_entryOf).bind fun r _ => ?_
    exact keeps_lift.bind fun _ _ => keeps_modify fun ws h => ⟨h.plain, h.fits⟩
  | nothing | number n | text t => exact keeps_pure trivial

theorem turns_onRegion {α : Type} {f : Region Occupant → Region.Outcome Occupant α} {Q : α → Prop}
    (hf : ∀ r, C r → C' (f r).1) (hq : ∀ r, C r → ∀ a, (f r).2 = .ok a → Q a) :
    Turns (Guarded id C) (Guarded id C') (id.onRegion f) Q := by
  intro ws h
  obtain ⟨s, hs, -, hr⟩ := h.exists_space
  rw [SpaceId.onRegion_of_space? hs]
  have hg : Guarded id C' (ws.setSpace id { s with region := (f s.region).1 }) :=
    h.setSpace hs ⟨fun _ => hf _ hr, fun hc => absurd rfl hc⟩ fun hc => absurd rfl hc
  cases ha : (f s.region).2 with
  | ok a => exact ⟨hg, hq _ hr a ha⟩
  | error e => exact hg

section

variable (hC : Region.Lasting C)

include hC

theorem keeps_handOn (item : Occupant) :
    Keeps (Guarded id C) (id.handOn item) fun _ => True := by
  unfold SpaceId.handOn
  refine (Occupant.keeps_name? item).bind fun _ _ => (keeps_region id).bind fun r _ => ?_
  split
  · refine (keeps_region _).bind fun r' _ => ?_
    split
    · exact keeps_depthBound.bind fun n _ => keeps_setPathUpTo hC n _ _
    · exact keeps_throw
  · exact keeps_pure trivial

theorem keeps_checkComplete :
    Keeps (Guarded id C) id.checkComplete fun _ => True :=
  turns_onRegion (fun _ h => hC.sorted h) fun _ _ _ _ => trivial

variable {width : Int} {item : Occupant} {addr : Option Int} {purpose : Purpose} {Q : Int → Prop}

theorem keeps_place (hf : ∀ r, C r → C (r.place Occupant.isSome width item addr purpose).1)
    (hq : ∀ r, C r → ∀ base, (r.place Occupant.isSome width item addr purpose).2 = .ok base → Q base) :
    Keeps (Guarded id C) (id.place width item addr purpose) Q := by
  rw [SpaceId.place_eq]
  refine (turns_onRegion hf hq).bind fun base hb => ?_
  exact (keeps_handOn hC item).bind fun _ _ => (keeps_checkComplete hC).bind fun _ _ => keeps_pure hb

theorem place_ok
    (hf : ∀ r, C r → C (r.place Occupant.isSome width item addr purpose).1) (h : Guarded id C ws)
    {ws' : Workspace} (hrun : id.place width item addr purpose ws = .ok base ws') :
    Guarded id (fun r => C r ∧ r.sorted.check = .ok ()) ws' := by
  rw [SpaceId.place_eq] at hrun
  obtain ⟨base', ws1, h1, hrun⟩ := bind_ok hrun
  obtain ⟨u, ws2, h2, hrun⟩ := bind_ok hrun
  obtain ⟨u', h3, -⟩ := bind_pure_ok hrun
  have hg1 : Guarded id C ws1 :=
    after_of_ok h1 ▸ (turns_onRegion (Q := fun _ => True) hf fun _ _ _ _ => trivial).after h
  have hg2 : Guarded id C ws2 := after_of_ok h2 ▸ (keeps_handOn hC item).after hg1
  obtain ⟨s, r, hs, hr, rfl⟩ := SpaceId.onRegion_ok h3
  obtain ⟨rfl, hcheck⟩ := Prod.mk.inj hr
  refine hg2.setSpace hs ⟨fun _ => ⟨?_, ?_⟩, fun hc => absurd rfl hc⟩ fun hc => absurd rfl hc
  · exact hC.sorted ((hg2.fits id s hs).1 rfl)
  · rw [s.region.sorted_sorted]
    exact hcheck

theorem base_nonneg
    (hf : ∀ r, C r → C (r.place Occupant.isSome width item addr .item).1) (r : Region Occupant)
    (hr : C r) (base : Int) (hb : (r.place Occupant.isSome width item addr .item).2 = .ok base) :
    0 ≤ base := by
  obtain ⟨w, -, hgain⟩ := Region.place_eq_ok (Prod.ext rfl hb)
  exact hC.slot_nonneg (hf r hr) _ (hgain.taken.mem_iff.mpr List.mem_cons_self)

theorem keeps_addNow (hf : ∀ r, C r → C (r.place Occupant.isSome width item addr .item).1) :
    Keeps (Guarded id C) (id.addNow width item addr) fun _ => True :=
  (keeps_place hC hf (base_nonneg hC hf)).bind fun _ hb =>
    (keeps_setBase hC item hb).bind fun _ _ => keeps_pure trivial

end

end Guarded

/-! ### Demands -/

/-- A demand on a space. -/
inductive Demand where
  /-- Place an item in the first block of `2 ^ width` addresses with room, or at an address. -/
  | add (width : Int) (item : Occupant) (addr : Option Int)
  /-- Keep the block of `2 ^ width` addresses at an address free. -/
  | keepout (addr width : Int)
deriving DecidableEq, Repr

namespace Demand

def run (id : SpaceId) : Demand → Build Unit
  | .add width item addr => discard (id.add width item addr)
  | .keepout addr width => discard (id.keepout addr width)

/-- The demand is for an item. -/
def isAdd : Demand → Bool
  | .add .. => true
  | .keepout .. => false

/-- The request that a demand makes on the region of the space. -/
def ask : Demand → Region Occupant → Region.Outcome Occupant Int
  | .add width item addr, r => r.place Occupant.isSome width item addr .item
  | .keepout addr width, r => r.place Occupant.isSome width .nothing (some addr) .reserve

variable {id : SpaceId} {C : Region Occupant → Prop} {ws : Workspace} {n : Nat}

theorem run_guarded (hC : Region.Lasting C) (d : Demand) (hask : ∀ r, C r → C (d.ask r).1)
    (h : Guarded id C ws) : Guarded id C (Build.after (d.run id) ws) := by
  obtain ⟨s, hs, hk, -⟩ := h.exists_space
  cases d with
  | add width item addr =>
    have hrun : Build.after ((Demand.add width item addr).run id) ws =
        Build.after (id.addNow width item addr) ws :=
      (after_map _ _ _).trans (SpaceId.after_add_plain hs hk width item addr)
    rw [hrun]
    exact (Guarded.keeps_addNow hC hask).after h
  | keepout addr width =>
    have hrun : Build.after ((Demand.keepout addr width).run id) ws =
        Build.after (id.place width .nothing (some addr) .reserve) ws :=
      (after_map _ _ _).trans (SpaceId.after_keepout_plain hs hk addr width)
    rw [hrun]
    exact (Guarded.keeps_place (Q := fun _ => True) hC hask fun _ _ _ _ => trivial).after h

theorem ask_sound (hn : n ≤ 53) (d : Demand) (r : Region Occupant) (h : r.Sound n) :
    (d.ask r).1.Sound n := by
  cases d with
  | add width item addr => exact h.place hn Occupant.isSome width item addr (.inl rfl)
  | keepout addr width => exact h.place hn Occupant.isSome width .nothing (some addr) (.inr rfl)

theorem ask_reserved {d : Demand} (hd : d.isAdd = true) (r : Region Occupant) :
    (d.ask r).1.reserved = r.reserved := by
  cases d with
  | add width item addr => exact (r.place_frame Occupant.isSome width item addr .item).2.2 rfl
  | keepout addr width => cases hd

theorem run_ok (hn : n ≤ 48) {d : Demand} (h : Guarded id (fun r => r.Sound n) ws) {u : Unit}
    {ws' : Workspace} (hrun : d.run id ws = .ok u ws') :
    Guarded id (fun r => r.Sound n ∧ r.IsOrderly) ws' := by
  obtain ⟨s, hs, hk, -⟩ := h.exists_space
  have hC := Region.lasting_sound (ρ := Occupant) n
  have hask := d.ask_sound (n := n) (by omega)
  have horderly : ∀ r : Region Occupant, r.Sound n ∧ r.sorted.check = .ok () → r.Sound n ∧ r.IsOrderly :=
    fun r hr => ⟨hr.1, (hr.1.check_iff hn).mp hr.2⟩
  cases d with
  | add width item addr =>
    obtain ⟨a, hadd, -⟩ := map_ok hrun
    rw [SpaceId.add_of_plain hs hk] at hadd
    obtain ⟨base, hnow, -⟩ := map_ok hadd
    obtain ⟨base', ws1, hplace, hset⟩ := bind_ok hnow
    obtain ⟨u', hset, -⟩ := bind_pure_ok hset
    have hb : 0 ≤ base' := by
      have := Guarded.keeps_place hC hask (Guarded.base_nonneg hC hask) ws h
      rw [hplace] at this
      exact this.2
    have hg := (Guarded.place_ok hC hask h hplace).imp horderly
    exact after_of_ok hset ▸ (Guarded.keeps_setBase (Region.lasting_orderly n) item hb).after hg
  | keepout addr width =>
    obtain ⟨a, hkeep, -⟩ := map_ok hrun
    rw [SpaceId.keepout_of_plain hs hk] at hkeep
    obtain ⟨base, hplace, -⟩ := map_ok hkeep
    exact (Guarded.place_ok hC hask h hplace).imp horderly

end Demand

/-- The workspace after some demands on a space, each of which may be granted or refused. -/
def afterDemands (id : SpaceId) (demands : List Demand) (ws : Workspace) : Workspace :=
  afterAll (demands.map (Demand.run id)) ws

section

variable {id : SpaceId} {ws : Workspace} {n : Nat} {demands : List Demand}

theorem afterDemands_guarded {C : Region Occupant → Prop} (hC : Region.Lasting C)
    (hask : ∀ d ∈ demands, ∀ r, C r → C (d.ask r).1) (h : Guarded id C ws) :
    Guarded id C (afterDemands id demands ws) := by
  refine afterAll_induct ?_ h
  intro x hx ws hws
  obtain ⟨d, hd, rfl⟩ := List.mem_map.mp hx
  exact d.run_guarded hC (hask d hd) hws

theorem afterDemands_sound (hn : n ≤ 53) (demands : List Demand)
    (h : Guarded id (fun r => r.Sound n) ws) :
    Guarded id (fun r => r.Sound n) (afterDemands id demands ws) :=
  afterDemands_guarded (Region.lasting_sound n) (fun d _ => d.ask_sound hn) h

theorem afterDemands_unreserved (hn : n ≤ 53) (hd : ∀ d ∈ demands, d.isAdd = true)
    (h : Guarded id (fun r => r.Sound n ∧ r.reserved = []) ws) :
    Guarded id (fun r => r.Sound n ∧ r.reserved = []) (afterDemands id demands ws) :=
  afterDemands_guarded (Region.lasting_unreserved n)
    (fun d hmem r hr => ⟨d.ask_sound hn r hr.1, (Demand.ask_reserved (hd d hmem) r).trans hr.2⟩) h

theorem orderly_of_granted (hn : n ≤ 48)
    (h : Guarded id (fun r => r.Sound n ∧ r.IsOrderly) ws) {u : Unit} {ws' : Workspace}
    (hrun : forM demands (Demand.run id) ws = .ok u ws') :
    Guarded id (fun r => r.Sound n ∧ r.IsOrderly) ws' := by
  induction demands generalizing ws with
  | nil =>
    obtain ⟨-, rfl⟩ := pure_ok hrun
    exact h
  | cons d demands ih =>
    rw [List.forM_cons] at hrun
    obtain ⟨u1, ws1, hd, hrun⟩ := bind_ok hrun
    exact ih (Demand.run_ok hn (h.imp fun _ hr => hr.1) hd) hrun

theorem SpaceId.create_guarded (hn : n ≤ 48) (hws : ws.Unheld ⟨ws.spaces.size⟩) (label : Option String)
    (path : Option Path) (domain : Value) :
    ∃ ws0, create .plain (some (0, 2 ^ n)) label path domain ws = .ok ⟨ws.spaces.size⟩ ws0 ∧
      Guarded ⟨ws.spaces.size⟩ (fun r => r.Sound n ∧ r.reserved = []) ws0 := by
  obtain ⟨ws0, s, hmake, hspaces, hk, hfresh⟩ := create_two_pow hn ws .plain label path domain
  have hself := Workspace.space?_of_push hspaces
  refine ⟨ws0, hmake, ⟨s, hself, hk⟩, fun c t ht => ⟨?_, fun hc => ?_⟩⟩
  · rintro rfl
    obtain rfl := Option.mem_unique hself ht
    exact ⟨hfresh.sound, hfresh.reserved⟩
  · refine hws c t ?_
    unfold Workspace.space? at ht ⊢
    rw [hspaces, Array.getElem?_push, if_neg fun h => hc (congrArg SpaceId.mk h)] at ht
    exact ht

end

end RegisterMap
