import RegisterMap.Proofs.AddressSpace.Parallel
import RegisterMap.Proofs.AddressSpace.Partway

/-! # What the placement of a request changes

When a space grants a request, it gains slots, and the occupants of the slots are told addresses.  If
one of them is a space, this space and those inside it get paths and absolute addresses.  All ledgers
stay, and no other leaf is told an address (`Workspace.Serves`, `SpaceId.placeRequest_serves`). -/

namespace RegisterMap

/-- The address of a leaf. -/
def Workspace.baseOf (ws : Workspace) (x : Occupant) : Option Int := (ws.leaf? x).bind Leaf.base

theorem Workspace.baseOf_eq_none {x : Occupant} (hx : x.isLeaf = false) (ws : Workspace) :
    ws.baseOf x = none := by
  cases x with
  | register _ | passenger _ => cases hx
  | _ => rfl

namespace Workspace

/-- All ledgers are as they were, and no leaf but some of `xs` was told an address. -/
structure Serves (xs : List Occupant) (ws ws' : Workspace) : Prop where
  ledgers : ∀ j, (ws'.space? j).map AddressSpace.ledger = (ws.space? j).map AddressSpace.ledger
  copies : ∀ y, ws'.copiesOf y = ws.copiesOf y
  told : ∀ x, x ∉ xs → ws'.baseOf x = ws.baseOf x

variable {xs : List Occupant} {ws ws' : Workspace}

instance : IsPreorder Workspace (Serves xs) where
  refl _ := ⟨fun _ => rfl, fun _ => rfl, fun _ _ => rfl⟩
  trans _ _ _ h h' := ⟨fun j => (h'.ledgers j).trans (h.ledgers j),
    fun y => (h'.copies y).trans (h.copies y), fun x hx => (h'.told x hx).trans (h.told x hx)⟩

theorem Serves.setSpace {j : SpaceId} {s s' : AddressSpace} (hs : ws.space? j = some s)
    (hl : s'.ledger = s.ledger) : Serves xs ws (ws.setSpace j s') := by
  refine ⟨fun k => ?_, fun _ => rfl, fun _ _ => rfl⟩
  by_cases hk : j = k
  · subst hk
    rw [space?_setSpace_self hs, hs, Option.map_some, Option.map_some, hl]
  · rw [space?_setSpace_of_ne hk]

theorem Serves.of_frame {ys : List Occupant} (h : Frame [] ys ws ws') (hsub : ys ⊆ xs) :
    Serves xs ws ws' := by
  refine ⟨fun j => ?_, h.copiesOf_eq, fun x hx => ?_⟩
  · rw [h.spaces j (by simp)]
  · unfold baseOf
    rw [h.leaves x fun hy => hx (hsub hy)]

end Workspace

open Build
open Workspace (Serves)

/-! ### Paths and addresses -/

variable {id : SpaceId} {xs : List Occupant} {item : Occupant}

/-- The work serves the items if it goes through. -/
abbrev Build.Serving {α : Type} (xs : List Occupant) (w : Build α) : Prop :=
  Ensures (Serves xs) (fun _ => True) w fun _ _ => True

theorem Build.ReadOnly.serving {α : Type} {w : Build α} (h : ReadOnly w) : Serving xs w := h.keeps

namespace SpaceId

theorem readOnly_depthBound : ReadOnly depthBound :=
  Build.readOnly_get.bind fun _ => readOnly_pure _

theorem setPathUpTo_serves (fuel : Nat) (j : SpaceId) (path : Path) :
    Build.Serving xs (setPathUpTo fuel j path) := fun _ _ _ _ h =>
  ⟨setPathUpTo_along (R := Serves xs) (Q := fun _ _ => True) (fun _ _ _ _ _ _ => trivial)
    (fun _ _ _ => trivial) (fun _ _ hs => .setSpace hs rfl) fuel trivial h, trivial⟩

theorem setBaseUpTo_serves (fuel : Nat) (j : SpaceId) (base : Int) :
    Build.Serving xs (setBaseUpTo fuel j base) := fun _ _ _ _ h =>
  ⟨setBaseUpTo_along (R := Serves xs) (Q := fun _ _ => True) (fun _ _ _ _ _ _ => trivial)
    (fun _ _ _ => trivial) (fun _ _ hs => .setSpace hs rfl) fuel trivial h, trivial⟩

end SpaceId

theorem Occupant.setBase_cases {o : Occupant} {base : Int} {ws ws' : Workspace} {u : Unit}
    (h : o.setBase base ws = .ok u ws') :
    (∃ l : Leaf, o.Retold { l with base := some base } ws ws') ∨
    (o.isLeaf = false ∧ ∃ busses, ws' = { ws with busses := busses } ∧
      ∀ n : Nat, busses[n]?.map Bus.block = ws.busses[n]?.map Bus.block) ∨
    ∃ c s fuel ws1, o = .space c ∧ SpaceId.setBaseUpTo fuel c base ws = .ok () ws1 ∧
      ws1.space? c = some s ∧
      ws' = ws1.setSpace c { s with region := { s.region with relativeBase := base } } := by
  cases o with
  | register _ | passenger _ =>
    obtain ⟨l, hl⟩ := exists_leaf_of_setBase rfl h
    exact .inl ⟨l, setBase_ok hl h⟩
  | bus id =>
    obtain ⟨b, hb, h1⟩ := bind_entryOf_ok h
    obtain ⟨b', hset, h2⟩ := bind_lift_ok h1
    cases h2
    refine .inr (.inl ⟨rfl, _, rfl, fun n => ?_⟩)
    have hblock : b'.block = b.block := by
      unfold Bus.setBase at hset
      split at hset <;> cases hset
      rfl
    rw [Array.getElem?_setIfInBounds]
    split
    · rename_i hn
      subst hn
      rw [hb]
      split
      · exact congrArg some hblock
      · rename_i hlt
        exact absurd (Array.getElem?_eq_some_iff.mp hb).1 hlt
    · rfl
  | space c =>
    obtain ⟨_, ws1, hset, h1⟩ := bind_ok h
    obtain ⟨s, hs, rfl⟩ := SpaceId.updateRegion_ok h1
    exact .inr (.inr ⟨c, s, _, ws1, rfl, hset, hs, rfl⟩)
  | nothing | number _ | text _ =>
    obtain ⟨-, rfl⟩ := pure_ok h
    exact .inr (.inl ⟨rfl, ws'.busses, rfl, fun _ => rfl⟩)

theorem Occupant.setBase_serves {o : Occupant} (ho : o ∈ xs) (base : Int) :
    Ensures (Serves xs) (fun _ => True) (o.setBase base) fun _ ws =>
      o.isLeaf = true → ws.baseOf o = some base := by
  intro ws u ws' _ h
  rcases setBase_cases h with ⟨l, hl⟩ | ⟨hno, busses, rfl, -⟩ | ⟨c, s, fuel, ws1, rfl, hset, hs, rfl⟩
  · refine ⟨.of_frame hl.frame (by simpa using ho), fun _ => ?_⟩
    unfold Workspace.baseOf
    rw [hl.leaf]
    rfl
  · exact ⟨⟨fun _ => rfl, fun _ => rfl, fun _ _ => rfl⟩, fun hleaf => by rw [hno] at hleaf; cases hleaf⟩
  · exact ⟨IsTrans.trans _ _ _ (SpaceId.setBaseUpTo_serves fuel c base trivial hset).1 (.setSpace hs rfl),
      fun hleaf => nomatch hleaf⟩

/-! ### Requests -/

/-- The occupants that may be told an address for a request: the item, or the copies in a loop. -/
def Workspace.addressees (ws : Workspace) (shelf : Shelf) (x : Occupant) : List Occupant :=
  match shelf with
  | .loops | .explicitLoops => x :: ws.copiesOf x
  | _ => [x]

theorem Workspace.hosts_serves (xs : List Occupant) (w0 : Workspace) :
    Build.Hosts (Serves xs) w0 (fun _ => True) (fun shelf x => w0.addressees shelf x ⊆ xs) (· ∈ xs) where
  place _ _ hs _ := .setSpace hs rfl
  sort _ hs := .setSpace hs rfl
  path {c _ path _ _} _ _ h := by
    have hserving : Build.Serving xs (c.setPath path) :=
      SpaceId.readOnly_depthBound.serving.bind fun n => SpaceId.setPathUpTo_serves n c path
    exact (hserving trivial h).1
  tell hx _ h := (Occupant.setBase_serves hx _ trivial h).1
  note h := .of_frame h (List.nil_subset _)
  item {shelf x} h := by
    refine h ?_
    cases shelf <;> exact List.mem_cons_self
  copies h hshelf hr y hy := by
    rw [hr.copies] at hy
    rcases hshelf with rfl | rfl <;> exact h (List.mem_cons_of_mem _ hy)

namespace SpaceId

theorem addNow_tells {ws ws' : Workspace} {width a base : Int} (hitem : item.isLeaf = true)
    (h : id.addNow width item (some a) ws = .ok base ws') : ws'.baseOf item = some a := by
  unfold addNow at h
  obtain ⟨base', ws1, hplace, h1⟩ := bind_ok h
  obtain ⟨_, hset, rfl⟩ := bind_pure_ok h1
  obtain ⟨s, r, ws3, s1, -, hr, -⟩ := place_ok hplace
  rw [← Region.insert_base hr]
  exact (Occupant.setBase_serves (List.mem_singleton_self item) _ trivial hset).2 hitem

/-- **A request that is granted** gives slots and addresses to those that it is for, and is marked; an
address that is asked for is given, unless the request was granted before. -/
theorem placeRequest_serves (xs : List Occupant) {shelf : Shelf} {request : Staged} {width : Option Int} :
    Ensures (Serves xs)
      (fun ws => request.placed = false → ws.addressees shelf request.item ⊆ xs)
      (id.placeRequest shelf request width) fun request' ws =>
        request'.item = request.item ∧ request'.placed = true ∧
        (shelf = .explicits → request'.addr = request.addr ∧ ∀ a, request.addr = some a →
          request.item.isLeaf = true → request.placed = true ∨ ws.baseOf request.item = some a) := by
  intro ws request' ws' hxs h
  have hserves (hopen : request.placed = false) : Serves xs ws ws' :=
    (Workspace.hosts_serves xs ws).placeRequest trivial (fun _ {_ _ _ _ _ _} hs _ => .setSpace hs rfl)
      (hxs hopen) h
  cases shelf with
  | loops | explicitLoops =>
    obtain ⟨aw, more, -, -, length, ws1, -, -, hf, -, -, -,
      ⟨hplaced, rfl, rfl⟩ | ⟨hopen, base, rfl, -⟩⟩ := placeLoop_ok h
    · exact ⟨.of_frame hf (by simp), rfl, hplaced, fun he => nomatch he⟩
    · exact ⟨hserves hopen, rfl, rfl, fun he => nomatch he⟩
  | keepouts =>
    unfold placeRequest at h
    dsimp only at h
    split at h
    · rename_i hplaced
      obtain ⟨rfl, rfl⟩ := pure_ok h
      exact ⟨Std.Refl.refl _, rfl, hplaced, fun he => nomatch he⟩
    · rename_i hopen
      obtain ⟨aw, ws1, -, h1⟩ := bind_ok h
      obtain ⟨_, -, rfl⟩ := bind_pure_ok h1
      exact ⟨hserves (by simpa using hopen), rfl, rfl, fun he => nomatch he⟩
  | explicits =>
    cases hp : request.placed with
    | true =>
      obtain ⟨rfl, rfl⟩ := placeRequest_placed_ok (.inl rfl) hp h
      exact ⟨Std.Refl.refl _, rfl, hp, fun _ => ⟨rfl, fun _ _ _ => .inl rfl⟩⟩
    | false =>
      obtain ⟨aw, base, -, hadd, hitem, haddr, hplaced⟩ := placeRequest_single_ok (.inl rfl) hp h
      refine ⟨hserves hp, hitem, hplaced, fun _ => ⟨haddr rfl, fun a ha hleaf => .inr ?_⟩⟩
      rw [if_pos rfl, ha] at hadd
      exact addNow_tells hleaf hadd
  | entries =>
    cases hp : request.placed with
    | true =>
      obtain ⟨rfl, rfl⟩ := placeRequest_placed_ok (.inr rfl) hp h
      exact ⟨Std.Refl.refl _, rfl, hp, fun he => nomatch he⟩
    | false =>
      obtain ⟨aw, base, -, -, hitem, -, hplaced⟩ := placeRequest_single_ok (.inr rfl) hp h
      exact ⟨hserves hp, hitem, hplaced, fun he => nomatch he⟩

end SpaceId

end RegisterMap
