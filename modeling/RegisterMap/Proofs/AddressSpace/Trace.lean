import RegisterMap.Proofs.Region.Series
import RegisterMap.Proofs.Workspace.Frame

/-! # The placements behind a layout

The items of a space are placed in the order of the passes (`AddressSpace.queue`), each with the width
that it needs (`AddressSpace.needs`) and at the address that is asked for it (`AddressSpace.wanted`).
The slots of a space are what these placements make of a fresh region (`AddressSpace.PacksInto`):
nothing else decides where an item stands. -/

namespace RegisterMap

open List

namespace AddressSpace

variable {s : AddressSpace}

/-- The items in the order in which the passes reach them. -/
def queue (s : AddressSpace) : List Occupant :=
  SpaceKind.bus.passes.flatMap fun pass => (SpaceId.shelvesOf pass).flatMap s.items

theorem queue_congr {s' : AddressSpace} (h : s'.items = s.items) : s'.queue = s.queue := by
  unfold queue
  rw [h]

theorem queue_eq (hk : s.ledger.keepouts = []) :
    s.queue = s.items .explicits ++ s.looped ++ s.items .entries := by
  have hnil : s.items .keepouts = [] := congrArg (List.map Staged.item) hk
  simp [queue, looped, SpaceKind.passes, SpaceId.shelvesOf, hnil]

theorem queue_perm (hk : s.ledger.keepouts = []) : s.queue.Perm (s.singles ++ s.looped) := by
  rw [queue_eq hk, singles, append_assoc, append_assoc]
  exact perm_append_comm.append_left _

/-- The address that is asked for an item. -/
def wanted (s : AddressSpace) (x : Occupant) : Option Int :=
  (((s.ledger.on .explicits).map fun r => (r.item, r.addr)).find? fun p => p.1 == x).bind Prod.snd

theorem wanted_of_mem (hn : (s.items .explicits).Nodup) {request : Staged}
    (hr : request ∈ s.ledger.on .explicits) : s.wanted request.item = request.addr := by
  unfold wanted
  unfold items at hn
  generalize s.ledger.on .explicits = rs at hn hr
  induction rs with
  | nil => cases hr
  | cons r rs ih =>
    rw [map_cons, nodup_cons] at hn
    rw [map_cons, find?_cons]
    rcases mem_cons.mp hr with rfl | hr
    · simp
    · have hne : r.item ≠ request.item := fun he => hn.1 (he ▸ mem_map_of_mem hr)
      rw [beq_eq_false_iff_ne.mpr hne]
      exact ih hn.2 hr

theorem wanted_of_not_mem {x : Occupant} (hx : x ∉ s.items .explicits) : s.wanted x = none := by
  unfold wanted
  rw [find?_eq_none.mpr, Option.bind_none]
  intro p hp
  obtain ⟨r, hr, rfl⟩ := mem_map.mp hp
  have : r.item ≠ x := fun he => hx (he ▸ mem_map_of_mem hr)
  simpa using this

end AddressSpace

namespace Workspace

variable {ws ws' : Workspace} {ids : List SpaceId} {xs : List Occupant}

/-- The address width of an item: that of its region, if it is a space. -/
def widthOf (ws : Workspace) (x : Occupant) : Int :=
  match x.inner? with
  | some c => ((ws.space? c).map fun s => s.region.aw).getD 0
  | none => ((ws.leaf? x).map Leaf.aw).getD 0

theorem widthOf_space {c : SpaceId} {s : AddressSpace} (hs : ws.space? c = some s) :
    ws.widthOf (.space c) = s.region.aw := by
  show ((ws.space? c).map fun s => s.region.aw).getD 0 = _
  rw [hs]
  rfl

theorem inner?_of_leaf? {x : Occupant} {l : Leaf} (hl : ws.leaf? x = some l) : x.inner? = none := by
  cases x with
  | space c => cases hl
  | _ => rfl

/-- The address width of an item with all its copies. -/
def blockWidth (ws : Workspace) (x : Occupant) : Int :=
  ws.widthOf x + Number.ceilLog2 (ws.copiesOf x).length

theorem widthOf_frame {x : Occupant} (hf : Frame ids xs ws ws')
    (hx : ∀ c, x = .space c → ws'.widthOf (.space c) = ws.widthOf (.space c)) :
    ws'.widthOf x = ws.widthOf x := by
  cases hi : x.inner? with
  | some c =>
    obtain rfl := Occupant.inner?_eq_some.mp hi
    exact hx c rfl
  | none =>
    unfold widthOf
    rw [hi]
    have := congrArg (Option.map Prod.fst) (hf.shape x)
    simp only [Option.map_map] at this
    exact congrArg (fun o => o.getD 0) this

theorem blockWidth_frame {x : Occupant} (hf : Frame ids xs ws ws')
    (hx : ∀ c, x = .space c → ws'.widthOf (.space c) = ws.widthOf (.space c)) :
    ws'.blockWidth x = ws.blockWidth x := by
  unfold blockWidth
  rw [hf.copiesOf_eq, widthOf_frame hf hx]

theorem widthOf_congr {c : SpaceId} (h : ws'.space? c = ws.space? c) :
    ws'.widthOf (.space c) = ws.widthOf (.space c) := by
  show ((ws'.space? c).map _).getD 0 = _
  rw [h]
  rfl

end Workspace

namespace AddressSpace

variable {s s' : AddressSpace} {w w' : Occupant → Int} {xs : List Occupant} {r r' : Region Occupant}

/-- The address width with which an item of the space is placed: that of all copies in a loop. -/
def needs (s : AddressSpace) (ws : Workspace) (x : Occupant) : Int :=
  if x ∈ s.looped then ws.blockWidth x else ws.widthOf x

theorem needs_frame {ws ws' : Workspace} {ids : List SpaceId} {ys : List Occupant} {x : Occupant}
    (hl : s'.looped = s.looped) (hf : Frame ids ys ws ws')
    (hx : ∀ c, x = .space c → ws'.widthOf (.space c) = ws.widthOf (.space c)) :
    s'.needs ws' x = s.needs ws x := by
  unfold needs
  rw [hl, Workspace.blockWidth_frame hf hx, Workspace.widthOf_frame hf hx]

/-- Placing the items `xs` with the widths `w` in turn leads from a fresh region to `r`. -/
def PacksInto (s : AddressSpace) (w : Occupant → Int) (xs : List Occupant) (r : Region Occupant) : Prop :=
  ∃ r0 : Region Occupant, r0.Fresh 24 ∧
    r0.placeAll Occupant.isSome (xs.map fun x => ⟨w x, x, s.wanted x⟩) = some r

theorem PacksInto.congr (h : s.PacksInto w xs r) (hs : s'.wanted = s.wanted)
    (hw : ∀ x ∈ xs, w' x = w x) : s'.PacksInto w' xs r := by
  obtain ⟨r0, hfresh, hrun⟩ := h
  refine ⟨r0, hfresh, ?_⟩
  rw [← hrun]
  congr 1
  refine map_congr_left fun x hx => ?_
  rw [hs, hw x hx]

theorem PacksInto.concat (h : s.PacksInto w xs r) {x : Occupant} {base : Int}
    (hp : r.place Occupant.isSome (w x) x (s.wanted x) .item = (r', .ok base)) :
    s.PacksInto w (xs ++ [x]) r'.sorted := by
  obtain ⟨r0, hfresh, hrun⟩ := h
  refine ⟨r0, hfresh, ?_⟩
  rw [map_append, Region.placeAll_append, hrun, map_singleton]
  show (Region.granted (r.place _ _ _ _ _)).bind _ = _
  rw [hp]
  rfl

theorem PacksInto.items (h : s.PacksInto w xs r) : (r.taken.map Slot.item).Perm xs := by
  obtain ⟨r0, hfresh, hrun⟩ := h
  have hitems := Region.placeAll_items hrun
  rw [hfresh.taken, map_nil, append_nil, map_map] at hitems
  exact hitems.trans (List.Perm.of_eq (map_id _))

end AddressSpace

end RegisterMap
