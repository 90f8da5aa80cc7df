import RegisterMap.Proofs.AddressSpace.Explicit

/-! # Which addresses that are asked for count

An item outside loops is placed where it is asked for.  An item in a loop is not: with aligned loops its
address is never looked at.  To say so, all addresses that are asked for in loops are forgotten
(`Workspace.forgetLoops`), and two workspaces are *alike* if nothing else tells them apart
(`Workspace.Alike`).  Work *mirrors* other work if it goes through whenever the other work does from a
workspace that is alike (`Build.Mirrors`).  Each step of a resolution is coupled to itself in this way
(`SpaceId.lockstep_matches`), so a resolution mirrors itself (`SpaceId.resolve_blind`). -/

namespace RegisterMap

/-! ### Forgotten addresses -/

def Staged.forget (r : Staged) : Staged := { r with addr := none }

/-- A request on a shelf, without its address if the shelf is for loops. -/
def Shelf.forget (shelf : Shelf) (r : Staged) : Staged :=
  if shelf = .explicitLoops then r.forget else r

def Ledger.forget (l : Ledger) : Ledger := { l with explicitLoops := l.explicitLoops.map Staged.forget }

def AddressSpace.forget (s : AddressSpace) : AddressSpace := { s with ledger := s.ledger.forget }

/-- All addresses that are asked for in loops are forgotten. -/
def Workspace.forgetLoops (ws : Workspace) : Workspace :=
  { ws with spaces := ws.spaces.map AddressSpace.forget }

/-- Nothing but addresses that are asked for in loops tells the workspaces apart. -/
def Workspace.Alike (ws ws2 : Workspace) : Prop := ws.forgetLoops = ws2.forgetLoops

theorem Shelf.forget_of_ne {shelf : Shelf} (h : shelf ≠ .explicitLoops) : shelf.forget = id :=
  funext fun _ => if_neg h

theorem Shelf.eq_of_forget {shelf : Shelf} {r r2 : Staged} (h : shelf.forget r = shelf.forget r2) :
    r.item = r2.item ∧ r.width = r2.width ∧ r.placed = r2.placed := by
  have hforget (q : Staged) : (shelf.forget q).item = q.item ∧ (shelf.forget q).width = q.width ∧
      (shelf.forget q).placed = q.placed := by
    unfold forget
    split <;> exact ⟨rfl, rfl, rfl⟩
  obtain ⟨hi, hw, hp⟩ := hforget r
  obtain ⟨hi2, hw2, hp2⟩ := hforget r2
  exact ⟨by rw [← hi, ← hi2, h], by rw [← hw, ← hw2, h], by rw [← hp, ← hp2, h]⟩

theorem Ledger.on_forget (l : Ledger) (shelf : Shelf) :
    l.forget.on shelf = (l.on shelf).map shelf.forget := by
  by_cases h : shelf = .explicitLoops
  · subst h
    rfl
  · rw [Shelf.forget_of_ne h, List.map_id]
    cases shelf <;> first | rfl | exact (h rfl).elim

theorem Ledger.forget_put (l : Ledger) (shelf : Shelf) (rs : List Staged) :
    (l.put shelf rs).forget = l.forget.put shelf (rs.map shelf.forget) := by
  by_cases h : shelf = .explicitLoops
  · subst h
    rfl
  · rw [Shelf.forget_of_ne h, List.map_id]
    cases shelf <;> first | rfl | exact (h rfl).elim

theorem Workspace.space?_forgetLoops (ws : Workspace) (id : SpaceId) :
    ws.forgetLoops.space? id = (ws.space? id).map AddressSpace.forget := Array.getElem?_map ..

theorem Workspace.forgetLoops_setSpace (ws : Workspace) (id : SpaceId) (s : AddressSpace) :
    (ws.setSpace id s).forgetLoops = ws.forgetLoops.setSpace id s.forget := by
  unfold setSpace forgetLoops
  simp only [Array.map_setIfInBounds]

theorem Workspace.Alike.space? {ws ws2 : Workspace} (h : ws.Alike ws2) {id : SpaceId} {s : AddressSpace}
    (hs : ws.space? id = some s) : ∃ s2, ws2.space? id = some s2 ∧ s.forget = s2.forget := by
  have hsame := congrArg (fun w => w.space? id) h
  simp only [space?_forgetLoops, hs, Option.map_some] at hsame
  obtain ⟨s2, hs2, hforget⟩ := Option.map_eq_some_iff.mp hsame.symm
  exact ⟨s2, hs2, hforget.symm⟩

theorem Workspace.Alike.eq {α : Type} {ws ws2 : Workspace} (h : ws.Alike ws2) {f : Workspace → α}
    (hf : ∀ w, f w.forgetLoops = f w) : f ws = f ws2 := by
  rw [← hf ws, ← hf ws2, h]

theorem AddressSpace.eq_of_forget {α : Type} {s s2 : AddressSpace} (h : s.forget = s2.forget)
    {f : AddressSpace → α} (hf : ∀ q, f q.forget = f q) : f s = f s2 := by
  rw [← hf s, ← hf s2, h]

/-! ### Work on workspaces that are alike -/

def Workspace.Matches (ws ws2 : Workspace) : Prop := ws.policy.alignedLoops = true ∧ ws.Alike ws2

namespace Build

open Workspace (Matches)

variable {α β : Type}

/-- Whenever the work `x` goes through with aligned loops, so does `y` from every workspace that is
alike, to one that is alike, with an answer related by `S`. -/
def Mirrors (S : α → β → Prop) (x : Build α) (y : Build β) : Prop :=
  ∀ ⦃ws ws2 a ws'⦄, ws.policy.alignedLoops = true → ws.Alike ws2 → x ws = .ok a ws' →
    ws'.policy.alignedLoops = true ∧ ∃ b ws2', y ws2 = .ok b ws2' ∧ ws'.Alike ws2' ∧ S a b

/-- The work does not look at the addresses that are asked for in loops. -/
abbrev Blind (x : Build α) : Prop := Mirrors Eq x x

theorem InStep.blind {x : Build α} (h : InStep Matches x) : Blind x := by
  intro ws ws2 a ws' hp halike hrun
  obtain ⟨b, ws2', hb, ⟨hp', halike'⟩, hab⟩ := h ⟨hp, halike⟩ hrun
  exact ⟨hp', b, ws2', hb, halike', hab⟩

theorem inStep_read {f : Workspace → β} (hf : ∀ ws, f ws.forgetLoops = f ws) {g : β → Build α}
    (hg : ∀ b, InStep Matches (g b)) : InStep Matches (getThe Workspace >>= fun ws => g (f ws)) := by
  refine couples_get.bind fun ws ws2 h => ?_
  rw [h.2.eq hf]
  exact hg _

theorem inStep_modify {f : Workspace → Workspace} (hf : ∀ ws, (f ws).forgetLoops = f ws.forgetLoops)
    (hp : ∀ ws, (f ws).policy = ws.policy) : InStep Matches (modify f : Build PUnit) := by
  intro ws ws2 u ws' h hrun
  cases hrun
  refine ⟨PUnit.unit, f ws2, rfl, ⟨(hp ws).symm ▸ h.1, ?_⟩, rfl⟩
  unfold Workspace.Alike
  rw [hf, hf, h.2]

end Build

open Build
open Workspace (Matches)

/-! ### Reading and changing -/

theorem RegisterId.get_inStep (id : RegisterId) : InStep Matches id.get :=
  inStep_read (f := fun ws => ws.registers[id.index]?) (fun _ => rfl) inStep_entryOf

theorem PassengerId.get_inStep (id : PassengerId) : InStep Matches id.get :=
  inStep_read (f := fun ws => ws.passengers[id.index]?) (fun _ => rfl) inStep_entryOf

theorem BusId.get_inStep (id : BusId) : InStep Matches id.get :=
  inStep_read (f := fun ws => ws.busses[id.index]?) (fun _ => rfl) inStep_entryOf

theorem RegisterId.update_inStep (id : RegisterId) (f : Register → Register) :
    InStep Matches (id.update f) :=
  id.get_inStep.andThen fun _ => inStep_modify (fun _ => rfl) fun _ => rfl

theorem PassengerId.update_inStep (id : PassengerId) (f : Passenger → Passenger) :
    InStep Matches (id.update f) :=
  id.get_inStep.andThen fun _ => inStep_modify (fun _ => rfl) fun _ => rfl

namespace SpaceId

theorem get_couples (id : SpaceId) : Couples Matches (fun s s2 => s.forget = s2.forget) id.get id.get := by
  intro ws ws2 s ws' hm h
  obtain ⟨hs, rfl⟩ := get_ok h
  obtain ⟨s2, hs2, hforget⟩ := hm.2.space? hs
  exact ⟨s2, ws2, get_of_space? hs2, hm, hforget⟩

theorem update_couples (id : SpaceId) {f g : AddressSpace → AddressSpace}
    (h : ∀ s s2, s.forget = s2.forget → (f s).forget = (g s2).forget) :
    Couples Matches Eq (id.update f) (id.update g) := by
  intro ws ws2 u ws' hm hrun
  obtain ⟨s, hs, rfl⟩ := update_ok hrun
  obtain ⟨s2, hs2, hforget⟩ := hm.2.space? hs
  refine ⟨(), _, update_of_space? hs2 g, ⟨hm.1, ?_⟩, rfl⟩
  unfold Workspace.Alike
  rw [Workspace.forgetLoops_setSpace, Workspace.forgetLoops_setSpace, h s s2 hforget, hm.2]

theorem updateRegion_inStep (id : SpaceId) (f : Region Occupant → Region Occupant) :
    InStep Matches (id.updateRegion f) := by
  refine id.update_couples fun s s2 h => ?_
  have hregion : s.region = s2.region := AddressSpace.eq_of_forget h fun _ => rfl
  show ({ s.forget with region := f s.region } : AddressSpace) = { s2.forget with region := f s2.region }
  rw [h, hregion]

theorem region_inStep (id : SpaceId) : InStep Matches id.region :=
  id.get_couples.bind fun _ _ h => couples_pure (AddressSpace.eq_of_forget h fun _ => rfl)

theorem onRegion_inStep {α : Type} (id : SpaceId) (f : Region Occupant → Region.Outcome Occupant α) :
    InStep Matches (id.onRegion f) := by
  unfold onRegion
  refine id.region_inStep.andThen fun r => (id.updateRegion_inStep _).andThen fun _ => ?_
  split
  · exact inStep_pure _
  · exact couples_get.bind fun _ _ _ => couples_throw

theorem depthBound_inStep : InStep Matches depthBound :=
  inStep_read (f := fun ws => ws.spaces.size + 1)
    (fun _ => congrArg (· + 1) (Array.size_map ..)) inStep_pure

theorem setPathUpTo_inStep (fuel : Nat) (id : SpaceId) (path : Path) :
    InStep Matches (setPathUpTo fuel id path) := by
  induction fuel generalizing id path with
  | zero => exact couples_throw
  | succ fuel ih =>
    unfold setPathUpTo
    refine (id.updateRegion_inStep _).andThen fun _ => id.region_inStep.andThen fun r => ?_
    refine (couples_forIn fun entry _ => ?_).andThen fun _ => ?_
    · split
      · exact (region_inStep _).andThen fun _ => (inStep_lift _).andThen fun _ =>
          (ih _ _).andThen fun _ => inStep_pure _
      · exact inStep_pure _
    · split
      · exact couples_refuse
      · exact inStep_pure _

theorem setBaseUpTo_inStep (fuel : Nat) (id : SpaceId) (base : Int) :
    InStep Matches (setBaseUpTo fuel id base) := by
  induction fuel generalizing id base with
  | zero => exact couples_throw
  | succ fuel ih =>
    unfold setBaseUpTo
    refine (id.updateRegion_inStep _).andThen fun _ => id.region_inStep.andThen fun r => ?_
    refine (couples_forIn fun slot _ => ?_).andThen fun _ => inStep_pure _
    split
    · exact (ih _ _).andThen fun _ => inStep_pure _
    · exact inStep_pure _

end SpaceId

namespace Occupant

section

variable (o : Occupant)

include o

theorem name?_inStep : InStep Matches o.name? := by
  cases o with
  | register id =>
    exact id.get_inStep.andThen fun r => (inStep_lift _).andThen fun _ => inStep_pure _
  | space id => exact id.region_inStep.andThen fun _ => inStep_pure _
  | passenger id | bus id => exact id.get_inStep.andThen fun _ => inStep_pure _
  | nothing | number _ | text _ => exact inStep_pure _

theorem block?_inStep : InStep Matches o.block? := by
  cases o with
  | register id | bus id => exact id.get_inStep.andThen fun _ => inStep_pure _
  | space id =>
    exact id.get_couples.bind fun _ _ h =>
      couples_pure (AddressSpace.eq_of_forget h fun _ => rfl)
  | passenger id =>
    exact id.get_inStep.andThen fun p => p.bus.get_inStep.andThen fun _ => inStep_pure _
  | nothing | number _ | text _ => exact inStep_pure _

theorem copies_inStep : InStep Matches o.copies := by
  cases o with
  | register id | passenger id => exact id.get_inStep.andThen fun _ => inStep_pure _
  | space _ | bus _ | nothing | number _ | text _ => exact couples_refuse

theorem declaredWidth_inStep : InStep Matches o.declaredWidth := by
  cases o with
  | register id | passenger id | bus id => exact id.get_inStep.andThen fun _ => inStep_pure _
  | space id => exact id.region_inStep.andThen fun _ => inStep_pure _
  | nothing | number _ | text _ => exact inStep_pure _

theorem setBlockAw_inStep (aw : Int) : InStep Matches (o.setBlockAw aw) := by
  cases o with
  | register id | passenger id => exact id.update_inStep _
  | space _ | bus _ | nothing | number _ | text _ => exact inStep_pure _

theorem setBase_inStep (base : Int) : InStep Matches (o.setBase base) := by
  cases o with
  | register id | passenger id => exact id.update_inStep _
  | bus id =>
    exact id.get_inStep.andThen fun b => (inStep_lift _).andThen fun b' =>
      inStep_modify (fun _ => rfl) fun _ => rfl
  | space id =>
    have hset : InStep Matches (id.setBase base) :=
      SpaceId.depthBound_inStep.andThen fun n => SpaceId.setBaseUpTo_inStep n id base
    exact hset.andThen fun _ => id.updateRegion_inStep _
  | nothing | number _ | text _ => exact inStep_pure _

end

end Occupant

/-! ### Resolutions -/

theorem Shelf.akin_iff {shelf : Shelf} {r r2 : Staged} :
    Build.Akin True (fun _ _ => True) shelf r r2 ↔ shelf.forget r = shelf.forget r2 := by
  refine ⟨fun h => ?_, fun h => ?_⟩
  · rcases h.addr with rfl | ⟨rfl, -⟩
    · rfl
    · show r.forget = r2.forget
      unfold Staged.forget
      rw [h.item, h.width, h.placed]
  · obtain ⟨hitem, hwidth, hplaced⟩ := eq_of_forget h
    refine ⟨trivial, hitem, hwidth, hplaced, ?_⟩
    by_cases hs : shelf = .explicitLoops
    · exact .inr ⟨hs, trivial⟩
    · rw [forget_of_ne hs] at h
      exact .inl h

theorem AddressSpace.forall₂_akin {s s2 : AddressSpace} (h : s.forget = s2.forget) (shelf : Shelf) :
    List.Forall₂ (Build.Akin True (fun _ _ => True) shelf) (s.ledger.on shelf) (s2.ledger.on shelf) := by
  have hon : (s.ledger.on shelf).map shelf.forget = (s2.ledger.on shelf).map shelf.forget := by
    rw [← Ledger.on_forget, ← Ledger.on_forget]
    exact congrArg (fun q : AddressSpace => q.ledger.on shelf) h
  rw [← List.forall₂_eq_eq_eq, List.forall₂_map_left_iff, List.forall₂_map_right_iff] at hon
  exact hon.imp fun _ _ => Shelf.akin_iff.mpr

namespace SpaceId

theorem mark_couples (id : SpaceId) {shelf : Shelf} {n : Nat} {r r2 : Staged}
    (h : shelf.forget r = shelf.forget r2) :
    Couples Matches Eq (id.updateLedger fun l => l.put shelf ((l.on shelf).set n r))
      (id.updateLedger fun l => l.put shelf ((l.on shelf).set n r2)) := by
  refine id.update_couples fun s s2 hs => ?_
  have hledger : s.ledger.forget = s2.ledger.forget := congrArg AddressSpace.ledger hs
  have hmark (q : AddressSpace) (p : Staged) :
      ({ q with ledger := q.ledger.put shelf ((q.ledger.on shelf).set n p) } : AddressSpace).forget =
        { q.forget with ledger := q.ledger.forget.put shelf ((q.ledger.forget.on shelf).set n
          (shelf.forget p)) } := by
    unfold AddressSpace.forget
    simp only [Ledger.forget_put, Ledger.on_forget, List.map_set]
  rw [hmark, hmark, hs, hledger, h]

theorem lockstep_matches : Build.Lockstep True Matches Eq (fun _ _ => True) fun _ => True where
  policy h := h.2.eq fun _ => rfl
  aligned _ _ _ h := h.1
  block b := inStep_read (f := fun ws => ws.blocks[b.index]?) (fun _ => rfl) inStep_entryOf
  region := by
    rintro i _ rfl
    exact i.region_inStep.imp fun _ _ hr => hr ▸ ⟨rfl, rfl⟩
  place := by
    rintro i _ _ rfl - _ _
    exact i.onRegion_inStep _
  check := by
    rintro i _ rfl
    exact i.onRegion_inStep _
  base := by
    rintro i _ rfl width start
    exact i.onRegion_inStep fun r => (r, r.availableBase width start)
  name _ := Occupant.name?_inStep _
  path _ := ⟨(region_inStep _).imp fun _ _ hr => hr ▸ rfl,
    fun path => depthBound_inStep.andThen fun n => setPathUpTo_inStep n _ path⟩
  tell _ := Occupant.setBase_inStep _
  item := id
  copies _ _ := (Occupant.copies_inStep _).imp fun _ _ hc => ⟨hc, fun _ _ => trivial⟩
  blockAw _ := Occupant.setBlockAw_inStep _
  block? _ := Occupant.block?_inStep _
  inner _ := rfl
  width _ := Occupant.declaredWidth_inStep _
  reserve _ _ _ := onRegion_inStep _ _
  shrink _ := onRegion_inStep _ _
  ledger _ := (get_couples _).imp fun _ _ h => ⟨AddressSpace.eq_of_forget h fun _ => rfl,
    AddressSpace.eq_of_forget h (f := fun q => q.ledger.resolved) fun _ => rfl,
    AddressSpace.eq_of_forget h (f := fun q => q.ledger.passes) fun _ => rfl,
    AddressSpace.eq_of_forget h (f := fun q => q.ledger.passCount) fun _ => rfl,
    AddressSpace.forall₂_akin h⟩
  mark _ h _ := mark_couples _ (Shelf.akin_iff.mp h)
  finish _ := update_couples _ fun _ _ h => congrArg (fun p : AddressSpace =>
    { p with ledger := { p.ledger with resolved := true } }) h

/-- Where items in loops are asked for does not matter for a resolution. -/
theorem resolve_blind (id : SpaceId) : Blind id.resolve := by
  refine Build.InStep.blind (Couples.andThen ?_ fun fuel => lockstep_matches.resolveUpTo fuel rfl)
  exact depthBound_inStep.andThen fun n => inStep_pure (4 * n)

end SpaceId

/-! ### Addresses that count -/

/-- **Explicit addresses.**  When a space with aligned loops is resolved, a leaf outside loops has the
address that it was asked for at, if it was asked for at no other one.  Addresses asked for in loops
count for nothing: every workspace that differs in these only is resolved as well, with the same
addresses of all leaves. -/
theorem resolve_honours_explicits {ws ws' : Workspace} {id : SpaceId} {s : AddressSpace} {u : Unit}
    (hs : ws.space? id = some s) (haligned : ws.policy.alignedLoops = true)
    (hopen : s.ledger.resolved = false) (hpass : s.ledger.PlacesExplicits)
    (h : id.resolve ws = .ok u ws') :
    (∀ r ∈ s.ledger.explicits, ∀ a, r.addr = some a → r.placed = false → ws.OnlyAt r.item a →
      ws'.baseOf r.item = some a) ∧
    ∀ ws2, ws.Alike ws2 → ∃ ws2', id.resolve ws2 = .ok u ws2' ∧ ∀ x, ws2'.baseOf x = ws'.baseOf x := by
  refine ⟨fun r hr a _ hnew ho => SpaceId.resolve_explicit ho hs hopen hpass hr rfl hnew h, ?_⟩
  intro ws2 halike
  obtain ⟨-, _, ws2', hrun, halike', rfl⟩ := id.resolve_blind haligned halike h
  exact ⟨ws2', hrun, fun x => (halike'.eq (f := fun w => w.baseOf x) fun _ => rfl).symm⟩

/-- A space with a register that is asked for at 15, and one with a loop that is asked for at an
address. -/
def pinned (addr : Int) : Workspace :=
  let register (name : String) (block : Option BlockId) (copies : List RegisterId) : Register :=
    { kind := .word, given := some name, size := 1, dw := 8, aw := 0, base := none
      description := none, source := .none, access := Access.readWrite, label := none
      depth := (none, none), blockAw := none, block := block, copies := copies }
  let space (ledger : Ledger) : AddressSpace :=
    { kind := .bus
      region :=
        { span := (0, 16), base := 0, relativeBase := 0, aw := 4, extent := 16, taken := []
          vacant := [⟨0, 16, false⟩], reserved := [], path := none, label := "s", inset := 0 }
      ledger := { ledger with passes := SpaceKind.bus.passes, passCount := 4 } }
  { registers := #[register "a" none [], register "b" (some ⟨0⟩) [⟨1⟩, ⟨2⟩],
      register "b" (some ⟨0⟩) []]
    blocks := #[⟨"g", some ⟨"i", "0", .lt, "2", .add, "1", some 2, 0⟩⟩]
    spaces := #[space { explicits := [⟨.register ⟨0⟩, some 15, some 0, false⟩] },
      space { explicitLoops := [⟨.register ⟨1⟩, some addr, some 0, false⟩] }] }

theorem pinned_onlyAt (addr : Int) : (pinned addr).OnlyAt (.register ⟨0⟩) 15 := by
  have hspace {j s} (hs : (pinned addr).space? j = some s) :
      (pinned addr).space? ⟨0⟩ = some s ∨ (pinned addr).space? ⟨1⟩ = some s := by
    obtain ⟨n⟩ := j
    match n with
    | 0 => exact .inl hs
    | 1 => exact .inr hs
    | n + 2 => cases hs
  refine ⟨rfl, fun {j s shelf r} hs hr hx => ?_, fun {j s shelf r} hs hr hshelf => ?_⟩
  · rcases hspace hs with hs | hs
    · obtain rfl := Option.some.inj hs
      cases shelf with
      | explicits =>
        rw [List.mem_singleton.mp hr]
        exact ⟨rfl, rfl⟩
      | keepouts | entries | loops | explicitLoops => cases hr
    · obtain rfl := Option.some.inj hs
      cases shelf with
      | explicitLoops =>
        rw [List.mem_singleton.mp hr] at hx
        cases hx
      | keepouts | explicits | entries | loops => cases hr
  · rcases hspace hs with hs | hs
    · obtain rfl := Option.some.inj hs
      rcases hshelf with rfl | rfl <;> cases hr
    · obtain rfl := Option.some.inj hs
      rcases hshelf with rfl | rfl
      · cases hr
      · rw [List.mem_singleton.mp hr]
        show Occupant.register ⟨0⟩ ∉ [Occupant.register ⟨1⟩, Occupant.register ⟨2⟩]
        decide

theorem pinned_alike (addr addr2 : Int) : (pinned addr).Alike (pinned addr2) := by
  simp [Workspace.Alike, Workspace.forgetLoops, pinned, AddressSpace.forget, Ledger.forget,
    Staged.forget]

/-- The register stands at 15, and the loop at 0, whether it is asked for at 8 or at 4. -/
theorem resolve_honours_explicits_pinned :
    (∃ ws', (⟨0⟩ : SpaceId).resolve (pinned 8) = .ok () ws' ∧
      ws'.baseOf (.register ⟨0⟩) = some 15) ∧
    ∃ ws' ws2', (⟨1⟩ : SpaceId).resolve (pinned 8) = .ok () ws' ∧
      ws'.baseOf (.register ⟨1⟩) = some 0 ∧
      (⟨1⟩ : SpaceId).resolve (pinned 4) = .ok () ws2' ∧ ∀ x, ws2'.baseOf x = ws'.baseOf x := by
  obtain ⟨_, ws', h⟩ : ∃ u ws', (⟨0⟩ : SpaceId).resolve (pinned 8) = .ok u ws' :=
    Build.exists_ok (by decide +kernel)
  obtain ⟨_, w, hw⟩ : ∃ u ws', (⟨1⟩ : SpaceId).resolve (pinned 8) = .ok u ws' :=
    Build.exists_ok (by decide +kernel)
  obtain ⟨hexplicit, -⟩ := resolve_honours_explicits rfl rfl rfl (by decide) h
  obtain ⟨-, hloop⟩ := resolve_honours_explicits rfl rfl rfl (by decide) hw
  obtain ⟨w2, hw2, hsame⟩ := hloop (pinned 4) (pinned_alike 8 4)
  have hzero : w.baseOf (.register ⟨1⟩) = some 0 := by
    have hafter : (Build.after (SpaceId.resolve ⟨1⟩) (pinned 8)).baseOf (.register ⟨1⟩) = some 0 := by
      decide +kernel
    rwa [Build.after, hw] at hafter
  exact ⟨⟨ws', h, hexplicit _ List.mem_cons_self 15 rfl rfl (pinned_onlyAt 8)⟩, w, w2, hw, hzero, hw2,
    hsame⟩

end RegisterMap
