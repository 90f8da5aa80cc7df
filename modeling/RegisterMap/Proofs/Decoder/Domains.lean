import RegisterMap.Decoder.Basic
import RegisterMap.Proofs.Design.Places

/-! # The domains of a decoder

Growing a decoder changes no more of a workspace than tags and hosts (`Workspace.Equips`), so all that a
decoder knows can be said of the workspace from which it was grown.  A domain of a decoder knows a
space (`Domain.Describes`): its width, its address and the name of its instance. -/

namespace RegisterMap

open Option

def AddressSpace.untagged (s : AddressSpace) : AddressSpace := { s with implicit := [] }

def Workspace.Resolved (ws : Workspace) (id : SpaceId) : Prop :=
  ∃ s, ws.space? id = some s ∧ s.ledger.resolved = true

/-- Nothing but tags of spaces, hosts of passengers and what is printed may change. -/
structure Workspace.Equips (ws ws' : Workspace) : Prop where
  rest : ws' = { ws with
    spaces := ws'.spaces, passengers := ws'.passengers, transcript := ws'.transcript }
  spaces : ∀ j, (ws'.space? j).map AddressSpace.untagged = (ws.space? j).map AddressSpace.untagged

instance : IsPreorder Workspace Workspace.Equips where
  refl _ := ⟨rfl, fun _ => rfl⟩
  trans _ _ _ h h' := ⟨by rw [h'.rest, h.rest], fun j => (h'.spaces j).trans (h.spaces j)⟩

namespace Workspace.Equips

variable {w ws ws' : Workspace} {id : SpaceId} {s : AddressSpace}

theorem refl (ws : Workspace) : ws.Equips ws := Std.Refl.refl ws

section

variable (h : w.Equips ws)

include h

theorem trans (h' : ws.Equips ws') : w.Equips ws' := IsTrans.trans _ _ _ h h'

theorem space?_eq (hs : ws.space? id = some s) :
    ∃ s0, w.space? id = some s0 ∧ s.untagged = s0.untagged := by
  have hspace := h.spaces id
  rw [hs] at hspace
  obtain ⟨s0, hs0, he⟩ := map_eq_some_iff.mp hspace.symm
  exact ⟨s0, hs0, he.symm⟩

theorem resolved (hr : w.Resolved id) : ws.Resolved id := by
  obtain ⟨s0, hs0, hset⟩ := hr
  obtain ⟨s, hs, he⟩ := map_eq_some_iff.mp ((h.spaces id).trans (congrArg _ hs0))
  have hledger : s.ledger = s0.ledger := congrArg (fun t => t.ledger) he
  exact ⟨s, hs, by rw [hledger, hset]⟩

theorem registers : ws.registers = w.registers := by rw [h.rest]

theorem busses : ws.busses = w.busses := by rw [h.rest]

theorem blocks : ws.blocks = w.blocks := by rw [h.rest]

theorem policy : ws.policy = w.policy := by rw [h.rest]

theorem domainOf_eq (id : SpaceId) : ws.domainOf id = w.domainOf id := by
  have hspace := congrArg (fun o => o.map AddressSpace.domain) (h.spaces id)
  rw [map_map, map_map] at hspace
  exact congrArg (·.getD .none) hspace

theorem contains {slot : Slot Occupant} {c : SpaceId} (hslot : ws.Contains id slot c) :
    w.Contains id slot c := by
  obtain ⟨s, hs, hmem, hitem⟩ := hslot
  obtain ⟨s0, hs0, he⟩ := h.space?_eq hs
  have hregion : s.region = s0.region := congrArg (fun t => t.region) he
  rw [hregion] at hmem
  exact ⟨s0, hs0, hmem, hitem⟩

end

theorem printed (ws : Workspace) (text : String) : ws.Equips { ws with transcript := text } :=
  ⟨rfl, fun _ => rfl⟩

theorem setSpace (hs : ws.space? id = some s) {s' : AddressSpace} (h : s'.untagged = s.untagged) :
    ws.Equips (ws.setSpace id s') := by
  refine ⟨rfl, fun j => ?_⟩
  by_cases hj : id = j
  · subst hj
    rw [space?_setSpace_self hs, hs, map_some, map_some, h]
  · rw [space?_setSpace_of_ne hj]

end Workspace.Equips

namespace Decoder

open Build
open Workspace (Equips)

variable {w : Workspace} {P : Workspace → Prop}

theorem say_equips (line : String) : Ensures Equips w.Equips (Build.say line) fun _ => w.Equips :=
  ensures_modify fun ws h => ⟨.printed ws _, h.trans (.printed ws _)⟩

theorem note_equips (line : String) : Ensures Equips w.Equips (Build.note line) fun _ => w.Equips := by
  refine Ensures.bind ensures_get fun ws => ?_
  split
  · exact (say_equips line).pre fun _ h => h.2
  · exact ensures_pure fun _ h => h.2

theorem setHost_equips (id : PassengerId) (host : BusId) :
    Ensures Equips w.Equips (id.setHost host) fun _ => w.Equips := by
  intro ws u ws' h hrun
  obtain ⟨_, ws1, hup, hrun1⟩ := bind_ok hrun
  obtain ⟨p, -, rfl⟩ := PassengerId.update_ok hup
  have hstep : ws.Equips { ws with
      passengers := ws.passengers.setIfInBounds id.index { p with host := some host } } :=
    ⟨rfl, fun _ => rfl⟩
  obtain ⟨q, -, hrun2⟩ := bind_entryOf_ok hrun1
  obtain ⟨b, -, hrun3⟩ := bind_entryOf_ok hrun2
  obtain ⟨b', -, hrun4⟩ := bind_entryOf_ok hrun3
  obtain ⟨-, rfl⟩ := lift_ok hrun4
  exact ⟨hstep, h.trans hstep⟩

theorem readOnly_block? (id : PassengerId) : ReadOnly id.block? := by
  refine id.readOnly_get.bind fun p => p.bus.readOnly_get.bind fun b => ?_
  cases b.block with
  | none => exact readOnly_pure _
  | some block => exact block.readOnly_get.bind fun _ => readOnly_pure _

/-! ### Domains -/

namespace Domain

/-- The domain without the items that are decoded in it. -/
def bare (d : Domain) : Domain :=
  { space := d.space, domain := d.domain, bus := d.bus, aw := d.aw, inst := d.inst, module := d.module,
    base := d.base }

variable {d : Domain}

theorem branchOf_equips (kind : String) (r : Register) :
    Ensures Equips w.Equips (branchOf kind r) fun _ => w.Equips := by
  unfold branchOf
  cases r.block with
  | none => exact ensures_pure fun _ h => h
  | some id =>
    refine Ensures.bind (Q := fun _ => w.Equips) ?_ fun _ => ensures_pure fun _ h => h
    refine Ensures.bind (ensures_lift.imp fun _ _ h => h.2) fun name => ?_
    refine Ensures.bind (ReadOnly.keeps fun _ _ _ h => (entryOf_ok h).2) fun block => ?_
    exact (note_equips _).bind fun _ => ensures_pure fun _ h => h

theorem add_bare (start stop : Option Int) (item : Occupant) :
    Ensures Equips w.Equips (d.add start stop item) fun d' ws => d'.bare = d.bare ∧ w.Equips ws := by
  unfold Domain.add
  cases item with
  | register id =>
    refine Ensures.bind (ReadOnly.keeps id.readOnly_get) fun r => ?_
    cases r.kind with
    | net =>
      refine (branchOf_equips _ r).bind fun branch => ?_
      refine Ensures.bind (ensures_lift.imp fun _ _ h => h.2) fun stop' => ensures_pure fun ws hw => ⟨?_, hw⟩
      cases branch <;> rfl
    | memory =>
      refine (branchOf_equips _ r).bind fun branch => ?_
      cases branch with
      | none | some _ => exact ensures_pure fun ws hw => ⟨rfl, hw⟩
    | word | words => exact ensures_pure fun ws hw => ⟨rfl, hw⟩
  | passenger id =>
    refine (setHost_equips id d.bus).bind fun _ => ?_
    refine Ensures.bind (ReadOnly.keeps (readOnly_block? id)) fun block => ?_
    cases block with
    | none | some _ => exact ensures_pure fun ws hw => ⟨rfl, hw⟩
  | _ => exact ensures_pure fun ws hw => ⟨rfl, hw⟩

theorem addAll_bare (items : List (Option Int × Option Int × Occupant)) :
    Ensures Equips w.Equips (items.foldlM (fun d (start, stop, item) => d.add start stop item) d)
      fun d' ws => d'.bare = d.bare ∧ w.Equips ws := by
  refine (ensures_foldlM (fun _ d' ws => bare d' = d.bare ∧ w.Equips ws) fun _ x _ _ d' => ?_).pre
    fun ws hw => ⟨rfl, hw⟩
  exact Ensures.given fun hd => (add_bare x.1 x.2.1 x.2.2).imp fun _ _ h => h.imp_left (·.trans hd)

/-- The slots of a space as items with their ranges. -/
def slotItems (s : AddressSpace) : List (Option Int × Option Int × Occupant) :=
  s.region.taken.map fun slot => (some slot.lo, some slot.hi, slot.item)

/-- What a domain knows of the space that it decodes. -/
structure Describes (w : Workspace) (id : SpaceId) (d : Domain) : Prop where
  space : d.space = id
  entry : ∃ s, w.space? id = some s ∧ d.domain = s.domain ∧ d.aw = s.region.aw ∧ d.base = s.region.base ∧
    ∃ path, s.region.path = some path ∧ path.last = .ok d.inst

section

variable {id : SpaceId}

theorem Describes.domain (h : Describes w id d) : d.domain = w.domainOf id := by
  obtain ⟨s, hs, hd, -⟩ := h.entry
  rw [Workspace.domainOf_eq hs, hd]

theorem Describes.base (h : Describes w id d) : d.base = w.origin id := by
  obtain ⟨s, hs, -, -, hb, -⟩ := h.entry
  rw [Workspace.origin_eq hs, hb]

theorem Describes.aw (h : Describes w id d) : d.aw = w.widthOf (.space id) := by
  obtain ⟨s, hs, -, haw, -⟩ := h.entry
  rw [Workspace.widthOf_space hs, haw]

end

theorem readOnly_busOf (busses : List BusId) (ports : BusId) (s : AddressSpace) :
    ReadOnly (busOf busses ports s) := by
  intro ws b ws' hrun
  unfold busOf at hrun
  split at hrun
  · obtain ⟨named, ws1, hnamed, hrest⟩ := bind_ok hrun
    obtain ⟨hws, -⟩ := filterM_ok hnamed fun id _ c w hid =>
      (readOnly_entryOf _).bind (fun _ => readOnly_pure _) hid
    cases hlast : named.getLast? with
    | some id =>
      rw [hlast] at hrest
      exact (pure_ok hrest).2.trans hws
    | none =>
      rw [hlast] at hrest
      exact (refuse_ok hrest).elim
  · exact (pure_ok hrun).2

theorem contents_settled {ws ws' : Workspace} {id : SpaceId} {s : AddressSpace} (hs : ws.space? id = some s)
    (hr : s.ledger.resolved = true) {items : List (Option Int × Option Int × Occupant)}
    (h : id.contents ws = .ok items ws') : items = slotItems s ∧ ws' = ws := by
  unfold SpaceId.contents at h
  rw [bind_of_ok (SpaceId.get_of_space? hs), if_neg (by simp [hr])] at h
  exact pure_ok h

theorem ofSpace_describes (busses : List BusId) (ports : BusId) (id : SpaceId)
    (ha : w.policy.alignedLoops = true) :
    Ensures Equips w.Equips (ofSpace busses ports id) fun d ws => Describes w id d ∧ w.Equips ws := by
  intro ws d ws' hw hrun
  unfold ofSpace at hrun
  obtain ⟨s1, hs1, hrun1⟩ := SpaceId.bind_get_ok hrun
  obtain ⟨s, hs, he⟩ := hw.space?_eq hs1
  have hregion : s1.region = s.region := congrArg (fun t => t.region) he
  have hdomain : s1.domain = s.domain := congrArg (fun t => t.domain) he
  obtain ⟨bus, -, hrun2⟩ := (readOnly_busOf _ _ _).bind_ok hrun1
  obtain ⟨path, hpath, hrun3⟩ := bind_lift_ok hrun2
  obtain ⟨inst, hinst, hrun4⟩ := bind_lift_ok hrun3
  -- the space is tagged
  obtain ⟨_, ws1, hup, hrun5⟩ := bind_ok hrun4
  obtain ⟨s2, hs2, rfl⟩ := SpaceId.update_ok hup
  obtain rfl := mem_unique hs1 hs2
  have htag : ws.Equips (ws.setSpace id
      { s1 with implicit := if s1.topTag then [] else [s1.domain] }) := .setSpace hs1 rfl
  -- its items are gone through
  obtain ⟨items, -, hrun6⟩ := id.readOnly_contents.bind_ok hrun5
  obtain ⟨d1, ws2, hfold, hrun7⟩ := bind_ok hrun6
  obtain ⟨hstep, hbare, hw2⟩ := addAll_bare items (hw.trans htag) hfold
  -- there is nothing to join
  obtain ⟨d2, ws3, hjoin, hrun8⟩ := bind_ok hrun7
  obtain ⟨rfl, rfl⟩ : d2 = d1 ∧ ws3 = ws2 := by
    have hjoin1 := Build.bind_get_ok hjoin
    rw [if_pos (by rw [hw2.policy]; exact ha)] at hjoin1
    exact pure_ok hjoin1
  obtain ⟨localAw, -, hrun9⟩ := bind_lift_ok hrun8
  obtain ⟨b, -, hrun10⟩ := bind_entryOf_ok hrun9
  obtain ⟨_, ws4, hloop, hrun11⟩ := bind_ok hrun10
  obtain rfl : ws4 = ws3 := forIn_ok hloop (fun _ w => w = ws3) rfl
    fun done r rest _ w1 w2 step hw1 hround => by
      obtain ⟨r', -, hround1⟩ := bind_entryOf_ok hround
      obtain ⟨_, -, hround2⟩ := bind_lift_ok hround1
      obtain ⟨hyield, rfl⟩ := pure_ok hround2
      exact ⟨hyield, hw1⟩
  obtain ⟨_, -, hrun12⟩ := bind_lift_ok hrun11
  obtain ⟨rfl, rfl⟩ := pure_ok hrun12
  refine ⟨htag.trans hstep, ⟨congrArg (fun d => d.space) hbare, s, hs, ?_, ?_, ?_, path, ?_, ?_⟩, hw2⟩
  · exact (congrArg (fun d => d.domain) hbare).trans hdomain
  · exact (congrArg (fun d => d.aw) hbare).trans (congrArg (fun r => r.aw) hregion)
  · exact (congrArg (fun d => d.base) hbare).trans (congrArg (fun r => r.base) hregion)
  · rw [← hregion]
    exact known_ok hpath
  · rw [hinst]
    exact congrArg (fun d => Except.ok d.inst) hbare.symm

end Domain

end Decoder

end RegisterMap
