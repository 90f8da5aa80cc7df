import RegisterMap.Design.Basic
import RegisterMap.Proofs.Design.Draft
import RegisterMap.Proofs.Table
import RegisterMap.Proofs.Value

/-! # Reading the modules of a design

Reading a module leads from a draft to a draft.  What is known of the module is that each of its spaces
is there under its domain, and that no two of them have the same one (`Module.Homed`). -/

namespace RegisterMap

open Build
open Workspace (Grows)

/-- A new register has no address but the one that it is made with. -/
theorem Register.base_of_create {kind : RegisterKind} {name : Option String} {dw aw : Int}
    {base : Option Int} {source : Value} {access : Access} {label description : Option String}
    {r : Register} (h : Register.create kind name dw aw base source access label description = .ok r) :
    r.base = base := by
  unfold Register.create at h
  dsimp only at h
  split at h
  all_goals
    obtain ⟨_, -, h⟩ := Result.bind_ok h
    cases h
    rfl

theorem PassengerId.readOnly_base (id : PassengerId) : ReadOnly id.base :=
  id.readOnly_get.bind fun p => p.bus.readOnly_get.bind fun _ => readOnly_pure _

namespace Design

/-! ### Nets of busses -/

namespace BusNet

theorem readOnly_passengerName (n : BusNet) : ReadOnly n.passengerName := by
  unfold passengerName
  split
  · exact readOnly_refuse _
  · exact readOnly_pure _

theorem readOnly_block? (n : BusNet) : ReadOnly n.block? := readOnly_optionMapM BlockId.readOnly_get

theorem readOnly_copyName (n : BusNet) : ReadOnly n.copyName := by
  refine n.readOnly_passengerName.bind fun name => n.readOnly_block?.bind fun block => ?_
  split <;> exact readOnly_pure _

theorem readOnly_playOn (n : BusNet) (b : Bus) : ReadOnly (n.playOn b) := by
  unfold playOn
  split
  · refine readOnly_get.bind fun ws => (readOnly_lift _).bind fun range => ?_
    exact readOnly_foldlM (fun b port _ => (readOnly_lift _).bind fun _ =>
      readOnly_pure _) b
  · exact readOnly_refuse _

end BusNet

theorem makePassenger_grows (name : String) (nets : List BusNet) :
    Along Grows (makePassenger name nets) := by
  refine (readOnly_optionMapM BusNet.readOnly_passengerName).along.bind fun basename => ?_
  refine (readOnly_mapM fun n _ => n.readOnly_block?.bind fun _ =>
    readOnly_pure _).along.bind fun branches => ?_
  refine along_lift fun _ _ => along_lift fun _ _ => ?_
  refine along_lift fun _ _ => along_lift fun _ _ => ?_
  refine (readOnly_foldlM (fun b n _ => n.readOnly_playOn b) _).along.bind fun bus => ?_
  refine along_lift fun bus1 _ => along_lift fun bus2 _ => ?_
  refine (BusId.make_grows _).bind fun id => along_lift fun p hp => PassengerId.make_grows ?_
  unfold Passenger.create at hp
  split at hp
  · cases hp
  · obtain ⟨_, -, hp⟩ := Result.bind_ok hp
    cases hp
    rfl

theorem bundle_grows (last : Option PassengerId) (copies : List PassengerCopy) :
    Along Grows (bundle last copies) := by
  unfold bundle
  dsimp only
  split
  · exact (readOnly_optionMapM fun id => id.readOnly_get.bind fun _ =>
      readOnly_pure _).along.bind fun _ => along_throw_bind _ _
  · split
    · exact along_throw_bind _ _
    · split
      · exact along_pure _
      · rename_i first _ _
        refine (along_forIn (fun copy _ => copy.passenger.readOnly_get.along.bind fun p =>
          along_lift fun name _ => Along.bind (copy.passenger.update_grows fun _ => rfl)
            fun _ => along_pure _) _).bind fun _ => ?_
        refine first.passenger.readOnly_get.along.bind fun p => p.bus.readOnly_get.along.bind fun bus => ?_
        refine (readOnly_entryOf _).along.bind fun block => ?_
        refine (block.updateLoop_grows _).bind fun _ => ?_
        exact Along.bind (first.passenger.update_grows fun _ => rfl) fun _ => along_pure _

theorem readOnly_copyOf? (id : PassengerId) : ReadOnly (copyOf? id) := by
  refine (id.readOnly_get.bind fun p => p.bus.readOnly_get.bind fun bus => ?_ : ReadOnly id.block?).bind
    fun block => ?_
  · cases bus.block with
    | none => exact readOnly_pure _
    | some b => exact b.readOnly_get.bind fun _ => readOnly_pure _
  · split
    · exact id.readOnly_get.bind fun _ => readOnly_pure _
    · exact readOnly_pure _

theorem readPassengers_grows (nets : List BusNet) : Along Grows (readPassengers nets) := by
  refine (readOnly_mapM fun n _ => n.readOnly_copyName.bind fun _ =>
    readOnly_pure _).along.bind fun named => ?_
  refine (along_mapM fun e => makePassenger_grows _ _).bind fun ids => ?_
  refine (show ReadOnly _ from fun ws _ _ h => (filterM_ok h fun id _ b w hid =>
    (readOnly_copyOf? id).bind (fun _ => readOnly_pure _) hid).1).along.bind fun alone => ?_
  refine (readOnly_filterMapM fun id _ => readOnly_copyOf? id).along.bind fun copies => ?_
  exact (along_mapM fun e => bundle_grows _ _).bind fun bundles => along_pure _

theorem driverBusses_grows (nets : List BusNet) : Along Grows (driverBusses nets) := by
  refine (along_forIn (fun net _ => along_lift fun _ _ => along_pure _) _).bind fun _ => ?_
  refine (readOnly_mapM fun e _ => readOnly_foldlM (fun b net _ => ?_) _).along.bind
    fun busses => along_mapM BusId.make_grows
  dsimp only
  split
  · exact (readOnly_refuse _).bind fun _ => (net.readOnly_playOn b).bind fun _ =>
      readOnly_lift _
  · exact (net.readOnly_playOn b).bind fun _ => readOnly_lift _

/-! ### Loops -/

namespace LoopGroups

theorem settleCopies_grows (module block : String) (length : Option Nat) (c : LoopCopies) :
    Along Grows (settleCopies module block length c) := by
  unfold settleCopies
  split
  · exact along_pure _
  · rename_i first _ _
    dsimp only
    split
    · exact first.readOnly_get.along.bind fun _ => along_lift fun _ _ => along_throw_bind _ _
    · split
      · exact along_refuse_bind _ _
      · refine first.readDeclaration_grows.bind fun _ => ?_
        refine Along.bind (along_forIn (fun id _ => ?_) _) fun _ => ?_
        · have htake : Along Grows (id.takeDeclaration first >>= fun _ =>
              (pure (.yield PUnit.unit) : Build (ForInStep PUnit))) :=
            (id.takeDeclaration_grows first).bind fun _ => along_pure _
          refine id.readOnly_get.along.bind fun r => ?_
          split
          · exact (BlockId.updateLoop_grows _ _).bind fun _ => htake
          · exact htake
        · refine Along.bind (first.update_grows fun _ => rfl) fun _ => ?_
          refine first.readOnly_get.along.bind fun r => along_lift fun name _ => ?_
          exact (note_grows _).bind fun _ => along_pure _

theorem settle_grows (gs : LoopGroups) (module : String) : Along Grows (gs.settle module) := by
  refine (along_mapM fun ⟨block, group⟩ => ?_).bind fun _ => along_pure _
  dsimp only [settleGroup]
  split
  · exact along_refuse _
  · refine readOnly_get.along.bind fun ws => along_lift fun b _ => ?_
    split
    · exact along_throw_bind _ _
    · refine (along_foldlM (fun a c => ?_) _).bind fun _ => along_pure _
      exact (settleCopies_grows _ _ _ c).bind fun _ => along_pure _

end LoopGroups

/-! ### The spaces of a module -/

namespace Module

variable {m m' : Module} {ws : Workspace}

/-- The spaces of the module are there, each under its domain and none under two. -/
structure Homed (m : Module) (ws : Workspace) : Prop where
  draft : ws.Draft
  space : ∀ e ∈ m.spaces, ∃ s, ws.space? e.2 = some s ∧ s.domain = e.1
  keys : m.spaces.Pairwise fun a b => (a.1 == b.1) = false
  isKey : ∀ e ∈ m.spaces, e.1.isKey = true

theorem homed_stable (m : Module) : Stable Grows m.Homed := by
  intro ws ws' hg h
  obtain ⟨hdraft, -, hspace⟩ := hg h.draft
  refine ⟨hdraft, fun e he => ?_, h.keys, h.isKey⟩
  obtain ⟨s, hs, hd⟩ := h.space e he
  obtain ⟨s', hs', hd'⟩ := hspace e.2 s hs
  exact ⟨s', hs', hd'.trans hd⟩

theorem Homed.congr (h : m.Homed ws) (hs : m'.spaces = m.spaces) : m'.Homed ws :=
  ⟨h.draft, hs ▸ h.space, hs ▸ h.keys, hs ▸ h.isKey⟩

theorem Homed.along {α : Type} {x : Build α} (h : Along Grows x) :
    Ensures Grows m.Homed x fun _ => m.Homed :=
  h.keeps (homed_stable m)

theorem spaceFor_homed (m : Module) (domain : Value) :
    Ensures Grows m.Homed (m.spaceFor domain) fun a => a.1.Homed := by
  unfold spaceFor
  refine ensures_lift.bind fun _ => Ensures.given fun hkey => ?_
  cases hget : Table.get? m.spaces domain with
  | some id => exact ensures_pure fun ws h => h
  | none =>
    intro ws a ws' h hrun
    obtain ⟨id, ws1, hmake, hrun⟩ := bind_ok hrun
    obtain ⟨s, rfl, rfl, hw, -, hdomain, -⟩ := SpaceId.make_bus_ok hmake
    obtain ⟨rfl, rfl⟩ := pure_ok hrun
    have hg : Grows ws { ws with spaces := ws.spaces.push s } := .push hw
    have hold := homed_stable m hg h
    obtain ⟨hkeys, hput⟩ := Table.put_of_get?_eq_none hget (⟨ws.spaces.size⟩ : SpaceId)
    refine ⟨hg, hold.draft, ?_, ?_, ?_⟩
    · rw [hput]
      refine List.forall_mem_append.mpr ⟨hold.space, List.forall_mem_singleton.mpr ⟨s, ?_, hdomain⟩⟩
      exact Array.getElem?_push_size
    · rw [hput]
      refine List.pairwise_append.mpr ⟨h.keys, List.pairwise_singleton _ _, fun a ha b hb => ?_⟩
      rw [List.mem_singleton.mp hb]
      exact hkeys a ha
    · rw [hput]
      exact List.forall_mem_append.mpr ⟨h.isKey,
        List.forall_mem_singleton.mpr (Value.isKey_of_requireKey hkey)⟩

theorem request_homed (m : Module) (domain : Value) (width : Int) {x : Occupant}
    (hx : x.isLeaf = true) (addr : Option Int) :
    Ensures Grows m.Homed (m.request domain width x addr) fun m' => m'.Homed :=
  (m.spaceFor_homed domain).bind fun a => (Homed.along (a.2.add_grows width hx addr)).bind fun _ =>
    ensures_pure fun _ h => h

/-! ### Generate blocks -/

theorem noteAnonymous_grows (m : Module) (block : String) : Along Grows (m.noteAnonymous block) := by
  unfold noteAnonymous
  split
  · exact note_grows _
  · exact along_pure _

theorem enterBlock_grows (what later : String) (parts : Source.BlockName) (name : String)
    (source : Value) : Along Grows (enterBlock what later parts name source) := by
  unfold enterBlock
  split
  · exact (note_grows _).bind fun _ => (BlockId.make_grows _).bind fun _ => along_pure _
  · refine (note_grows _).bind fun _ => Along.bind ?_ fun _ => along_pure _
    unfold readLoop
    split
    · refine readOnly_get.along.bind fun ws => along_lift fun b _ => ?_
      cases b with
      | none => exact along_refuse _
      | some b => exact BlockId.make_grows _
    · exact along_refuse _

theorem netBlock_grows (m : Module) (name : String) (parts : Option Source.BlockName)
    (source : Value) : Along Grows (m.netBlock name parts source) := by
  unfold netBlock
  split
  · exact along_pure _
  · refine (enterBlock_grows _ _ _ _ _).bind fun a => ?_
    dsimp only
    split
    · exact (m.noteAnonymous_grows _).bind fun _ => along_pure _
    · exact along_pure _

theorem memoryBlock_grows (m : Module) (name : String) (parts : Option Source.BlockName)
    (source : Value) : Along Grows (m.memoryBlock name parts source) := by
  unfold memoryBlock
  split
  · exact along_pure _
  · exact (m.noteAnonymous_grows _).bind fun _ => (enterBlock_grows _ _ _ _ _).bind fun _ =>
      along_pure _

/-! ### Instances, registers and memories -/

theorem readInstance_homed (m : Module) (name : String) (cell : Value) :
    Ensures Grows m.Homed (m.readInstance name cell) fun m' => m'.Homed := by
  refine (Homed.along ?_).bind fun ⟨name, block⟩ => ?_
  · refine along_lift fun parts _ => ?_
    cases parts with
    | none => exact along_pure _
    | some parts =>
      refine along_lift fun _ _ => along_lift fun source _ => ?_
      refine (m.noteAnonymous_grows _).bind fun _ => (enterBlock_grows _ _ _ _ _).bind fun a => ?_
      exact a.2.readOnly_get.along.bind fun b => (note_grows _).bind fun _ => along_pure _
  · dsimp only
    split
    · exact ensures_pure fun _ h => h
    · refine ensures_lift.bind fun _ => ensures_lift.bind fun a => ?_
      exact ensures_lift.bind fun _ => ensures_pure fun ws h => h.2.2.2.congr rfl

/-- A register joins the loop around it, or is asked for in the space of its domain. -/
theorem enterRegister_homed (m : Module) (id : RegisterId) (parts : Option Source.BlockName)
    (isMemory : Bool) :
    Ensures Grows m.Homed (m.enterRegister id parts isMemory) fun m' => m'.Homed := by
  refine id.readOnly_get.keeps.bind fun r => ?_
  split
  · split
    · exact (Homed.along (say_grows _)).bind fun _ => ensures_pure fun ws h => h.congr rfl
    · exact ensures_pure fun ws h => h.congr rfl
  · split
    · refine (m.spaceFor_homed _).bind fun a => (Homed.along id.readDeclaration_grows).bind fun _ => ?_
      exact (Homed.along (a.2.add_grows _ rfl _)).bind fun _ => ensures_pure fun _ h => h
    · exact (Homed.along id.readDeclaration_grows).bind fun _ => m.request_homed _ _ rfl _

theorem makeRegister_homed (m : Module) {r : Register} (hb : r.base = none)
    (parts : Option Source.BlockName) (isMemory : Bool) :
    Ensures Grows m.Homed (RegisterId.make r >>= fun id => m.enterRegister id parts isMemory)
      fun m' => m'.Homed :=
  (Homed.along (RegisterId.make_grows hb)).bind fun id => m.enterRegister_homed id parts isMemory

theorem busNet_grows (a : AnnotatedNet) (words : List Value) : Along Grows (busNet a words) := by
  refine along_lift fun _ _ => along_lift fun _ _ => along_lift fun parts _ => ?_
  dsimp only
  split
  · exact (note_grows _).bind fun _ => along_lift fun _ _ => along_pure _
  · exact along_lift fun _ _ => along_pure _

theorem readUse_homed (m : Module) (a : AnnotatedNet) :
    Ensures Grows m.Homed (m.readUse a) fun m' => m'.Homed := by
  unfold readUse
  dsimp only
  split
  · exact ensures_pure fun ws h => h.congr rfl
  · exact ensures_pure fun ws h => h.congr rfl
  · refine ensures_lift.bind fun _ => ensures_lift.bind fun width => ?_
    refine ensures_lift.bind fun initial => ensures_lift.bind fun r => ?_
    refine Ensures.given fun hr => ?_
    have hbase : r.base = none := Register.base_of_create hr
    exact Ensures.pre (m.makeRegister_homed (by exact hbase) _ _) fun ws h => h.2.2.2
  · have hrest : ∀ words, Ensures Grows m.Homed (busNet a words >>= fun net =>
        (pure { m with passengers := m.passengers ++
          [{ net with base := a.annotations.number? .address, signed := a.signed }] } : Build Module))
        fun m' => m'.Homed := fun words =>
      (Homed.along (busNet_grows a words)).bind fun net => ensures_pure fun ws h => h.congr rfl
    unfold readPassengerNet
    split
    · refine (BlockId.readOnly_get _).keeps.bind fun b => ?_
      exact (Homed.along (note_grows _)).bind fun _ => hrest _
    · exact hrest _
  · exact ensures_pure fun ws h => h

theorem readNet_homed (m : Module) (name : String) (net : Value) :
    Ensures Grows m.Homed (m.readNet name net) fun m' => m'.Homed := by
  refine (readOnly_lift _).keeps.bind fun attributes => ?_
  refine (readOnly_lift _).keeps.bind fun a => ?_
  split
  · exact ensures_pure fun ws h => h
  · refine (readOnly_lift _).keeps.bind fun source => ?_
    refine (readOnly_lift _).keeps.bind fun parts => ?_
    refine (Homed.along (m.netBlock_grows _ _ _)).bind fun ⟨inner, block⟩ => ?_
    refine (readOnly_lift _).keeps.bind fun signed => (m.readUse_homed _).bind fun m1 => ?_
    refine ensures_lift.bind fun m2 => Ensures.given fun hm => ?_
    have hspaces : m2.spaces = m1.spaces := by
      unfold noteBranch at hm
      split at hm
      · cases hm
        rfl
      · obtain ⟨_, -, hm⟩ := Result.bind_ok hm
        cases hm
        rfl
    split
    · refine Ensures.andThen (Homed.along (busNet_grows _ _)) (fun ws h => h.congr hspaces) fun net => ?_
      exact ensures_lift.bind fun _ => ensures_pure fun ws h => h.2.congr rfl
    · exact ensures_pure fun ws h => h.congr hspaces

theorem readMemory_homed (last : Option Value) (m : Module) (name : String) (memory : Value) :
    Ensures Grows m.Homed (readMemory last m name memory) fun m' => m'.Homed := by
  refine (readOnly_lift _).keeps.bind fun parts => ?_
  refine (readOnly_lift _).keeps.bind fun attributes => ?_
  refine (readOnly_lift _).keeps.bind fun a => ?_
  split
  · exact ensures_pure fun ws h => h
  · refine (readOnly_lift _).keeps.bind fun source => ?_
    refine (Homed.along (m.memoryBlock_grows _ _ _)).bind fun ⟨inner, block⟩ => ?_
    dsimp only
    split
    · refine (readOnly_lift _).keeps.bind fun signed => ?_
      split
      · exact ensures_pure fun ws h => h
      · refine (readOnly_lift _).keeps.bind fun _ => (readOnly_lift _).keeps.bind fun width => ?_
        refine (readOnly_lift _).keeps.bind fun _ => (readOnly_lift _).keeps.bind fun size => ?_
        refine (readOnly_lift _).keeps.bind fun aw => ?_
        refine ensures_lift.bind fun r => Ensures.given fun hr => ?_
        have hbase : r.base = none := Register.base_of_create hr
        exact m.makeRegister_homed (by exact hbase) _ _
    · exact ensures_refuse_bind

/-! ### What is settled at the end -/

theorem settleSpace_grows (m : Module) (domain : Value) (id : SpaceId) :
    Along Grows (m.settleSpace domain id) := by
  refine Along.bind (along_forIn (fun e _ => id.readOnly_contents.along.bind fun items => ?_) _)
    fun _ => id.update_grows fun s => ⟨rfl, rfl, rfl, rfl⟩
  refine (along_forIn (fun item _ => Along.bind ?_ fun _ => along_pure _) _).bind
    fun _ => along_pure _
  unfold attachStrobe
  split
  · refine (RegisterId.readOnly_get _).along.bind fun r => along_lift fun name _ => ?_
    dsimp only
    split
    · split
      · exact along_refuse_bind _ _
      · refine RegisterId.update_grows _ fun r => ?_
        split <;> rfl
    · exact along_pure _
  · exact along_pure _

theorem settle_homed (m : Module) : Ensures Grows m.Homed m.settle fun a => a.1.Homed := by
  unfold settle
  refine (Homed.along (along_forIn (fun e _ => (m.settleSpace_grows _ _).bind fun _ =>
    along_pure _) _)).bind fun _ => ?_
  refine Ensures.bind (Q := fun m' => m'.Homed) ?_ fun m1 => Ensures.bind (Q := fun m' => m'.Homed) ?_
    fun m2 => Ensures.bind (Homed.along (driverBusses_grows _)) fun _ => ensures_pure fun ws h => h
  · refine (Homed.along (LoopGroups.settle_grows _ _)).bind fun ids => ?_
    refine ensures_foldlM (fun _ (m : Module) => m.Homed) fun _ id _ _ m => ?_
    exact id.readOnly_get.keeps.bind fun r => m.request_homed _ _ rfl _
  · refine (Homed.along (readPassengers_grows _)).bind fun ids => ?_
    refine ensures_foldlM (fun _ (m : Module) => m.Homed) fun _ id _ _ m => ?_
    exact id.readOnly_get.keeps.bind fun p => id.readOnly_base.keeps.bind fun base =>
      m.request_homed _ _ rfl _

end Module

/-- The workspace is a draft, and each module that was read has its spaces in it. -/
structure Progress.Sound (p : Progress) (ws : Workspace) : Prop where
  draft : ws.Draft
  modules : ∀ m ∈ Table.values p.modules, m.Homed ws

theorem readModule_sound (p : Progress) (key : String) (v : Value) :
    Ensures Grows p.Sound (readModule p key v) fun p' => p'.Sound := by
  have hstable : Stable Grows fun ws => ∀ m ∈ Table.values p.modules, m.Homed ws :=
    fun _ _ hg h m hm => m.homed_stable hg (h m hm)
  refine (readOnly_lift _).keeps.bind fun attributes => ?_
  refine (readOnly_lift _).keeps.bind fun visited => ?_
  refine (readOnly_lift _).keeps.bind fun cells => ?_
  refine Ensures.andThen (Ensures.frame (ensures_foldlM (fun _ (m : Module) => m.Homed)
    fun _ e _ _ m => m.readInstance_homed _ _) hstable) (fun ws h => ?_) fun m1 => ?_
  · exact ⟨⟨h.draft, by simp, List.Pairwise.nil, by simp⟩, h.modules⟩
  refine (readOnly_lift _).keeps.bind fun nets => ?_
  refine Ensures.bind (Ensures.frame (ensures_foldlM (fun _ (m : Module) => m.Homed)
    fun _ e _ _ m => m.readNet_homed _ _) hstable) fun m2 => ?_
  refine (readOnly_lift _).keeps.bind fun memories => ?_
  refine Ensures.bind (Ensures.frame (ensures_foldlM (fun _ (m : Module) => m.Homed)
    fun _ e _ _ m => Module.readMemory_homed _ m _ _) hstable) fun m3 => ?_
  refine Ensures.bind (Ensures.frame m3.settle_homed hstable) fun a => ?_
  refine ensures_pure fun ws ⟨hm, hmodules⟩ => ⟨hm.draft, fun m' hm' => ?_⟩
  rcases Table.mem_values_put hm' with hm' | rfl
  · exact hmodules m' hm'
  · exact hm

theorem readModules_sound (modules : List (Value × Value)) :
    Ensures Grows Workspace.Draft
      (modules.foldlM (fun p (key, v) => do readModule p (← key.keyText) v) ({} : Progress))
      fun p => p.Sound := by
  refine Ensures.pre (ensures_foldlM (fun _ (p : Progress) => p.Sound) fun _ e _ _ p =>
    (readOnly_lift _).keeps.bind fun key => readModule_sound p key _) fun ws h => ?_
  exact ⟨h, by simp [Table.values]⟩

end Design

end RegisterMap
