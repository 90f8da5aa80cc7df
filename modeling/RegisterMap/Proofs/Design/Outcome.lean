import RegisterMap.Proofs.Design.Completion

/-! # The reading of a design

A design is read from a workspace in which nothing was read before (`Workspace.Blank`).  `Origin` ties
what is left at the end to the tree of the instances, as it was before the resolution; `read_ok` says
that every design has one. -/

namespace RegisterMap

/-- Nothing was read yet, and the copies that a loop makes are to stand one behind the other. -/
structure Workspace.Blank (ws : Workspace) : Prop where
  registers : ws.registers = #[]
  passengers : ws.passengers = #[]
  spaces : ws.spaces = #[]
  aligned : ws.policy.alignedLoops = true

theorem Workspace.Blank.draft {ws : Workspace} (h : ws.Blank) : ws.Draft where
  waiting id s hs := by
    unfold Workspace.space? at hs
    rw [h.spaces] at hs
    cases hs
  unplaced x l hl := by cases x <;> simp [Workspace.leaf?, h.registers, h.passengers] at hl

namespace Design

open Build
open Workspace (Grows)

theorem Progress.Sound.along {α : Type} {p : Progress} {x : Build α} (h : Along Grows x) :
    Ensures Grows p.Sound x fun _ => p.Sound :=
  h.keeps fun _ _ hg hp => ⟨(hg hp.draft).1, fun m hm => m.homed_stable hg (hp.modules m hm)⟩

theorem validate_grows (id : BusId) : Along Grows id.validate := by
  refine id.readOnly_get.along.bind fun b => Along.bind (fun ws u ws' h => ?_) fun _ => along_pure _
  cases h
  exact .of_same rfl rfl fun x => by cases x <;> rfl

theorem relink_grows (l : Linkage) (place : Nat) (inst : String) : Along Grows (l.relink place inst) := by
  unfold Linkage.relink
  split
  · exact along_refuse _
  · refine along_lift fun _ _ => ?_
    dsimp only
    split
    · exact (say_grows _).bind fun _ => along_pure _
    · exact along_pure _

/-- The tree below the top module; instances of unknown modules are reported. -/
theorem tree_grows (g : InstanceGraph) (top : Option String) : Along Grows (g.tree top) := by
  unfold InstanceGraph.tree
  split
  · exact along_throw _
  · split
    · exact along_throw _
    · refine Along.bind (along_foldlM (fun l place => ?_) _) fun l => (readOnly_lift _).along
      exact along_foldlM (fun l inst => relink_grows l place inst) _

/-! ### The whole reading -/

/-- Where a design comes from: the tree `t` with its workspace `ws` before the resolution. -/
structure Origin (d : Design) (ws' ws : Workspace) (t : InstanceTree) (st : Resolution) : Prop where
  planted : Planted ws (t.withParents none)
  resolved : Resolved ws (t.withParents none) st ws'
  landed : Landed st.joins ws'
  maps : d.maps = st.maps
  drops : (t.traced none).Rel (Drops st.joined) d.tree

/-- The front of the reading: modules, verdicts on their busses, and the tree of instances with spaces
that wait. -/
def plant (n : Netlist) : Build (Progress × List (Bool × String) × InstanceTree) := do
  let modules ← (← n.document.field "modules").members
  let p ← modules.foldlM (fun p (key, v) => do readModule p (← key.keyText) v) {}
  let verdicts ← p.busses.mapM BusId.validate
  if p.busses.isEmpty then throw (.design "No ghostbus found in codebase.")
  let keys ← (graphOf p.modules).tree p.top
  let t ← keys.mapM (fun _ key => populate p.modules key) none
  return (p, verdicts, t)

theorem read_eq_plant (n : Netlist) : Design.read n = (do
    let x ← plant n
    let y ← resolveTree x.2.2
    Build.say s!"Number of independent memory maps: {y.2.length}"
    return ⟨x.1.modules, x.1.busses, x.2.1.all Prod.fst, y.1, y.2⟩) := by
  unfold Design.read plant
  simp only [bind_assoc]
  refine bind_congr fun document => bind_congr fun modules => bind_congr fun p =>
    bind_congr fun verdicts => ?_
  split
  · rfl
  · simp only [bind_assoc, pure_bind]

theorem plant_ok {n : Netlist} {ws ws' : Workspace} {p : Progress} {verdicts : List (Bool × String)}
    {t : InstanceTree} (hb : ws.Blank) (h : plant n ws = .ok (p, verdicts, t) ws') :
    Planted ws' (t.withParents none) := by
  unfold plant at h
  obtain ⟨document, -, h1⟩ := bind_lift_ok h
  obtain ⟨modules, -, h2⟩ := bind_lift_ok h1
  obtain ⟨p', ws3, hread, h3⟩ := bind_ok h2
  obtain ⟨hg3, hsound3⟩ := readModules_sound _ hb.draft hread
  obtain ⟨verdicts', ws4, hvalid, h4⟩ := bind_ok h3
  obtain ⟨hg4, hsound4⟩ := Progress.Sound.along (along_mapM validate_grows) hsound3 hvalid
  split at h4
  · obtain ⟨_, _, hthrow, -⟩ := bind_ok h4
    exact (throw_ok hthrow).elim
  obtain ⟨keys, ws5, htree, h5⟩ := bind_ok h4
  obtain ⟨hg5, hsound⟩ := Progress.Sound.along (tree_grows _ _) hsound4 htree
  have haligned : ws5.policy.alignedLoops = true := by
    rw [(hg5 hsound4.draft).2.1, (hg4 hsound3.draft).2.1, (hg3 hb.draft).2.1]
    exact hb.aligned
  obtain ⟨t', ws6, hpopulate, h6⟩ := bind_ok h5
  obtain ⟨hpop, hall⟩ := populateTree_ok hsound.draft hsound.modules hpopulate
  obtain ⟨he, rfl⟩ := pure_ok h6
  cases he
  exact planted_of_supplied haligned hpop hall

/-- Every design that is read has an origin. -/
theorem read_ok {n : Netlist} {ws ws' : Workspace} {d : Design} (hb : ws.Blank)
    (h : Design.read n ws = .ok d ws') : ∃ ws1 t st, Origin d ws' ws1 t st := by
  rw [read_eq_plant] at h
  obtain ⟨⟨p, verdicts, t⟩, ws1, hplant, h1⟩ := bind_ok h
  have hplanted := plant_ok hb hplant
  obtain ⟨⟨t', maps⟩, ws2, hresolve, h2⟩ := bind_ok h1
  obtain ⟨st, hresolved, hlanded, rfl, hdrops⟩ := resolveTree_ok hplanted hresolve
  obtain ⟨u, ws3, hsay, h3⟩ := bind_ok h2
  cases hsay
  obtain ⟨rfl, rfl⟩ := pure_ok h3
  exact ⟨ws1, t, st, hplanted, hresolved.printed _, hlanded.printed _, rfl, hdrops⟩

end Design

end RegisterMap
