import Mathlib.Logic.Function.Basic
import RegisterMap.Proofs.Decoder.Record

/-! # A folder, seen through its files

A folder is seen through the texts of its files and the macros that are defined (`FolderView`).
Generating code writes nothing (`Build.Quiet`), and a file that is written changes the view by
`FolderView.edit` and `FolderView.define`. -/

namespace RegisterMap

open Build

/-! ### Work that writes nothing -/

/-- The files, the macros and the modules that are done stay. -/
structure SameOutput (ws ws' : Workspace) : Prop where
  files : ws'.files = ws.files
  macros : ws'.definedMacros = ws.definedMacros
  done : ws'.doneModules = ws.doneModules

instance : IsPreorder Workspace SameOutput where
  refl _ := ⟨rfl, rfl, rfl⟩
  trans _ _ _ h h' := ⟨h'.files.trans h.files, h'.macros.trans h.macros, h'.done.trans h.done⟩

namespace Build

variable {α β : Type} {x : Build α} {xs : List α}

/-- The work writes nothing. -/
def Quiet (x : Build α) : Prop := Ensures SameOutput (fun _ => True) x fun _ _ => True

theorem Quiet.same (h : Quiet x) {ws ws' : Workspace} {a : α} (hrun : x ws = .ok a ws') :
    SameOutput ws ws' :=
  (h trivial hrun).1

theorem ReadOnly.quiet (h : ReadOnly x) : Quiet x := h.keeps

theorem Quiet.bind {f : α → Build β} (hx : Quiet x) (hf : ∀ a, Quiet (f a)) : Quiet (x >>= f) :=
  Ensures.bind hx hf

theorem quiet_pure (a : α) : Quiet (pure a) := (readOnly_pure a).quiet

theorem quiet_lift (x : Result α) : Quiet (liftM x : Build α) := (readOnly_lift x).quiet

theorem quiet_say (line : String) : Quiet (say line) := ensures_modify fun _ _ => ⟨⟨rfl, rfl, rfl⟩, trivial⟩

theorem quiet_mapM {f : α → Build β} (h : ∀ x ∈ xs, Quiet (f x)) : Quiet (xs.mapM f) :=
  ensures_mapM (fun _ _ _ => True) fun _ x _ hxs _ =>
    h x (hxs ▸ List.mem_append_right _ List.mem_cons_self)

theorem quiet_filterMapM {f : α → Build (Option β)} (h : ∀ x ∈ xs, Quiet (f x)) :
    Quiet (xs.filterMapM f) :=
  ensures_filterMapM (fun _ _ _ => True) fun _ x _ hxs _ =>
    h x (hxs ▸ List.mem_append_right _ List.mem_cons_self)

theorem quiet_foldlM {f : β → α → Build β} (h : ∀ b, ∀ x ∈ xs, Quiet (f b x)) (b : β) :
    Quiet (xs.foldlM f b) :=
  ensures_foldlM (fun _ _ _ => True) fun _ x _ hxs c =>
    h c x (hxs ▸ List.mem_append_right _ List.mem_cons_self)

end Build

open Build

theorem BusId.quiet_set (id : BusId) (b : Bus) : Quiet (id.set b) :=
  ensures_modify fun _ _ => ⟨⟨rfl, rfl, rfl⟩, trivial⟩

theorem BusId.quiet_get (id : BusId) : Quiet id.get := id.readOnly_get.quiet

theorem BusId.quiet_run {α : Type} (id : BusId) (f : Bus → Bus × Result α) : Quiet (id.run f) :=
  id.quiet_get.bind fun _ => (id.quiet_set _).bind fun _ => quiet_lift _

namespace RegisterId

theorem quiet_get (id : RegisterId) : Quiet id.get := ReadOnly.quiet fun _ _ _ h => (entryOf_ok h).2

theorem quiet_update (id : RegisterId) (f : Register → Register) : Quiet (id.update f) :=
  id.quiet_get.bind fun _ => ensures_modify fun _ _ => ⟨⟨rfl, rfl, rfl⟩, trivial⟩

theorem quiet_make (r : Register) : Quiet (make r) := by
  intro ws id ws' _ h
  cases h
  exact ⟨⟨rfl, rfl, rfl⟩, trivial⟩

theorem quiet_copy (id : RegisterId) : Quiet id.copy := by
  refine id.quiet_get.bind fun r => (quiet_lift _).bind fun copy => ?_
  split
  · exact (quiet_lift _).bind fun name => (quiet_say _).bind fun _ => quiet_make _
  · exact quiet_make _

end RegisterId

theorem quiet_block (block : Option BlockId) : Quiet (block.mapM BlockId.get) :=
  (readOnly_optionMapM fun id => id.readOnly_get).quiet

namespace Decoder

theorem Node.quiet_child (n : Node) : Quiet n.child :=
  ReadOnly.quiet fun _ _ _ h => (Node.child_ok h).1

theorem Domain.quiet_scope (d : Domain) (ports : BusId) (children : List (Tree Node)) :
    Quiet (d.scope ports children) := by
  unfold Domain.scope
  refine (quiet_lift _).bind fun ending => readOnly_get.quiet.bind fun ws => ?_
  have hblocks : ∀ t : Table String (List RegisterId), Quiet (t.mapM fun e => do
      return (e.1, ← e.2.filterMapM fun id => do
        let r ← id.get
        return (← r.block.mapM BlockId.get).map fun b => (r, b))) := fun t =>
    quiet_mapM fun e _ => (quiet_filterMapM fun id _ => id.quiet_get.bind fun r =>
      (quiet_block r.block).bind fun b => quiet_pure _).bind fun rs => quiet_pure _
  refine (quiet_mapM fun e _ => (quiet_filterMapM fun id _ => (readOnly_rider id).quiet.bind fun r =>
    (readOnly_block? id).quiet.bind fun b => quiet_pure _).bind fun rs => quiet_pure _).bind fun riders => ?_
  refine (quiet_filterMapM fun n _ => ?_).bind fun direct => ?_
  · split
    · exact n.quiet_child.bind fun c => quiet_pure _
    · exact quiet_pure _
  refine (quiet_filterMapM fun n _ => ?_).bind fun looped => ?_
  · split
    · exact n.quiet_child.bind fun c => quiet_pure _
    · exact quiet_pure _
  exact d.bus.quiet_get.bind fun bus => ports.quiet_get.bind fun ports' =>
    (ports.quiet_run _).bind fun rows => (quiet_mapM fun id _ => id.quiet_get).bind fun words =>
    (quiet_mapM fun id _ => id.quiet_get).bind fun memories =>
    (quiet_mapM fun e _ => (readOnly_rider e.2).quiet.bind fun r => quiet_pure _).bind fun riders =>
    (hblocks _).bind fun blockWords => (hblocks _).bind fun blockMemories => quiet_pure _

theorem Domain.quiet_allWords (d : Domain) (ending : String) : Quiet (d.allWords ending) := by
  unfold Domain.allWords
  split
  · exact quiet_pure _
  · refine Quiet.bind ?_ fun ids => quiet_mapM fun id _ => id.quiet_get
    refine (quiet_mapM fun e _ => quiet_filterMapM fun id _ => ?_).bind fun copies => quiet_pure _
    refine id.quiet_get.bind fun r => (quiet_block r.block).bind fun block => ?_
    cases block with
    | none => exact quiet_pure _
    | some block =>
      dsimp only
      split
      · exact quiet_pure _
      · exact id.quiet_copy.bind fun copy => (quiet_lift _).bind fun net =>
          (copy.quiet_update _).bind fun _ => quiet_pure _

theorem Domain.quiet_code (d : Domain) (s : Scope) : Quiet (d.code s) :=
  (quiet_lift _).bind fun _ => (d.quiet_allWords _).bind fun _ =>
    (d.quiet_allWords _).bind fun _ => (quiet_lift _).bind fun _ => quiet_pure _

/-! ### A folder, seen through its files -/

/-- What is to be seen of a folder: the texts by file name, and the macros that are defined. -/
structure FolderView where
  text? : String → Option String
  macros : List String

/-- The line that defines the macro of a suffix. -/
def macroLine (suffix : String) : String :=
  s!"`define GHOSTBUS_{suffix} `include \"{logicFile suffix}\"\n"

namespace FolderView

/-- The view after a file has been changed. -/
def edit (v : FolderView) (name : String) (change : String → String) : FolderView :=
  { v with text? := Function.update v.text? name (some (change ((v.text? name).getD ""))) }

theorem text?_edit_self (v : FolderView) (name : String) (change : String → String) :
    (v.edit name change).text? name = some (change ((v.text? name).getD "")) :=
  Function.update_self ..

theorem text?_edit_of_ne {name other : String} (h : other ≠ name) (v : FolderView)
    (change : String → String) : (v.edit name change).text? other = v.text? other :=
  Function.update_of_ne h ..

/-- The view after a macro has been defined, unless it was before. -/
def define (v : FolderView) (suffix : String) : FolderView :=
  if v.macros.contains suffix then v
  else { v.edit macroFile (· ++ macroLine suffix) with macros := v.macros ++ [suffix] }

def put (v : FolderView) (e : Written) : FolderView :=
  (v.edit (logicFile e.output.suffix) fun _ => e.text).define e.output.suffix

def putAll (v : FolderView) (es : List Written) : FolderView := es.foldl put v

end FolderView

/-- This is to be seen of the folder. -/
structure Shows (folder home : String) (v : FolderView) (ws : Workspace) : Prop where
  leads : ws.files.home? folder = some home
  texts : ∀ name, Table.get? ws.files.texts (home ++ name) = v.text? name
  macros : ws.definedMacros = v.macros

section

open Source Source.Files

variable {folder home name suffix : String} {v : FolderView} {ws ws' : Workspace} {u : Unit}

theorem Shows.same (h : Shows folder home v ws) (hsame : SameOutput ws ws') : Shows folder home v ws' := by
  obtain ⟨hhome, htexts, hmacros⟩ := h
  rw [← hsame.files] at hhome htexts
  exact ⟨hhome, htexts, hsame.macros.trans hmacros⟩

theorem Shows.edit (h : Shows folder home v ws) (hname : FileName name) {change : String → String}
    {fs : Files} (hedit : ws.files.edit (joinPath folder name) change = .ok fs) :
    Allowed folder name ∧ Shows folder home (v.edit name change) { ws with files := fs } := by
  obtain ⟨hallowed, home', hhome, hhome', htexts⟩ := edit_joinPath hname hedit
  obtain rfl : home' = home := Option.mem_unique hhome h.leads
  refine ⟨hallowed, hhome', fun other => ?_, h.macros⟩
  show Table.get? fs.texts (home' ++ other) = _
  rw [htexts]
  by_cases hother : other = name
  · rw [hother, Table.get?_put_self, FolderView.text?_edit_self, h.texts]
  · rw [Table.get?_put_of_ne _ _ fun heq => hother ((String.append_right_inj _).mp heq).symm,
      FolderView.text?_edit_of_ne hother, h.texts]

theorem fileName_of_head {c d : Char} {cs : List Char} (hname : name.toList = c :: d :: cs)
    (hc : c ≠ '.') (hslash : '/' ∉ name.toList) : FileName name where
  ne_empty h := by rw [h] at hname; cases hname
  ne_here h := by rw [h] at hname; cases hname
  ne_outward h := by rw [h] at hname; exact hc (List.cons.inj hname).1.symm
  no_slash := hslash

theorem fileName_macroFile : FileName macroFile :=
  fileName_of_head (c := 'd') (d := 'e') rfl (by decide) (by decide)

theorem fileName_portFile : FileName portFile :=
  fileName_of_head (c := 'g') (d := 'h') rfl (by decide) (by decide)

theorem toList_logicFile (suffix : String) :
    (logicFile suffix).toList = "ghostbus_".toList ++ suffix.toList ++ ".vh".toList := by
  show ("ghostbus_" ++ suffix ++ ".vh").toList = _
  rw [String.toList_append, String.toList_append]

theorem fileName_logicFile (h : '/' ∉ suffix.toList) : FileName (logicFile suffix) := by
  refine fileName_of_head (toList_logicFile suffix) (by decide) ?_
  rw [toList_logicFile]
  simp [h]

theorem logicFile_inj {s t : String} (h : logicFile s = logicFile t) : s = t := by
  have hlist : (logicFile s).toList = (logicFile t).toList := congrArg String.toList h
  rw [toList_logicFile, toList_logicFile] at hlist
  exact String.toList_inj.mp (List.append_cancel_left (List.append_cancel_right hlist))

theorem logicFile_ne_macroFile (suffix : String) : logicFile suffix ≠ macroFile := by
  intro h
  have hlist : (logicFile suffix).toList = macroFile.toList := congrArg String.toList h
  rw [toList_logicFile] at hlist
  exact absurd (List.cons.inj hlist).1 (by decide)

theorem write_ok {path text : String} (h : Build.write path text ws = .ok u ws') :
    ∃ fs, ws.files.edit path (fun _ => text) = .ok fs ∧ ws' = { ws with files := fs } := by
  have h1 := Build.bind_get_ok h
  obtain ⟨fs, hfs, h2⟩ := bind_lift_ok h1
  cases h2
  exact ⟨fs, hfs, rfl⟩

theorem append_ok {path text : String} (h : Build.append path text ws = .ok u ws') :
    ∃ fs, ws.files.edit path (· ++ text) = .ok fs ∧ ws' = { ws with files := fs } := by
  have h1 := Build.bind_get_ok h
  obtain ⟨fs, hfs, h2⟩ := bind_lift_ok h1
  cases h2
  exact ⟨fs, hfs, rfl⟩

theorem Shows.writer {w : CodeWriter} (hv : Shows folder home v ws) (hname : FileName name)
    (h : w.write name folder ws = .ok u ws') :
    Allowed folder name ∧ Shows folder home (v.edit name fun _ => w.text ++ "\n") ws' ∧
      ws'.doneModules = ws.doneModules := by
  obtain ⟨_, ws1, hwrite, hsay⟩ := bind_ok h
  obtain ⟨fs, hedit, rfl⟩ := write_ok hwrite
  obtain ⟨hallowed, hshows⟩ := hv.edit hname hedit
  have hsame := (quiet_say _).same hsay
  exact ⟨hallowed, hshows.same hsame, hsame.done⟩

theorem Shows.defineOnce (hv : Shows folder home v ws)
    (h : Decoder.defineOnce folder suffix ws = .ok u ws') :
    Shows folder home (v.define suffix) ws' ∧ ws'.doneModules = ws.doneModules := by
  have h1 := Build.bind_get_ok h
  unfold FolderView.define
  rw [hv.macros] at h1
  cases hcontains : v.macros.contains suffix with
  | true =>
    rw [hcontains] at h1
    obtain ⟨-, rfl⟩ := pure_ok h1
    exact ⟨hv, rfl⟩
  | false =>
    rw [hcontains] at h1
    obtain ⟨_, ws2, hmodify, happend⟩ := bind_ok h1
    cases hmodify
    obtain ⟨fs, hedit, rfl⟩ := append_ok happend
    obtain ⟨-, hshows⟩ := hv.edit fileName_macroFile hedit
    exact ⟨⟨hshows.leads, hshows.texts, congrArg (· ++ [suffix]) hv.macros⟩, rfl⟩

end

end Decoder

end RegisterMap
