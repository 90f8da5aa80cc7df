import RegisterMap.Proofs.Decoder.FolderView

/-! # The files of a decoder

Each file that is recorded changes the view of the folder by `FolderView.put`, and so a run of
recording leaves the view that its record gives (`Decoder.Recorded`).  From this follows what the files
hold in the end (`Decoder.generated_files`). -/

namespace RegisterMap.Decoder

open Build List

variable {module : String} {maps : PortMaps} {n : Node}

section

open Source Source.Files

variable {folder home name suffix : String} {v : FolderView} {ws ws' : Workspace}

/-! ### What is recorded -/

/-- The text is that of the code. -/
def Rendered (trace : Bool) (code : List Code) (text : String) : Prop :=
  ∃ w, Code.emitAll { trace := trace } code = .ok w ∧ text = w.text ++ "\n"

/-- The code of connections that have been written already for an instance of a module. -/
def codeBefore (earlier : List Written) (key : String × String) : List Code :=
  (earlier.filter fun e => e.output.inst? = some key).flatMap Written.code

/-- Code that stands in a file before the code that was generated for it. -/
def sharedCode (earlier : List Written) (o : Output) : List Code :=
  match o.inst? with
  | some key => codeBefore earlier key
  | none => []

/-- Each text is that of its code, behind the code of earlier connections of the same name in the
module. -/
def Faithful (trace : Bool) : (earlier : List Written) → List Written → Prop
  | _, [] => True
  | earlier, e :: es =>
    Rendered trace (sharedCode earlier e.output ++ e.code) e.text ∧ Faithful trace (earlier ++ [e]) es

variable {trace : Bool} {earlier es es' : List Written}

theorem faithful_append : Faithful trace earlier (es ++ es') ↔
    Faithful trace earlier es ∧ Faithful trace (earlier ++ es) es' := by
  induction es generalizing earlier with
  | nil => simp [Faithful]
  | cons e es ih => simp only [cons_append, Faithful, ih, and_assoc, append_assoc, nil_append]

theorem faithful_of_rendered (h : ∀ e ∈ es, e.output.inst? = none ∧ Rendered trace e.code e.text) :
    Faithful trace earlier es := by
  induction es generalizing earlier with
  | nil => trivial
  | cons e es ih =>
    obtain ⟨hinst, hrendered⟩ := h e mem_cons_self
    refine ⟨?_, ih fun e' he' => h e' (mem_cons_of_mem _ he')⟩
    unfold sharedCode
    rw [hinst]
    exact hrendered

theorem codeBefore_append (earlier es : List Written) (key : String × String) :
    codeBefore (earlier ++ es) key = codeBefore earlier key ++ codeBefore es key := by
  rw [codeBefore, codeBefore, codeBefore, filter_append, flatMap_append]

theorem codeBefore_eq_nil {key : String × String} (h : ∀ e ∈ es, e.output.inst? ≠ some key) :
    codeBefore es key = [] := by
  rw [codeBefore, filter_eq_nil_iff.mpr fun e he => by simpa using h e he]
  rfl

/-- What a run of recording leaves behind. -/
structure Recorded (trace : Bool) (folder home : String) (v : FolderView) (earlier es : List Written)
    (ws : Workspace) : Prop where
  shows : Shows folder home (v.putAll es) ws
  allowed : ∀ e ∈ es, Allowed folder (logicFile e.output.suffix)
  faithful : Faithful trace earlier es

theorem Recorded.append (h : Recorded trace folder home v earlier es ws)
    (h' : Recorded trace folder home (v.putAll es) (earlier ++ es) es' ws') :
    Recorded trace folder home v earlier (es ++ es') ws' where
  shows := by
    have := h'.shows
    rwa [FolderView.putAll, FolderView.putAll, ← foldl_append] at this
  allowed e he := (mem_append.mp he).elim (h.allowed e) (h'.allowed e)
  faithful := faithful_append.mpr ⟨h.faithful, h'.faithful⟩

theorem Recorded.nil (h : Shows folder home v ws) : Recorded trace folder home v earlier [] ws :=
  ⟨h, fun _ he => absurd he not_mem_nil, trivial⟩

theorem Shows.put {w : CodeWriter} {o : Output} {u u' : Unit} {ws1 : Workspace}
    (hv : Shows folder home v ws) (hslash : '/' ∉ o.suffix.toList)
    (hwrite : w.write (logicFile o.suffix) folder ws = .ok u ws1)
    (hdefine : Decoder.defineOnce folder o.suffix ws1 = .ok u' ws') (code : List Code) :
    Allowed folder (logicFile o.suffix) ∧ Shows folder home (v.put ⟨o, code, w.text ++ "\n"⟩) ws' ∧
      ws'.doneModules = ws.doneModules := by
  obtain ⟨hallowed, hshows, hdone⟩ := hv.writer (fileName_logicFile hslash) hwrite
  obtain ⟨hshows', hdone'⟩ := hshows.defineOnce hdefine
  exact ⟨hallowed, hshows', hdone'.trans hdone⟩

theorem recordLogic_ok {o : Output} {code : List Code} {e : Written} (hv : Shows folder home v ws)
    (hslash : '/' ∉ o.suffix.toList) (h : recordLogic trace folder o code ws = .ok e ws') :
    e.output = o ∧ Rendered trace e.code e.text ∧ Allowed folder (logicFile e.output.suffix) ∧
      Shows folder home (v.put e) ws' ∧ ws'.doneModules = ws.doneModules := by
  obtain ⟨w, hemit, h1⟩ := bind_lift_ok h
  obtain ⟨_, ws2, hwrite, h2⟩ := bind_ok h1
  obtain ⟨_, hdefine, rfl⟩ := bind_pure_ok h2
  exact ⟨rfl, ⟨w, hemit, rfl⟩, hv.put hslash hwrite hdefine code⟩

theorem keys_addToBlocks {α : Type} {items : Table String (List α)}
    {code : String → α → Result (List Code)} {texts texts' : Scope.BlockTexts}
    (h : Scope.addToBlocks items code texts = .ok texts') : texts'.keys = texts.keys := by
  refine Scope.addToBlocks_induct (P := fun t => t.keys = texts.keys) h rfl fun t branch _ old _ _ hget _ ih => ?_
  exact (Table.keys_put_of_mem (Table.has_iff.mp (by rw [Table.has, hget]; rfl)) _).trans ih

theorem keys_blockCode {s : Scope} {texts texts' : Scope.BlockTexts} (h : s.blockCode texts = .ok texts') :
    texts'.keys = texts.keys := by
  obtain ⟨texts1, h1, h⟩ := Result.bind_ok h
  obtain ⟨_, -, h⟩ := Result.bind_ok h
  obtain ⟨texts2, h2, h⟩ := Result.bind_ok h
  obtain ⟨texts3, h3, h⟩ := Result.bind_ok h
  rw [keys_addToBlocks h, keys_addToBlocks h3, keys_addToBlocks h2, keys_addToBlocks h1]

theorem recordAll_ok (earlier : List Written) {α : Type} {xs : List α} {o : α → Output} {code : α → List Code}
    (hslash : ∀ x ∈ xs, '/' ∉ (o x).suffix.toList) (hinst : ∀ x, (o x).inst? = none)
    (hv : Shows folder home v ws)
    (h : (xs.mapM fun x => recordLogic trace folder (o x) (code x)) ws = .ok es ws') :
    es.map Written.output = xs.map o ∧ Recorded trace folder home v earlier es ws' ∧
      ws'.doneModules = ws.doneModules := by
  induction xs generalizing earlier v ws es with
  | nil =>
    obtain ⟨rfl, rfl⟩ := pure_ok h
    exact ⟨rfl, .nil hv, rfl⟩
  | cons x xs ih =>
    rw [mapM_cons] at h
    obtain ⟨e, ws1, he, h1⟩ := bind_ok h
    obtain ⟨es', hes, rfl⟩ := bind_pure_ok h1
    obtain ⟨houtput, hrendered, hallowed, hshows, hdone⟩ :=
      recordLogic_ok hv (hslash x mem_cons_self) he
    obtain ⟨houtputs, hrecorded, hdone'⟩ :=
      ih (earlier ++ [e]) (fun y hy => hslash y (mem_cons_of_mem _ hy)) hshows hes
    have hfirst : Recorded trace folder home v earlier [e] ws1 :=
      ⟨hshows, by simpa using hallowed,
        faithful_of_rendered (by simpa [houtput, hinst] using hrendered)⟩
    exact ⟨by rw [map_cons, map_cons, houtput, houtputs], hfirst.append hrecorded,
      hdone'.trans hdone⟩

theorem Node.record_ok (earlier : List Written) {n : Node} {ports : BusId} {children : List (Tree Node)}
    (hslash : ∀ o ∈ Output.logic n.module :: n.branches.map (.block n.module), '/' ∉ o.suffix.toList)
    (hv : Shows folder home v ws) (h : n.record ports trace folder children ws = .ok es ws') :
    es.map Written.output = .logic n.module :: n.branches.map (.block n.module) ∧
      Recorded trace folder home v earlier es ws' ∧ ws'.doneModules = ws.doneModules := by
  unfold Node.record at h
  dsimp only at h
  obtain ⟨code, ws1, hcode, h1⟩ := bind_ok h
  have hsame := (quiet_mapM fun e _ => (e.2.quiet_scope ports children).bind fun s =>
    e.2.quiet_code s).same hcode
  obtain ⟨own, ws2, hown, h2⟩ := bind_ok h1
  obtain ⟨texts, ws3, htexts, h3⟩ := bind_ok h2
  obtain ⟨blocks, hblocks, rfl⟩ := bind_pure_ok h3
  obtain ⟨houtput, hrendered, hallowed, hshows, hdone⟩ :=
    recordLogic_ok (hv.same hsame) (hslash _ mem_cons_self) hown
  have hsame' := (quiet_foldlM (fun texts e _ => (e.2.quiet_scope ports children).bind fun s =>
    quiet_lift (s.blockCode texts)) _).same htexts
  have hkeys : texts.keys = n.branches := by
    refine foldlM_ok htexts (fun _ texts _ => texts.keys = n.branches) ?_ ?_
    · rw [Table.keys, map_map]
      exact map_id _
    · intro done e rest _ texts texts' w w' hkeys hround
      obtain ⟨s, w1, -, hround1⟩ := bind_ok hround
      obtain ⟨hcode, -⟩ := lift_ok hround1
      exact (keys_blockCode hcode).trans hkeys
  have hbranches : n.branches.map (Output.block n.module) = texts.map fun e => .block n.module e.1 := by
    rw [← hkeys, Table.keys, map_map]
    rfl
  rw [hbranches] at hslash ⊢
  obtain ⟨houtputs, hrecorded, hdone'⟩ := recordAll_ok (earlier ++ [own])
    (fun x hx => hslash _ (mem_cons_of_mem _ (mem_map_of_mem hx))) (fun _ => rfl)
    (hshows.same hsame') hblocks
  have hfirst : Recorded trace folder home v earlier [own] ws2 :=
    ⟨hshows, by simpa using hallowed, faithful_of_rendered (by
      simpa [houtput, Output.inst?] using hrendered)⟩
  exact ⟨by rw [map_cons, houtput, houtputs], hfirst.append hrecorded,
    hdone'.trans (hsame'.done.trans (hdone.trans hsame.done))⟩

theorem Node.inst?_connectionsOf (parent n : Node) :
    (parent.connectionsOf n).inst? = some (parent.module, n.inst) := by
  unfold Node.connectionsOf
  cases n.place <;> rfl

theorem Node.module_connectionsOf (parent n : Node) : (parent.connectionsOf n).module = parent.module := by
  unfold Node.connectionsOf
  cases n.place <;> rfl

theorem Node.recordPortMap_ok {parent n : Node} {ports : BusId} {maps : PortMaps} {x : PortMaps × Written}
    (hv : Shows folder home v ws) (hslash : '/' ∉ (parent.connectionsOf n).suffix.toList)
    (h : parent.recordPortMap ports trace folder maps n ws = .ok x ws') :
    x.2.output = parent.connectionsOf n ∧
      (∃ w, Code.emitAll ((Table.get? maps n.inst).getD { trace := trace }) x.2.code = .ok w ∧
        x.1 = Table.put maps n.inst w ∧ x.2.text = w.text ++ "\n") ∧
      Allowed folder (logicFile x.2.output.suffix) ∧ Shows folder home (v.put x.2) ws' ∧
      ws'.doneModules = ws.doneModules := by
  unfold Node.recordPortMap at h
  dsimp only at h
  obtain ⟨rows, ws1, hrows, h1⟩ := bind_ok h
  have hsame := (ports.quiet_run _).same hrows
  obtain ⟨bus, ws2, hbus, h2⟩ := bind_ok h1
  obtain ⟨c, ws3, hchild, h3⟩ := bind_ok h2
  have hsame' : SameOutput ws ws3 := IsTrans.trans _ _ _ hsame
    (IsTrans.trans _ _ _ (ports.quiet_get.same hbus) (n.quiet_child.same hchild))
  obtain ⟨w, hemit, h4⟩ := bind_lift_ok h3
  obtain ⟨_, ws5, hwrite, h5⟩ := bind_ok h4
  obtain ⟨_, hdefine, rfl⟩ := bind_pure_ok h5
  obtain ⟨hallowed, hshows, hdone⟩ := (hv.same hsame').put hslash hwrite hdefine _
  exact ⟨rfl, ⟨w, hemit, rfl, rfl⟩, hallowed, hshows, hdone.trans hsame'.done⟩

/-! ### The outputs of a tree -/

mutual

theorem outputsOf_spec (done : List String) : ∀ t : Tree Node, done ⊆ (outputsOf done t).2 ∧
    ∀ o ∈ (outputsOf done t).1, o.module ∉ done ∧ o.module ∈ (outputsOf done t).2
  | .node n children => by
    rw [outputsOf]
    split
    · obtain ⟨hsub, hbelow⟩ := outputsBelow_spec n false done (by simp) children
      exact ⟨hsub, fun o ho => (hbelow o ho).imp_left fun h => h.resolve_left (by simp)⟩
    · rename_i hnew
      have hnew : n.module ∉ done := by simpa using hnew
      obtain ⟨hsub, hbelow⟩ := outputsBelow_spec n true (done ++ [n.module]) (by simp) children
      refine ⟨fun m hm => hsub (mem_append_left _ hm), fun o ho => ?_⟩
      have hown : o.module = n.module → o.module ∉ done ∧
          o.module ∈ (outputsBelow n true (done ++ [n.module]) children).2 := by
        intro heq
        rw [heq]
        exact ⟨hnew, hsub (mem_append_right _ (mem_singleton_self _))⟩
      rcases mem_cons.mp ho with rfl | ho
      · exact hown rfl
      · rcases mem_append.mp ho with ho | ho
        · obtain ⟨branch, -, rfl⟩ := mem_map.mp ho
          exact hown rfl
        · obtain ⟨hmodule, hdone⟩ := hbelow o ho
          rcases hmodule with ⟨-, heq⟩ | hnot
          · exact hown heq
          · exact ⟨fun hm => hnot (mem_append_left _ hm), hdone⟩

theorem outputsBelow_spec (parent : Node) (first : Bool) (done : List String)
    (hparent : first = true → parent.module ∈ done) : ∀ ts : List (Tree Node),
    done ⊆ (outputsBelow parent first done ts).2 ∧
    ∀ o ∈ (outputsBelow parent first done ts).1,
      (first = true ∧ o.module = parent.module ∨ o.module ∉ done) ∧
        o.module ∈ (outputsBelow parent first done ts).2
  | [] => ⟨fun _ hm => hm, fun _ ho => absurd ho not_mem_nil⟩
  | t :: ts => by
    obtain ⟨hsub, hbelow⟩ := outputsOf_spec done t
    obtain ⟨hsub', hrest⟩ := outputsBelow_spec parent first (outputsOf done t).2
      (fun h => hsub (hparent h)) ts
    rw [outputsBelow]
    refine ⟨fun m hm => hsub' (hsub hm), fun o ho => ?_⟩
    rcases mem_append.mp ho with ho | ho
    · rcases mem_append.mp ho with ho | ho
      · cases first with
        | false => exact absurd ho not_mem_nil
        | true =>
          obtain rfl := mem_singleton.mp ho
          have hmodule := parent.module_connectionsOf t.data
          exact ⟨.inl ⟨rfl, hmodule⟩, hmodule ▸ hsub' (hsub (hparent rfl))⟩
      · obtain ⟨hnot, hdone⟩ := hbelow o ho
        exact ⟨.inr hnot, hsub' hdone⟩
    · obtain ⟨hmodule, hdone⟩ := hrest o ho
      exact ⟨hmodule.imp_right fun hnot hm => hnot (hsub hm), hdone⟩

end

/-! ### Recording a tree -/

/-- The writers hold the connections that have been written for the instances of a module. -/
def Holds (trace : Bool) (module : String) (maps : PortMaps) (earlier : List Written) : Prop :=
  ∀ inst, Code.emitAll { trace := trace } (codeBefore earlier (module, inst)) =
    .ok ((Table.get? maps inst).getD { trace := trace })

theorem Output.module_of_inst? {o : Output} {inst : String} (h : o.inst? = some (module, inst)) :
    o.module = module := by
  cases o with
  | logic m | block m branch => cases h
  | connections m i | blockConnections m branch i => exact (Prod.mk.inj (Option.some.inj h)).1

theorem Holds.append (h : Holds trace module maps earlier)
    (hes : ∀ e ∈ es, e.output.module ≠ module) : Holds trace module maps (earlier ++ es) := by
  intro inst
  rw [codeBefore_append, codeBefore_eq_nil fun e he hinst => hes e he (Output.module_of_inst? hinst),
    append_nil]
  exact h inst

theorem Holds.put {inst : String} {e : Written} {w : CodeWriter}
    (h : Holds trace module maps earlier) (he : e.output.inst? = some (module, inst))
    (hw : Code.emitAll ((Table.get? maps inst).getD { trace := trace }) e.code = .ok w) :
    Holds trace module (Table.put maps inst w) (earlier ++ [e]) := by
  intro inst'
  rw [codeBefore_append, Code.emitAll_append (h inst')]
  by_cases heq : inst' = inst
  · have hcode : codeBefore [e] (module, inst') = e.code := by simp [codeBefore, he, heq]
    rw [hcode, heq, hw, Table.get?_put_self]
    rfl
  · have hcode : codeBefore [e] (module, inst') = [] :=
      codeBefore_eq_nil fun e' he' => by
        rw [mem_singleton.mp he', he]
        simpa using fun h => heq h.symm
    rw [hcode, Table.get?_put_of_ne _ _ fun h => heq h.symm]
    rfl

theorem Node.recordFirst_ok {parent : Node} {ports : BusId} {first : Bool}
    {x : PortMaps × List Written} (hv : Shows folder home v ws)
    (hparent : first = true → parent.module ∈ ws.doneModules ∧ Holds trace parent.module maps earlier)
    (hslash : ∀ o ∈ if first then [parent.connectionsOf n] else [], '/' ∉ o.suffix.toList)
    (h : parent.recordFirst ports trace folder first maps n ws = .ok x ws') :
    x.2.map Written.output = (if first then [parent.connectionsOf n] else []) ∧
      ws'.doneModules = ws.doneModules ∧ Recorded trace folder home v earlier x.2 ws' ∧
      (first = true → Holds trace parent.module x.1 (earlier ++ x.2)) := by
  cases first with
  | false =>
    obtain ⟨rfl, rfl⟩ := pure_ok h
    exact ⟨rfl, rfl, .nil hv, fun hfirst => by cases hfirst⟩
  | true =>
    obtain ⟨-, hholds⟩ := hparent rfl
    obtain ⟨⟨maps', e⟩, he, rfl⟩ := bind_pure_ok h
    obtain ⟨houtput, ⟨w, hemit, rfl, htext⟩, hallowed, hshows, hdone⟩ :=
      Node.recordPortMap_ok hv (hslash _ (mem_singleton_self _)) he
    have hinst : e.output.inst? = some (parent.module, n.inst) := by
      rw [houtput, Node.inst?_connectionsOf]
    refine ⟨congrArg (fun o => [o]) houtput, hdone, ⟨hshows, by simpa using hallowed, ?_, trivial⟩,
      fun _ => hholds.put hinst hemit⟩
    refine ⟨w, ?_, htext⟩
    rw [sharedCode, hinst, Code.emitAll_append (hholds n.inst)]
    exact hemit

theorem claim_ok {first : Bool} (h : claim module ws = .ok first ws') :
    first = false ∧ module ∈ ws.doneModules ∧ ws' = ws ∨
      first = true ∧ module ∉ ws.doneModules ∧
        ws' = { ws with doneModules := ws.doneModules ++ [module] } := by
  have h1 := Build.bind_get_ok h
  split at h1
  · rename_i hdone
    obtain ⟨rfl, rfl⟩ := pure_ok h1
    exact .inl ⟨rfl, contains_iff_mem.mp hdone, rfl⟩
  · rename_i hnew
    cases h1
    exact .inr ⟨rfl, fun hmem => hnew (contains_iff_mem.mpr hmem), rfl⟩

theorem outputsOf_of_mem {done : List String} (h : n.module ∈ done)
    (children : List (Tree Node)) : outputsOf done (.node n children) = outputsBelow n false done children := by
  rw [outputsOf, if_pos (contains_iff_mem.mpr h)]

theorem outputsOf_of_not_mem {done : List String} (h : n.module ∉ done)
    (children : List (Tree Node)) : outputsOf done (.node n children) =
      (.logic n.module :: n.branches.map (.block n.module) ++
        (outputsBelow n true (done ++ [n.module]) children).1,
        (outputsBelow n true (done ++ [n.module]) children).2) := by
  rw [outputsOf, if_neg fun hcontains => h (contains_iff_mem.mp hcontains)]

variable {ports : BusId}

mutual

theorem recordTree_ok : ∀ (t : Tree Node) {v : FolderView} {earlier es : List Written}
    {ws ws' : Workspace}, Shows folder home v ws → (∀ e ∈ earlier, e.output.module ∈ ws.doneModules) →
    (∀ o ∈ (outputsOf ws.doneModules t).1, '/' ∉ o.suffix.toList) →
    recordTree ports trace folder t ws = .ok es ws' →
    es.map Written.output = (outputsOf ws.doneModules t).1 ∧
      ws'.doneModules = (outputsOf ws.doneModules t).2 ∧ Recorded trace folder home v earlier es ws'
  | .node n children, v, earlier, es, ws, ws', hv, hearlier, hslash, h => by
    rw [recordTree] at h
    obtain ⟨first, ws1, hclaim, h1⟩ := bind_ok h
    rcases claim_ok hclaim with ⟨rfl, hdone, rfl⟩ | ⟨rfl, hnew, rfl⟩
    · rw [outputsOf_of_mem hdone] at hslash ⊢
      obtain ⟨own, ws2, hown, h2⟩ := bind_ok h1
      obtain ⟨rfl, rfl⟩ := pure_ok hown
      obtain ⟨below, hbelow, rfl⟩ := bind_pure_ok h2
      exact recordTrees_ok n false children hv hearlier (by simp) hslash hbelow
    · rw [outputsOf_of_not_mem hnew] at hslash ⊢
      obtain ⟨own, ws2, hown, h2⟩ := bind_ok h1
      obtain ⟨below, hbelow, rfl⟩ := bind_pure_ok h2
      have hclaimed : Shows folder home v { ws with doneModules := ws.doneModules ++ [n.module] } :=
        ⟨hv.leads, hv.texts, hv.macros⟩
      obtain ⟨houtputs, hrecorded, hdone⟩ := Node.record_ok earlier
        (fun o ho => hslash o (mem_append_left _ ho)) hclaimed hown
      have hown : ∀ e ∈ own, e.output.module = n.module ∧ e.output.inst? = none := by
        intro e he
        have hmem : e.output ∈ own.map Written.output := mem_map_of_mem he
        rw [houtputs] at hmem
        rcases mem_cons.mp hmem with heq | hmem
        · rw [heq]
          exact ⟨rfl, rfl⟩
        · obtain ⟨branch, -, heq⟩ := mem_map.mp hmem
          rw [← heq]
          exact ⟨rfl, rfl⟩
      -- No connections of the module have been written before it was taken for generation.
      have hholds : Holds trace n.module [] (earlier ++ own) := by
        intro inst
        have hnone : codeBefore (earlier ++ own) (n.module, inst) = [] := by
          refine codeBefore_eq_nil fun e he hinst => ?_
          rcases mem_append.mp he with he | he
          · exact hnew (Output.module_of_inst? hinst ▸ hearlier e he)
          · rw [(hown e he).2] at hinst
            cases hinst
        rw [hnone]
        rfl
      have hdone' : ∀ e ∈ earlier ++ own, e.output.module ∈ ws2.doneModules := by
        rw [hdone]
        intro e he
        rcases mem_append.mp he with he | he
        · exact mem_append_left _ (hearlier e he)
        · rw [(hown e he).1]
          exact mem_append_right _ (mem_singleton_self _)
      have hbelow' := recordTrees_ok n true children hrecorded.shows hdone'
        (fun _ => ⟨hdone ▸ mem_append_right _ (mem_singleton_self _), hholds⟩)
        (by rw [hdone]; exact fun o ho => hslash o (mem_append_right _ ho)) hbelow
      rw [hdone] at hbelow'
      exact ⟨by rw [map_append, houtputs, hbelow'.1], hbelow'.2.1, hrecorded.append hbelow'.2.2⟩

theorem recordTrees_ok (parent : Node) (first : Bool) : ∀ (ts : List (Tree Node)) {v : FolderView}
    {earlier es : List Written} {maps : PortMaps} {ws ws' : Workspace}, Shows folder home v ws →
    (∀ e ∈ earlier, e.output.module ∈ ws.doneModules) →
    (first = true → parent.module ∈ ws.doneModules ∧ Holds trace parent.module maps earlier) →
    (∀ o ∈ (outputsBelow parent first ws.doneModules ts).1, '/' ∉ o.suffix.toList) →
    recordTrees ports trace folder parent first maps ts ws = .ok es ws' →
    es.map Written.output = (outputsBelow parent first ws.doneModules ts).1 ∧
      ws'.doneModules = (outputsBelow parent first ws.doneModules ts).2 ∧
      Recorded trace folder home v earlier es ws'
  | [], v, earlier, es, maps, ws, ws', hv, hearlier, hparent, hslash, h => by
    rw [recordTrees] at h
    obtain ⟨rfl, rfl⟩ := pure_ok h
    exact ⟨rfl, rfl, .nil hv⟩
  | t :: ts, v, earlier, es, maps, ws, ws', hv, hearlier, hparent, hslash, h => by
    rw [recordTrees] at h
    rw [outputsBelow] at hslash ⊢
    obtain ⟨x, ws1, hx, h1⟩ := bind_ok h
    obtain ⟨below, ws2, hbelow, h2⟩ := bind_ok h1
    obtain ⟨rest, hrest, rfl⟩ := bind_pure_ok h2
    obtain ⟨houtputs, hdone, hrecorded, hholds⟩ := Node.recordFirst_ok hv hparent
      (fun o ho => hslash o (mem_append_left _ (mem_append_left _ ho))) hx
    have hearlier1 : ∀ e ∈ earlier ++ x.2, e.output.module ∈ ws1.doneModules := by
      rw [hdone]
      intro e he
      rcases mem_append.mp he with he | he
      · exact hearlier e he
      · have hmem : e.output ∈ x.2.map Written.output := mem_map_of_mem he
        rw [houtputs] at hmem
        cases first with
        | false => exact absurd hmem not_mem_nil
        | true =>
          rw [mem_singleton.mp hmem, parent.module_connectionsOf]
          exact (hparent rfl).1
    rw [← hdone] at hslash hparent ⊢
    obtain ⟨houtputs1, hdone1, hrecorded1⟩ := recordTree_ok t hrecorded.shows hearlier1
      (fun o ho => hslash o (mem_append_left _ (mem_append_right _ ho))) hbelow
    obtain ⟨hsub, hspec⟩ := outputsOf_spec ws1.doneModules t
    have hbelow1 : ∀ e ∈ below, e.output ∈ (outputsOf ws1.doneModules t).1 := fun e he =>
      houtputs1 ▸ mem_map_of_mem he
    have hearlier2 : ∀ e ∈ earlier ++ x.2 ++ below, e.output.module ∈ ws2.doneModules := by
      rw [hdone1]
      intro e he
      rcases mem_append.mp he with he | he
      · exact hsub (hearlier1 e he)
      · exact (hspec _ (hbelow1 e he)).2
    have hholds2 : first = true → parent.module ∈ ws2.doneModules ∧
        Holds trace parent.module x.1 (earlier ++ x.2 ++ below) := by
      intro hfirst
      have hmem := (hparent hfirst).1
      refine ⟨hdone1 ▸ hsub hmem, (hholds hfirst).append fun e he heq => ?_⟩
      exact (hspec _ (hbelow1 e he)).1 (heq ▸ hmem)
    rw [← hdone1] at hslash ⊢
    obtain ⟨houtputs2, hdone2, hrecorded2⟩ := recordTrees_ok parent first ts hrecorded1.shows hearlier2
      hholds2 (fun o ho => hslash o (mem_append_right _ ho)) hrest
    refine ⟨?_, hdone2, (hrecorded.append hrecorded1).append ?_⟩
    · rw [map_append, map_append, houtputs, houtputs1, houtputs2]
    · have hfold : v.putAll (x.2 ++ below) = (v.putAll x.2).putAll below := foldl_append
      rwa [hfold, ← append_assoc]

end

/-! ### What the files hold in the end -/

/-- The text that is written last for a suffix. -/
def lastText (es : List Written) (suffix : String) : Option String :=
  (es.filter fun e => e.output.suffix = suffix).getLast?.map Written.text

theorem define_of_mem (h : suffix ∈ v.macros) : v.define suffix = v :=
  if_pos (contains_iff_mem.mpr h)

theorem define_of_not_mem (h : suffix ∉ v.macros) :
    (v.define suffix).macros = v.macros ++ [suffix] ∧
      (v.define suffix).text? = (v.edit macroFile (· ++ macroLine suffix)).text? := by
  rw [FolderView.define, if_neg fun hcontains => h (contains_iff_mem.mp hcontains)]
  exact ⟨rfl, rfl⟩

theorem text?_define_of_ne (h : name ≠ macroFile) (v : FolderView) (suffix : String) :
    (v.define suffix).text? name = v.text? name := by
  by_cases hmem : suffix ∈ v.macros
  · rw [define_of_mem hmem]
  · rw [(define_of_not_mem hmem).2, FolderView.text?_edit_of_ne h]

theorem putAll_append_singleton (v : FolderView) (es : List Written) (e : Written) :
    v.putAll (es ++ [e]) = (v.putAll es).put e := by
  rw [FolderView.putAll, foldl_append]
  rfl

theorem text?_putAll (v : FolderView) (es : List Written) (suffix : String) :
    (v.putAll es).text? (logicFile suffix) = (lastText es suffix).or (v.text? (logicFile suffix)) := by
  induction es using List.reverseRecOn with
  | nil => rfl
  | append_singleton es e ih =>
    rw [putAll_append_singleton, FolderView.put, text?_define_of_ne (logicFile_ne_macroFile _), lastText,
      filter_append]
    by_cases heq : e.output.suffix = suffix
    · rw [heq, FolderView.text?_edit_self]
      simp [heq]
    · rw [FolderView.text?_edit_of_ne fun h => heq (logicFile_inj h).symm, ih]
      simp [heq, lastText]

theorem eraseDups_concat_of_mem {suffixes : List String} (h : suffix ∈ suffixes.eraseDups) :
    (suffixes ++ [suffix]).eraseDups = suffixes.eraseDups := by
  rw [mem_eraseDups] at h
  simp [eraseDups_append, List.removeAll, h]

theorem eraseDups_concat_of_not_mem {suffixes : List String} (h : suffix ∉ suffixes.eraseDups) :
    (suffixes ++ [suffix]).eraseDups = suffixes.eraseDups ++ [suffix] := by
  rw [mem_eraseDups] at h
  simp [eraseDups_append, List.removeAll, eraseDups_cons, h]

/-- Each macro is defined once, in the order in which the suffixes come up first. -/
theorem macros_putAll (hv : v.macros = []) {head : String} (hhead : v.text? macroFile = some head)
    (es : List Written) :
    (v.putAll es).macros = (es.map fun e => e.output.suffix).eraseDups ∧
      (v.putAll es).text? macroFile =
        some (head ++ String.join ((es.map fun e => e.output.suffix).eraseDups.map macroLine)) := by
  induction es using List.reverseRecOn with
  | nil => exact ⟨hv, hhead.trans (by simp)⟩
  | append_singleton es e ih =>
    obtain ⟨hmacros, htext⟩ := ih
    have hmacros' : ((v.putAll es).edit (logicFile e.output.suffix) fun _ => e.text).macros = _ := hmacros
    have htext' : ((v.putAll es).edit (logicFile e.output.suffix) fun _ => e.text).text? macroFile = _ :=
      (FolderView.text?_edit_of_ne (logicFile_ne_macroFile _).symm _ _).trans htext
    rw [putAll_append_singleton, FolderView.put, map_append, map_singleton]
    by_cases hmem : e.output.suffix ∈ (es.map fun e => e.output.suffix).eraseDups
    · rw [eraseDups_concat_of_mem hmem, define_of_mem (hmacros' ▸ hmem)]
      exact ⟨hmacros', htext'⟩
    · obtain ⟨hmacros1, htext1⟩ := define_of_not_mem (hmacros' ▸ hmem)
      rw [eraseDups_concat_of_not_mem hmem, hmacros1, htext1, hmacros', FolderView.text?_edit_self, htext',
        map_append, String.join_append, Option.getD_some, String.append_assoc]
      simp

/-- The line that defines the macro of the ports. -/
def portLine : String := "`define GHOSTBUSPORTS `include \"ghostbusports.vh\"\n"

theorem record_start {d : Decoder} (hmacros : ws.definedMacros = [])
    (h : d.record folder ws = .ok es ws') : ∃ home v ws1, Shows folder home v ws1 ∧ v.macros = [] ∧
      v.text? macroFile = some (macroHead ++ portLine) ∧ Allowed folder macroFile ∧
      ws1.doneModules = ws.doneModules ∧ recordTree d.ports d.trace folder d.tree ws1 = .ok es ws' := by
  obtain ⟨_, ws1, hwrite, h1⟩ := bind_ok h
  obtain ⟨_, ws2, happend, h2⟩ := bind_ok h1
  obtain ⟨_, ws3, hports, h3⟩ := bind_ok h2
  obtain ⟨fs1, hedit1, rfl⟩ := write_ok hwrite
  obtain ⟨fs2, hedit2, rfl⟩ := append_ok happend
  obtain ⟨hallowed, home, hhome, -⟩ := edit_joinPath fileName_macroFile hedit1
  have hstart : Shows folder home ⟨fun name => Table.get? ws.files.texts (home ++ name), []⟩ ws :=
    ⟨hhome, fun _ => rfl, hmacros⟩
  obtain ⟨-, hshows1⟩ := hstart.edit fileName_macroFile hedit1
  obtain ⟨-, hshows2⟩ := hshows1.edit fileName_macroFile hedit2
  obtain ⟨rows, ws4, hrows, hports1⟩ := bind_ok hports
  have hsame := (d.ports.quiet_run _).same hrows
  obtain ⟨w, -, hports2⟩ := bind_lift_ok hports1
  obtain ⟨_, ws6, hfile, hports3⟩ := bind_ok hports2
  obtain ⟨-, hshows3, hdone⟩ := (hshows2.same hsame).writer fileName_portFile hfile
  obtain ⟨fs3, hedit3, rfl⟩ := append_ok hports3
  obtain ⟨-, hshows4⟩ := hshows3.edit fileName_macroFile hedit3
  refine ⟨home, _, _, hshows4, rfl, ?_, hallowed, hdone.trans hsame.done, h3⟩
  rw [FolderView.text?_edit_self, FolderView.text?_edit_of_ne (by decide), FolderView.text?_edit_self,
    FolderView.text?_edit_self]
  rfl

/-- What stands in a file of the folder. -/
def fileText (ws : Workspace) (folder name : String) : Result (Option String) :=
  ws.files.text? (joinPath folder name)

theorem rendered_of_faithful (h : Faithful trace earlier es)
    (hinst : ((earlier ++ es).filterMap fun e => e.output.inst?).Nodup) :
    ∀ e ∈ es, Rendered trace e.code e.text := by
  induction es generalizing earlier with
  | nil => exact fun e he => absurd he not_mem_nil
  | cons e es ih =>
    obtain ⟨hrendered, hrest⟩ := h
    intro e' he'
    rcases mem_cons.mp he' with rfl | he'
    · have hnone : sharedCode earlier e'.output = [] := by
        unfold sharedCode
        cases hkey : e'.output.inst? with
        | none => rfl
        | some key =>
          refine codeBefore_eq_nil fun e he heq => ?_
          rw [filterMap_append] at hinst
          refine (nodup_append.mp hinst).2.2 key (mem_filterMap.mpr ⟨e, he, heq⟩) key ?_ rfl
          exact mem_filterMap.mpr ⟨e', mem_cons_self, hkey⟩
      rwa [hnone] at hrendered
    · exact ih hrest (by rwa [append_assoc]) e' he'

theorem exists_lastText {e : Written} (he : e ∈ es) :
    ∃ e' ∈ es, e'.output.suffix = e.output.suffix ∧ lastText es e.output.suffix = some e'.text := by
  have hmem : e ∈ es.filter fun e' => e'.output.suffix = e.output.suffix := by simp [he]
  obtain ⟨e', he'⟩ := Option.isSome_iff_exists.mp (getLast?_isSome.mpr (ne_nil_of_mem hmem))
  obtain ⟨hes, hsuffix⟩ := mem_filter.mp (mem_of_getLast? he')
  exact ⟨e', hes, by simpa using hsuffix, by rw [lastText, he']; rfl⟩

namespace Output

theorem suffix_eq (o : Output) : ∃ rest, o.suffix.toList = o.module.toList ++ rest ∧
    (rest = [] ∨ ∃ cs, rest = '_' :: cs) := by
  have hbar : "_".toList = ['_'] := rfl
  cases o with
  | logic m => exact ⟨[], (append_nil _).symm, .inl rfl⟩
  | block m branch =>
    refine ⟨'_' :: branch.toList, ?_, .inr ⟨_, rfl⟩⟩
    show (m ++ "_" ++ branch).toList = _
    rw [String.toList_append, String.toList_append, hbar, append_assoc]
    rfl
  | connections m inst =>
    refine ⟨'_' :: inst.toList, ?_, .inr ⟨_, rfl⟩⟩
    show (m ++ "_" ++ inst).toList = _
    rw [String.toList_append, String.toList_append, hbar, append_assoc]
    rfl
  | blockConnections m branch inst =>
    refine ⟨'_' :: (branch ++ "_" ++ inst).toList, ?_, .inr ⟨_, rfl⟩⟩
    show (m ++ "_" ++ branch ++ "_" ++ inst).toList = _
    rw [String.append_assoc, String.append_assoc, String.toList_append, String.toList_append, hbar,
      append_assoc, ← String.append_assoc]
    rfl

theorem takeWhile_suffix {o : Output} (h : '_' ∉ o.module.toList) :
    o.suffix.toList.takeWhile (· ≠ '_') = o.module.toList := by
  obtain ⟨rest, hrest, hcases⟩ := o.suffix_eq
  have hbar : ∀ c ∈ o.module.toList, decide (c ≠ '_') = true := fun c hc =>
    decide_eq_true fun heq => h (heq ▸ hc)
  rw [hrest, takeWhile_append_of_pos hbar]
  rcases hcases with rfl | ⟨cs, rfl⟩ <;> simp

theorem module_eq_of_suffix_eq {o o' : Output} (h : '_' ∉ o.module.toList) (h' : '_' ∉ o'.module.toList)
    (heq : o.suffix = o'.suffix) : o.module = o'.module := by
  apply String.toList_inj.mp
  rw [← takeWhile_suffix h, ← takeWhile_suffix h', heq]

end Output

/-- Let the files of a decoder be written to a folder, and let no name of a module, a block or an
instance take them to another one.  Files are written in the order of the decoder's tree, each holds
the text that was written last under its name, and there is one macro for each name; so all texts are
there if and only if no two different ones have the same name.  If all names are different, each file
holds the text of the code that was generated for it.  Outputs of different modules can have the same
name only if a module has a bar in its name. -/
theorem generated_files {d : Decoder} {u : Unit} (hdone : ws.doneModules = [])
    (hmacros : ws.definedMacros = []) (hslash : ∀ o ∈ d.outputs, '/' ∉ o.suffix.toList)
    (h : d.write folder ws = .ok u ws') :
    ∃ es, d.record folder ws = .ok es ws' ∧ es.map Written.output = d.outputs ∧
      fileText ws' folder macroFile = .ok (some (macroHead ++ portLine ++
        String.join ((d.outputs.map Output.suffix).eraseDups.map macroLine))) ∧
      (∀ e ∈ es, fileText ws' folder (logicFile e.output.suffix) = .ok (lastText es e.output.suffix)) ∧
      ((∀ e ∈ es, fileText ws' folder (logicFile e.output.suffix) = .ok (some e.text)) ↔
        ∀ e ∈ es, ∀ e' ∈ es, e.output.suffix = e'.output.suffix → e.text = e'.text) ∧
      ((d.outputs.map Output.suffix).Nodup → (d.outputs.filterMap Output.inst?).Nodup →
        ∀ e ∈ es, ∃ text, Rendered d.trace e.code text ∧
          fileText ws' folder (logicFile e.output.suffix) = .ok (some text)) ∧
      ((∀ o ∈ d.outputs, '_' ∉ o.module.toList) → ∀ o ∈ d.outputs, ∀ o' ∈ d.outputs,
        o.suffix = o'.suffix → o.module = o'.module) := by
  rw [write_eq_record] at h
  obtain ⟨es, ws1, hrecord, hpure⟩ := Build.bind_ok h
  obtain ⟨-, rfl⟩ := Build.pure_ok hpure
  obtain ⟨home, v, ws0, hv, hvmacros, hhead, hallowed, hdone0, htree⟩ := record_start hmacros hrecord
  have hstart : ws0.doneModules = [] := hdone0.trans hdone
  obtain ⟨houtputs, -, hrecorded⟩ := recordTree_ok d.tree hv (fun e he => absurd he not_mem_nil)
    (by rw [hstart]; exact hslash) htree
  rw [hstart] at houtputs
  have hsuffixes : (es.map fun e => e.output.suffix) = d.outputs.map Output.suffix := by
    rw [outputs, ← houtputs, map_map]
    rfl
  have hinsts : (es.filterMap fun e => e.output.inst?) = d.outputs.filterMap Output.inst? := by
    rw [outputs, ← houtputs, filterMap_map]
    rfl
  have hlast : ∀ e ∈ es,
      fileText ws' folder (logicFile e.output.suffix) = .ok (lastText es e.output.suffix) := by
    intro e he
    have hmem : e.output ∈ d.outputs := by
      rw [outputs, ← houtputs]
      exact mem_map_of_mem he
    obtain ⟨e', -, -, hlast⟩ := exists_lastText he
    rw [fileText, hlast]
    refine text?_joinPath (fileName_logicFile (hslash _ hmem)) (hrecorded.allowed e he)
      hrecorded.shows.leads ?_
    rw [hrecorded.shows.texts, text?_putAll, hlast, Option.some_or]
  have htexts : (∀ e ∈ es, fileText ws' folder (logicFile e.output.suffix) = .ok (some e.text)) ↔
      ∀ e ∈ es, ∀ e' ∈ es, e.output.suffix = e'.output.suffix → e.text = e'.text := by
    constructor
    · intro hall e he e' he' hsuffix
      have heq := (hall e he).symm.trans (hsuffix ▸ hall e' he')
      exact Option.some.inj (Except.ok.inj heq)
    · intro hsame e he
      obtain ⟨e', he', hsuffix, hlast'⟩ := exists_lastText he
      rw [hlast e he, hlast', hsame e' he' e he hsuffix]
  refine ⟨es, hrecord, houtputs, ?_, hlast, htexts, fun hnames hinst e he => ?_,
    fun hbar o ho o' ho' => Output.module_eq_of_suffix_eq (hbar o ho) (hbar o' ho')⟩
  · refine text?_joinPath fileName_macroFile hallowed hrecorded.shows.leads ?_
    rw [hrecorded.shows.texts, ← hsuffixes, (macros_putAll hvmacros hhead es).2]
  · refine ⟨e.text, rendered_of_faithful hrecorded.faithful (hinsts ▸ hinst) e he, ?_⟩
    refine htexts.mpr (fun e he e' he' hsuffix => ?_) e he
    rw [← hsuffixes] at hnames
    rw [inj_on_of_nodup_map hnames he he' hsuffix]

end

/-- A node with one domain or none. -/
def nodeOf (inst module : String) (place : Place) (domains : List Domain) : Node :=
  { inst := inst, module := module, block := none, domains := domains.map fun d => (.none, d),
    branches := [], place := place }

/-- A decoder of a module `t` with an instance `x` of a module `m`, and one of a module `t_x`. -/
def sharedName : Decoder where
  ports := ⟨0⟩
  tree :=
    let inside (module : String) : Domain := { (default : Domain) with bus := ⟨0⟩, module := module }
    .node (nodeOf "t" "t" .root []) [
      .node (nodeOf "x" "m" (.direct .none 0) [inside "m"]) [],
      .node (nodeOf "y" "t_x" (.direct .none 2) [inside "t_x"]) []]

def oneBus : Workspace :=
  { busses := #[{ (default : Bus) with
      addrWidth := some 4, dataWidth := some 1, addrRange := some ⟨"3", "0"⟩, dataRange := some ⟨"0", "0"⟩ }] }

theorem generated_files_sharedName : ∃ ws' es, sharedName.write "" oneBus = .ok () ws' ∧
    es.map Written.output = [.logic "t", .connections "t" "x", .logic "m", .connections "t" "y",
      .logic "t_x"] ∧
    ∀ e ∈ es, fileText ws' "" (logicFile e.output.suffix) = .ok (lastText es e.output.suffix) := by
  have hgoes : (sharedName.write "").isOk oneBus = true := by decide +kernel
  obtain ⟨_, ws', hrun⟩ := Build.exists_ok hgoes
  obtain ⟨es, -, houtputs, -, hlast, -⟩ := generated_files rfl rfl (by decide) hrun
  exact ⟨ws', es, hrun, houtputs.trans (by decide), hlast⟩

end RegisterMap.Decoder
