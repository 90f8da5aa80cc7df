import RegisterMap.Decoder.Files
import RegisterMap.Proofs.Decoder.LoopedInstances
import RegisterMap.Proofs.Source.Folder

/-! # What is written for a decoder

Each generated file is an `Output`: the logic of a module or of a generate block, or the connections of
an instance.  Which outputs a decoder has, and in which order they are written, is read off its tree
(`Decoder.outputs`); the name of the file is put together from the names of the module, the block and
the instance (`Output.suffix`).

`Decoder.record` writes all files and keeps a record of them, with the code that was generated for each
and with the text that was written.  Writing is recording without the record
(`Decoder.write_eq_record`). -/

namespace RegisterMap.Decoder

/-- What a generated file is for. -/
inductive Output where
  | logic (module : String)
  | block (module branch : String)
  | connections (module inst : String)
  | blockConnections (module branch inst : String)
deriving DecidableEq, Repr

namespace Output

/-- The module that the file belongs to. -/
def module : Output → String
  | logic m | block m _ | connections m _ | blockConnections m _ _ => m

/-- The part of the name of the file that tells it from others. -/
def suffix : Output → String
  | logic m => m
  | block m branch => s!"{m}_{branch}"
  | connections m inst => s!"{m}_{inst}"
  | blockConnections m branch inst => s!"{m}_{branch}_{inst}"

/-- Two outputs can have the same name. -/
example : (connections "top" "x").suffix = (logic "top_x").suffix := by decide

/-- The module and the instance whose connections are written. -/
def inst? : Output → Option (String × String)
  | connections m inst | blockConnections m _ inst => some (m, inst)
  | logic _ | block _ _ => none

end Output

/-- The file with the connections of an instance. -/
def Node.connectionsOf (parent n : Node) : Output :=
  match n.place with
  | .looped _ branch _ => .blockConnections parent.module branch n.inst
  | _ => .connections parent.module n.inst

mutual

/-- The outputs of a tree, and the modules that are done then. -/
def outputsOf (done : List String) : Tree Node → List Output × List String
  | .node n children =>
    if done.contains n.module then outputsBelow n false done children
    else
      let below := outputsBelow n true (done ++ [n.module]) children
      (.logic n.module :: n.branches.map (.block n.module) ++ below.1, below.2)

/-- The outputs of the children of a node, with connections in the first node of its module. -/
def outputsBelow (parent : Node) (first : Bool) (done : List String) :
    List (Tree Node) → List Output × List String
  | [] => ([], done)
  | t :: ts =>
    let own := if first then [parent.connectionsOf t.data] else []
    let below := outputsOf done t
    let rest := outputsBelow parent first below.2 ts
    (own ++ below.1 ++ rest.1, rest.2)

end

/-- The outputs of a decoder in the order in which they are written. -/
def outputs (d : Decoder) : List Output := (outputsOf [] d.tree).1

/-! ### Recording -/

/-- A file that has been written. -/
structure Written where
  output : Output
  /-- The code that was generated for it. -/
  code : List Code
  /-- The text that was written. -/
  text : String

/-- Write code to a file and record it. -/
def recordLogic (trace : Bool) (folder : String) (o : Output) (code : List Code) : Build Written := do
  let w ← Code.emitAll { trace := trace } code
  w.write (logicFile o.suffix) folder
  defineOnce folder o.suffix
  return ⟨o, code, w.text ++ "\n"⟩

def Node.record (n : Node) (ports : BusId) (trace : Bool) (folder : String)
    (children : List (Tree Node)) : Build (List Written) := do
  let loopIndex := if n.hasBlocks then [Code.line .loopIndex s!"integer {loopVariable}=0;"] else []
  let code ← n.domains.mapM fun (_, d) => do d.code (← d.scope ports children)
  let own ← recordLogic trace folder (.logic n.module) (loopIndex ++ code.flatten)
  let start : Scope.BlockTexts := n.branches.map fun branch => (branch, [])
  let texts ← n.domains.foldlM (fun texts (_, d) => do
    (← d.scope ports children).blockCode texts) start
  let blocks ← texts.mapM fun (branch, code) => recordLogic trace folder (.block n.module branch) code
  return own :: blocks

def Node.recordPortMap (parent : Node) (ports : BusId) (trace : Bool) (folder : String)
    (maps : PortMaps) (n : Node) : Build (PortMaps × Written) := do
  let rows ← ports.run Bus.list
  let old := (Table.get? maps n.inst).getD { trace := trace }
  let code := portMap (← ports.get) rows (← n.child)
  let w ← Code.emitAll old code
  w.write (logicFile (parent.connectionsOf n).suffix) folder
  defineOnce folder (parent.connectionsOf n).suffix
  return (Table.put maps n.inst w, ⟨parent.connectionsOf n, code, w.text ++ "\n"⟩)

/-- Write and record the connections of an instance in the first instance of a module. -/
def Node.recordFirst (parent : Node) (ports : BusId) (trace : Bool) (folder : String) (first : Bool)
    (maps : PortMaps) (n : Node) : Build (PortMaps × List Written) :=
  if first then do
    let x ← parent.recordPortMap ports trace folder maps n
    return (x.1, [x.2])
  else pure (maps, [])

mutual

/-- Write the files of a node and of all nodes below it, and record them. -/
def recordTree (ports : BusId) (trace : Bool) (folder : String) : Tree Node → Build (List Written)
  | .node n children => do
    let first ← claim n.module
    let own ← if first then n.record ports trace folder children else pure []
    return own ++ (← recordTrees ports trace folder n first [] children)

def recordTrees (ports : BusId) (trace : Bool) (folder : String) (parent : Node) (first : Bool)
    (maps : PortMaps) : List (Tree Node) → Build (List Written)
  | [] => return []
  | t :: ts => do
    let x ← parent.recordFirst ports trace folder first maps t.data
    let below ← recordTree ports trace folder t
    return x.2 ++ below ++ (← recordTrees ports trace folder parent first x.1 ts)

end

/-- The start of the file with the macros. -/
def macroHead : String := "`ifndef GHOSTBUS_LIVE\n`define GHOSTBUS_LIVE\n`endif // ifndef GHOSTBUS_LIVE\n"

/-- Write all files to a folder and record those of the modules. -/
def record (d : Decoder) (folder : String) : Build (List Written) := do
  let path := Source.joinPath folder macroFile
  Build.write path ""
  Build.append path macroHead
  d.writePorts folder
  recordTree d.ports d.trace folder d.tree

section

variable {ports : BusId} {trace : Bool} {folder : String}

theorem writeLogic_eq (o : Output) (code : List Code) :
    writeLogic trace folder o.suffix code = recordLogic trace folder o code >>= fun _ => pure () := by
  simp only [writeLogic, recordLogic, bind_assoc, pure_bind, bind_pure_unit]

theorem forIn_eq_mapM {α β : Type} {g : α → Build Unit} {g' : α → Build β}
    (h : ∀ x, g x = g' x >>= fun _ => pure ()) (xs : List α) :
    (forIn xs PUnit.unit fun x _ => do g x; pure (.yield PUnit.unit)) =
      xs.mapM g' >>= fun _ => pure () := by
  induction xs with
  | nil => rfl
  | cons x xs ih =>
    rw [List.forIn_cons, List.mapM_cons, h x]
    simp only [bind_assoc, pure_bind]
    exact bind_congr fun _ => ih

theorem Node.write_eq (n : Node) (children : List (Tree Node)) :
    n.write ports trace folder children =
      n.record ports trace folder children >>= fun _ => pure () := by
  unfold Node.write Node.record
  have hlogic : ∀ code, writeLogic trace folder n.module code = _ := writeLogic_eq (.logic n.module)
  simp only [hlogic, bind_assoc, pure_bind]
  refine bind_congr fun code => bind_congr fun own => bind_congr fun texts => ?_
  rw [bind_pure_unit]
  exact forIn_eq_mapM (fun x => writeLogic_eq (.block n.module x.1) x.2) texts

theorem Node.writePortMap_eq (parent : Node) (maps : PortMaps) (n : Node) :
    parent.writePortMap ports trace folder maps n =
      parent.recordPortMap ports trace folder maps n >>= fun x => pure x.1 := by
  unfold Node.writePortMap Node.recordPortMap Node.connectionsOf
  cases n.place <;> simp only [bind_assoc, pure_bind, Output.suffix]

mutual

theorem writeTree_eq : ∀ t : Tree Node,
    writeTree ports trace folder t = recordTree ports trace folder t >>= fun _ => pure ()
  | .node n children => by
    rw [writeTree, recordTree, bind_assoc]
    refine bind_congr fun first => ?_
    cases first with
    | false => simp [writeTrees_eq n false [] children]
    | true => simp [writeTrees_eq n true [] children, Node.write_eq]

theorem writeTrees_eq (parent : Node) (first : Bool) (maps : PortMaps) : ∀ ts : List (Tree Node),
    writeTrees ports trace folder parent first maps ts =
      recordTrees ports trace folder parent first maps ts >>= fun _ => pure ()
  | [] => by rw [writeTrees, recordTrees, pure_bind]
  | t :: ts => by
    rw [writeTrees, recordTrees, Node.recordFirst]
    cases first with
    | false => simp [writeTree_eq t, writeTrees_eq parent false maps ts]
    | true =>
      simp only [if_true, Node.writePortMap_eq, bind_assoc, pure_bind]
      refine bind_congr fun x => ?_
      simp [writeTree_eq t, writeTrees_eq parent true x.1 ts]

end

/-- Writing is recording without the record. -/
theorem write_eq_record (d : Decoder) : d.write folder = d.record folder >>= fun _ => pure () := by
  simp only [Decoder.write, record, writeTree_eq, bind_assoc]
  rfl

end

end RegisterMap.Decoder
