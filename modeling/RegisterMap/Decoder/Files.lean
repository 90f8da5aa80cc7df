import RegisterMap.Decoder.Basic

/-! # The generated files

The logic of a module is generated once, however many instances the module has: its own file, a file
for each generate block, and a file with the connections of each instance in it.  Each file is
included through a macro that is defined in `defs.vh`. -/

namespace RegisterMap.Decoder

/-- The file of macros. -/
def macroFile : String := "defs.vh"

/-- The file of the ports. -/
def portFile : String := "ghostbusports.vh"

/-- The file for the logic of a suffix. -/
def logicFile (suffix : String) : String := s!"ghostbus_{suffix}.vh"

/-- Define the macro that includes a file. -/
def define (folder name file : String) : Build Unit :=
  Build.append (Source.joinPath folder macroFile) s!"`define {name} `include \"{file}\"\n"

/-- Define the macro for a logic file. -/
def defineLogic (folder suffix : String) : Build Unit := do
  modify fun ws => { ws with definedMacros := ws.definedMacros ++ [suffix] }
  define folder s!"GHOSTBUS_{suffix}" (logicFile suffix)

/-- Define the macro for the logic of a suffix, once. -/
def defineOnce (folder suffix : String) : Build Unit := do
  if !(← getThe Workspace).definedMacros.contains suffix then defineLogic folder suffix

/-- Write code to the logic file of a suffix. -/
def writeLogic (trace : Bool) (folder suffix : String) (code : List Code) : Build Unit := do
  let w ← Code.emitAll { trace := trace } code
  w.write (logicFile suffix) folder
  defineOnce folder suffix

/-- Take a module for generation; is it the first time? -/
def claim (module : String) : Build Bool := do
  let ws ← getThe Workspace
  if ws.doneModules.contains module then return false
  set { ws with doneModules := ws.doneModules ++ [module] }
  return true

/-- The code of a domain outside generate blocks. -/
def Domain.code (d : Domain) (s : Scope) : Build (List Code) := do
  let nets ← s.netCode
  let written ← d.allWords "_w"
  let read ← d.allWords "_r"
  return nets ++ (← s.busCode written read)

/-- Write the logic of a module and that of its generate blocks. -/
def Node.write (n : Node) (ports : BusId) (trace : Bool) (folder : String)
    (children : List (Tree Node)) : Build Unit := do
  let loopIndex := if n.hasBlocks then [Code.line .loopIndex s!"integer {loopVariable}=0;"] else []
  let code ← n.domains.mapM fun (_, d) => do d.code (← d.scope ports children)
  writeLogic trace folder n.module (loopIndex ++ code.flatten)
  let start : Scope.BlockTexts := n.branches.map fun branch => (branch, [])
  let texts ← n.domains.foldlM (fun texts (_, d) => do
    (← d.scope ports children).blockCode texts) start
  for (branch, code) in texts do
    writeLogic trace folder s!"{n.module}_{branch}" code

/-- The writers of the connections, by the name of the instance. -/
abbrev PortMaps := Table String CodeWriter

/-- Write the connections of an instance; one name has one text. -/
def Node.writePortMap (parent : Node) (ports : BusId) (trace : Bool) (folder : String)
    (maps : PortMaps) (n : Node) : Build PortMaps := do
  let suffix := match n.place with
    | .looped _ branch _ => s!"{parent.module}_{branch}_{n.inst}"
    | _ => s!"{parent.module}_{n.inst}"
  let rows ← ports.run Bus.list
  let old := (Table.get? maps n.inst).getD { trace := trace }
  let w ← Code.emitAll old (portMap (← ports.get) rows (← n.child))
  w.write (logicFile suffix) folder
  defineOnce folder suffix
  return Table.put maps n.inst w

mutual

/-- Write the files of a node and below. -/
def writeTree (ports : BusId) (trace : Bool) (folder : String) : Tree Node → Build Unit
  | .node n children => do
    let first ← claim n.module
    if first then n.write ports trace folder children
    writeTrees ports trace folder n first [] children

/-- Write the files of the children of a node; connections for the first instance only. -/
def writeTrees (ports : BusId) (trace : Bool) (folder : String) (parent : Node) (first : Bool)
    (maps : PortMaps) : List (Tree Node) → Build Unit
  | [] => return ()
  | t :: ts => do
    let maps ←
      if first then parent.writePortMap ports trace folder maps t.data else pure maps
    writeTree ports trace folder t
    writeTrees ports trace folder parent first maps ts

end

/-- Write the file of the ports. -/
def writePorts (d : Decoder) (folder : String) : Build Unit := do
  let rows ← d.ports.run Bus.list
  let w ← Code.emitAll { trace := d.trace } (portList rows)
  w.write portFile folder
  define folder "GHOSTBUSPORTS" portFile

/-- Write all files of a decoder. -/
def write (d : Decoder) (folder : String) : Build Unit := do
  let path := Source.joinPath folder macroFile
  let live := "GHOSTBUS_LIVE"
  Build.write path ""
  Build.append path s!"`ifndef {live}\n`define {live}\n`endif // ifndef {live}\n"
  d.writePorts folder
  writeTree d.ports d.trace folder d.tree

end RegisterMap.Decoder
