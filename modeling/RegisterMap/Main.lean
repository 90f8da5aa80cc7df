import RegisterMap.CommandLine.Tool

/-! # The program

The first argument names a command, the others are for the command.  What the netlist reader printed
is read from standard input; the texts of several runs stand one after the other with form feeds
between them.  Files are read before the command runs, and what it has changed is written after it.
Whether a folder is there shows only then. -/

namespace RegisterMap.Program

open Source

/-- The source files that a netlist names. -/
def sourcePaths (netlist : String) : List String :=
  ((Text.split '"' netlist).filterMap fun s => do
    return (← (← (Location.parse s).toOption)).path).eraseDups

/-- The folders into which a command may write. -/
def targetFolders (tool : Tool) (arguments : List String) : List String :=
  let attached := arguments.filterMap fun argument => (CommandLine.cutAtEquals argument).2
  let above := (arguments ++ attached).flatMap fun path => foldersAbove (plainPath path)
  match CommandLine.parse tool.options arguments with
  | .ok (files, options) => (Job.ofOptions files options).folder :: above
  | .error _ => above

/-- The texts that the reader prints. -/
def readerTexts (input : String) : List String := Text.split '\x0c' input

def statusOf : Except CommandLine.Stop Value → Nat
  | .ok (.int status) => status.toNat
  | .ok _ => 0
  | .error stop => stop.status

def loadText (path : String) : IO (Option (String × String)) := do
  try return some (path, ← IO.FS.readFile path) catch _ => return none

def loadFiles (tool : Tool) (arguments : List String) (netlist : String) : IO Files := do
  let texts ← (arguments ++ sourcePaths netlist).filterMapM loadText
  return .ofPaths texts (targetFolders tool arguments)

def run (tool : Tool) (arguments : List String) : IO Nat := do
  let netlist ← (← IO.getStdin).readToEnd
  let files ← loadFiles tool arguments netlist
  let start : Workspace := { files := files, reader := { texts := readerTexts netlist } }
  let (ws, status, complaint) : Workspace × Nat × String :=
    match tool.run arguments start with
    | .ok answer ws => (ws, statusOf answer, "")
    | .error e ws => (ws, 1, e.message.getD "The input is not understood.")
  IO.print ws.transcript
  for (path, text) in ws.files.changesSince files do IO.FS.writeFile path text
  if !complaint.isEmpty then IO.eprintln complaint
  return status

end RegisterMap.Program

/-- Run the command that the first argument names. -/
def main (arguments : List String) : IO UInt32 := do
  match arguments with
  | name :: rest =>
    match RegisterMap.Tool.ofName? name with
    | some tool => return (← RegisterMap.Program.run tool rest).toUInt32
    | none => return RegisterMap.CommandLine.Stop.misuse.status.toUInt32
  | [] => return RegisterMap.CommandLine.Stop.misuse.status.toUInt32
