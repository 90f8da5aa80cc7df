import RegisterMap.Netlist
import RegisterMap.Source.Macro

/-! # Naming rules of macros

Every module file uses the macro that is named after its module, and every other macro of the library
in it, the ports apart, starts with that name. -/

namespace RegisterMap.RuleCheck

/-- The macro that is named after a module. -/
def moduleMacro (module : Option String) : String :=
  Source.macroStart ++ "_" ++ (Value.ofText? module).display

/-- The macro of the ports, which every module may use. -/
def portMacro : String := Source.macroStart ++ "PORTS"

def usesOwn (own : String) (macros : List String) : Bool := macros.contains own

/-- May a module use this macro? -/
def isAllowed (own name : String) : Bool :=
  name == own || name == portMacro || Text.startsWith name (own ++ "_")

/-- What is wrong with the macros of a file. -/
def violations (path own : String) (macros : List String) : List String :=
  let missing := if usesOwn own macros then [] else [s!"{path}: missing mandatory \"{own}\" macro."]
  missing ++ (macros.filter fun name => !isAllowed own name).map fun name =>
    s!"{path}: misplaced (or mis-spelled) macro \"{name}\" which does not begin with \"`{own}_\""

/-- Check a file: the number of violations, which are reported. -/
def checkFile (path : String) : Build Nat := do
  if !(← getThe Workspace).files.has path then
    throw (.plain "Could not find file: \"\x7bfilepath\x7d\"")
  let netlist ← Netlist.read { files := [path] }
  let macros ← (← getThe Workspace).files.macroNames path
  let found := violations path (moduleMacro netlist.moduleName) macros
  for violation in found do Build.say s!"WARNING: {violation}"
  return found.length

/-- Check files: the status with which the program ends. -/
def check (paths : List String) : Build Nat := do
  Build.say ("NOTE! This script currently expects ALL files handed to it to be Ghostbus modules " ++
    "(not standard Verilog files with no ghostbus usage)")
  let counts ← paths.mapM checkFile
  if Number.total counts ≠ 0 then return 1
  Build.say "PASS"
  return 0

end RegisterMap.RuleCheck
