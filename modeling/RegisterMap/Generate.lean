import RegisterMap.Decoder.Files
import RegisterMap.Decoder.TestBench
import RegisterMap.Export.Map
import RegisterMap.Export.Template

/-! # Generation

One run reads a design and makes what it is asked for: the decoding logic, the text for test benches,
and the address maps of all bus domains. -/

namespace RegisterMap

/-- What a run is to do. -/
structure Job where
  files : List String
  top : Option String := none
  includes : List String := []
  live : Bool := false
  folder : String := "_autogen"
  bench : Option String := none
  json : Option String := none
  rdl : Option String := none
  flat : Bool := false
  /-- Keep the common root of all names. -/
  untrimmed : Bool := false
  mangle : Bool := false
  short : Bool := false
  trace : Bool := false
  ignored : List String := []
deriving Repr, Inhabited

namespace Job

/-- The file for the map of a domain, of its own if there are several. -/
def fileFor (file : String) (domain : Value) (single : Bool) : String :=
  if domain.isNone || single then file
  else
    let (name, ending) := Source.splitEnding file
    s!"{name}.{domain.display}{ending}"

/-- Generate the logic and the test bench. -/
def makeLogic (j : Job) (d : Design) (ports : BusId) : Build Unit := do
  if j.live || j.bench.isSome then
    let decoder ← Decoder.ofTree d.tree d.busses ports j.trace
    if j.live then decoder.write j.folder
    if j.bench.isSome then decoder.writeBench j.bench d.busses

/-- Write the maps of all domains. -/
def makeMaps (j : Job) (d : Design) : Build Unit := do
  if j.json.isSome || j.rdl.isSome then
    if !j.untrimmed then d.trim
    let single := d.maps.length ≤ 1
    for (domain, space) in ← Design.domainMaps d.tree do
      if let some file := j.json then
        Export.write space j.ignored (fileFor file domain single) (some j.folder) j.flat j.mangle
          j.short
      if j.rdl.isSome then Build.say (← Export.templates)

/-- Carry out a job; the status with which the program ends.  Mistakes in the design are reported. -/
def run (j : Job) : Build Nat := do
  let netlist ← try some <$> Netlist.read { files := j.files, top := j.top, includes := j.includes }
    catch
      | .reader text => do
        Build.say "ERROR: (Yosys Parsing Error; message follows)"
        Build.say text
        pure none
      | e => throw e
  match netlist with
  | none => return 1
  | some netlist =>
    let d ← Design.read netlist
    let ports ← BusId.union d.busses
    try
      j.makeLogic d ports
      j.makeMaps d
      return 0
    catch e =>
      if !e.isDesignMistake then throw e
      Build.say (e.message.getD "")
      return 1

end Job

end RegisterMap
