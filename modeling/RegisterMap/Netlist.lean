import RegisterMap.Value.Json
import RegisterMap.Workspace.Basic

/-! # Netlists

A netlist is a document that an external reader prints for hardware source files: modules with their
ports, nets, memories and instances.  `Netlist.read` runs the reader.  The ranges of the ports are
then read from the source files and added to the document (`Netlist.withRanges`).

* `Netlist.select` goes down the document along a dotted path.
* `Netlist.search` and `Netlist.signals` walk over the whole document. -/

namespace RegisterMap

open Text

/-- A netlist with its ports and parameters. -/
structure Netlist where
  document : Value
  top : Option String
  moduleName : Option String := none
  ports : Value := .table []
  parameters : Table String (List (Value × Value)) := []
deriving Repr, Inhabited

/-- What the reader is asked for. -/
structure NetlistRequest where
  files : List String
  top : Option String := none
  includes : List String := []
  modern : Bool := false
deriving Repr, Inhabited

namespace NetlistRequest

/-- The command line of the reader. -/
def command (r : NetlistRequest) : String :=
  let tool := if r.modern then "yosys -m slang" else "yosys"
  let reading := if r.modern then "read_slang" else "read_verilog"
  let folders := join " " (r.includes.map ("-I " ++ ·))
  let root := (r.top.map ("\nhierarchy -top " ++ ·)).getD ""
  tool ++ " -q -p \"verilog_defines -DYOSYS\n" ++ reading ++ " " ++ folders ++ join " " r.files ++
    root ++ "\nproc\" -p write_json"

end NetlistRequest

/-- Octets of a text, each read as one character. -/
def octetChars (s : String) : List Char := s.toUTF8.toList.map fun b => Char.ofNat b.toNat

/-- One run of the external reader: what it prints. -/
def runReader (command : String) : Build String := do
  let reader := (← getThe Workspace).reader
  modify fun ws => { ws with reader := { reader with commands := reader.commands ++ [command] } }
  match reader.failure with
  | some status =>
    throw (.reader s!"Command '{command}' returned non-zero exit status {status}.")
  | none =>
    let last := reader.texts.getLast?.getD "\x7b\x7d"
    return reader.texts[reader.commands.length]?.getD last

namespace Netlist

/-- The document from the first brace on. -/
def parseDocument (text : String) : Result Value :=
  match (octetChars text).dropWhile (· != '\x7b') with
  | [] => fail .badValue
  | cs => Json.read cs

/-! ### Ranges of ports -/

/-- The range of a port by its attributes. -/
def portRange (files : Source.Files) (net : Value) : Result Value := do
  if net.isNone then return .none
  let attributes ← net.member "attributes"
  if attributes.isNone then return .none
  match ← attributes.member "src" with
  | .none => return .none
  | .text place => return Value.ofOption Bus.boundsValue (← files.widthBounds place)
  | _ => fail .wrongType

def putMember (v : Value) (key : String) (x : Value) : Result Value :=
  match v with
  | .table kvs => .ok (.table (Table.put kvs (.text key) x))
  | _ => fail .wrongType

/-- A module with the ranges of its ports. -/
def moduleWithRanges (files : Source.Files) (module : Value) : Result Value := do
  let ports ← module.member "ports"
  let nets ← module.member "netnames"
  let ports ← (← ports.members).mapM fun (name, port) => do
    let range ← portRange files (← nets.field (← name.keyText))
    return (name, ← putMember port "range" range)
  putMember module "ports" (.table ports)

def modules? (document : Value) : Result (Option Value) := do
  let modules ← document.member "modules"
  return if modules.isNone then none else some modules

/-- The document with the ranges of all ports. -/
def withRanges (files : Source.Files) (document : Value) : Result Value := do
  match ← modules? document with
  | none => return document
  | some modules =>
    let modules ← (← modules.members).mapM fun (name, module) => do
      return (name, ← moduleWithRanges files module)
    putMember document "modules" (.table modules)

/-! ### Reading -/

/-- The value of a parameter: a binary numeral is a number, a blank a pair of quotes. -/
def parameterValue : Value → Result Value
  | .text s =>
    match Number.readBinary s with
    | .ok n => .ok (.int n)
    | .error _ => .ok (.text (if (strip s).isEmpty then "\"\"" else s))
  | _ => fail .wrongType

/-- The parameters of a module. -/
def parametersOf (module : Value) : Result (Option (List (Value × Value))) := do
  let given ← module.member "parameter_default_values"
  if given.isNone then return none
  return some (← (← given.members).mapM fun (name, v) => do return (name, ← parameterValue v))

/-- The netlist of a document. -/
def ofDocument (files : Source.Files) (top : Option String) (document : Value) :
    Result Netlist := do
  match ← modules? document with
  | none => return { document := document, top := top }
  | some modules =>
    match ← modules.members with
    | [] => fail .outOfRange
    | (name, _) :: _ =>
      let document ← withRanges files document
      let name ← name.keyText
      let module ← (← document.field "modules").field name
      let parameters ← parametersOf module
      return {
        document := document
        top := top
        moduleName := some name
        ports := ← module.member "ports"
        parameters := (parameters.map fun kvs => [(name, kvs)]).getD [] }

/-- Read a netlist. -/
def read (r : NetlistRequest) : Build Netlist := do
  for path in r.files do
    if !(← getThe Workspace).files.has path then throw (.plain s!"File {path} not found")
  let document ← parseDocument (← runReader r.command)
  ofDocument (← getThe Workspace).files r.top document

/-! ### Views -/

/-- A port as it is listed: name, direction, and the ends of the range. -/
def listPort (parsed : Bool) (name port : Value) : Build Value := do
  let direction := (← port.member? "direction").getD (.text "unknown")
  let bits := (← port.member? "bits").getD (.list [.int 0])
  let (first, last) : Value × Value ←
    if parsed then do
      let width ← bits.length
      if 1 < width then pure (.int (width - 1), .int 0) else pure (.none, .none)
    else
      match ← port.field "range" with
      | .tuple [first, last] =>
        if first == .text "0" && last == .text "0" then pure (.none, .none)
        else pure (first, last)
      | _ =>
        Build.say s!"{name.display} _range is None!"
        pure (.none, .none)
  return .tuple [.int 0, name, direction, first, last]

/-- The ports as they are listed. -/
def listPorts (n : Netlist) (parsed : Bool) : Build Value := do
  return .list (← (← n.ports.members).mapM fun (name, port) => listPort parsed name port)

/-- The parameters of a module, by default of the first one. -/
def parametersFor (n : Netlist) (module : Option String) : Result Value :=
  match n.parameters with
  | [] => .ok (.table [])
  | (first, _) :: _ =>
    match Table.get? n.parameters (module.getD first) with
    | some kvs => .ok (.table kvs)
    | none => fail .missingKey

/-- Go down along a path; parts that are not there are passed over. -/
def descend : Value → List String → Result Value
  | v, [] => .ok v
  | v, part :: parts => do descend ((← v.member? part).getD v) parts

/-- The table at a dotted path, or the whole document. -/
def select (n : Netlist) (path : Option String) : Result Value := do
  let found ← (path.map fun p => descend n.document (split '.' p)).getD (.ok n.document)
  return if found.isTable then found else n.document

/-- The lines of a document down to a depth. -/
def outline (n : Netlist) (depth : Int) (path : Option String) : Result String := do
  let members ← (← n.select path).members
  return join "\n" ("VParser()" :: Value.outlineLines depth 2 members)

def display (n : Netlist) : Result String := n.outline 3 none

/-! ### Walking over a document -/

mutual

/-- All members in a document with the keys on the way to them. -/
def membersBelow (above : List Value) : Value → List (List Value × Value)
  | .table kvs => membersIn above kvs
  | _ => []

def membersIn (above : List Value) : List (Value × Value) → List (List Value × Value)
  | [] => []
  | (k, v) :: rest =>
    let here := above ++ [k]
    (here, v) :: membersBelow here v ++ membersIn above rest

end

/-- The keys on the way to a member. -/
def wayText (way : List Value) : String := join "." (way.map Value.display)

/-- The members with a key. -/
def search (n : Netlist) (key : Value) : Value :=
  let hits := (membersBelow [] n.document).filter fun (way, _) => way.getLast? == some key
  .list (hits.map fun (way, v) => .tuple [.text (wayText way), v])

/-- The place of a net among bits. -/
def placeIn (bits net : Value) : Result (Option Nat) :=
  match bits with
  | .list xs | .tuple xs => .ok (xs.findIdx? (· == net))
  | .table kvs => if Table.has kvs net then fail .noSuchField else .ok none
  | _ => fail .wrongType

/-- The name of a bit: the way to its signal, and the place in it. -/
def bitName (way : List Value) (bits : Value) (place : Nat) : Result String := do
  return wayText way ++ if 1 < (← bits.length) then s!"[{place}]" else ""

def isNet (v : Value) : Bool := v.number?.isSome

/-- The name of the bit `net` at a signal, if it is there. -/
def nameAt (way : List Value) (bits net : Value) : Result (Option String) := do
  if !isNet net then return none
  match ← placeIn bits net with
  | none => return none
  | some place => return some (← bitName way bits place)

/-- Nets with the signals found: name, direction and source. -/
abbrev Findings := List (Value × List Value)

/-- Add what a member says, if it is a signal of one of the directions. -/
def addSignal (directions : List Value) (found : Findings) (way : List Value) (signal : Value) :
    Result Findings := do
  let direction ← signal.member "direction"
  if !directions.contains direction then return found
  let bits ← signal.member "bits"
  let attributes ← signal.member "attributes"
  let source ← if attributes.isNone then pure .none else attributes.member "src"
  if bits.isNone then return found
  found.mapM fun (net, hits) => do
    match ← nameAt way bits net with
    | none => return (net, hits)
    | some name => return (net, hits ++ [.tuple [.text name, direction, source]])

/-- The signals with some bits, of some directions and not on the way `except`. -/
def signals (n : Netlist) (nets directions : List Value) (except : Value) : Result Value := do
  let places := (membersBelow [] n.document).filter fun (way, v) =>
    v.isTable && !(Value.list way == except)
  let found ← places.foldlM (fun found (way, v) => addSignal directions found way v)
    (nets.map fun net => (net, []))
  return .list (found.map fun (net, hits) => .list [net, .list hits])

/-- A bit in a trace: waiting, or followed to its signals. -/
inductive TracedBit where
  | waiting (net : Value)
  | followed (hits : List String)
deriving Repr, Inhabited

/-- Follow the bits to a signal.  A bit can be followed once. -/
def followTo (way : List Value) (bits : Value) (b : TracedBit) : Result TracedBit :=
  match b with
  | .followed _ => fail .badValue
  | .waiting net =>
    if !isNet net then .ok b
    else do
      match ← placeIn bits net with
      | none => return .followed []
      | some place => return .followed [← bitName way bits place]

/-- Print where the bits of the signal at a path lead. -/
def trace (n : Netlist) (path : String) : Build Unit := do
  let own := (split '.' path).map fun part => Value.text (strip part)
  let bits ← (← n.select (some path)).member "bits"
  if bits.isNone then
    Build.say (s!"Partselect {path} does not refer to a valid net dict " ++
      "(key of 'netnames' dict)")
  else
    let mut traced := (← bits.visited).map TracedBit.waiting
    for (way, v) in membersBelow [] n.document do
      if v.isTable && !(way == own) then
        let others ← v.member "bits"
        if !others.isNone then traced ← (traced.mapM (followTo way others) : Result _)
    for (b, place) in traced.zipIdx do
      match b with
      | .followed _ => Build.refuse .badValue
      | .waiting net =>
        if isNet net then Build.say s!"{place} : []"
        else Build.say s!"{place} : 1'b{net.display}"

/-- The number that the constant bits of a net stand for, lowest first. -/
def constantValue (bits : Value) : Result Nat :=
  let value (bits : List Value) : Nat :=
    let ones := bits.zipIdx.filter fun (b, _) => b == .text "1"
    Number.total (ones.map fun (_, place) => Number.twoPow place)
  match bits with
  | .table kvs => do
    let places := (List.range kvs.length).map fun (n : Nat) => Table.get? kvs (.int n)
    return value (← places.mapM fun
      | some b => .ok b
      | none => fail .missingKey)
  | bits => bits.visited.map value

end Netlist

end RegisterMap
