import RegisterMap.Dependency
import RegisterMap.Hierarchy
import RegisterMap.AddressSpace.Copy

/-! # Instances

A node of the instance tree knows the address spaces of its module instance, one for each bus
domain, and for each instance in its module the domain, the generate block and whether a bus enters
it through its ports.

A space may be joined to a passenger of another space of the same node: the passenger then stands
for that space.  `memoryOrder` puts spaces that are joined to a passenger in front of the space that
holds the passenger, because the passenger takes its address width from the joined space. -/

namespace RegisterMap

/-- An instance with its spaces. -/
structure Instance where
  key : Option InstanceKey := none
  label : Option String := none
  path : Option (List String) := none
  spaces : List SpaceId := []
  domains : Table String Value := []
  /-- The instances in the module that no bus enters through their ports. -/
  tops : Table String Bool := []
  blocks : Table String (Option BlockId) := []
  declared : List Value := []
  block : Option BlockId := none
  parentDomain : Value := .none
deriving Inhabited

/-- The instances of a design. -/
abbrev InstanceTree := Tree Instance

namespace Instance

def ofKey (key : InstanceKey) : Instance :=
  { key := some key, label := some key.inst, path := some [key.inst] }

def labelText (i : Instance) : String := (Value.ofText? i.label).display

/-- An instance as it is shown in a message. -/
def display (i : Instance) : Result String := do
  match i.path with
  | some path => return s!"MemoryTree({← Text.itemAt path (-1)})"
  | none =>
    let label := i.label.getD "Unknown"
    return s!"MemoryTree({label})"

/-- The space of an instance with a domain. -/
def spaceOf (i : Instance) (domain : Value) : Build (Option SpaceId) :=
  i.spaces.findM? fun id => do return (← id.get).domain == domain

end Instance

namespace InstanceTree

mutual

/-- The tree below an instance that a document of nested tables describes. -/
def ofValue (i : Instance) : Value → Result InstanceTree
  | .table members => do return .node i (← ofMembers members)
  | _ => fail .noSuchField

def ofMembers : List (Value × Value) → Result (List InstanceTree)
  | [] => return []
  | (key, v) :: rest => do
    let first ← ofValue (Instance.ofKey (← InstanceKey.ofValue key)) v
    return first :: (← ofMembers rest)

end

/-- Name of the module of the last child, or of the node unless it is the root. -/
def moduleName (t : InstanceTree) (isRoot : Bool) : Option String :=
  match t.children.getLast?, isRoot with
  | some child, _ => child.data.key.map fun key => Source.moduleName key.module
  | none, true => none
  | none, false => t.data.key.map fun key => Source.moduleName key.module

/-- Print a tree of instances. -/
def print (t : InstanceTree) : Build Unit := do
  Build.say "Walking:"
  for (parent, i) in t.withParents none do
    match parent with
    | some p => Build.say s!"  {p.labelText}.{i.labelText}"
    | none => Build.say s!"  {i.labelText}"
  Build.say "Done walking"

end InstanceTree

/-! ### The order of spaces -/

/-- The search for passengers that spaces are joined to. -/
structure JoinSearch where
  /-- Spaces whose passenger is not found yet, with the name of the passenger. -/
  pending : Table Nat Value
  /-- Passengers that were found, with the space that is joined to them. -/
  found : Table String Nat := []
  /-- Spaces that come before others. -/
  rules : Table Nat Nat := []

/-- Note a passenger that spaces may be joined to. -/
def JoinSearch.meet (s : JoinSearch) (space : Nat) (name : String) : JoinSearch :=
  match s.pending.find? fun entry => entry.2 == .text name with
  | none => s
  | some (joined, _) =>
    { pending := Table.erase s.pending joined
      found := Table.put s.found name joined
      rules := Table.put s.rules joined space }

/-- The names of the passengers in a space. -/
def SpaceId.passengerNames (id : SpaceId) : Build (List String) := do
  (← id.contents).filterMapM fun (_, _, item) => do
    match item with
    | .passenger p => return some (← p.get).name
    | _ => return none

/-- The order in which spaces are resolved, and the space joined to each passenger. -/
def memoryOrder (spaces : List SpaceId) (module : Option String) :
    Build (List Nat × Table String Nat) := do
  let joined ← spaces.zipIdx.filterMapM fun (id, n) => do
    let name := (← id.get).pseudoDomain
    return if name.isNone then none else some (n, name)
  let places := List.range spaces.length
  if joined.isEmpty then return (places, [])
  let search ← spaces.zipIdx.foldlM (fun (s : JoinSearch) (id, n) => do
    return (← id.passengerNames).foldl (fun s name => s.meet n name) s) { pending := joined }
  if !search.pending.isEmpty then
    let names ← ((Table.values search.pending).mapM Value.keyText : Result _)
    let missing := Text.join ", " names
    throw (.design (s!"Could not find the following extmods in module " ++
      s!"{(Value.ofText? module).display}: {missing}\n" ++
      "These extmod names were referenced by a declared bus in the module."))
  let first := Dependency.order search.rules
  return (first ++ places.filter fun n => !first.contains n, search.found)

end RegisterMap
