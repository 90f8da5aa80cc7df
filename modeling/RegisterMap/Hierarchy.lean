import RegisterMap.Tree
import RegisterMap.Workspace.Basic

/-! # The instance graph and its unfolding

A netlist says of each module which instances of which modules stand in it.  The tree of all instances
below a top module has a node for each way to reach a module from the top.

It is made in two steps.  First each table of instances is rewritten in place (`Linkage.relinkAll`): the
names give way to keys with references to the tables of the modules, which other tables may refer to
already.  Then everything below the table of the top module is copied (`Linkage.copyUpTo`).  Instances
of modules that the netlist does not hold are left out. -/

namespace RegisterMap

/-- For each module, the instances in it with their modules. -/
abbrev InstanceGraph := Table String (Table String Value)

/-- An instance with its module. -/
structure InstanceKey where
  inst : String
  module : String
deriving DecidableEq, Repr, Inhabited

/-- The instance that the first two items of a document name. -/
def InstanceKey.ofValue (v : Value) : Result InstanceKey :=
  match v with
  | .list (.text inst :: .text module :: _) | .tuple (.text inst :: .text module :: _) =>
    .ok ⟨inst, module⟩
  | .list [] | .list [_] | .tuple [] | .tuple [_] => fail .outOfRange
  | _ => fail .wrongType

namespace InstanceGraph

/-- The graph that a document describes. -/
def ofValue (v : Value) : Result InstanceGraph := do
  (← v.members).mapM fun (module, instances) => do
    let types ← (← instances.members).mapM fun (inst, type) => do return (← inst.keyText, type)
    return (← module.keyText, types)

end InstanceGraph

namespace Linkage

/-- An entry of a table of instances: a name with a type or, rewritten, a key with a reference to a
table. -/
inductive Member where
  | named (inst : String) (type : Value)
  | linked (key : InstanceKey) (place : Nat)
deriving Repr, Inhabited

namespace Member

/-- The name if it has not been rewritten. -/
def name? : Member → Option String
  | named inst _ => some inst
  | linked .. => none

/-- The instance and the table that a member refers to. -/
def target : Member → Result (InstanceKey × Nat)
  | named .. => fail .wrongType
  | linked key place => .ok (key, place)

/-- The type under a name. -/
def type? (inst : String) : Member → Option Value
  | named name type => if name = inst then some type else none
  | linked .. => none

end Member

end Linkage

/-- The tables of instances while they are rewritten, each in its place, where all references see it. -/
structure Linkage where
  /-- The place of the table of each module. -/
  places : Table String Nat
  tables : List (List Linkage.Member)
deriving Repr, Inhabited

namespace Linkage

/-- The tables before the rewriting. -/
def ofGraph (g : InstanceGraph) : Linkage :=
  ⟨(Table.keys g).zipIdx, g.map fun (_, instances) => instances.map fun (inst, type) => .named inst type⟩

/-- The table at a place. -/
def tableAt (l : Linkage) (place : Nat) : List Member := l.tables[place]?.getD []

def setTable (l : Linkage) (place : Nat) (table : List Member) : Linkage :=
  { l with tables := l.tables.set place table }

/-- The link for an instance; none if its module is unknown. -/
def link? (l : Linkage) (inst : String) (type : Value) : Option Member :=
  type.text?.bind fun module => (Table.get? l.places module).map fun place => .linked ⟨inst, module⟩ place

/-- Take an instance out of the table at a place, and put its link behind. -/
def relink (l : Linkage) (place : Nat) (inst : String) : Build Linkage := do
  match (l.tableAt place).findSome? (Member.type? inst) with
  | none => Build.refuse .missingKey
  | some type =>
    type.requireKey
    let rest := (l.tableAt place).filter fun m => (m.type? inst).isNone
    match l.link? inst type with
    | none =>
      Build.say s!"WARNING: Unknown module {type.display}. Treating as black box."
      return l.setTable place rest
    | some link => return l.setTable place (rest ++ [link])

/-- Rewrite the table at a place, for each of its names. -/
def relinkTable (l : Linkage) (place : Nat) : Build Linkage :=
  ((l.tableAt place).filterMap Member.name?).foldlM (fun l inst => l.relink place inst) l

/-- Rewrite all tables in the order of the modules. -/
def relinkAll (l : Linkage) : Build Linkage := (Table.values l.places).foldlM relinkTable l

/-- A copy of the table at a place and of all that it refers to. -/
def copyUpTo (l : Linkage) : (depth : Nat) → InstanceKey → (place : Nat) → Result (Tree InstanceKey)
  | 0, _, _ => .error (.plain "maximum recursion depth exceeded")
  | depth + 1, key, place => do
    let children ← (l.tableAt place).mapM fun m => do
      let (key, place) ← m.target
      l.copyUpTo depth key place
    return .node key children

end Linkage

/-- The tree below a top module, no deeper than the number of modules. -/
def InstanceGraph.tree (g : InstanceGraph) (top : Option String) : Build (Tree InstanceKey) := do
  match top with
  | none => throw (.design "I don't know how to do this without top specified")
  | some top =>
    match Table.get? (Linkage.ofGraph g).places top with
    | none => throw (.design s!"Could not find top: {top}")
    | some place =>
      let l ← (Linkage.ofGraph g).relinkAll
      l.copyUpTo g.length ⟨top, top⟩ place

end RegisterMap
