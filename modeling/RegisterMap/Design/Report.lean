import RegisterMap.Design.Basic
import RegisterMap.Report

/-! # Reports on netlists and designs

What is known of a netlist, of an instance, and of a whole design, as tables of a document. -/

namespace RegisterMap.Report

open Value (recordOf)

def ofKey (key : Option InstanceKey) : Value := toValue (key.map fun k => [k.inst, k.module])

mutual

/-- What is below an instance, as nested tables. -/
def ofHierarchy : Tree InstanceKey → Value
  | .node _ children => .table (ofHierarchies children)

def ofHierarchies : List (Tree InstanceKey) → List (Value × Value)
  | [] => []
  | .node key children :: rest =>
    (ofKey (some key), .table (ofHierarchies children)) :: ofHierarchies rest

end

def ofNetlist (n : Netlist) : Value :=
  recordOf "valid modname ports params"
    [toValue true, toValue n.moduleName, n.ports,
      .table (n.parameters.map fun (name, values) => (.text name, .table values))]

def ofInstance (tag : Tag) (i : Instance) : Build Value := do
  let tops := i.tops.map fun (name, isTop) => (Value.text name, toValue isTop)
  let domains := i.domains.map fun (name, domain) => (Value.text name, toValue domain)
  return recordOf "key label parent_domain gen domains tops memories"
    [ofKey i.key, toValue i.label, toValue i.parentDomain, ← ofBlock? i.block, .table domains,
      .table tops, .list (← i.spaces.mapM (ofSpace tag (full tag)))]

def ofMaps (tag : Tag) (maps : List (Value × SpaceId)) : Build Value := do
  return .list (← maps.mapM fun (domain, id) => do return .list [toValue domain, ← tag (.space id)])

def ofDesign (tag : Tag) (d : Design) : Build Value := do
  let maps ← d.maps.mapM fun id => do return ((← id.get).domain, id)
  return recordOf "tree busses bus_valid maps"
    [.list (← d.tree.toList.mapM (ofInstance tag)), .list (← d.busses.mapM ofBus), toValue d.valid,
      ← ofMaps tag maps]

def ofPaths (d : Design) : Build Value := do
  return .list (← d.tree.toList.mapM fun i => do
    let paths ← i.spaces.mapM fun id => do return (← id.region).path.map Path.names
    return .list [ofKey i.key, toValue paths])

end RegisterMap.Report
