import RegisterMap.Design.Module
import RegisterMap.Design.Resolve
import RegisterMap.AddressSpace.Trim

/-! # Designs

A design is read from a netlist: its modules, the busses that they declare, the tree of all
instances below the top module, and the address maps into which the tree is resolved. -/

namespace RegisterMap

/-- A design that was read and resolved. -/
structure Design where
  modules : Table String Design.Module
  busses : List BusId
  /-- All busses can be used. -/
  valid : Bool
  tree : InstanceTree
  maps : List SpaceId
deriving Inhabited

namespace Design

/-- What has been read of a design. -/
structure Progress where
  modules : Table String Module := []
  busses : List BusId := []
  top : Option String := none
  /-- The net that was looked at last. -/
  lastNet : Option Value := none

/-- Read a module of a netlist. -/
def readModule (p : Progress) (key : String) (v : Value) : Build Progress := do
  let attributes ← (← v.field "attributes").visited
  let top := if attributes.contains (.text "top") then some key else p.top
  let m : Module := { name := Source.moduleName key }
  let m ← (← Module.part v "cells").foldlM (fun m (name, cell) => m.readInstance name cell) m
  let nets ← Module.part v "netnames"
  let m ← nets.foldlM (fun m (name, net) => m.readNet name net) m
  let lastNet := (nets.getLast?.map Prod.snd).or p.lastNet
  let m ← (← Module.part v "memories").foldlM
    (fun m (name, memory) => Module.readMemory lastNet m name memory) m
  let (m, busses) ← m.settle
  return {
    modules := Table.put p.modules key m
    busses := p.busses ++ busses
    top := top
    lastNet := lastNet }

/-- The instance of a module with copies of its spaces, one at least. -/
def populate (modules : Table String Module) (key : InstanceKey) : Build Instance := do
  let i := Instance.ofKey key
  let path : Path := ⟨[key.inst], false⟩
  match Table.get? modules key.module with
  | none => return i
  | some m =>
    let copies ← (Table.values m.spaces).mapM fun id => do
      let copy ← id.copy
      copy.updateRegion fun r => { r with label := m.name }
      copy.setPath path
      copy.update fun s => { s with declared := m.declared }
      return copy
    let spaces ←
      if copies.isEmpty then
        let (lo, hi) := moduleSpan
        pure [← SpaceId.make .bus lo hi (some m.name) (some path) .none]
      else pure copies
    return { i with
      spaces := spaces
      domains := m.instances.map fun (name, x) => (name, x.domain)
      tops := m.instances.map fun (name, x) => (name, x.isTop)
      blocks := m.instances.map fun (name, x) => (name, x.block)
      declared := m.declared }

/-- The instances of all modules. -/
def graphOf (modules : Table String Module) : InstanceGraph :=
  modules.map fun (key, m) => (key, m.types)

/-- Read and resolve a design. -/
def read (n : Netlist) : Build Design := do
  let modules ← (← n.document.field "modules").members
  let p ← modules.foldlM (fun p (key, v) => do readModule p (← key.keyText) v) {}
  let verdicts ← p.busses.mapM BusId.validate
  if p.busses.isEmpty then throw (.design "No ghostbus found in codebase.")
  let keys ← (graphOf p.modules).tree p.top
  let tree ← keys.mapM (fun _ key => populate p.modules key) none
  let (tree, maps) ← resolveTree tree
  Build.say s!"Number of independent memory maps: {maps.length}"
  return ⟨p.modules, p.busses, verdicts.all Prod.fst, tree, maps⟩

/-- Trim the paths in all address maps. -/
def trim (d : Design) : Build Unit := d.maps.forM SpaceId.trim

/-- The bus with a name; the only bus whatever its name. -/
def bus? (d : Design) (name : Value) : Build (Option BusId) :=
  match d.busses with
  | [id] => return some id
  | ids => ids.findM? fun id => do return (← id.get).name == name

end Design

end RegisterMap
