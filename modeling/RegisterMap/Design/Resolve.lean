import RegisterMap.Design.Instance

/-! # Resolution of the instance tree

The tree is resolved from the leaves to the root.  At each node the spaces are resolved and shrunk,
and then placed in the space of the parent that has the domain of the instance.  A space that is not
placed in a parent is the root of an address map of its own: the spaces of the top node, of instances
that no bus enters through their ports, and of domains that the parent does not have.

A space that is joined to a passenger is not placed either: the passenger is, and the space gets the
address of the passenger. -/

namespace RegisterMap.Design

/-- What the resolution has found so far. -/
structure Resolution where
  maps : List SpaceId := []
  joins : List (PassengerId × SpaceId) := []

/-- Work of the resolution. -/
abbrev Resolving := StateT Resolution Build

def requireKey {κ α : Type} [BEq κ] (t : Table κ α) (k : κ) : Result α :=
  match Table.get? t k with
  | some a => .ok a
  | none => fail .missingKey

/-- What a table of the parent says of an instance. -/
def fromParent {α : Type} (t : Table String α) (i : Instance) : Result α :=
  match i.label with
  | some label => requireKey t label
  | none => fail .missingKey

/-- Settle the domains of an instance that no bus enters, by the busses that it declares. -/
def settleDomains (i : Instance) : Build Unit := do
  match i.declared with
  | [] => return ()
  | [domain] =>
    let first ← Text.itemAt i.spaces 0
    first.update fun s => { s with domain := domain }
  | several =>
    for id in i.spaces do
      if (← id.get).domain.isNone && 0 < (← id.size) then
        throw (.design (s!"Module {i.labelText} declares {several.length} busses and has no implied" ++
          " busses. In such a case, every CSR, RAM, submodule, and external module needs to be" ++
          " disambiguated with the (* ghostbus_domain=\"domain_name\" *) attribute which indicates" ++
          " the inteded domain."))

/-- Join the passengers in a space to the spaces found for them, once. -/
def joinPassengers (spaces : List SpaceId) (found : Table String Nat) (id : SpaceId) :
    Resolving (Table String Nat) := do
  if found.isEmpty then return found
  (← id.contents).foldlM (fun found (_, _, item) => do
    let _ ← item.requireName
    match item with
    | .passenger p =>
      let name := (← p.get).name
      match Table.get? found name with
      | none => return found
      | some n =>
        let joined ← Text.itemAt spaces n
        let aw := (← joined.region).aw
        p.update fun p => { p with aw := aw, joined := some joined }
        modify fun r => { r with joins := r.joins ++ [(p, joined)] }
        return Table.erase found name
    | _ => return found) found

/-- Place a space in those of the parent with a domain; was there one? -/
def placeInParent (parent : Instance) (domain : Value) (id : SpaceId) : Build Bool := do
  let hosts ← parent.spaces.filterM fun host => do return (← host.get).domain == domain
  for host in hosts do
    if 0 < (← id.size) then
      let _ ← host.addItem (.space id) none false
  return !hosts.isEmpty

/-- Join the passengers of a space, resolve and shrink it. -/
def resolveSpace (id : SpaceId) : Build Unit := do
  id.resolve
  id.shrink

/-- Place the spaces of an instance; behind a root of a map all are roots. -/
def placeSpaces (parent : Option Instance) (isTop : Bool) (i : Instance) (spaces : List SpaceId) :
    Resolving Instance := do
  let (i, _) ← spaces.foldlM (fun (i, isTop) id => do
    let root (i : Instance) : Resolving (Instance × Bool) := do
      id.update fun s => { s with topTag := true }
      modify fun r => { r with maps := r.maps ++ [id] }
      return (i, true)
    match parent, isTop with
    | some p, false =>
      if (← get).joins.any fun join => join.2 = id then return (i, isTop)
      let domain ← fromParent p.domains i
      let placed ← placeInParent p domain id
      let i := { i with parentDomain := domain }
      if placed then
        id.update fun s => { s with topTag := false }
        return (i, false)
      else root i
    | _, _ => root i) (i, isTop)
  return i

/-- Resolve an instance. -/
def resolveInstance (parent : Option Instance) (i : Instance) : Resolving Instance := do
  let isTop ← (parent.map fun p => fromParent p.tops i).getD (.ok true)
  let block ← (parent.map fun p => fromParent p.blocks i).getD (.ok none)
  let i := { i with block := block }
  if isTop then settleDomains i
  let (order, found) ← memoryOrder i.spaces i.label
  let spaces := order.filterMap fun n => i.spaces[n]?
  let _ ← spaces.foldlM (fun found id => do
    let found ← joinPassengers i.spaces found id
    resolveSpace id
    return found) found
  placeSpaces parent isTop i spaces

/-- Remove the items at some places in turn, which moves those behind. -/
def removePlaces {α : Type} (xs : List α) (places : List Nat) : Result (List α) :=
  places.foldlM (fun xs n => if n < xs.length then .ok (xs.eraseIdx n) else fail .outOfRange) xs

/-- Shrink the spaces of an instance and drop those that hold nothing. -/
def dropEmpty (i : Instance) : Build Instance := do
  let empty ← i.spaces.zipIdx.filterMapM fun (id, n) => do
    id.shrink
    return if (← id.size) == 0 then some n else none
  return { i with spaces := ← removePlaces i.spaces empty }

/-- Give a joined space the address of its passenger. -/
def settleJoin (join : PassengerId × SpaceId) : Build Unit := do
  match (← join.1.get).ownBase with
  | some base => join.2.setBase base
  | none => throw (.design "Failed to give an explicit base address to the child bus.")

/-- Resolve the tree: the resolved tree and the roots of the maps. -/
def resolveTree (t : InstanceTree) : Build (InstanceTree × List SpaceId) := do
  let (t, found) ← (t.mapM resolveInstance none).run {}
  for id in t.data.spaces do id.resolve
  for join in found.joins do settleJoin join
  let t ← t.mapM (fun _ i => dropEmpty i) none
  return (t, found.maps)

/-- The address maps by domain, one each. -/
def domainMaps (t : InstanceTree) : Build (Table Value SpaceId) := do
  let named (id : SpaceId) : Build (Value × SpaceId) := do return ((← id.get).domain, id)
  let start := Table.ofPairs (← t.data.spaces.mapM named)
  (t.toList.filter fun i => 1 < i.spaces.length).foldlM (fun maps i =>
    i.spaces.foldlM (fun maps id => do
      let s ← id.get
      if s.domain.isNone || !s.pseudoDomain.isNone then return maps
      if Table.has maps s.domain then
        throw (.design (s!"Domain name {s.domain.display} is declared in multiple modules or" ++
          " multiple instances of a single module.  Separate bus domains need to be globally" ++
          " unique."))
      return Table.put maps s.domain id) maps) start

end RegisterMap.Design
