import RegisterMap.Annotation
import RegisterMap.Register.Declaration

/-! # Nets of busses

The nets of a bus carry annotations that say which ports they play.  Nets that drive a bus are put
together by domain (`driverBusses`), nets of a passenger by the name of the passenger
(`readPassengers`).  The nets of a passenger in a loop make one passenger for each copy; the first
copy then stands for all of them. -/

namespace RegisterMap.Design

/-- A net that is annotated as a port of a bus. -/
structure BusNet where
  net : String
  width : Int
  ports : List String
  /-- The other words of the annotation: a domain or the name of a passenger. -/
  names : List String
  domain : Value
  source : Value
  base : Option Int := none
  association : Value
  block : Option BlockId
  signed : Value := .none
deriving Repr, Inhabited

/-- The words of an annotation: ports, and others without repetition. -/
def splitWords (words : List Value) : Result (List String × List String) := do
  let words ← words.mapM Value.keyText
  let marked ← words.mapM fun w => do return (w, ← PortKey.isRequestName w)
  let ports := (marked.filter Prod.snd).map Prod.fst
  let others := (marked.filter fun m => !m.2).map Prod.fst
  return (ports, others.foldl (fun names w => if names.contains w then names else names ++ [w]) [])

/-- The domain of a driver by one of its two annotations, which may not differ. -/
def driverDomain (annotated : Value) (names : List String) : Result Value :=
  match annotated, names with
  | _, [] => .ok annotated
  | .none, name :: _ => .ok (.text name)
  | domain, name :: _ => if domain == .text name then .ok domain else fail .undefinedName

/-- Put items into groups by a key, in order of appearance. -/
def groupBy {κ α : Type} [BEq κ] (key : α → κ) (items : List α) : Table κ (List α) :=
  items.foldl (fun groups a => Table.update groups (key a) [] (· ++ [a])) []

/-- Set the ports of a bus that a net is for. -/
def BusNet.playOn (n : BusNet) (b : Bus) : Build Bus := do
  match n.source with
  | .text source =>
    let range ← (← getThe Workspace).files.widthBounds source
    n.ports.foldlM (fun b port => do
      let (b, done) := b.setPort port n.net n.width range n.source
      let _ ← done
      return b) b
  | _ => Build.refuse .wrongType

/-! ### Drivers -/

/-- Join a bus to a passenger, once. -/
def joinTo (b : Bus) (association : Value) : Result Bus :=
  match association, b.association with
  | .none, _ => .ok b
  | _, .none => .ok { b with association := association }
  | new, old =>
    if new == old then .ok b
    else .error (.design (s!"Cannot make multiple branch assignments to the same bus " ++
      s!"({new.display} and {old.display})."))

/-- The bus of a domain, driven outside generate blocks. -/
def driverBus (domain : Value) (nets : List BusNet) : Build Bus :=
  nets.foldlM (fun b n => do
    if n.block.isSome then Build.refuse .undefinedName
    joinTo (← n.playOn b) n.association) { name := domain }

/-- The busses of all drivers. -/
def driverBusses (nets : List BusNet) : Build (List BusId) := do
  for n in nets do n.domain.requireKey
  let busses ← (groupBy BusNet.domain nets).mapM fun (domain, nets) => driverBus domain nets
  busses.mapM BusId.make

/-! ### Passengers -/

/-- The passenger of a net: the first word of its annotation. -/
def BusNet.passengerName (n : BusNet) : Build String :=
  match n.names with
  | [] => Build.refuse .outOfRange
  | name :: _ => return name

def BusNet.block? (n : BusNet) : Build (Option Block) := n.block.mapM BlockId.get

/-- The name of the passenger with the block and index of its copy. -/
def BusNet.copyName (n : BusNet) : Build String := do
  let name ← n.passengerName
  match ← n.block? with
  | some ⟨branch, some loop⟩ => return s!"{branch}_{loop.place}_{name}"
  | _ => return name

/-- Refuse values that differ where they are given. -/
def requireAgreement (values : List Value) (text : String) : Result Unit :=
  if allSameOrEmpty Value.isNone values then .ok () else .error (.design text)

/-- The passenger of some nets, which must agree. -/
def makePassenger (name : String) (nets : List BusNet) : Build PassengerId := do
  let basename ← nets.head?.mapM BusNet.passengerName
  let branches ← nets.mapM fun n => do return Value.ofText? ((← n.block?).map Block.branch)
  requireAgreement branches (s!"Not all nets of bus passenger {name} in the same context" ++
    " (i.e. some in generate block, some not)")
  requireAgreement (nets.map BusNet.association)
    s!"Inconsistent 'ghostbus_branch' attributes on bus passenger {name}"
  requireAgreement (nets.map fun n => .ofInt? n.base)
    s!"Inconsistent 'ghostbus_addr' attributes on bus passenger {name}"
  let domains := nets.map BusNet.domain
  let shown := Value.display (.list domains)
  requireAgreement domains
    s!"Inconsistent 'ghostbus_domain' attributes on bus passenger {name}: {shown}"
  let bus ← nets.foldlM (fun b n => n.playOn b) { name := .text name : Bus }
  let signed := nets.any fun n => n.signed.truthy && n.ports.any fun port =>
    match PortKey.parse port with
    | .ok key => key.isData
    | .error _ => false
  let bus ← (← bus.dropBlocks).setBase (firstSome (nets.map BusNet.base))
  let bus := { bus with block := firstSome (nets.map BusNet.block) }
  let id ← BusId.make bus
  PassengerId.make { (← Passenger.create name id bus basename) with
    domain := .firstGiven domains
    association := .firstGiven (nets.map BusNet.association)
    signed := .bool signed }

/-- A passenger that is a copy in a loop. -/
structure PassengerCopy where
  passenger : PassengerId
  basename : String
  branch : String
  place : Int

/-- The loop copy that a passenger is, if any. -/
def copyOf? (id : PassengerId) : Build (Option PassengerCopy) := do
  match ← id.block? with
  | some ⟨branch, some loop⟩ => return some ⟨id, (← id.get).basename, branch, loop.place⟩
  | _ => return none

/-- Let the first copy in a loop stand for all, which are complete and of one block. -/
def bundle (last : Option PassengerId) (copies : List PassengerCopy) : Build (List PassengerId) := do
  let copies := copies.mergeSort fun a b => decide (a.place ≤ b.place)
  if !Number.isPermutedRange (copies.map PassengerCopy.place) then
    let name ← last.mapM fun id => do return (← id.get).name
    throw (.inconsistency s!"Did not find all indices for {(Value.ofText? name).display}")
  let branches := copies.map PassengerCopy.branch
  if !allSame branches then
    let shown := Value.display (.list (branches.map .text))
    throw (.inconsistency s!"I somehow got inconsistent generate block names: {shown}")
  match copies with
  | [] => return []
  | first :: _ =>
    for copy in copies do
      let name ← Source.flatLabel (← copy.passenger.get).name
      copy.passenger.update fun p => { p with name := name, leader := some first.passenger }
    let block ← entryOf (← (← first.passenger.get).bus.get).block
    block.updateLoop fun l => { l with length := some copies.length }
    first.passenger.update fun p => { p with copies := copies.map PassengerCopy.passenger }
    return [first.passenger]

/-- The passengers of some nets, outside loops and then one for each loop. -/
def readPassengers (nets : List BusNet) : Build (List PassengerId) := do
  let named ← nets.mapM fun n => do return (← n.copyName, n)
  let ids ← (groupBy Prod.fst named).mapM fun (name, nets) =>
    makePassenger name (nets.map Prod.snd)
  let alone ← ids.filterM fun id => do return (← copyOf? id).isNone
  let copies ← ids.filterMapM copyOf?
  let bundles ← (groupBy PassengerCopy.basename copies).mapM fun (_, copies) =>
    bundle ids.getLast? copies
  return alone ++ bundles.flatten

end RegisterMap.Design
