import RegisterMap.Passenger
import RegisterMap.Region.Allocate

/-! # The workspace

A workspace holds everything that a design is made of: registers, generate blocks, busses,
passengers and address spaces, each under its identity, together with the files, the settings and
the transcript of what was printed.

An address space is a region of addresses.  A *staged* space first collects requests in a ledger and
places them when it is resolved; a space of a *bus* also belongs to a bus domain and places the
copies that loops make side by side.

All work is done in the monad `Build`.  A refused request keeps what was done before the refusal. -/

namespace RegisterMap

/-- When a space places what is asked for. -/
inductive SpaceKind where
  /-- Requests are placed at once. -/
  | plain
  | staged
  | bus
deriving DecidableEq, Repr, Inhabited

/-- A collected request. -/
structure Staged where
  item : Occupant
  addr : Option Int
  width : Option Int
  placed : Bool := false
deriving DecidableEq, Repr, Inhabited

/-- A pass over the collected requests. -/
inductive Pass where
  | keepouts
  | explicits
  | loops
  | rest
deriving DecidableEq, Repr, Inhabited

/-- The collected requests of a staged space. -/
structure Ledger where
  keepouts : List Staged := []
  explicits : List Staged := []
  /-- Items without an address. -/
  entries : List Staged := []
  /-- Items in loops without an address. -/
  loops : List Staged := []
  explicitLoops : List Staged := []
  /-- All requests have been placed. -/
  resolved : Bool := false
  passes : List Pass := []
  passCount : Nat := 0
deriving DecidableEq, Repr, Inhabited

/-- The passes of a resolution. -/
def SpaceKind.passes : SpaceKind → List Pass
  | .plain => []
  | .staged => [.keepouts, .explicits, .rest]
  | .bus => [.keepouts, .explicits, .loops, .rest]

def SpaceKind.ledger (k : SpaceKind) : Ledger :=
  { passes := k.passes, passCount := k.passes.length }

/-- A space of addresses, with its requests. -/
structure AddressSpace where
  kind : SpaceKind
  region : Region Occupant
  ledger : Ledger
  domain : Value := .none
  /-- Name of the passenger through which the domain is reached from another one. -/
  pseudoDomain : Value := .none
  busTop : Bool := false
  /-- No bus enters the module through its ports. -/
  topTag : Bool := false
  declared : List Value := []
  implicit : List Value := []
  block : Option BlockId := none
deriving Repr, Inhabited

/-- Choices in the generated logic. -/
structure Policy where
  /-- The copies of a loop are placed side by side in an aligned block. -/
  alignedLoops : Bool := true
  registeredMemories : Bool := true
deriving DecidableEq, Repr, Inhabited

/-- Numbers for spaces without a label; a kind may go on from another's count. -/
structure LabelCounts where
  plain : Nat := 0
  staged : Option Nat := none
  bus : Option Nat := none
deriving DecidableEq, Repr, Inhabited

namespace LabelCounts

/-- The next number for a kind. -/
def next (c : LabelCounts) : SpaceKind → Nat
  | .plain => c.plain
  | .staged => c.staged.getD c.plain
  | .bus => c.bus.getD (c.staged.getD c.plain)

/-- Count a new space. -/
def step (c : LabelCounts) : SpaceKind → LabelCounts
  | .plain => { c with plain := c.next .plain + 1 }
  | .staged => { c with staged := some (c.next .staged + 1) }
  | .bus => { c with bus := some (c.next .bus + 1) }

end LabelCounts

/-- The external reader of source: what it prints, or its failure. -/
structure NetlistReader where
  texts : List String := []
  failure : Option Int := none
  /-- Command lines of the runs so far. -/
  commands : List String := []
deriving DecidableEq, Repr, Inhabited

/-- Everything that work reads and changes. -/
structure Workspace where
  registers : Array Register := #[]
  blocks : Array Block := #[]
  busses : Array Bus := #[]
  passengers : Array Passenger := #[]
  spaces : Array AddressSpace := #[]
  labels : LabelCounts := {}
  policy : Policy := {}
  notes : Bool := false
  files : Source.Files := {}
  reader : NetlistReader := {}
  /-- Modules whose logic has been generated. -/
  doneModules : List String := []
  definedMacros : List String := []
  transcript : String := ""
deriving Inhabited

/-- Work on a workspace, which may be refused. -/
abbrev Build := EStateM Error Workspace

instance : MonadLift (Except Error) Build where
  monadLift
    | .ok a => pure a
    | .error e => throw e

namespace Build

def refuse {α : Type} (f : Fault) : Build α := throw (.fault f)

/-- Print a line. -/
def say (line : String) : Build Unit :=
  modify fun ws => { ws with transcript := ws.transcript ++ line ++ "\n" }

/-- Print a line if notes are wanted. -/
def note (line : String) : Build Unit := do
  if (← get).notes then say line

def write (path text : String) : Build Unit := do
  let files ← (← get).files.write path text
  modify fun ws => { ws with files := files }

def append (path text : String) : Build Unit := do
  let files ← (← get).files.append path text
  modify fun ws => { ws with files := files }

end Build

/-! ### Access by identity

An identity is made together with its entry and entries stay, so a look-up does not fail. -/

def danglingText : String := "identity without entry"

/-- The entry of an identity, which must be there. -/
def entryOf {α : Type} (entry : Option α) : Build α :=
  match entry with
  | some a => pure a
  | none => throw (.inconsistency danglingText)

namespace RegisterId

/-- The register of an identity. -/
def get (id : RegisterId) : Build Register := do entryOf (← getThe Workspace).registers[id.index]?

def set (id : RegisterId) (r : Register) : Build Unit :=
  modify fun ws => { ws with registers := ws.registers.setIfInBounds id.index r }

def update (id : RegisterId) (f : Register → Register) : Build Unit := do id.set (f (← id.get))

/-- Enter a register. -/
def make (r : Register) : Build RegisterId :=
  modifyGet fun ws => (⟨ws.registers.size⟩, { ws with registers := ws.registers.push r })

/-- Make a register. -/
def create (kind : RegisterKind) (name : Option String) (dw aw : Int) (base : Option Int)
    (source : Value) (access : Access) (label description : Option String) :
    Build RegisterId := do
  make (← Register.create kind name dw aw base source access label description)

end RegisterId

namespace BlockId

/-- The block of an identity. -/
def get (id : BlockId) : Build Block := do entryOf (← getThe Workspace).blocks[id.index]?

def update (id : BlockId) (f : Block → Block) : Build Unit := do
  let b ← id.get
  modify fun ws => { ws with blocks := ws.blocks.setIfInBounds id.index (f b) }

def updateLoop (id : BlockId) (f : Loop → Loop) : Build Unit :=
  id.update fun b => { b with loop := b.loop.map f }

/-- Enter a block. -/
def make (b : Block) : Build BlockId :=
  modifyGet fun ws => (⟨ws.blocks.size⟩, { ws with blocks := ws.blocks.push b })

def isLoop? (id : Option BlockId) : Build (Option Bool) := id.mapM fun id => Block.isLoop <$> id.get

end BlockId

namespace BusId

/-- The bus of an identity. -/
def get (id : BusId) : Build Bus := do entryOf (← getThe Workspace).busses[id.index]?

def set (id : BusId) (b : Bus) : Build Unit :=
  modify fun ws => { ws with busses := ws.busses.setIfInBounds id.index b }

def update (id : BusId) (f : Bus → Bus) : Build Unit := do id.set (f (← id.get))

/-- Run an operation that leaves a bus behind, refused or not. -/
def run {α : Type} (id : BusId) (f : Bus → Bus × Result α) : Build α := do
  let (b, result) := f (← id.get)
  id.set b
  result

/-- Enter a bus. -/
def make (b : Bus) : Build BusId :=
  modifyGet fun ws => (⟨ws.busses.size⟩, { ws with busses := ws.busses.push b })

/-- Can the bus be used, and if not, why? -/
def validate (id : BusId) : Build (Bool × String) := do
  let (b, verdict) := (← id.get).validate
  id.set b
  return verdict

/-- The bus of all ports, and verdicts on the busses. -/
def union (ids : List BusId) : Build BusId := do
  let (busses, result) := Bus.union (← ids.mapM get)
  for (id, b) in ids.zip busses do id.set b
  make (← result)

end BusId

namespace PassengerId

/-- The passenger of an identity. -/
def get (id : PassengerId) : Build Passenger := do
  entryOf (← getThe Workspace).passengers[id.index]?

def set (id : PassengerId) (p : Passenger) : Build Unit :=
  modify fun ws => { ws with passengers := ws.passengers.setIfInBounds id.index p }

def update (id : PassengerId) (f : Passenger → Passenger) : Build Unit := do id.set (f (← id.get))

/-- Enter a passenger. -/
def make (p : Passenger) : Build PassengerId :=
  modifyGet fun ws => (⟨ws.passengers.size⟩, { ws with passengers := ws.passengers.push p })

end PassengerId

namespace SpaceId

/-- The space of an identity. -/
def get (id : SpaceId) : Build AddressSpace := do entryOf (← getThe Workspace).spaces[id.index]?

def set (id : SpaceId) (s : AddressSpace) : Build Unit :=
  modify fun ws => { ws with spaces := ws.spaces.setIfInBounds id.index s }

def update (id : SpaceId) (f : AddressSpace → AddressSpace) : Build Unit := do
  id.set (f (← id.get))

/-- Change the region of a space. -/
def updateRegion (id : SpaceId) (f : Region Occupant → Region Occupant) : Build Unit :=
  id.update fun s => { s with region := f s.region }

/-- Change the requests of a space. -/
def updateLedger (id : SpaceId) (f : Ledger → Ledger) : Build Unit :=
  id.update fun s => { s with ledger := f s.ledger }

def region (id : SpaceId) : Build (Region Occupant) := do return (← id.get).region

end SpaceId

end RegisterMap
