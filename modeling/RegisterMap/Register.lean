import RegisterMap.Number.Double
import RegisterMap.Block
import RegisterMap.Value.Printer
import RegisterMap.Source.Name
import RegisterMap.Workspace.Id

/-! # Registers and memories

A register is a host-accessible word, a memory a block of `2 ^ aw` words.  Those that were read
from a netlist also know how their net is declared in the source: range and depth as written, the
kind of net, the generate block around it and the copies that the block makes of it. -/

namespace RegisterMap

/-- What the host may do with a register, as bits: read, write, and not specified. -/
abbrev Access := Int

namespace Access

def read : Access := 1
def write : Access := 2
def readWrite : Access := 3
def unspecified : Access := 4

def mayWrite (a : Access) : Bool := (a.fdiv 2) % 2 == 1

def mayRead (a : Access) : Bool := a % 2 == 1

/-- The text of an access. -/
def name (a : Access) : Result String :=
  if a == read then .ok "r"
  else if a == write then .ok "w"
  else if a == readWrite then .ok "rw"
  else if a == unspecified then .ok "unknown"
  else fail .missingKey

def nameOf (v : Value) : Result String := do
  v.requireKey
  match v.integer? with
  | some a => name a
  | none => fail .missingKey

end Access

/-- What a register is. -/
inductive RegisterKind where
  /-- A word without a net. -/
  | word
  /-- A block of words without a net. -/
  | words
  | net
  | memory
deriving DecidableEq, Repr, Inhabited

def RegisterKind.isBlock : RegisterKind → Bool
  | .words | .memory => true
  | .word | .net => false

/-- Was this read from a netlist? -/
def RegisterKind.isDeclared : RegisterKind → Bool
  | .net | .memory => true
  | .word | .words => false

/-- The ends of a range that may be unknown. -/
abbrev MaybeBounds := Option String × Option String

/-- A register or a memory. -/
structure Register where
  kind : RegisterKind
  given : Option String
  size : Int
  dw : Int
  aw : Int
  /-- Address inside its region. -/
  base : Option Int
  description : Option String
  source : Value
  access : Access
  label : Option String
  range : MaybeBounds := (none, none)
  depth : MaybeBounds
  initial : Int := 0
  strobe : Bool := false
  writeStrobes : List String := []
  readStrobes : List String := []
  otherName : Option String := none
  signed : Value := .none
  manualBase : Option Int := none
  netKind : Option Source.NetKind := none
  domain : Value := .none
  block : Option BlockId := none
  /-- The copies that a loop makes, this register being the first. -/
  copies : List RegisterId := []
  /-- Name of the net inside its block. -/
  netName : Option String := none
  /-- Address width of all copies together. -/
  blockAw : Option Int
deriving Repr, Inhabited

namespace Register

/-- A new register or memory; a memory of a netlist can be accessed. -/
def create (kind : RegisterKind) (name : Option String) (dw aw : Int) (base : Option Int)
    (source : Value) (access : Access) (label description : Option String) :
    Result Register := do
  let size ← if kind.isBlock then Number.powerOfTwo aw else pure 1
  return {
    kind := kind
    given := name
    size := size
    dw := dw
    aw := if kind.isBlock then aw else 0
    base := base
    description := description
    source := source
    access := if kind = .memory then Access.readWrite else access
    label := label.or name
    depth := if kind = .net then (some "0", some "0") else (none, none)
    blockAw := if kind = .memory then some 0 else none }

/-- The name, which must be there. -/
def name (r : Register) : Result String :=
  match r.given with
  | some name => .ok name
  | none => fail .undefinedName

/-- A copy; a word forgets a changed width and that of its block. -/
def copy (r : Register) : Result Register := do
  let fresh ← create r.kind r.given r.dw r.aw r.base r.source r.access r.label r.description
  if r.kind.isDeclared then
    return { r with
      size := fresh.size
      aw := fresh.aw
      label := fresh.label
      blockAw := if r.kind = .memory then r.blockAw else none }
  else return fresh

/-- The name of the net inside its block. -/
def localName (r : Register) : Result String :=
  match r.netName with
  | some name => .ok name
  | none => do
    let name ← r.name
    if r.block.isSome then
      Source.innerName name
    else return name

/-- Number of items between two bounds as an expression. -/
def countText (far near : String) : String :=
  if near == "0" then s!"({far}+1)" else s!"({far}-{near}+1)"

/-- Number of bits as an expression, one if unknown. -/
def widthText (r : Register) : String :=
  match r.range with
  | (some high, some low) => countText high low
  | _ => "1"

/-- Number of words as an expression, one if unknown. -/
def depthText (r : Register) : String :=
  match r.depth with
  | (some first, some last) => countText last first
  | _ => "1"

/-- The addresses of all copies in a loop. -/
def baseList (r : Register) (loop : Option Loop) : Result (List Int) :=
  match loop with
  | none => fail .noSuchField
  | some loop =>
    match loop.length with
    | none => fail .wrongType
    | some length =>
      (List.range length.toNat).mapM fun (n : Nat) =>
        match r.base with
        | some base => .ok (base + n * r.size)
        | none => fail .wrongType

end Register

end RegisterMap
