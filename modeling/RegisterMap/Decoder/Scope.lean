import RegisterMap.Code
import RegisterMap.Decoder.Comparator
import RegisterMap.Register.Declaration

/-! # What is decoded in one place

A `Scope` holds everything that the decoding logic of one module in one bus domain depends on: the
bus, the registers and memories, the passengers and the instances in the module, those inside
generate blocks apart, by the name of the block. -/

namespace RegisterMap

def Bus.netText (b : Bus) (key : PortKey) : String := (Value.ofText? (b.net? key)).display

namespace Decoder

/-- A passenger with its bus. -/
structure Rider where
  passenger : Passenger
  bus : Bus
deriving Inhabited

namespace Rider

def netName (r : Rider) : Result String := r.passenger.localName r.bus

def base (r : Rider) : Option Int := r.passenger.base r.bus

end Rider

/-- An instance in a module, as the logic of the module sees it. -/
structure Child where
  inst : String
  module : String
  aw : Int
  base : Int
  /-- Address in the module; the copies in a loop have several. -/
  start : Option Int
  addrNet : String
  block : Option Block
deriving Inhabited

def Child.loop? (c : Child) : Option (Block × Loop) :=
  c.block.bind fun b => b.loop.map fun l => (b, l)

/-- Items by the generate block around them. -/
abbrev InBlocks (α : Type) := Table String (List (α × Block))

/-- What is decoded for one module in one bus domain. -/
structure Scope where
  policy : Policy
  ending : String
  bus : Bus
  /-- The bus through whose ports the busses enter a module. -/
  ports : Bus
  rows : List PortRow
  reading : String
  writing : String
  localAw : Int
  /-- The module has registers, in blocks or not. -/
  hasWords : Bool
  words : List Register
  memories : List Register
  riders : List (Option Int × Rider)
  blockWords : InBlocks Register
  blockMemories : InBlocks Register
  blockRiders : InBlocks Rider
  children : List Child
  blockChildren : Table String (List Child)
deriving Inhabited

/-- What must be known. -/
def known {α : Type} (a : Option α) : Result α :=
  match a with
  | some a => .ok a
  | none => fail .wrongType

theorem known_ok {α : Type} {o : Option α} {a : α} (h : known o = .ok a) : o = some a := by
  cases o with
  | none => cases h
  | some b =>
    cases h
    rfl

def braced (s : String) : String := "\x7b" ++ s ++ "\x7d"

def repeated (count net : String) : String := braced (count ++ braced net)

def zeroExtended (count net : String) : String := braced (repeated count "1'b0" ++ ", " ++ net)

def boundText (bound : Option String) : String := (Value.ofText? bound).display

def highText (r : Register) : String := boundText r.range.1

def rangeText (r : Register) : String := s!"[{boundText r.range.1}:{boundText r.range.2}]"

/-- The range in front of a net, if it has bounds. -/
def declaredRange (r : Register) : String :=
  match r.range with
  | (some high, some low) => s!"[{high}:{low}] "
  | _ => ""

def loopVariable : String := "GHOSTBUS_AUTOGEN_INDEX"

def loopHead (size : String) : String :=
  let i := loopVariable
  s!"for ({i}=0; {i}<{size}; {i}={i}+1) begin"

/-- The slice of a copy in the word of all copies side by side. -/
def copySlice (index width : String) : String := s!"[(({index}+1)*{width})-1-:{width}]"

namespace Scope

/-- The end of the names of a domain; one that is not the default needs a text. -/
def endingFor : Value → Result String
  | .none => .ok ""
  | .text domain => .ok ("_" ++ domain)
  | _ => fail .wrongType

/-- The net that is set while the registers are addressed. -/
def enableNet (s : Scope) : String := "ghostbus_addrhit_local" ++ s.ending

/-- The net that holds the word read from a register. -/
def dataNet (s : Scope) : String := "ghostbus_rdata_local" ++ s.ending

def busAw (s : Scope) : Result Int := known s.bus.addrWidth

def dataWidthText (s : Scope) : String := (Value.ofInt? s.bus.dataWidth).display

def addr (s : Scope) : String := s.bus.netText .addr

def writeData (s : Scope) : String := s.bus.netText .dout

/-- The address inside a memory; `widthName` names its address width. -/
def memoryAddress (s : Scope) (widthName : String) : String := s!"{s.addr}[{widthName}-1:0]"

/-- The comparison for the addresses of a memory. -/
def memoryComparator (s : Scope) (m : Register) : Result Comparator := do
  Comparator.ofBlock s.addr (← s.busAw) (← known m.base) m.aw

end Scope

end Decoder

end RegisterMap
