import RegisterMap.Bus

/-! # Passengers

A passenger is a bus peripheral outside the generated logic.  It takes a block of addresses as wide
as the address of its own bus, unless it is joined to another address space, whose width it then
takes. -/

namespace RegisterMap

/-- A module outside that is attached to a bus. -/
structure Passenger where
  name : String
  inst : String
  /-- Name without the block and index of a loop. -/
  basename : String
  /-- The bus that it takes part in, once it is known. -/
  host : Option BusId := none
  bus : BusId
  aw : Int
  trueAw : Int
  access : Access
  signed : Value := .none
  domain : Value := .none
  /-- Address inside its region. -/
  ownBase : Option Int := none
  joined : Option SpaceId := none
  baseList : List (Option Int)
  ownBlockAw : Option Int := none
  copies : List PassengerId := []
  association : Value := .none
  netName : Option String := none
  /-- The first copy of the loop that it belongs to. -/
  leader : Option PassengerId := none
deriving Repr, Inhabited

namespace Passenger

/-- A new passenger on a bus of known address width. -/
def create (name : String) (id : BusId) (bus : Bus) (basename : Option String) :
    Result Passenger := do
  match bus.addrWidth with
  | none => fail .wrongType
  | some aw =>
    let _ ← Number.powerOfTwo aw
    return {
      name := name
      inst := name
      basename := basename.getD name
      bus := id
      aw := aw
      trueAw := aw
      access := bus.access
      baseList := [bus.base] }

/-- Address width of all copies together. -/
def blockAw (p : Passenger) : Int := p.ownBlockAw.getD p.aw

/-- Its own address, or the explicit one of its bus. -/
def base (p : Passenger) (bus : Bus) : Option Int := p.ownBase.or bus.base

/-- The name of the passenger's nets. -/
def localName (p : Passenger) (bus : Bus) : Result String :=
  match p.netName with
  | some name => .ok name
  | none => if bus.block.isSome then Source.innerName p.name else .ok p.name

def display (p : Passenger) : String := "ExternalModule: " ++ p.name

/-- Compare a width of the passenger's bus with that of its host. -/
def fits (p : Passenger) (bus host : Bus) (w : BusWidth) (what : String) : Result Unit :=
  match bus.width? w, host.width? w with
  | some own, some given =>
    if given < own then
      .error (.design (s!"{p.name} external bus has greater {what} width {own}" ++
        s!" than the ghostbus {given}"))
    else .ok ()
  | _, _ => fail .wrongType

/-- Compare the bus with that of the host. -/
def checkHost (p : Passenger) (bus host : Bus) : Result Unit := do
  p.fits bus host .address "address"
  p.fits bus host .data "data"

end Passenger

end RegisterMap
