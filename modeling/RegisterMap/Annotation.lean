import RegisterMap.Register
import RegisterMap.Text.Case

/-! # Annotations

Nets, memories and instances of a netlist carry attributes.  The attributes of this library say what
the thing is for: a register that the host can access, a net that drives a bus, a net of a
passenger, a strobe.  `Annotations.decode` reads them from the attributes of a thing; all other
attributes are left out. -/

namespace RegisterMap

open Text

/-- What an annotation is about. -/
inductive Aspect where
  | access
  | address
  | driver
  | strobe
  | writeStrobe
  | readStrobe
  | passenger
  | otherName
  | domain
  | branch
  /-- No bus enters through the ports of the instance. -/
  | top
  | description
deriving DecidableEq, Repr, Inhabited

namespace Aspect

/-- The names of the aspects. -/
def names : List (Aspect × String) :=
  [(access, "HA"), (address, "ADDR"), (driver, "DRIVER"), (strobe, "STROBE"),
   (writeStrobe, "STROBE_W"), (readStrobe, "STROBE_R"), (passenger, "PASSENGER"),
   (otherName, "ALIAS"), (domain, "DOMAIN"), (branch, "BRANCH"), (top, "TOP"),
   (description, "DOC")]

def name (s : Aspect) : String := (Table.get? names s).getD ""

/-- The name of the aspect with a number; a negative one counts from the end. -/
def nameAt (n : Int) : Result String := (itemAt names n).map Prod.snd

/-- The attributes that are annotations. -/
def attributes : Table String Aspect :=
  [("ghostbus", access), ("ghostbus_ha", access), ("ghostbus_csr", access),
   ("ghostbus_ram", access), ("ghostbus_driver", driver), ("ghostbus_controller", driver),
   ("ghostbus_pub", driver), ("ghostbus_dom", driver), ("ghostbus_port", driver),
   ("ghostbus_passenger", passenger), ("ghostbus_peripheral", passenger),
   ("ghostbus_sub", passenger), ("ghostbus_ext", passenger), ("ghostbus_addr", address),
   ("ghostbus_strobe", strobe), ("ghostbus_write_strobe", writeStrobe),
   ("ghostbus_ws", writeStrobe), ("ghostbus_read_strobe", readStrobe),
   ("ghostbus_rs", readStrobe), ("ghostbus_alias", otherName), ("ghostbus_domain", domain),
   ("ghostbus_name", domain), ("ghostbus_branch", branch), ("ghostbus_top", top),
   ("ghostbus_doc", description), ("ghostbus_desc", description)]

end Aspect

/-- Read an access: a number leaves it open, `r` and `w` count in other texts, and no text asks for
both. -/
def Access.parse : Value → Access
  | .text s =>
    let cs := s.toList
    if !cs.isEmpty && cs.all isNumeric then Access.unspecified
    else
      let letters := (lower (strip s)).toList
      match letters.contains 'r', letters.contains 'w' with
      | true, true => Access.readWrite
      | true, false => Access.read
      | false, true => Access.write
      | false, false => Access.unspecified
  | _ => Access.readWrite

/-- The parts of a list between commas, without the blanks around them. -/
def splitList (v : Value) : Value :=
  match v with
  | .text s =>
    if hasChar s ',' then .list ((split ',' s).map fun part => .text (strip part))
    else .tuple [v]
  | _ => .tuple [v]

/-- An address in binary digits. -/
def readAddress : Value → Result Value
  | .text s => (Number.readBinary s).map .int
  | _ => fail .wrongType

/-- The value of an annotation, read from the attribute. -/
def Aspect.decode (v : Value) : Aspect → Result Value
  | .access => .ok (.int (Access.parse v))
  | .address => readAddress v
  | .driver | .passenger => .ok (splitList v)
  | .strobe | .top => .ok (.bool true)
  | .writeStrobe | .readStrobe | .otherName | .description => .ok (.text v.display)
  | .domain | .branch => .ok v

/-- The annotations of a net or an instance. -/
abbrev Annotations := Table Aspect Value

namespace Annotations

/-- The annotations among attributes. -/
def written : Annotations → List (Value × Value) → Result Annotations
  | found, [] => .ok found
  | found, (key, v) :: rest =>
    match key.text?.bind (Table.get? Aspect.attributes) with
    | none => written found rest
    | some aspect => do written (Table.put found aspect (← aspect.decode v)) rest

/-- Is there an annotation with a value on an aspect? -/
def has (a : Annotations) (s : Aspect) : Bool := !((Table.get? a s).getD .none).isNone

/-- Add the annotations that an address and a strobe imply. -/
def imply (a : Annotations) : Annotations :=
  if a.has .address then
    if a.has .passenger then a else Table.put a .access (.int Access.unspecified)
  else if a.has .strobe then Table.put a .access (.int Access.write)
  else a

/-- The annotations, also those implied by others. -/
def decode (attributes : Value) : Result Annotations := do
  return (← written [] (← attributes.members)).imply

def value (a : Annotations) (s : Aspect) : Value := (Table.get? a s).getD .none

def text? (a : Annotations) (s : Aspect) : Option String := (a.value s).text?

def number? (a : Annotations) (s : Aspect) : Option Int := (a.value s).number?

def parts? (a : Annotations) (s : Aspect) : Option (List Value) := (a.value s).items?

def isSet (a : Annotations) (s : Aspect) : Bool := (a.value s).truthy

end Annotations

end RegisterMap
