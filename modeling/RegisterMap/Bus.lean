import RegisterMap.Register
import RegisterMap.Text.Case

/-! # Host busses

A bus is a set of ports that nets of a module play: a clock, an address, data in and out, enables
and strobes, and any number of extra ports.  The width of the address port and the common width of
the data ports are the widths of the bus.

* `Bus.setPort` lets a net play a port.
* `Bus.validate` tells whether the bus can be used: clock and address, at least one data port and at
  least one of the enables and the write strobe.
* `Bus.union` makes the bus of ports through which several busses enter a module. -/

namespace RegisterMap

/-- The ports of a bus. -/
inductive PortKey where
  | clk
  | addr
  | din
  | dout
  | we
  | re
  | wstb
  | rstb
  | extraIn (n : Nat)
  | extraOut (n : Nat)
deriving DecidableEq, Repr, Inhabited

/-- The direction of a port, seen from the host. -/
inductive Direction where
  | input
  | output
  | inout
  | clock
deriving DecidableEq, Repr, Inhabited

namespace Direction

/-- The number of a direction. -/
def code : Direction → Int
  | input => 0
  | output => 1
  | inout => 2
  | clock => 3

def ofCode? (code : Int) : Option Direction :=
  [input, output, inout, clock].find? fun d => d.code == code

def hostWord : Direction → String
  | input => "input"
  | output => "output"
  | inout => "inout"
  | clock => "input"

def peripheralWord : Direction → String
  | input => "output"
  | output => "input"
  | inout => "inout"
  | clock => "input"

/-- The word of a direction given by its number. -/
def wordOf (word : Direction → String) (code : Value) : Result String := do
  code.requireKey
  return ((code.integer?.bind ofCode?).map word).getD "UNKNOWN"

def hostText : Value → Result String := wordOf hostWord

def peripheralText : Value → Result String := wordOf peripheralWord

end Direction

namespace PortKey

/-- The ports that every bus may have. -/
def standard : List PortKey := [clk, addr, din, dout, we, re, wstb, rstb]

/-- The ports without which a bus cannot be used. -/
def isMandatory : PortKey → Bool
  | clk | addr => true
  | _ => false

def direction : PortKey → Direction
  | clk => .clock
  | din => .input
  | extraIn _ => .input
  | _ => .output

/-- The name of a port. -/
def name : PortKey → String
  | clk => "clk"
  | addr => "addr"
  | din => "din"
  | dout => "dout"
  | we => "we"
  | re => "re"
  | wstb => "wstb"
  | rstb => "rstb"
  | extraIn n => "extra_in" ++ toString n
  | extraOut n => "extra_out" ++ toString n

/-- The names by which ports are asked for. -/
def requestNames : List (String × PortKey) :=
  [("clk", clk), ("addr", addr), ("din", din), ("rdata", din), ("dout", dout), ("wdata", dout),
   ("we", we), ("wen", we), ("re", re), ("ren", re), ("wstb", wstb), ("write_strobe", wstb),
   ("wstrb", wstb), ("rstb", rstb), ("read_strobe", rstb), ("rstrb", rstb)]

/-- The number right behind the start of an extra port's name, or zero. -/
def extraNumber (start name : String) : Result (Option Nat) :=
  (Text.dropStart? name start).mapM fun rest =>
    Number.ofDigits (rest.toList.takeWhile Text.isDecimal)

/-- An extra port by its name. -/
def extra (name : String) : Result (Option PortKey) := do
  match ← extraNumber "extra_in" name with
  | some n => return some (extraIn n)
  | none => return (← extraNumber "extra_out" name).map extraOut

def isRequestName (name : String) : Result Bool :=
  if (Table.get? requestNames name).isSome then .ok true else (extra name).map Option.isSome

/-- The port of a name. -/
def parse (name : String) : Result PortKey := do
  match ← extra name with
  | some key => return key
  | none =>
    match Table.get? requestNames name with
    | some key => .ok key
    | none =>
      let names : Value := .list (requestNames.map fun entry => .text entry.1)
      .error (.design (s!"Invalid value ({name}) for attribute 'ghostbus_driver'." ++
        s!"  Valid values are {names.quoted}"))

def isData : PortKey → Bool
  | din | dout => true
  | _ => false

def isExtra : PortKey → Bool
  | extraIn _ | extraOut _ => true
  | _ => false

/-- The place of a port in listings. -/
def rank : PortKey → Nat
  | clk => 0
  | addr => 1
  | dout => 2
  | din => 3
  | we => 4
  | wstb => 5
  | re => 6
  | rstb => 7
  | _ => 8

def portNet (key : PortKey) : String := "GBPORT_" ++ key.name

end PortKey

/-- The net of a port, and where it was declared. -/
structure PortNet where
  net : String
  source : Value
deriving Repr, Inhabited

/-- The two widths of a bus. -/
inductive BusWidth where
  | address
  | data
deriving DecidableEq, Repr, Inhabited

namespace BusWidth

def ports : BusWidth → List PortKey
  | address => [.addr]
  | data => [.din, .dout]

def name : BusWidth → String
  | address => "aw"
  | data => "dw"

/-- The width of a port, if it is one of the two. -/
def of? (key : PortKey) : Option BusWidth :=
  [address, data].find? fun w => w.ports.contains key

end BusWidth

/-- What a bus has beyond its standard ports. -/
inductive Addition where
  | port (key : PortKey)
  | range (width : BusWidth)
deriving DecidableEq, Repr, Inhabited

/-- A row in the listing of a module's ports. -/
structure PortRow where
  key : PortKey
  net : String
  range : String
  direction : Direction
deriving DecidableEq, Repr, Inhabited

/-- A bus: its nets, widths and ranges. -/
structure Bus where
  name : Value
  nets : Table PortKey PortNet := []
  addrWidth : Option Int := none
  dataWidth : Option Int := none
  addrRange : Option Source.Bounds := none
  dataRange : Option Source.Bounds := none
  /-- Extra ports and ranges in the order of their first use. -/
  additions : List Addition := []
  valid : Bool := false
  base : Option Int := none
  sub : Option String := none
  association : Value := .none
  /-- The listing of the ports, once it was asked for. -/
  listing : Option (List PortRow) := none
  block : Option BlockId := none
deriving Repr, Inhabited

namespace Bus

/-- The net of a port. -/
def net? (b : Bus) (key : PortKey) : Option String := (Table.get? b.nets key).map PortNet.net

def width? (b : Bus) : BusWidth → Option Int
  | .address => b.addrWidth
  | .data => b.dataWidth

def range? (b : Bus) : BusWidth → Option Source.Bounds
  | .address => b.addrRange
  | .data => b.dataRange

/-- A width as an expression. -/
def widthText? (b : Bus) (w : BusWidth) : Option String :=
  (b.range? w).map fun range => range.high ++ "+1"

def setWidth (b : Bus) (w : BusWidth) (width : Int) : Bus :=
  match w with
  | .address => { b with addrWidth := some width }
  | .data => { b with dataWidth := some width }

/-- Note an addition unless it is there. -/
def note (b : Bus) (a : Addition) : Bus :=
  if b.additions.contains a then b else { b with additions := b.additions ++ [a] }

def setRange (b : Bus) (w : BusWidth) (range : Source.Bounds) : Bus :=
  match w with
  | .address => { b with addrRange := some range }.note (.range w)
  | .data => { b with dataRange := some range }.note (.range w)

/-- The standard ports and the extra ones in order. -/
def keys (b : Bus) : List PortKey :=
  PortKey.standard ++ b.additions.filterMap fun
    | .port key => some key
    | .range _ => none

def keyTuple (keys : List PortKey) : String :=
  Value.quoted (.tuple (keys.map fun key => .text key.name))

/-- Set the width that goes with a port, or be refused. -/
def widen (b : Bus) (key : PortKey) (width : Int) (range : Option Source.Bounds) :
    Bus × Result Unit :=
  match BusWidth.of? key with
  | none => (b, .ok ())
  | some w =>
    match b.width? w with
    | some old =>
      if old ≠ width then
        (b, .error (.design s!"Ghostbus ports ({keyTuple w.ports}) must all be the same width."))
      else (set w, .ok ())
    | none => (set w, .ok ())
where
  /-- The bus with the width and, if there is one, the range. -/
  set (w : BusWidth) : Bus :=
    let b := b.setWidth w width
    match range with
    | some range => b.setRange w range
    | none => b

/-- Let a net play a port.  A port is played once. -/
def setPort (b : Bus) (request net : String) (width : Int) (range : Option Source.Bounds)
    (source : Value) : Bus × Result PortKey :=
  match PortKey.parse request with
  | .error e => (b, .error e)
  | .ok key =>
    match Table.get? b.nets key with
    | some old =>
      if !(source == old.source) then
        (b, .error (.design (s!"'ghostbus_port={Text.lower (Text.strip old.net)}' defined at " ++
          s!"{source.display} is already defined at {old.source.display}")))
      else (b, .error (.unsupported
        "Name-mangle a named bus if declared in a module that is instantiated more than once."))
    | none =>
      let b := if key.isExtra then b.note (.port key) else b
      let (b, done) := { b with nets := Table.put b.nets key ⟨net, source⟩ }.widen key width range
      (b, done.map fun _ => key)

/-! ### Views -/

/-- A value with its place in the source. -/
def sourced (v : Value) (source : Value) : Value := .tuple [v, source]

def netValue (b : Bus) (key : PortKey) : Value :=
  match Table.get? b.nets key with
  | some p => sourced (.text p.net) p.source
  | none => .none

def boundsValue (range : Source.Bounds) : Value := .tuple [.text range.high, .text range.low]

/-- What a bus shows as a table. -/
def items (b : Bus) : List (Value × Value) :=
  let entry (key : String) (v : Value) : Value × Value := (.text key, v)
  let plain (v : Option Value) : Value := Value.ofOption (fun v => sourced v .none) v
  let widths : List BusWidth := [.address, .data]
  (PortKey.standard.map fun key => entry key.name (b.netValue key)) ++
  (widths.map fun w => entry w.name (plain ((b.width? w).map .int))) ++
  (widths.map fun w => entry (w.name ++ "_str") (plain ((b.widthText? w).map .text))) ++
  (b.additions.map fun
    | .port key => entry key.name (b.netValue key)
    | .range w => entry (w.name ++ "_range") (plain ((b.range? w).map boundsValue)))

def display (b : Bus) : String := Value.outline (-1) b.items

def firstPart : Value → Value
  | .tuple (v :: _) => v
  | v => v

/-- The item under a name, without its source. -/
def get (b : Bus) (key : String) : Result Value :=
  match Table.get? b.items (.text key) with
  | some v => .ok (firstPart v)
  | none => fail .missingKey

/-- Where something was declared. -/
def sourceOf (b : Bus) (key : String) : Result Value :=
  match Table.get? b.items (.text key) with
  | some (.tuple [_, source]) => .ok source
  | some _ => fail .wrongType
  | none => fail .missingKey

def widthNamed? (port : String) : Option BusWidth :=
  [BusWidth.address, BusWidth.data].find? fun w => w.ports.any fun key => key.name == port

def rangeOf (b : Bus) (port : String) : Option Source.Bounds :=
  (widthNamed? port).bind b.range?

/-- Width of the port with this name as an expression, or one. -/
def widthOf (b : Bus) (port : String) : Result Value :=
  match widthNamed? port with
  | none => .ok (.int 1)
  | some w =>
    match b.widthText? w with
    | some text => .ok (.text text)
    | none => fail .wrongType

def widthText (b : Bus) (w : BusWidth) : Result String :=
  match b.widthText? w with
  | some text => .ok text
  | none => fail .wrongType

/-- The access that the data ports allow. -/
def access (b : Bus) : Access :=
  (if (b.net? .din).isSome then Access.read else 0) +
    (if (b.net? .dout).isSome then Access.write else 0)

/-- The ports of some directions. -/
def byDirection (b : Bus) (directions : List Direction) : List (PortKey × Option String) :=
  (b.keys.filter fun key => directions.contains key.direction).map fun key => (key, b.net? key)

def listedRange (b : Bus) (key : PortKey) : Result String :=
  match BusWidth.of? key with
  | none => .ok ""
  | some w =>
    match b.range? w, b.width? w with
    | some range, _ => .ok s!"[{range.high}:{range.low}]"
    | none, some width => .ok s!"[{width - 1}:0]"
    | none, none => fail .wrongType

/-- The rows in the listing of the ports. -/
def portRows (b : Bus) : Result (List PortRow) := do
  let rows ← b.keys.filterMapM fun key => do
    match b.net? key with
    | none => return none
    | some net => return some ⟨key, net, ← b.listedRange key, key.direction⟩
  return rows.mergeSort fun r s => decide (r.key.rank ≤ s.key.rank)

/-- The listing of the ports, which is made once. -/
def list (b : Bus) : Bus × Result (List PortRow) :=
  match b.listing with
  | some rows => (b, .ok rows)
  | none =>
    match b.portRows with
    | .ok rows => ({ b with listing := some rows }, .ok rows)
    | .error e => (b, .error e)

/-- Drop the names of generate blocks from the nets. -/
def dropBlocks (b : Bus) : Result Bus := do
  let nets ← b.nets.mapM fun (key, p) => do
    return (key, { p with net := ← Source.innerName p.net })
  return { b with nets := nets }

/-- Set the explicit address; it may not change. -/
def setBase (b : Bus) (base : Option Int) : Result Bus :=
  if b.base.isSome && base != b.base then
    .error (.design "Multiple explicit addresses set for bus.")
  else .ok { b with base := base }

/-- The conditions for reads and for writes. -/
def triggers (b : Bus) : Result (String × String) :=
  match b.net? .we, b.net? .wstb, b.net? .re with
  | some we, none, none => .ok ("!" ++ we, we)
  | none, some wstb, none => .ok ("!" ++ wstb, wstb)
  | none, none, some re => .ok (re, "!" ++ re)
  | some we, some wstb, none => .ok ("!" ++ we, we ++ " & " ++ wstb)
  | some we, none, some re => .ok (re, we)
  | none, some wstb, some re => .ok (re, "(!" ++ re ++ ") & " ++ wstb)
  | some we, some wstb, some re => .ok (re, we ++ " & " ++ wstb)
  | none, none, none =>
    .error (.design "Incomplete bus! Missing all of 're', 'we', and 'wstb'")

def nameText (b : Bus) : String := b.name.display

/-- Can the bus be used, and if not, why?  Verdicts are kept. -/
def validate (b : Bus) : Bus × Bool × String :=
  let missing := b.keys.filter fun key => key.isMandatory && (b.net? key).isNone
  if !missing.isEmpty then
    (b, false, s!"Bus {b.nameText} is missing mandatory ports: " ++
      Text.join " " (missing.map PortKey.name))
  else
    let (good, why) : Bool × String :=
      match b.triggers with
      | .ok _ => (true, "")
      | .error e => (false, e.message.getD "")
    let (good, why) : Bool × String :=
      if (b.net? .dout).isNone && (b.net? .din).isNone then
        (false, s!"Bus {b.nameText} has no data ports (neither wdata nor rdata)")
      else (good, why)
    ({ b with valid := good }, good, why)

/-- Everything that a valid bus holds, without sources. -/
def contents (b : Bus) : Bus × Result (List (Value × Value)) :=
  let (b, good, why) := b.validate
  if good then (b, .ok (b.items.map fun (k, v) => (k, firstPart v)))
  else (b, .error (.design ("Incomplete bus definition: " ++ why)))

/-! ### The union of busses -/

/-- The ports and widths that busses have in common. -/
structure Common where
  ports : List PortKey := []
  addrWidth : Option (Option Int × Value) := none
  dataWidth : Option (Option Int × Value) := none
deriving Repr, Inhabited

/-- Agree on a width, which the first bus decides. -/
def agree (b : Bus) (what : String) (width : Option Int) :
    Option (Option Int × Value) → Result (Option (Option Int × Value))
  | none => .ok (if width.isSome then some (width, b.name) else none)
  | some (seen, owner) =>
    if seen = width then .ok (some (seen, owner))
    else
      let shown (v : Option Int) : String := (Value.ofInt? v).display
      .error (.plain (s!"Busses {b.nameText} and {owner.display} have different " ++
        s!"{what} widths ({shown width} and {shown seen})."))

/-- Take one more bus into account. -/
def Common.add (c : Common) (b : Bus) : Result Common := do
  let used := b.keys.filter fun key => (b.net? key).isSome && !c.ports.contains key
  return {
    ports := c.ports ++ used
    addrWidth := ← agree b "address" b.addrWidth c.addrWidth
    dataWidth := ← agree b "data" b.dataWidth c.dataWidth }

/-- Set a common port on a bus. -/
def addPort (addrWidth dataWidth : Int) (b : Bus) (key : PortKey) : Result Bus :=
  let bounds (width : Int) : Option Source.Bounds := some ⟨s!"{width}-1", "0"⟩
  let (width, range) : Int × Option Source.Bounds :=
    match BusWidth.of? key with
    | some .address => (addrWidth, bounds addrWidth)
    | some .data => (dataWidth, bounds dataWidth)
    | none => (1, none)
  let (b, done) := b.setPort key.name key.portNet width range .none
  done.map fun _ => b

/-- The bus of all ports of some busses, and the busses with their verdicts. -/
def union (busses : List Bus) : List Bus × Result Bus :=
  let rec collect (c : Common) : List Bus → List Bus × Result Common
    | [] => ([], .ok c)
    | b :: bs =>
      let (b, contents) := b.contents
      match contents with
      | .error e => (b :: bs, .error e)
      | .ok _ =>
        match c.add b with
        | .error e => (b :: bs, .error e)
        | .ok c =>
          let (bs, c) := collect c bs
          (b :: bs, c)
  let (busses, common) := collect {} busses
  (busses, do
    let c ← common
    match c.addrWidth, c.dataWidth with
    | some (some aw, _), some (some dw, _) =>
      c.ports.foldlM (addPort aw dw) { name := .text "ports" }
    | _, _ =>
      .error (.plain "createPortBus somehow managed to not find 'aw' and 'dw' in the busses"))

end Bus

end RegisterMap
