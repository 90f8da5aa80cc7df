import RegisterMap.Value.Printer

/-! # Numbered messages

The messages to the user by name and number.  A message may have fields in braces, which are filled
from a table. -/

namespace RegisterMap.Notice

/-- The messages by name. -/
def all : List (String × String) :=
  [("NO_GHOSTBUS",
    "No ghostbus found in the codebase.  Please declare one with (* ghostbus_port=NET *) for 'NET'" ++
    " in ('clk', 'addr', 'wdata', 'rdata', 'we', etc...)."),
   ("UNSPECIFIED_DOMAIN",
    "Ghostbus host-accessible elements (CSRs, RAMs, submods, extmods) require an explicit domain" ++
    " in cases where it is ambiguous, such as when a module declares multiple busses and has no" ++
    " implied bus (the magic bus that comes in via ports)." ++
    " In such a case, every CSR, RAM, submodule, and external module needs to be disambiguated" ++
    "with the (* ghostbus_domain=\"domain_name\" *) attribute which indicates the inteded domain."),
   ("DOMAIN_COLLISION",
    "Ghostbus bus names (domains) need to be globally unique.  This means a module in which a ghostbus" ++
    " is declared (tagged with (* ghostbus_port *) attribute) can only be instantiated once." ++
    " Similarly, busses declared in separate modules need distinct names" ++
    " via, e.g. (* ghostbus_port=\"clk\", ghostbus_domain=\"foo\" *)."),
   ("UNPARSED_FOR_LOOP",
    "Could not find the for-loop declaration within the source code.  The tool is using a hand-rolled" ++
    " hackish solution for this task, so it can only identify the simplest constructions. " ++
    " Please dumb it down."),
   ("UNKNOWN_DOMAIN",
    "The domain specified by the host-accessible element could not be found. " ++
    " Please ensure the domain exists and is spelled correctly."),
   ("NAME_COLLISION",
    "Multiple host-accessible elements (CSRs, RAMs, submods, extmods) or busses ended up with the" ++
    " same name.  This is most likely due to the use of aliases (which are global by construct)."),
   ("MULTIPLE_ASSOCIATION",
    "Multiple extmods associated with the same bus.  The association only needs be made on one net" ++
    " of the bus via (* ghostbus_branch=EXTMOD_NAME *).  Alternately, it can be made on ever net" ++
    " of the bus as long as the same 'EXTMOD_NAME' is used for all nets."),
   ("SHARED_WDATA",
    "The 'wdata' ('dout') net cannot be shared between multiple extmod (external module) instances." ++
    " Can the other nets be shared?  What was I thinking with this one?"),
   ("MULTIPLE_ADDRESSES",
    "Multiple explicit addresses assigned to the same object (most likely a bus)."),
   ("NO_EXTMOD_INSTANCE",
    "External module bus declared without an instance name.  Note that declaring an extmod requires" ++
    " the attribute (* ghostbus_ext=\"NET, INSTNAME\" *) with 'NET' being the bus net (one of" ++
    " ('clk', 'addr', 'wdata', 'rdata', 'we', etc...) and 'INSTNAME' being the name which will be" ++
    " used in the memory map (and associates together all the nets of an extmod bus)."),
   ("NO_TOP_SPECIFIED",
    "The top module needs to be specified to properly build the hierarchy."),
   ("MISSING_EXTMOD",
    "Could not find the extmod associated with a branch bus.  Please check that the extmod exists" ++
    " (in the same module as the bus) and that the name is spelled correctly."),
   ("AW_CONFLICT",
    "The address width of a RAM, submodule, or extmod (external module) is greater than that of the" ++
    " bus, or requires more size than remains in the memory map."),
   ("DW_CONFLICT",
    "The data width of a RAM, CSR, submodule, or extmod (external module) is greater than that of" ++
    " the bus."),
   ("INVALID_ACCESS",
    "A wire-type net can only have read access (read-only) while a reg-type net can have both" ++
    " read and write access (write-only, read-write, or read-only)."),
   ("BUS_DOMAIN_AMBIGUOUS",
    "The domain for the bus declared at \x7bsource\x7d is ambiguous because it received both names \x7bname0\x7d" ++
    " and \x7bname1\x7d (possibly via inclusion of both (* ghostbus_domain=\"\x7bname0\x7d\" *) and" ++
    " (* ghostbus_driver=\"\x7bname1\x7d, port\" *).  This is valid for ghostbus passengers which require" ++
    " a name and can have an optional domain, but ghostbus drivers need only one (name and domain are" ++
    " equivalent).")]

/-- The message with a number. -/
def entry (n : Int) : Result (String × String) := Text.itemAt all n

def name (n : Int) : Result String := (entry n).map Prod.fst

def text (n : Int) : Result String := (entry n).map Prod.snd

/-- Fill the named fields in braces; `field` is the open one, reversed. -/
def fillFrom (fields : List (Value × Value)) : (field : Option (List Char)) → List Char →
    Result (List Char)
  | none, [] => .ok []
  | some _, [] => fail .badValue
  | none, '\x7b' :: '\x7b' :: cs => (fillFrom fields none cs).map ('\x7b' :: ·)
  | none, '\x7d' :: '\x7d' :: cs => (fillFrom fields none cs).map ('\x7d' :: ·)
  | none, c :: cs =>
    if c == '\x7b' then fillFrom fields (some []) cs
    else if c == '\x7d' then fail .badValue
    else (fillFrom fields none cs).map (c :: ·)
  | some name, c :: cs =>
    if c == '\x7d' then
      if name.all Char.isDigit then fail .outOfRange
      else
        match Table.get? fields (.text (String.ofList name.reverse)) with
        | some v => (fillFrom fields none cs).map (v.display.toList ++ ·)
        | none => fail .missingKey
    else fillFrom fields (some (c :: name)) cs

/-- Fill the fields of a text. -/
def fill (fields : List (Value × Value)) (s : String) : Result String :=
  (fillFrom fields none s.toList).map String.ofList

/-- The error of a message. -/
def error (n : Int) (given : Option String) (fields : List (Value × Value)) : Result Error := do
  let s ←
    match given with
    | some s => pure s
    | none => text n
  for (key, _) in fields do let _ ← key.keyText
  return .numbered (← fill fields s)

end RegisterMap.Notice
