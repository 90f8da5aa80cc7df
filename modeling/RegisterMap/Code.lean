import RegisterMap.CodeWriter

/-! # Code to be written

Generated logic is a list of calls of a writer (`Code`), which are made at the end (`Code.emitAll`).
Blocks are opened and ended by calls of their own: nothing but the order of the calls says which end
belongs to which block. -/

namespace RegisterMap

/-- The part of the generator that asks for code, as the trace comments name it. -/
inductive Origin where
  | loopIndex
  | localNets
  | blockNets
  | passengerNets
  | childNets
  | passengers
  | hookup
  | readRouting
  | busLogic
  | blockLogic
  | portMap
  | ports
  | sample
deriving DecidableEq, Repr, Inhabited

/-- The name in the trace comments. -/
def Origin.name : Origin → String
  | loopIndex => "_globalInit"
  | localNets => "localInit"
  | blockNets => "localBlockInit"
  | passengerNets => "_blockExtInit"
  | childNets => "submodInitStr"
  | passengers => "extmodsTopInit"
  | hookup => "extmodHookup"
  | readRouting => "dinRouting"
  | busLogic => "busDecoding"
  | blockLogic => "blockDecoding"
  | portMap => "_GhostbusSubmodMap"
  | ports => "_GhostbusPorts"
  | sample => "test_Verilogger"

/-- The first line of a block. -/
inductive BlockHead where
  | initial
  /-- An always block with delays or a sensitivity written out. -/
  | always (signal : String)
  | sensitive (condition : String)
  | clocked (clock : String)
  | conditional (condition : String)
deriving DecidableEq, Repr, Inhabited

/-- Open a block with this head. -/
def BlockHead.openIn (head : BlockHead) (w : CodeWriter) (origin note : String) :
    Result CodeWriter :=
  match head with
  | initial => w.initial origin note
  | always signal => w.always origin signal note
  | sensitive condition => w.alwaysAt origin condition note
  | clocked clock => w.alwaysAtClock origin clock true note
  | conditional condition => w.ifBlock origin condition note

/-- One call of a writer. -/
inductive Code where
  | comment (text : String)
  | line (origin : Origin) (text : String) (note : String := "")
  /-- Open a block; the lines behind are moved in. -/
  | opening (origin : Origin) (head : BlockHead) (note : String := "")
  /-- End a block and open the one for all other cases. -/
  | turning (origin : Origin)
  /-- End the block that was opened last. -/
  | closing (origin : Origin) (note : String := "")
deriving Repr, Inhabited

/-- Make a call. -/
def Code.emit (w : CodeWriter) : Code → Result CodeWriter
  | .comment text => .ok (w.addComment text)
  | .line origin text note => .ok (w.add origin.name text note)
  | .opening origin head note => head.openIn w origin.name note
  | .turning origin => w.elseBlock origin.name
  | .closing origin note => w.close origin.name note

/-- Make all calls, one after the other. -/
def Code.emitAll (w : CodeWriter) (code : List Code) : Result CodeWriter := code.foldlM emit w

end RegisterMap
