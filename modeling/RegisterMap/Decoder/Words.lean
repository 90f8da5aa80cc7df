import RegisterMap.Decoder.Scope

/-! # Registers of one word

The registers of a module that stand outside loops are decoded by a case over the local address, one
`Arm` for each register; those in loops by a comparison with the index of the loop (`LoopArm`).  What
stands in a condition is read and written through a register of its own, named after the block. -/

namespace RegisterMap.Decoder

/-- An arm of the case over the local address. -/
structure Arm where
  address : Int
  statement : String
  strobes : List String := []
deriving DecidableEq, Repr, Inhabited

/-- The lines of an arm. -/
def Arm.lines (aw : Int) (a : Arm) : Result (List String) := do
  let label ← Number.sizedConstant a.address aw
  if a.strobes.isEmpty then return [s!"  {label}: {a.statement}"]
  return [s!"  {label}: begin", "    " ++ a.statement] ++
    (a.strobes.map fun net => s!"    {net} <= 1'b1;") ++ ["  end"]

/-- What is done for one register of a loop. -/
structure LoopArm where
  base : Int
  net : String
  statement : String
deriving DecidableEq, Repr, Inhabited

/-- The lines of an arm in a loop. -/
def LoopArm.lines (addr : String) (aw : Int) (a : LoopArm) : Result (List String) := do
  let bits := s!"[{aw - 1}:0]"
  let base ← Number.sizedConstant a.base aw
  return [s!"  // {a.net}", s!"  if ({addr}{bits} == {base} + {loopVariable}{bits}) begin",
    "    " ++ a.statement, "  end"]

/-- A net that is cleared in every cycle. -/
structure Cleared where
  net : String
  width : Int
deriving DecidableEq, Repr, Inhabited

/-- The arms of a choice by address. -/
def caseLines (title addr : String) (aw : Int) (arms : List Arm) : Result (List String) := do
  let lines ← arms.mapM (Arm.lines aw)
  return ["// " ++ title, s!"casez ({addr}[{aw - 1}:0])"] ++ lines.flatten ++ ["endcase"]

/-- The arms in a loop over an index. -/
def loopLines (addr : String) (aw : Int) (branch size : String) (arms : List LoopArm) :
    Result (List String) := do
  let lines ← arms.mapM (LoopArm.lines addr aw)
  return [s!"// Generate {branch}", loopHead size] ++ lines.flatten ++ ["end"]

namespace Scope

/-- The loops among blocks, with their sizes. -/
def loopsIn {α : Type} (items : InBlocks α) : List (String × String × List α) :=
  items.filterMap fun (branch, xs) =>
    match xs with
    | (_, block) :: _ => if block.isLoop then some (branch, block.unrolledSize, xs.map Prod.fst) else none
    | [] => none

/-- All loops of registers, with an arm for each register. -/
def loopText (s : Scope) (arm : String → Register → Result LoopArm) : Result String := do
  let loops ← (loopsIn s.blockWords).mapM fun (branch, size, words) => do
    loopLines s.addr s.localAw branch size (← words.mapM (arm branch))
  return Text.join "\n" loops.flatten

/-! ### Writing -/

/-- The arm that writes a register: it sets a strobe of one bit, or takes the data. -/
def writeArm (s : Scope) (r : Register) : Result Arm := do
  let address ← known r.base
  let net ← r.localName
  if r.writeStrobes.isEmpty && r.strobe && r.dw == 1 then
    let one ← Number.sizedConstant 1 r.dw
    return ⟨address, s!"{net} <= {one};", []⟩
  if !r.writeStrobes.isEmpty && r.strobe then fail .undefinedName
  return ⟨address, s!"{net} <= {s.writeData}[{highText r}:0];", r.writeStrobes⟩

/-- The arms that write the registers that can be written. -/
def writeArms (s : Scope) (words : List Register) : Result (List Arm) :=
  (words.filter fun r => r.access.mayWrite).mapM s.writeArm

/-- The arm that writes a copy in a loop. -/
def loopWriteArm (s : Scope) (branch : String) (r : Register) : Result LoopArm := do
  let net ← r.localName
  return ⟨← known r.base, net,
    s!"{branch}_{net}_w[{loopVariable}] <= {s.writeData}{rangeText r};"⟩

/-- Decoding of writes to the registers outside blocks. -/
def wordWrites (s : Scope) (words : List Register) : Result String := do
  if s.words.isEmpty then return ""
  let lines ← caseLines "CSR writes" s.addr s.localAw (← s.writeArms words)
  return Text.join "\n" (lines ++ [← s.loopText s.loopWriteArm])

/-- The strobes to clear after writes. -/
def writeCleared (s : Scope) (words : List Register) : Result (List Cleared) := do
  if s.words.isEmpty then return []
  let nets ← words.mapM fun r => do
    let own ← if r.strobe then pure [⟨← r.name, r.dw⟩] else pure []
    return own ++ r.writeStrobes.map fun net => ⟨net, 1⟩
  return nets.flatten

/-! ### Reading -/

/-- A word from the register, as wide as the bus. -/
def widened (s : Scope) (r : Register) (net : String) : String :=
  zeroExtended s!"{s.dataWidthText}-({highText r}+1)" net

/-- The arm that reads a register. -/
def readArm (s : Scope) (r : Register) : Result Arm := do
  let address ← known r.base
  let net ← r.localName
  return ⟨address, s!"{s.dataNet} <= {s.widened r net};", r.readStrobes⟩

/-- The arms of all registers that may be read. -/
def readArms (s : Scope) (words : List Register) : Result (List Arm) :=
  (words.filter fun r => r.access.mayRead).mapM s.readArm

/-- The arm that reads a copy in a loop. -/
def loopReadArm (s : Scope) (branch : String) (r : Register) : Result LoopArm := do
  let net ← r.localName
  let word := s.widened r s!"{branch}_{net}_r[{loopVariable}]"
  return ⟨← known r.base, net, s!"{s.dataNet} <= {word};"⟩

/-- Decoding of reads of the registers. -/
def wordReads (s : Scope) (words : List Register) : Result String := do
  if s.words.isEmpty then return ""
  let lines ← caseLines "CSR reads" s.addr s.localAw (← s.readArms words)
  return Text.join "\n" (lines ++ [← s.loopText s.loopReadArm])

/-- The strobes to clear after reads. -/
def readCleared (s : Scope) (words : List Register) : List Cleared :=
  if s.words.isEmpty then []
  else words.flatMap fun r => r.readStrobes.map fun net => ⟨net, 1⟩

/-! ### Registers in blocks -/

/-- The two registers that a register in a block is read and written by. -/
def blockWordNets (branch : String) (r : Register) (block : Block) : Result String := do
  let net ← r.localName
  let copies := if block.isLoop then " " ++ block.loopRange else ""
  let declare (role : String) : String :=
    s!"reg {declaredRange r}{branch}_{net}_{role}{copies};"
  return Text.join "\n" [declare "r", declare "w"]

/-- The logic in a block that couples a register with the two outside. -/
def blockWordCode (branch : String) (r : Register) (block : Block) : Result (List Code) := do
  let net ← r.localName
  let copy := match block.loop with
    | some loop => s!"[{loop.index}]"
    | none => ""
  let written := s!"{branch}_{net}_w{copy}"
  let read := Code.line .blockLogic s!"{branch}_{net}_r{copy} <= {net};"
  let write := Code.line .blockLogic s!"{net} <= {written};"
  return [.comment s!"CSR {net}", .opening .blockLogic .initial,
    .line .blockLogic s!"{written} = {net};", .closing .blockLogic,
    .opening .blockLogic (.sensitive s!"{net} or {written}")] ++
    (if block.isLoop then [read, write] else [write, read]) ++ [.closing .blockLogic]

end Scope

end RegisterMap.Decoder
