import RegisterMap.Decoder.Memories
import RegisterMap.Decoder.Children

/-! # The decoding logic of a scope

`Scope.topCode` is the logic in the scope of the module: nets, the choice of the word that is read,
and the reads and writes at the edge of the clock.  `Scope.blockCode` is what stands inside the
generate blocks. -/

namespace RegisterMap.Decoder.Scope

/-- The nets of items in generate blocks. -/
def blockNets (title : String) (items : InBlocks Register)
    (nets : String → Register → Block → Result String) : Result (List Code) := do
  let parts ← items.mapM fun (branch, items) => do
    let lines ← items.mapM fun (item, block) => nets branch item block
    return .comment s!"Generate Block {branch}" :: lines.map fun l => .line .blockNets l
  return if parts.isEmpty then [] else .comment title :: parts.flatten

/-- The signal that enables the registers, and the word read from them. -/
def wordNets (s : Scope) (busAw : Int) : Result (List Code) := do
  if !s.hasWords then return []
  let condition ← (← Comparator.ofBlock s.addr busAw 0 s.localAw).text
  let span ← spanText 0 s.localAw
  let width ← known s.bus.dataWidth
  return [.line .localNets s!"wire {s.enableNet} = {condition}; // {span}",
    .line .localNets s!"reg [{width - 1}:0] {s.dataNet}=0;"]

/-- The nets of the module itself. -/
def localNets (s : Scope) : Result (List Code) := do
  let words ← s.wordNets (← s.busAw)
  let memories ← s.memories.mapM s.memoryNets
  let title := if memories.isEmpty then [] else [.comment "Local RAMs"]
  let wordsInBlocks ← blockNets "CSRs in block scope" s.blockWords blockWordNets
  let memoriesInBlocks ← blockNets "RAMs in block scope" s.blockMemories s.blockMemoryNets
  return .comment "Local Initialization" :: words ++ title ++
    memories.map (fun l => .line .localNets l) ++ wordsInBlocks ++ memoriesInBlocks

/-- The word read from a passenger, as wide as the bus. -/
def riderWord (s : Scope) (r : Rider) (net : String) : Result String := do
  let host ← s.bus.widthText .data
  let own ← r.bus.widthText .data
  return zeroExtended s!"({host})-({own})" net

/-- What can be read, by hit signal. -/
def readChoices (s : Scope) : Result (List (String × String)) := do
  let memory (m : Register) (branch : String) : Result (String × String) := do
    let name := branch ++ (← m.localName)
    return ("addrhit_" ++ name, name ++ "_registered_read")
  let memories ← s.memories.mapM fun m => memory m ""
  let blockMemories ← s.blockMemories.mapM fun (branch, items) =>
    items.mapM fun (m, _) => memory m (branch ++ "_")
  let children := s.children.map fun c =>
    (s!"addrhit_{c.inst}", s!"{s.ports.netText .din}_{c.inst}")
  let riders ← (s.riders.filter fun (_, r) => r.passenger.access.mayRead).mapM fun (_, r) => do
    return (s!"addrhit_{← r.netName}", ← s.riderWord r (r.bus.netText .din))
  let blockRiders ← s.blockRiders.mapM fun (_, items) =>
    (items.filter fun (r, _) => r.passenger.access.mayRead).mapM fun (r, block) => do
      let any := if block.isLoop then "_any" else ""
      let net ← r.netName
      return (s!"addrhit_{net}{any}", ← s.riderWord r s!"{net}_rdata_topscope")
  let words := if s.hasWords then [(s.enableNet, s.dataNet)] else []
  return memories ++ blockMemories.flatten ++ children ++ riders ++ blockRiders.flatten ++ words

/-- The choice of the word that is read, if the bus has reads. -/
def readRouting (s : Scope) : Result (List Code) := do
  match s.bus.net? .din with
  | none => return []
  | some din =>
    let choices ← s.readChoices
    let zero ← Number.sizedConstant 0 (← known s.bus.dataWidth)
    let lines := s!"assign {din} =" :: choices.map (fun (hit, word) => s!"  {hit} ? {word} :") ++
      [s!"  {zero};"]
    return .comment "din routing" :: lines.map fun l => .line .readRouting l

def orRemark (text remark : String) : String := if text.isEmpty then remark else text

/-- Reads or writes: registers while they are addressed, then memories. -/
def accessCode (s : Scope) (title trigger words memories : String) : List Code :=
  [.comment title, .opening .busLogic (.conditional trigger)] ++
    (if s.hasWords then
      [.opening .busLogic (.conditional s.enableNet), .line .busLogic (orRemark words "// No CSRs"),
        .closing .busLogic s!"if ({s.enableNet})"]
    else []) ++
    [.line .busLogic (orRemark memories "// No rams"), .closing .busLogic s!"if ({trigger})"]

/-- What is done at the edge of the clock.  Writes open its block, or else reads; it is ended if it was
opened. -/
def clockedCode (clock : String) (hasWrites hasReads : Bool) (writes reads : List Code) :
    List Code := Id.run do
  let mut code : List Code := []
  let mut isOpen := false
  if hasWrites then
    isOpen := true
    code := .opening .busLogic (.clocked clock) :: writes
  if hasReads then
    if !isOpen then
      isOpen := true
      code := code ++ [.opening .busLogic (.clocked clock)]
    code := code ++ reads
  if isOpen then code := code ++ [.closing .busLogic s!"always @(posedge {clock})"]
  return code

/-- Reads and writes at the edge of the clock, of all registers outside loops under the names of their
nets. -/
def busCode (s : Scope) (written read : List Register) : Result (List Code) := do
  let memoryWrites ← s.memoryWrites
  let cleared ← s.writeCleared written
  let wordWrites ← s.wordWrites written
  let memoryReads ← s.memoryReads
  let cleared := cleared ++ s.readCleared read
  let wordReads ← s.wordReads read
  let clears ← cleared.mapM fun c => do
    let zero ← Number.sizedConstant 0 c.width
    return s!"{c.net} <= {zero};"
  let writes : List Code :=
    (if s.hasWords then [.line .busLogic s!"{s.dataNet} <= 0;"] else []) ++
    (if clears.isEmpty then [] else [.comment "Strobe default assignments"]) ++
    clears.map (fun l => .line .busLogic l) ++
    s.accessCode "Local writes" s.writing wordWrites memoryWrites
  let reads := s.accessCode "Local reads" s.reading wordReads memoryReads
  return clockedCode (s.bus.netText .clk) (!(memoryWrites.isEmpty && wordWrites.isEmpty))
    (!(memoryReads.isEmpty && wordReads.isEmpty)) writes reads

/-- Nets, and the choice of the word that is read. -/
def netCode (s : Scope) : Result (List Code) := do
  let localNets ← s.localNets
  let childNets ← s.allChildNets
  let riderNets ← s.riderNets
  let routing ← s.readRouting
  return localNets ++ childNets ++ riderNets ++ routing

/-- All code of a scope outside generate blocks. -/
def topCode (s : Scope) (written read : List Register) : Result (List Code) := do
  return (← s.netCode) ++ (← s.busCode written read)

/-! ### Inside generate blocks -/

/-- The code of generate blocks, by name. -/
abbrev BlockTexts := Table String (List Code)

/-- Add the code of items to the texts of their blocks, which must be there. -/
def addToBlocks {α : Type} (items : Table String (List α)) (code : String → α → Result (List Code))
    (texts : BlockTexts) : Result BlockTexts :=
  items.foldlM (fun texts (branch, items) => do
    match Table.get? texts branch with
    | none => fail .missingKey
    | some old =>
      let new ← items.mapM (code branch)
      return Table.put texts branch (old ++ new.flatten)) texts

/-- Add the logic of this scope inside the generate blocks. -/
def blockCode (s : Scope) (texts : BlockTexts) : Result BlockTexts := do
  let texts ← addToBlocks s.blockWords (fun branch (r, block) => blockWordCode branch r block) texts
  let _ ← known (s.bus.rangeOf "addr")
  let texts ← addToBlocks s.blockMemories
    (fun branch (m, block) => s.blockMemoryCode branch m block) texts
  let texts ← addToBlocks s.blockChildren s.blockChildCode texts
  addToBlocks s.blockRiders (fun _ (r, block) => s.blockRiderCode r block) texts

end RegisterMap.Decoder.Scope
