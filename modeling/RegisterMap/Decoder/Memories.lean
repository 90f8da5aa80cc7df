import RegisterMap.Decoder.Words
import RegisterMap.Text.Case

/-! # Memories

A memory outside blocks is hit by a comparison of the upper address bits; a memory in a loop has one
hit signal for each copy, and the words read from all copies stand side by side in one net
(`copySlice`). -/

namespace RegisterMap.Decoder

namespace Scope

def widthName (net : String) : String := Text.upper net ++ "_AW"

def blockWidthName (branch net : String) : String := s!"{Text.upper branch}_{widthName net}"

/-- The word of a memory at the address on the bus, as wide as the bus. -/
def memoryWord (s : Scope) (m : Register) (net : String) : String :=
  zeroExtended s!"{s.dataWidthText}-{m.widthText}" s!"{net}[{s.memoryAddress (widthName net)}]"

/-- The nets of a memory. -/
def memoryNets (s : Scope) (m : Register) : Result String := do
  let net ← m.localName
  let base ← known m.base
  let span ← spanText base m.aw
  let condition ← (← s.memoryComparator m).text
  let word := s!"[{m.widthText}-1:0] {net}_registered_read"
  return Text.join "\n" [
    s!"localparam {widthName net} = $clog2({m.depthText}); // must resolve to <={m.aw} or upper" ++
      " regions will be inaccessible",
    s!"wire addrhit_{net} = {condition}; // {span}",
    if s.policy.registeredMemories then s!"reg {word}=0;"
    else s!"wire {word} = {s.memoryWord m net};"]

/-- The nets of a memory in a block. -/
def blockMemoryNets (s : Scope) (branch : String) (m : Register) (block : Block) :
    Result String := do
  let net ← m.localName
  let name := s!"{branch}_{net}"
  let base ← known m.base
  let span ← spanText base m.aw
  let condition ← (← s.memoryComparator m).text
  let single := s!"wire addrhit_{name} = {condition}; // {span}"
  let range := declaredRange m
  let (range, hit) :=
    if !range.isEmpty && block.isLoop then
      (block.unrollRange range ++ " ", s!"wire [{block.unrolledSize}-1:0] addrhit_{name};")
    else (range, single)
  return Text.join "\n" [
    s!"wire {range}{name}_r;",
    if s.policy.registeredMemories then s!"reg {range}{name}_registered_read=0;"
    else s!"wire {range}{name}_registered_read = {name}_r;",
    s!"localparam {blockWidthName branch net} = $clog2({boundText m.depth.2}+1);",
    hit]

/-- A chain of conditional statements, one for each memory. -/
def memoryChain (title : String) (statements : List (String × String)) : List String :=
  match statements with
  | [] => []
  | (net, statement) :: rest =>
    ["// " ++ title, head net, "  " ++ statement] ++
      rest.flatMap (fun (net, statement) => [s!"end else {head net}", "  " ++ statement]) ++ ["end"]
where
  head (net : String) : String := s!"if (addrhit_{net}) begin"

/-- The writes to memories. -/
def memoryWrites (s : Scope) : Result String := do
  let statements ← s.memories.mapM fun m => do
    let net ← m.localName
    return (net, s!"{net}[{s.memoryAddress (widthName net)}] <= {s.writeData}{rangeText m};")
  return Text.join "\n" (memoryChain "RAM writes" statements)

/-- The reads of memories in a block. -/
def blockReadLines (s : Scope) (branch : String) (memories : List Register) (block : Block) :
    Result (List String) := do
  let lines ← memories.mapM fun m => do
    let net ← m.localName
    let name := s!"{branch}_{net}"
    let target := s!"{name}_registered_read"
    if block.isLoop then
      let slice := copySlice loopVariable s!"({boundText m.depth.2}+1)"
      let word := s.widened m s!"{name}_r{slice}"
      return [s!"  // {net}", s!"  if (addrhit_{name}[{loopVariable}]) begin",
        s!"    {target} <= {word};", "  end"]
    else
      let word := s.widened m s!"{name}_r"
      return [s!"// {net}", s!"if (addrhit_{name}) begin", s!"  {target} <= {word};", "end"]
  let lines := lines.flatten
  return s!"// Generate {branch}" ::
    if block.isLoop then loopHead block.unrolledSize :: lines ++ ["end"] else lines

/-- The reads of all memories in blocks. -/
def blockMemoryReads (s : Scope) : Result String := do
  if !s.policy.registeredMemories then return ""
  let parts ← s.blockMemories.mapM fun (branch, items) =>
    match items with
    | [] => return []
    | (_, block) :: _ => s.blockReadLines branch (items.map Prod.fst) block
  return Text.join "\n" parts.flatten

/-- The reads of memories. -/
def memoryReads (s : Scope) : Result String := do
  if !s.policy.registeredMemories then return ""
  let statements ← s.memories.mapM fun m => do
    let net ← m.localName
    return (net, s!"{net}_registered_read <= {s.memoryWord m net};")
  let inBlocks ← s.blockMemoryReads
  return Text.join "\n" (memoryChain "RAM reads" statements ++
    if inBlocks.isEmpty then [] else [inBlocks])

/-- The logic of a memory inside its block. -/
def blockMemoryCode (s : Scope) (branch : String) (m : Register) (block : Block) :
    Result (List Code) := do
  let net ← m.localName
  let name := s!"{branch}_{net}"
  let place := s.memoryAddress (blockWidthName branch net)
  let write (hit : String) : List Code :=
    [.opening .blockLogic (.clocked (s.bus.netText .clk)),
      .opening .blockLogic (.conditional s!"{hit} & {s.writing}"),
      .line .blockLogic s!"{net}[{place}] <= {s.writeData}{rangeText m};",
      .closing .blockLogic, .closing .blockLogic]
  match block.loop with
  | none => return [.comment s!"RAM {net}",
      .line .blockLogic s!"assign {name}_r = {net}[{place}];"] ++ write s!"addrhit_{name}"
  | some loop =>
    let base ← known m.base
    let busAw ← s.busAw
    let high ← known (s.bus.rangeOf "addr")
    let note ← loopSpanText base m.aw loop.index
    let condition ← (← LoopComparator.ofBlocks s.addr high.high busAw base m.aw loop.index
      (toString (busAw - m.aw))).text
    let hit := s!"addrhit_{name}[{loop.index}]"
    return [.comment s!"RAM {net}",
      .line .blockLogic s!"assign {hit} = {condition};" note,
      .line .blockLogic s!"assign {name}_r{copySlice loop.index m.widthText} = {net}[{place}];"] ++
      write hit

end Scope

end RegisterMap.Decoder
