import RegisterMap.Decoder.Basic

/-! # Test benches

A text for simulations: the addresses of all registers, memories and passengers as tables, and tasks
that write and read them through the bus.  Instances in loops are left out. -/

namespace RegisterMap.Decoder

/-- An item with the region and the address around it. -/
structure Listed (α : Type) where
  item : α
  region : String
  base : Int
  name : String

def Listed.path {α : Type} (x : Listed α) : String := s!"{x.region}.{x.name}"

/-! ### What is listed -/

/-- The copies that an aligned loop makes of a register, or itself. -/
def copiesOf (id : RegisterId) : Build (List RegisterId) := do
  if (← id.inLoop) && (← getThe Workspace).policy.alignedLoops then return (← id.get).copies
  return [id]

/-- Name of a register, with its index in a loop. -/
def listedName (id : RegisterId) : Build String := do
  let net ← (← id.get).localName
  match ← id.loop? with
  | some loop => return s!"{net}_{loop.place}"
  | none => return net

/-- The registers or memories of a domain; those in conditions in regions of their own. -/
def Domain.listRegisters (d : Domain) (plain : List RegisterId)
    (inBlocks : Table String (List RegisterId)) (ownRegions : Bool) :
    Build (List (Listed RegisterId)) := do
  let region := (← d.space.region).name
  let outside ← plain.mapM fun id => do
    return { item := id, region := region, base := d.base, name := ← (← id.get).localName }
  let inside ← inBlocks.mapM fun (branch, ids) => do
    let listed ← ids.mapM fun id => do
      let inLoop ← id.inLoop
      (← copiesOf id).mapM fun copy => do
        let region := if inLoop || !ownRegions then region else s!"{region}_{branch}"
        return { item := copy, region := region, base := d.base, name := ← listedName copy }
    return listed.flatten
  return outside ++ inside.flatten

/-- The passengers of a domain; those in conditions in regions of their own. -/
def Domain.listRiders (d : Domain) : Build (List (Listed PassengerId)) := do
  let region := (← d.space.region).name
  let listed (region : String) (id : PassengerId) : Build (Listed PassengerId) := do
    return { item := id, region := region, base := d.base, name := (← id.get).name }
  let outside ← d.riders.mapM fun (_, id) => listed region id
  let inside ← d.blockRiders.mapM fun (branch, ids) => do
    let parts ← ids.mapM fun id => do
      if !(← id.inLoop) then return [← listed s!"{region}_{branch}" id]
      if (← getThe Workspace).policy.alignedLoops then (← id.get).copies.mapM (listed region)
      else return [← listed region id]
    return parts.flatten
  return outside ++ inside.flatten

mutual

/-- What all domains list, each domain before the instances in it. -/
def gather {α : Type} (own : Domain → Build (List α)) : Tree Node → Build (List α)
  | .node n children => do
    let below ← gatherAll own children
    let parts ← n.domains.mapM fun (domain, d) => do
      let inside := (below.filter fun (place, _) => place == domain).flatMap Prod.snd
      return (← own d) ++ inside
    return parts.flatten

/-- What the instances outside loops list, with their domains. -/
def gatherAll {α : Type} (own : Domain → Build (List α)) :
    List (Tree Node) → Build (List (Value × List α))
  | [] => return []
  | t :: ts => do
    match t.data.place with
    | .direct domain _ =>
      let first ← gather own t
      return (domain, first) :: (← gatherAll own ts)
    | _ => gatherAll own ts

end

def Listed.address {α : Type} (x : Listed α) (base : Option Int) : Result Int := do
  return x.base + (← known base)

/-- An item in the tables of a test bench. -/
structure BenchEntry (α : Type) where
  item : α
  path : String
  constant : String
  address : Int

def Listed.entry {α β : Type} (x : Listed α) (item : β) (base : Option Int) :
    Result (BenchEntry β) := do
  let flat (s : String) : String := Text.replaceChar '.' '_' s
  return {
    item := item
    path := x.path
    constant := Text.upper s!"{flat x.region}_{flat x.name}" ++ "_BASE"
    address := ← x.address base }

/-! ### The tables -/

/-- The number whose bits are given, the lowest first. -/
def packBits : List Bool → Nat
  | [] => 0
  | b :: bs => b.toNat + 2 * packBits bs

/-- A value in the range of a register, other than the usual initial ones. -/
def sampleValue (dw : Int) : Result Int := do return ((← Number.powerOfTwo dw) - 1).fdiv 3

def constantLine {α : Type} (x : BenchEntry α) : Result String := do
  let address ← Number.sizedConstant x.address 32
  return s!"localparam {x.constant} = {address}; // {x.path}"

/-- The lines of a register in the tables. -/
def wordLines (aw dw : Int) (x : BenchEntry Register) (n : Nat) : Result (List String) := do
  let address ← Number.sizedConstant x.address aw
  let initial ← Number.sizedConstant x.item.initial dw
  let size ← Number.powerOfTwo x.item.dw
  let sample ← Number.sizedConstant (← sampleValue x.item.dw) dw
  return [s!"  GHOSTBUS_ADDRS[{n}] = {address}; // {x.path}",
    s!"  GHOSTBUS_INITVALS[{n}] = {initial};",
    s!"  GHOSTBUS_RANDVALS[{n}] = {sample}; // 0 <= x <= 0x{Number.hex (size - 1)}"]

/-- The lines of a memory in the tables. -/
def memoryLines (aw dw : Int) (x : BenchEntry Register) (n : Nat) : Result (List String) := do
  let doubt := "// TODO - may not be accurate due to parameterization..."
  let address ← Number.sizedConstant x.address aw
  let width ← Number.sizedConstant x.item.dw dw
  let depth ← Number.sizedConstant (← Number.powerOfTwo x.item.aw) aw
  return [s!"  GHOSTBUS_RAM_BASES[{n}] = {address}; // {x.path}",
    s!"  GHOSTBUS_RAM_WIDTHS[{n}] = {width}; {doubt}",
    s!"  GHOSTBUS_RAM_DEPTHS[{n}] = {depth}; {doubt}"]

/-- The tables of a test bench. -/
def tableLines (aw dw : Int) (words memories : List (BenchEntry Register))
    (riders : List (BenchEntry Passenger)) : Result (List String) := do
  let writable (r : Register) : Bool := r.access.mayWrite
  let wordMask ← Number.sizedConstant
    (packBits (words.map fun x => writable x.item && !x.item.strobe)) words.length
  let memoryMask ← Number.sizedConstant
    (packBits (memories.map fun x => writable x.item)) memories.length
  let memoryNames ← memories.mapM constantLine
  let riderNames ← riders.mapM constantLine
  let wordValues ← words.zipIdx.mapM fun (x, n) => wordLines aw dw x n
  let memoryValues ← memories.zipIdx.mapM fun (x, n) => memoryLines aw dw x n
  return [
    "// Auto-generated with ghostbusser",
    s!"localparam nCSRs = {words.length};",
    s!"localparam nRAMs = {memories.length};",
    "// For CSRs",
    s!"reg [{aw}-1:0] GHOSTBUS_ADDRS [0:nCSRs-1];",
    s!"reg [{dw}-1:0] GHOSTBUS_INITVALS [0:nCSRs-1];",
    s!"reg [{dw}-1:0] GHOSTBUS_RANDVALS [0:nCSRs-1];",
    s!"reg [nCSRs-1:0] GHOSTBUS_WRITABLE = {wordMask};",
    "// For RAMs",
    s!"reg [{aw}-1:0] GHOSTBUS_RAM_BASES [0:nRAMs-1];",
    s!"reg [{dw}-1:0] GHOSTBUS_RAM_WIDTHS [0:nRAMs-1];",
    s!"reg [{aw}-1:0] GHOSTBUS_RAM_DEPTHS [0:nRAMs-1];",
    s!"reg [nRAMs-1:0] GHOSTBUS_RAM_WRITABLE = {memoryMask};",
    "// RAMs by name"] ++ memoryNames ++ ["// External Modules by name"] ++ riderNames ++
    ["// Initialization", "initial begin"] ++ wordValues.flatten ++ memoryValues.flatten ++ ["end"]

/-! ### The tasks -/

/-- The tasks that write and read through a bus; lines for missing nets are empty. -/
def taskLines (bus : Bus) (aw dw : Int) : Result (List String) := do
  let zero ← Number.sizedConstant 0 dw
  let net (key : PortKey) : String := bus.netText key
  let tick := s!"@(posedge {net .clk})"
  let drive (key : PortKey) (level : String) : String :=
    if (bus.net? key).isSome then s!"    {net key} = 1'b{level};" else ""
  let strobe (level : String) : String :=
    if bus.net? .wstb == bus.net? .we then "" else drive .wstb level
  let released := if (bus.net? .rstb).isSome then s!"    {tick} {net .rstb} = 1'b0;" else ""
  let report (indent event : String) : String :=
    s!"{indent}$display(\"{event}: Read from addr 0x%x. Expected 0x%x, got 0x%x\", addr, checkval, {net .din});"
  let overWords := "  for (LOOPN=0; LOOPN<nCSRs; LOOPN=LOOPN+1) begin"
  let span := s!"input [{aw - 1}:0] addr, input [{dw - 1}:0]"
  let write := [
    "// Bus transaction tasks",
    s!"task GB_WRITE ({span} data);",
    "  begin",
    s!"    {tick} {net .addr} = addr;",
    s!"    {net .dout} = data;",
    s!"    {tick}; // Stupid simulator issues",
    s!"    {net .we} = 1'b1;",
    strobe "1",
    s!"    {tick}; // Stupid simulator issues",
    s!"    {tick} {net .we} = 1'b0;",
    strobe "0",
    "`ifndef YOSYS",
    "`ifdef DEBUG_WRITES",
    "     $display(\"DEBUG: Write 0x%x to addr 0x%x\", data, addr);",
    "`endif",
    "`endif",
    "  end",
    "endtask"]
  let read := [
    "`ifndef RDDELAY",
    "  `define RDDELAY 2",
    "`endif",
    s!"task GB_READ_CHECK ({span} checkval);",
    "  begin",
    s!"    {tick} {net .addr} = addr;",
    s!"    {net .dout} = {zero};",
    s!"    {net .we} = 1'b0;",
    drive .re "1",
    "    #(`RDDELAY*TICK);",
    s!"    {tick};",
    drive .rstb "1",
    released,
    drive .re "0",
    "`ifndef YOSYS",
    "`ifdef DEBUG_READS",
    report "     " "DEBUG",
    "`endif",
    "`endif",
    s!"    if ({net .din} !== checkval) begin",
    "       test_pass = 1'b0;",
    "`ifndef YOSYS",
    report "       " "ERROR",
    "`endif",
    "    end",
    "  end",
    "endtask"]
  let writeRead := [
    "// RAM Write/Read",
    "task WRITE_READ_CHECK (input [23:0] addr, input [31:0] checkval);",
    "  begin",
    "    GB_WRITE(addr, checkval);",
    s!"    {tick} GB_READ_CHECK(addr, checkval);",
    "  end",
    "endtask"]
  let readWords := [
    "// CSR Reads",
    "task CSR_READ_CHECK_ALL;",
    overWords,
    s!"    {tick} GB_READ_CHECK(GHOSTBUS_ADDRS[LOOPN], GHOSTBUS_INITVALS[LOOPN]);",
    "  end",
    "endtask"]
  let writeWords := [
    "// CSR Writes",
    "task CSR_WRITE_ALL;",
    overWords,
    "    if (GHOSTBUS_WRITABLE[LOOPN]) begin",
    s!"      {tick} GB_WRITE(GHOSTBUS_ADDRS[LOOPN], GHOSTBUS_RANDVALS[LOOPN]);",
    "      GHOSTBUS_INITVALS[LOOPN] = GHOSTBUS_RANDVALS[LOOPN];",
    "    end",
    "  end",
    "endtask"]
  let writeReadWords := [
    "// CSR Write/Read All",
    "task CSR_WRITE_READ_CHECK_ALL;",
    overWords,
    "    if (GHOSTBUS_WRITABLE[LOOPN]) begin",
    s!"      {tick} WRITE_READ_CHECK(GHOSTBUS_ADDRS[LOOPN], GHOSTBUS_RANDVALS[LOOPN]);",
    "    end",
    "  end",
    "endtask"]
  let writeReadMemories := [
    "// RAM Write/Read All",
    "`ifndef MAX_RAM_CHECKS",
    "`define MAX_RAM_CHECKS 4",
    "`endif",
    "task RAM_WRITE_READ_CHECK_ALL;",
    "  for (LOOPN=0; LOOPN<nRAMs; LOOPN=LOOPN+1) begin",
    "    for (LOOPM=0; LOOPM<(GHOSTBUS_RAM_DEPTHS[LOOPN] > `MAX_RAM_CHECKS ? `MAX_RAM_CHECKS : " ++
      "GHOSTBUS_RAM_DEPTHS[LOOPN]); LOOPM=LOOPM+1) begin",
    "      if (GHOSTBUS_RAM_WRITABLE[LOOPN]) begin",
    s!"        {tick} WRITE_READ_CHECK(GHOSTBUS_RAM_BASES[LOOPN]+LOOPM, " ++
      "$urandom & ((1<<GHOSTBUS_RAM_WIDTHS[LOOPN])-1));",
    "      end",
    "    end",
    "  end",
    "endtask"]
  return ["reg test_pass=1'b1;", "integer LOOPN;", "integer LOOPM;"] ++ write ++ read ++ writeRead ++
    readWords ++ writeWords ++ writeReadWords ++ writeReadMemories

/-! ### The whole text -/

/-- Replace two line ends by one, from left to right. -/
def joinLineEnds : List Char → List Char
  | '\n' :: '\n' :: cs => '\n' :: joinLineEnds cs
  | c :: cs => c :: joinLineEnds cs
  | [] => []

def printEntries {α : Type} (title : String) (entries : List (BenchEntry α)) : Build Unit := do
  Build.say title
  for x in entries do Build.say s!"{x.path}: 0x{Number.hex x.address}"

/-- The text of a test bench for a bus. -/
def benchText (d : Decoder) (bus : Bus) : Build String := do
  let register (x : Listed RegisterId) : Build (Listed RegisterId × Register) := do
    return (x, ← (← x.item.copy).get)
  let rider (x : Listed PassengerId) : Build (Listed PassengerId × Rider) := do
    let p ← (← x.item.copy).get
    return (x, ⟨p, ← p.bus.get⟩)
  let words ← (← gather (fun d => d.listRegisters d.words d.blockWords true) d.tree).mapM register
  let memories ←
    (← gather (fun d => d.listRegisters d.memories d.blockMemories false) d.tree).mapM register
  let riders ← (← gather Domain.listRiders d.tree).mapM rider
  let words ← words.mapM fun (x, r) => x.entry r r.base
  printEntries "CSRs:" words
  let memories ← memories.mapM fun (x, r) => x.entry r r.base
  printEntries "RAMs:" memories
  let riders ← riders.mapM fun (x, r) => x.entry r.passenger r.base
  printEntries "Bus Passengers (External Module Instances):" riders
  let aw ← known bus.addrWidth
  let dw ← known bus.dataWidth
  let lines := (← tableLines aw dw words memories riders) ++ (← taskLines bus aw dw)
  return String.ofList (joinLineEnds (Text.join "\n" lines).toList)

/-- Write the text for the first bus to a file, or print it character by character. -/
def writeBench (d : Decoder) (file : Option String) (busses : List BusId) : Build Unit := do
  let bus ← Text.itemAt busses 0
  let text ← d.benchText (← bus.get)
  match file with
  | some path => Build.write path text
  | none => Build.say (Text.join "\n" (text.toList.map Char.toString))

end RegisterMap.Decoder
