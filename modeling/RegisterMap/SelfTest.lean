import RegisterMap.AddressSpace.Copy
import RegisterMap.Dependency
import RegisterMap.Export.Name
import RegisterMap.Outline
import RegisterMap.Source.Declaration
import RegisterMap.Value.Numeric

/-! # Self tests

Small checks that can be run from outside.  A check prints what fails and answers the number of its
failures. -/

namespace RegisterMap.SelfTest

/-- Compare results with what is expected, and count the differences. -/
def compare {α β : Type} [BEq β] (f : α → β) (shown : α → String) (cases : List (α × β)) :
    Build Nat := do
  let failed := cases.filter fun (a, expected) => !(f a == expected)
  for (a, _) in failed do Build.say s!"FAIL: {shown a}"
  return failed.length

def status (failures : Nat) : Nat := if failures = 0 then 0 else 1

/-! ### Address spaces -/

def copyRegister : Build Unit := do
  let r ← Register.create .word (some "foo") 8 0 (some 0x100) (.text "some additional info")
    Access.readWrite none none
  let c ← r.copy
  let same := r.given == c.given && r.dw == c.dw && r.base == c.base && r.source == c.source &&
    r.access == c.access && r.label == c.label && r.size == c.size && r.aw == c.aw
  if !same then throw (.precondition "copy of a register")

/-- Widths of the items that are placed without an address. -/
def sampleWidths : List Int := [0, 0, 0, 2, 2, 8, 4, 8, 0, 0, 0, 0, 1, 2]

/-- The refusal to print an unknown address. -/
def unknownAddress : Error := .plain "unsupported format string passed to NoneType.__format__"

def reportPlaced (width : Int) (base : Option Int) : Build Unit :=
  match base with
  | some base => Build.say s!"Adding {width} to 0x{Number.hex base}"
  | none => throw unknownAddress

/-- Place blocks at addresses, granted or not. -/
def placeAt (space : SpaceId) (places : List (Int × Int)) : Build Unit :=
  for (addr, width) in places do
    try
      let base ← space.add width .nothing (some addr)
      reportPlaced width base
    catch e => Build.say ("EXCEPTION: " ++ e.message.getD "")

def spaceOf (kind : SpaceKind) (name : String) (widths : List Int) : Build SpaceId := do
  let space ← SpaceId.create kind none (some name) (some ⟨[name], false⟩) .none
  for width in widths do let _ ← space.add width .nothing none
  return space

/-- Put a space with an inner one into another, and take it out again. -/
def nestAndRemove (kind : SpaceKind) (space : SpaceId) : Build Unit := do
  let inner ← spaceOf kind "foo" [0, 0, 4, 4, 6]
  let innermost ← spaceOf kind "bar" [10]
  if kind = .plain then innermost.shrink
  let _ ← inner.addItem (.space innermost) none false
  if kind = .plain then inner.shrink
  let _ ← space.addItem (.space inner) none false
  if kind ≠ .plain then space.resolve
  let _ ← space.copy
  let _ ← space.remove (← inner.region).base

def reservedSpace (kind : SpaceKind) : Build SpaceId := do
  let space ← SpaceId.create kind none none (some ⟨["top"], false⟩) .none
  let _ ← space.keepout 0x100 8
  return space

def placeAtOnce : Build Unit := do
  let space ← reservedSpace .plain
  for width in sampleWidths do reportPlaced width (← space.add width .nothing none)
  space.updateRegion Region.sorted
  placeAt space [(0x110, 4), (0x40, 4), (0x300, 8), (0x1001, 2)]
  nestAndRemove .plain space

def placeLater : Build Unit := do
  let space ← reservedSpace .staged
  for width in sampleWidths do
    let _ ← space.add width .nothing none
    Build.say s!"Adding {width} to staging area"
  placeAt space [(0x40, 4), (0x300, 8)]
  nestAndRemove .staged space

/-- All checks of address spaces: the number of failures. -/
def spaces : Build Nat := do
  let failures ← [copyRegister, placeAtOnce, placeLater].mapM fun check => do
    try
      check
      return 0
    catch e =>
      Build.say (e.message.getD "")
      return 1
  let count := Number.total failures
  Build.say (if count = 0 then "PASS" else s!"FAIL: count = {count}")
  return count

/-! ### Loops -/

def loops : Build Nat := do
  let size (head : String × String × String × String) : String :=
    let (initial, comparison, limit, step) := head
    match Block.forLoop "branch" "N" initial comparison limit step with
    | .ok block => block.unrolledSize
    | .error _ => ""
  let failures ← compare size (fun head => head.1) [
    (("0", "<", "SIZE", "+1"), "SIZE"),
    (("0", "<=", "SIZE", "+1"), "(SIZE+1)"),
    (("SIZE", ">", "0", "-1"), "SIZE"),
    (("SIZE", ">=", "0", "-1"), "(SIZE+1)"),
    (("SIZE-1", ">=", "0", "-1"), "(SIZE-1+1)"),
    (("START", "<", "SIZE", "+1"), "(SIZE-START)"),
    (("START", "<=", "SIZE", "+1"), "(SIZE-START+1)"),
    (("START", "<", "SIZE", "+2"), "((SIZE-START)/2)"),
    (("START", "<=", "SIZE", "+2"), "((SIZE-START+1)/2)"),
    (("START", ">", "SIZE", "-1"), "(START-SIZE)"),
    (("START", ">=", "SIZE", "-1"), "(START-SIZE+1)"),
    (("START", ">", "SIZE", "-2"), "((START-SIZE)/2)"),
    (("START", ">=", "SIZE", "-2"), "((START-SIZE+1)/2)")]
  Build.say (if failures = 0 then "PASS" else "FAIL: 1/1 failed.")
  return status failures

/-! ### Busses -/

def busOf (name : String) (ports : List (String × String × Int)) : Result Bus :=
  ports.foldlM (fun b (port, net, width) =>
    let (b, done) := b.setPort port net width none .none
    done.map fun _ => b) { name := .text name }

/-- The union of a bus that is only written and a bus that is only read. -/
def ports : Build Nat := do
  let written ← busOf "one" [("clk", "one_clk", 1), ("addr", "one_addr", 24),
    ("dout", "one_wdata", 16), ("we", "one_we", 1), ("wstb", "one_we", 1)]
  let read ← busOf "two" [("clk", "two_clk", 1), ("addr", "two_addr", 24), ("din", "two_rdata", 16),
    ("re", "two_re", 1), ("extra_in0", "two_extra", 1)]
  let all ← (Bus.union [written, read]).2
  Build.say all.display
  let expected : List PortKey := [.clk, .addr, .dout, .din, .we, .re, .extraIn 0]
  let missing := expected.filter fun key => (all.net? key).isNone
  if missing.isEmpty then
    Build.say "PASS"
    return 0
  let names := Value.list (missing.map fun key => .text key.name)
  Build.say s!"FAIL: missing = {names.display}"
  return 1

/-! ### Readers of source text, and orders -/

def moduleNames : Build Nat := do
  return status (← compare Source.moduleName id [
    ("$paramod$8b3f6b5606276ea5c166ba4745cb6215a6ec04e3\\axi_lb", "axi_lb"),
    ("$paramod\\nco_control\\NDACS=s32'00000000000000000000000000000011", "nco_control")])

def blockNames : Build Nat := do
  return status (← compare (fun s => (Source.blockName s).toOption.join) id [
    ("gen_foo.inst_bar", some ⟨"gen_foo", "inst_bar", none⟩),
    ("gen_foo[3].inst_bar", some ⟨"gen_foo", "inst_bar", some 3⟩),
    ("inst_foo", none),
    ("$paramod$8b3f6b5606276ea5c166ba4745cb6215a6ec04e3\\axi_lb", none),
    ("$0\\baz_generator.top_baz", none),
    ("$0\\top_reg[7:0]", none),
    ("$0\\foo_generator[3].top_foo_n[3:0]", none)])

def anonymousBlocks : Build Nat := do
  return status (← compare Source.isAnonymousBlock id [("genblk0", true), ("genblk2", true),
    ("genblk4321", true), ("genblk", false), ("foo", false)])

def addressBits : Build Nat := do
  let bits (n : Nat) : Option Nat := (Number.bitWidth n).toOption
  return status (← compare bits (fun n => toString n) [(0xff, some 8), (0x0f, some 4), (0x08, some 4),
    (0x07, some 3), (0x04, some 3), (0x03, some 2), (0x02, some 2), (0x01, some 1), (1023, some 10)])

def dependencies : Build Nat := do
  let rules : Table Value Value := ["ef", "cd", "bc", "ab", "de", "jk", "lm", "fg", "kl", "ij", "gh",
    "hi"].map fun pair => (.text (pair.take 1).toString, .text (pair.drop 1).toString)
  Build.say (Value.list (← Dependency.orderValues rules true)).display
  return 0

/-- An outline with nodes named in the order of the walk. -/
def sampleOutline : Outline :=
  let node (key : String) (members : List (Value × Value)) : Value × Value :=
    (.text key, .table members)
  Outline.ofValue (.text "top") (.table [
    node "F" [node "A" [], node "D" [node "C" [node "B" []]], node "E" []],
    node "K" [node "I" [node "G" [], node "H" []], node "J" []]])

def walks : Build Nat := do
  let rec go (o : Outline) : List Nat → Build Unit
    | [] => return ()
    | n :: ns => do
      let (o, keys) := o.walk
      Build.say s!"Pass #{n}"
      Build.say (Value.list keys).display
      go o ns
  go sampleOutline [1, 2]
  let keys := sampleOutline.walk.2.map Value.display
  return if keys.Pairwise (· < ·) then 0 else 1

def endings : Build Nat := do
  let ending (n : Int) : String := (Export.ending "foo.bumpy.baz.flop" n).1
  let failures ← compare ending (fun n => toString n) [(0, "flop"), (1, "baz_flop"),
    (2, "bumpy_baz_flop"), (3, "foo_bumpy_baz_flop"), (4, "foo_bumpy_baz_flop"),
    (-1, "foo_bumpy_baz_flop")]
  if failures = 0 then Build.say "PASS"
  return status failures

def shortNames : Build Nat := do
  let names := [("foo.bar.baz", "foo_bar_baz"), ("zip.bar.baz", "zip_bar_baz"),
    ("foo.bar.bof", "bar_bof"), ("zip.bif.bof", "bif_bof"), ("fad.tap.hog", "hog"),
    ("cop.wop.pig", "pig")]
  let short ← Export.shortenNames (names.map fun (long, short) => (.text long, .text short))
  let missing := names.filter fun (_, name) => !(short.any fun kv => kv.1 == .text name)
  let failures ← compare (fun (_ : String) => false) id (missing.map fun (_, name) => (name, true))
  if failures = 0 then Build.say "PASS"
  return status failures

def loopHeads : Build Nat := do
  let head (s : String) : Option Source.LoopHead := (Source.lastLoopHead s).toOption.join
  return status (← compare head id [
    ("generate for (N=0;N<4;N=N+1)", some ⟨"N", "0", "<", "4", "+1"⟩),
    ("generate\r\n  for (N=0;N<4;N=N+1)", some ⟨"N", "0", "<", "4", "+1"⟩),
    ("for (N=0;N<4;N=N+1)", none),
    ("generate for (N = 0; N < 4; N = N + 1)", some ⟨"N", "0", "<", "4", "+1"⟩),
    ("generate for (MY_LOOP_VAR=(SOME_THIS_NUMBER>>2); MY_LOOP_VAR>0; MY_LOOP_VAR=MY_LOOP_VAR-1)",
      some ⟨"MY_LOOP_VAR", "(SOME_THIS_NUMBER>>2)", ">", "0", "-1"⟩),
    ("generate for (boop; bop; floop)", none),
    ("generate for (N=0;N<4;N=N+1) generate for (M=1;M<M_MAX;M=M+M_INC)",
      some ⟨"M", "1", "<", "M_MAX", "+M_INC"⟩)])

def completeIndices : Build Nat := do
  let complete (vs : List Value) : Option Bool := (Value.isPermutedRange (.list vs)).toOption
  let ints (ns : List Int) : List Value := ns.map .int
  return status (← compare complete (fun vs => (Value.list vs).display) [
    (ints [4, 5, 3, 2, 1, 0], some true), (ints [4, 1, 3, 2, 0], some true),
    (ints [1, 3, 2, 4], some false), (ints [0], some true), ([.text "0"], some false),
    (ints [1], some false)])

def comments : Build Nat := do
  return status (← compare Source.stripComments id [
    ("hello", "hello"),
    ("hello // I'm a comment", "hello "),
    ("hello // I'm a comment\nwith more lines", "hello \nwith more lines"),
    ("hello /* I'm a block comment */ there", "hello  there"),
    (" generate // do this generate thing\n  for (N=0; N<8; N=N+1): branch // this is my branch",
      " generate \n  for (N=0; N<8; N=N+1): branch ")])

def equalItems : Build Nat :=
  let foo : Value := .text "foo"
  compare (allSameOrEmpty Value.isNone) (fun vs => (Value.list vs).display) [
    ([.none], true), ([.none, .none], true), ([.int 1], true), ([foo], true), ([foo, foo], true),
    ([foo, .none], true), ([.none, foo], true),
    ([.int 0, .int 0, .none, .int 0], true), ([.none, .int 0, .none, .int 0], true),
    ([.int 1, .int 0, .int 0, .none], false), ([.int 0, .int 1, .int 0], false),
    ([.int 1, .int 1, .text "bar"], false), ([.int 1, .int 1, .none], true)]

def keywords : Build Nat :=
  let keyword (s : String) : Option String :=
    (Source.keywordIn? s.toList).map Source.NetKind.keyword
  let none := ["foo", "regval", "reg_addr", "0] reg_add", "input_baz", " outputt", "wire_", "_wire"]
  let some := [("reg addr", "reg"), (" reg [15:0] reg_addr", "reg"), ("\twire [15:0] reg_addr", "wire"),
    (" output", "output"), ("output", "output"), ("\toutput.", "output"), ("\treg.", "reg"),
    ("wire", "wire"), ("wire.", "wire"), ("\twire", "wire"), ("     wire", "wire"),
    ("wire foo baz", "wire")]
  compare keyword id (none.map (fun s => (s, .none)) ++ some.map fun (s, k) => (s, .some k))

def equalDistances : Build Nat := do
  let even (ns : List Int) : Option Bool := (Number.evenlySpaced ns).toOption
  let multiples (start step : Int) : List Int := (List.range 10).map fun (n : Nat) => start + step * n
  return status (← compare even (fun ns => toString ns.length) [
    (multiples 0 1, some true), (multiples 0 2, some true), (multiples 100 31, some true),
    ([0, 0, 1, 2, 3], some false), ([10, 20, 30, 50], some false), ([0, 2, 1, 3], some false)])

/-- All checks of readers. -/
def readers : Build Nat := do
  let checks := [moduleNames, blockNames, anonymousBlocks, addressBits, dependencies, walks, endings,
    shortNames, loopHeads, completeIndices, comments, equalItems, keywords]
  let results ← checks.mapM id
  let failed := results.zipIdx.filter fun (result, _) => result ≠ 0
  Build.say s!"{checks.length} tests run"
  Build.say (if failed.isEmpty then "PASS" else "FAIL")
  for (result, n) in failed do Build.say s!"  Test {n} returned {result}"
  return results.foldl (· ||| ·) 0

end RegisterMap.SelfTest
