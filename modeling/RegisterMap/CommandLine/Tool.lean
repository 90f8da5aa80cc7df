import RegisterMap.CommandLine.Arguments
import RegisterMap.Generate
import RegisterMap.RuleCheck

/-! # Commands

* `generate` makes what a design needs: logic, test bench text and address maps.
* `check` checks the naming rules of macros.
* `browse` prints a part of a netlist.
* `sample` writes a small test bench that shows what the code writer does. -/

namespace RegisterMap

/-- The commands. -/
inductive Tool where
  | generate
  | check
  | browse
  | sample
deriving DecidableEq, Repr, Inhabited

open CommandLine

/-- The job that the options describe. -/
def Job.ofOptions (files : List String) (options : Table String Value) : Job where
  files := files
  top := text? options "top"
  includes := texts options "include"
  live := isSet options "live"
  folder := (text? options "dest").getD "_autogen"
  bench := text? options "map"
  json := text? options "json"
  rdl := text? options "rdl"
  flat := isSet options "flat"
  untrimmed := isSet options "notrim"
  mangle := isSet options "mangle"
  short := isSet options "short"
  trace := isSet options "debug"
  ignored := texts options "ignore"

namespace Tool

def name : Tool → String
  | generate => "generate"
  | check => "check"
  | browse => "browse"
  | sample => "sample"

def ofName? (name : String) : Option Tool :=
  [generate, check, browse, sample].find? fun tool => tool.name == name

/-- The options of a command. -/
def options : Tool → List OptionSpec
  | generate =>
    let long (kind : OptionKind) (name : String) : OptionSpec := ⟨name, ["--" ++ name], kind⟩
    [long .flag "live", ⟨"top", ["-t", "--top"], .value⟩, ⟨"include", ["-I", "--include"], .values⟩] ++
      ["dest", "map", "json", "rdl"].map (long .value) ++
      ["flat", "notrim", "mangle", "short", "debug"].map (long .flag) ++ [long .values "ignore"]
  | browse => [⟨"depth", ["-d", "--depth"], .value⟩, ⟨"select", ["-s", "--select"], .value⟩,
      ⟨"top", ["-t", "--top"], .value⟩, ⟨"sv", ["--sv"], .flag⟩]
  | check | sample => []

/-- Depth to which a netlist is printed by default. -/
def browseDepth : Int := 4

/-- Print a netlist, or search and trace in it. -/
def browseNetlist (files : List String) (options : Table String Value) : Build Unit := do
  let n ← Netlist.read { files := files, top := text? options "top", modern := isSet options "sv" }
  let depth ← match text? options "depth" with
    | some text => Number.readDecimal text
    | none => .ok browseDepth
  Build.say (← n.outline depth (text? options "select"))

/-- A test bench with a counter and a clock. -/
def sampleCode (module : String) : List Code :=
  let line (text : String) : Code := .line .sample text
  let close (note : String) : Code := .closing .sample note
  [line s!"module {module};",
   .opening .sample .initial, line s!"$dumpfile(\"{module}.vcd\");", line "$dumpvars();", close "",
   line "reg clk=1'b1;",
   .opening .sample (.always "#5"), line "clk <= ~clk;", close "",
   line "reg [3:0] cnt=0;",
   .opening .sample (.clocked "clk"),
   .opening .sample (.conditional "cnt == 4'hf"), line "cnt <= 4'h0;",
   .turning .sample, line "cnt <= cnt+1;", close "cnt == 4'hf",
   close "@clk",
   line "wire led = cnt[3];",
   .opening .sample .initial "Stimulus", line "#320 $display(\"PASS\");", line "$finish(0);",
   close "Stimulus",
   line "endmodule"]

/-- Write the sample to a file. -/
def writeSample (arguments : List String) : Build Unit :=
  match arguments with
  | [] => Build.refuse .unsetQuantity
  | path :: _ => do
    let w ← Code.emitAll { trace := true } (sampleCode (Source.splitEnding path).1)
    w.write path ""

/-- Run a command, unless its arguments are wrong. -/
def run (tool : Tool) (arguments : List String) : Build (Except Stop Value) := do
  match tool with
  | sample =>
    writeSample arguments
    return .ok (.int 0)
  | tool =>
    match parse tool.options arguments with
    | .error stop => return .error stop
    | .ok (files, options) =>
      match tool with
      | generate => return .ok (.int (← (Job.ofOptions files options).run))
      | check => return .ok (.int (← RuleCheck.check files))
      | _ =>
        browseNetlist files options
        return .ok (.bool true)

end Tool

end RegisterMap
