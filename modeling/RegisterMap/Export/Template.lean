import RegisterMap.Register

/-! # Register templates

Templates for the description of registers in a register description language: constants, registers
that the host reads, and registers that it reads and writes. -/

namespace RegisterMap.Export

/-- The template of a kind of register. -/
def template (access : Value) (constant : Bool) : Result String := do
  let known (n : Int) : Bool := access == .int n
  let name ←
    if known Access.read then pure "r"
    else if known Access.write then pure "w"
    else if known Access.readWrite then pure "rw"
    else .error (.precondition s!"access = {access.display}")
  let (kind, host, logic) : String × String × String :=
    if constant then ("const", "r", "r")
    else if known Access.read then ("ro", "rw", name)
    else ("rw", "r", name)
  return Text.join "\n" [
    s!"reg reg_{kind}_t #(longint unsigned DW = 32, longint RESET = 32'h00000000) " ++ "\x7b",
    "  dw = DW;",
    "  field \x7b",
    s!"    sw = {host};",
    s!"    hw = {logic};",
    "    reset = RESET;",
    "  \x7d data[DW-1:0];",
    "\x7d;"]

/-- All templates. -/
def templates : Result String := do
  return Text.join "\n" [
    ← template (.int Access.readWrite) true,
    ← template (.int Access.read) false,
    ← template (.int Access.readWrite) false]

end RegisterMap.Export
