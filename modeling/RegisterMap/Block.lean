import RegisterMap.Source.Loop

/-! # Generate blocks

Nets, memories, instances and busses may stand inside a generate block.  A block is a condition or
a loop.  What stands inside a loop exists once for each value of the loop's index; its size in the
unrolled design is an expression over the texts of the loop's head (`Loop.unrolledSize`). -/

namespace RegisterMap

open Text

/-- The comparison in the head of a loop. -/
inductive Comparison where
  | eq
  | ne
  | gt
  | ge
  | lt
  | le
deriving DecidableEq, Repr, Inhabited

namespace Comparison

def signs : List (Comparison × String) :=
  [(eq, "="), (ne, "!="), (gt, ">"), (ge, ">="), (lt, "<"), (le, "<=")]

def sign : Comparison → String
  | eq => "="
  | ne => "!="
  | gt => ">"
  | ge => ">="
  | lt => "<"
  | le => "<="

def code : Comparison → Nat
  | eq => 0
  | ne => 1
  | gt => 2
  | ge => 3
  | lt => 4
  | le => 5

/-- Does the bound itself count? -/
def isWeak : Comparison → Bool
  | ge | le => true
  | _ => false

/-- Read a sign between blanks. -/
def parse (s : String) : Result Comparison :=
  match signs.find? fun entry => entry.2 == strip s with
  | some (c, _) => .ok c
  | none => .error (.design s!"Unknown boolean operator {s}")

end Comparison

/-- The operation of a loop's step. -/
inductive StepOp where
  | add
  | sub
  | mul
  | div
deriving DecidableEq, Repr, Inhabited

namespace StepOp

def sign : StepOp → String
  | add => "+"
  | sub => "-"
  | mul => "*"
  | div => "/"

def code : StepOp → Nat
  | add => 16
  | sub => 17
  | mul => 18
  | div => 19

def ofChar? : Char → Option StepOp
  | '+' => some add
  | '-' => some sub
  | '*' => some mul
  | '/' => some div
  | _ => none

/-- Read the sign and the text behind it. -/
def parse (s : String) : Result (StepOp × String) :=
  match stripChars s.toList with
  | [] => fail .outOfRange
  | c :: cs =>
    match ofChar? c with
    | some op => .ok (op, String.ofList cs)
    | none => .error (.design s!"Unknown increment operator {strip s}")

end StepOp

/-- The head of a generate loop, and its unrolled size. -/
structure Loop where
  index : String
  initial : String
  comparison : Comparison
  limit : String
  stepOp : StepOp
  step : String
  /-- Number of copies, once it is known. -/
  length : Option Int := none
  place : Int := 0
deriving DecidableEq, Repr, Inhabited

namespace Loop

/-- The number of iterations as an expression, for steps by sums. -/
def unrolledSize (l : Loop) : Result String :=
  let more := if l.comparison.isWeak then "+1" else ""
  let counted (upper lower : String) : String :=
    let less := if lower == "0" then "" else "-" ++ lower
    if less == "" && more == "" then upper else "(" ++ upper ++ less ++ more ++ ")"
  let perStep (count : String) : String :=
    if l.step == "1" then count else "(" ++ count ++ "/" ++ l.step ++ ")"
  match l.stepOp with
  | .add => .ok (perStep (counted l.limit l.initial))
  | .sub => .ok (perStep (counted l.initial l.limit))
  | .mul | .div => fail .unsetQuantity

end Loop

/-- A generate block: a condition or a loop. -/
structure Block where
  branch : String
  loop : Option Loop
deriving DecidableEq, Repr, Inhabited

namespace Block

def condition (branch : String) : Block := ⟨branch, none⟩

/-- A loop from the texts of its head; it needs an unrolled size. -/
def forLoop (branch index initial comparison limit step : String) : Result Block := do
  let comparison ← Comparison.parse comparison
  let (op, step) ← StepOp.parse step
  let loop : Loop := ⟨index, initial, comparison, limit, op, step, none, 0⟩
  let _ ← loop.unrolledSize
  return ⟨branch, some loop⟩

/-- The loop around a place in a source file, if a head is found. -/
def ofSource (files : Source.Files) (branch place : String) : Result (Option Block) := do
  match ← files.loopHead place with
  | none => return none
  | some h => return some (← forLoop branch h.index h.initial h.comparison h.limit h.step)

def isLoop (b : Block) : Bool := b.loop.isSome

/-- The number of copies as an expression. -/
def unrolledSize (b : Block) : String :=
  match b.loop with
  | none => "1"
  | some loop =>
    match loop.unrolledSize with
    | .ok size => size
    | .error _ => ""

/-- The range of the indices. -/
def loopRange (b : Block) : String :=
  match b.loop with
  | none => "[0:0]"
  | some _ => "[0:" ++ b.unrolledSize ++ "-1]"

def display (b : Block) : String :=
  match b.loop with
  | none => "generate if (): " ++ b.branch
  | some l =>
    s!"for ({l.index}={l.initial}; {l.index}{l.comparison.sign}{l.limit}; " ++
      s!"{l.index}={l.index}{l.stepOp.sign}{l.step}): {b.branch}"

def rangePattern : Pattern :=
  Pattern.literal "[" ++ [.field 1 (· != ':')] ++ Pattern.literal ":" ++ [.field 1 (· != ']')] ++
    Pattern.literal "]"

def boundsText : String := "[range[0]:range[1]]"

/-- A range of one copy as that of all copies side by side. -/
def unrollRange (b : Block) (range : String) : String :=
  match rangePattern.fieldsAtStart range with
  | some [high, low] => s!"[({b.unrolledSize}*({high}-{low}+1))-1:0]"
  | _ => range

end Block

end RegisterMap
