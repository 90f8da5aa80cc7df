import RegisterMap.Table
import RegisterMap.Value.Basic
import RegisterMap.Text.Cut

/-! # Arguments of a command

A command takes options and one or more file names.  An option is written with one of its marks, and a
long mark may be cut as long as it stays distinct.  A value follows its option, or stands behind a
sign of equality or right behind a short mark.  The file names stand together; what follows `--` is no
option. -/

namespace RegisterMap.CommandLine

open Text

/-- What an option takes. -/
inductive OptionKind where
  /-- It is given or not. -/
  | flag
  | value
  | values
  | help
deriving DecidableEq, Repr, Inhabited

/-- An option of a command. -/
structure OptionSpec where
  name : String
  marks : List String
  kind : OptionKind
deriving DecidableEq, Repr, Inhabited

def helpSpec : OptionSpec := ⟨"help", ["-h", "--help"], .help⟩

/-- How parsing ends without a result: with help, or with wrong arguments. -/
inductive Stop where
  | help
  | misuse
deriving DecidableEq, Repr, Inhabited

/-- The status with which the program ends. -/
def Stop.status : Stop → Nat
  | help => 0
  | misuse => 2

/-- What an argument is. -/
inductive Word where
  | plain (text : String)
  | separator
  /-- An option with its value if one is attached to it. -/
  | option (spec : OptionSpec) (attached : Option String)
  | unknown
deriving DecidableEq, Repr, Inhabited

def Word.isOption : Word → Bool
  | option _ _ | unknown => true
  | plain _ | separator => false

/-- The option of a mark. -/
def findMark (specs : List OptionSpec) (mark : String) : Option OptionSpec :=
  specs.find? fun spec => spec.marks.contains mark

/-- The texts in front of the first sign of equality and behind it. -/
def cutAtEquals (s : String) : String × Option String :=
  let name := s.toList.takeWhile (· != '=')
  match s.toList.drop name.length with
  | _ :: rest => (String.ofList name, some (String.ofList rest))
  | [] => (s, none)

/-- The options that a cut long mark, or a short mark with a value, may mean. -/
def candidates (specs : List OptionSpec) (s : String) : List Word :=
  let marked := specs.flatMap fun spec => spec.marks.map fun mark => (mark, spec)
  match s.toList with
  | '-' :: '-' :: _ =>
    let (start, attached) := cutAtEquals s
    (marked.filter fun (mark, _) => startsWith mark start).map fun (_, spec) => .option spec attached
  | c :: d :: rest =>
    marked.filterMap fun (mark, spec) =>
      if mark == String.ofList [c, d] then some (.option spec (some (String.ofList rest)))
      else if startsWith mark s then some (.option spec none)
      else none
  | _ => []

def isNegativeNumber (s : String) : Bool :=
  match s.toList with
  | '-' :: cs =>
    let whole := cs.takeWhile isDecimal
    match cs.drop whole.length with
    | [] => !whole.isEmpty
    | '.' :: places => !places.isEmpty && places.all isDecimal
    | _ => false
  | _ => false

/-- What an argument is, by its mark. -/
def classify (specs : List OptionSpec) (s : String) : Except Stop Word :=
  if !startsWith s "-" || s == "-" then .ok (.plain s)
  else
    match findMark specs s with
    | some spec => .ok (.option spec none)
    | none =>
      let (mark, attached) := cutAtEquals s
      match findMark specs mark with
      | some spec => .ok (.option spec attached)
      | none =>
        match candidates specs s with
        | [word] => .ok word
        | _ :: _ => .error .misuse
        | [] => .ok (if isNegativeNumber s || hasChar s ' ' then .plain s else .unknown)

/-- The forms of all arguments; behind a separator all are plain. -/
def classifyAll (specs : List OptionSpec) : List String → Except Stop (List Word)
  | [] => .ok []
  | "--" :: rest => .ok (.separator :: rest.map .plain)
  | s :: rest => do
    let word ← classify specs s
    return word :: (← classifyAll specs rest)

/-- What has been read of the arguments. -/
structure Parsed where
  files : Option (List String) := none
  options : Table String Value := []
  /-- Something could not be used. -/
  excess : Bool := false
deriving Inhabited

namespace Parsed

/-- Take an option with a value into account. -/
def put (p : Parsed) (spec : OptionSpec) (v : String) : Parsed :=
  let v : Value := match spec.kind with
    | .values =>
      .list ((((Table.get? p.options spec.name).bind Value.items?).getD []) ++ [.text v])
    | _ => .text v
  { p with options := Table.put p.options spec.name v }

def putFlag (p : Parsed) (spec : OptionSpec) : Parsed :=
  { p with options := Table.put p.options spec.name (.bool true) }

/-- Take plain arguments into account, file names first. -/
def putPlain (p : Parsed) (words : List Word) : Parsed :=
  let names := words.filterMap fun
    | .plain s => some s
    | _ => none
  if words.isEmpty then p
  else if p.files.isSome || names.isEmpty then { p with excess := true }
  else { p with files := some names }

end Parsed

/-- Read the arguments; `held` are plain ones not taken into account yet. -/
def readWords : (held : List Word) → Parsed → List Word → Except Stop Parsed
  | held, p, [] => .ok (p.putPlain held)
  | held, p, .unknown :: rest => readWords [] { p.putPlain held with excess := true } rest
  | held, p, .option spec attached :: rest =>
    let p := p.putPlain held
    match spec.kind, attached, rest with
    | .help, none, _ => .error .help
    | .flag, none, rest => readWords [] (p.putFlag spec) rest
    | .help, some _, _ => .error .misuse
    | .flag, some _, _ => .error .misuse
    | _, some v, rest => readWords [] (p.put spec v) rest
    | _, none, .plain v :: rest => readWords [] (p.put spec v) rest
    | _, none, _ => .error .misuse
  | held, p, word :: rest => readWords (held ++ [word]) p rest

/-- The file names of a command, one at least, and its options. -/
def parse (specs : List OptionSpec) (arguments : List String) :
    Except Stop (List String × Table String Value) := do
  let p ← readWords [] {} (← classifyAll (specs ++ [helpSpec]) arguments)
  match p.files, p.excess with
  | some files, false => return (files, p.options)
  | _, _ => throw .misuse

/-! ### Options by name -/

def isSet (options : Table String Value) (name : String) : Bool :=
  ((Table.get? options name).map Value.truthy).getD false

def text? (options : Table String Value) (name : String) : Option String :=
  (Table.get? options name).bind Value.text?

def texts (options : Table String Value) (name : String) : List String :=
  (((Table.get? options name).bind Value.items?).getD []).filterMap Value.text?

end RegisterMap.CommandLine
