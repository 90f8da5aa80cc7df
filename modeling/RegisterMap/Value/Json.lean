import RegisterMap.Number.Numeral
import RegisterMap.Value.Printer

/-! # JSON documents

`Json.read` reads a JSON document into a `Value`.  Members keep their order; a repeated key keeps
its first place and takes its last value.  `Json.render` writes a value in ASCII with two columns
of indent for each level. -/

namespace RegisterMap

namespace Json

def isSpace (c : Char) : Bool := c == ' ' || c == '\t' || c == '\n' || c == '\r'

def hexValue (c : Char) : Option Nat :=
  if c.isDigit then some (c.toNat - '0'.toNat)
  else if 'a' ≤ c && c ≤ 'f' then some (c.toNat - 'a'.toNat + 10)
  else if 'A' ≤ c && c ≤ 'F' then some (c.toNat - 'A'.toNat + 10)
  else none

def readCode : List Char → Option (Nat × List Char)
  | a :: b :: c :: d :: cs => do
    let a ← hexValue a
    let b ← hexValue b
    let c ← hexValue c
    let d ← hexValue d
    return (((a * 16 + b) * 16 + c) * 16 + d, cs)
  | _ => none

/-- The character of a code, or of two that belong together. -/
def joinCode (code : Nat) (cs : List Char) : Char × List Char :=
  let first : Char × List Char := (Char.ofNat code, cs)
  if 0xD800 ≤ code && code < 0xDC00 then
    match cs with
    | '\\' :: 'u' :: cs' =>
      match readCode cs' with
      | some (low, rest) =>
        if 0xDC00 ≤ low && low < 0xE000 then
          (Char.ofNat (0x10000 + (code - 0xD800) * 0x400 + (low - 0xDC00)), rest)
        else first
      | none => first
    | _ => first
  else first

def escapeChar? : Char → Option Char
  | '"' => some '"'
  | '\\' => some '\\'
  | '/' => some '/'
  | 'b' => some (Char.ofNat 8)
  | 'f' => some (Char.ofNat 12)
  | 'n' => some '\n'
  | 'r' => some '\r'
  | 't' => some '\t'
  | _ => none

/-- The characters of a text up to its closing quote. -/
def readText : (fuel : Nat) → List Char → Option (List Char × List Char)
  | 0, _ => none
  | _, [] => none
  | _ + 1, '"' :: cs => some ([], cs)
  | fuel + 1, '\\' :: 'u' :: cs =>
    match readCode cs with
    | some (code, cs) =>
      let (c, cs) := joinCode code cs
      (readText fuel cs).map fun (text, rest) => (c :: text, rest)
    | none => none
  | fuel + 1, '\\' :: e :: cs =>
    match escapeChar? e with
    | some c => (readText fuel cs).map fun (text, rest) => (c :: text, rest)
    | none => none
  | fuel + 1, c :: cs =>
    if c.toNat < 32 || c == '\\' then none
    else (readText fuel cs).map fun (text, rest) => (c :: text, rest)

/-- What was read, and the rest of the text. -/
abbrev Reading (α : Type) := Except Fault (α × List Char)

def readFraction : List Char → Option (List Char) × List Char
  | '.' :: cs =>
    let digits := cs.takeWhile Char.isDigit
    if digits.isEmpty then (none, '.' :: cs) else (some digits, cs.dropWhile Char.isDigit)
  | cs => (none, cs)

def readExponent : List Char → Option Int × List Char
  | e :: cs =>
    if e == 'e' || e == 'E' then
      let (negative, rest) : Bool × List Char :=
        match cs with
        | '+' :: r => (false, r)
        | '-' :: r => (true, r)
        | r => (false, r)
      let digits := rest.takeWhile Char.isDigit
      if digits.isEmpty then (none, e :: cs)
      else (some (Double.signed negative (Text.decimalOfDigits digits)),
        rest.dropWhile Char.isDigit)
    else (none, e :: cs)
  | [] => (none, [])

/-- The number of digits with a fraction and an exponent, or an integer. -/
def numberValue (negative : Bool) (digits : List Char) (fraction : Option (List Char))
    (exponent : Option Int) : Except Fault Value :=
  match fraction, exponent with
  | none, none =>
    if Number.maxDigits < digits.length then .error .badValue
    else .ok (.int (Double.signed negative (Text.decimalOfDigits digits)))
  | _, _ =>
    let fraction := fraction.getD []
    .ok (.real (Double.ofDecimal negative (Text.decimalOfDigits (digits ++ fraction))
      (exponent.getD 0 - fraction.length)))

/-- A number without sign: no digit follows a leading zero. -/
def readMagnitude (negative : Bool) : List Char → Reading Value
  | c :: cs =>
    if c.isDigit then
      let (digits, rest) : List Char × List Char :=
        if c == '0' then (['0'], cs) else (c :: cs.takeWhile Char.isDigit, cs.dropWhile Char.isDigit)
      let (fraction, rest) := readFraction rest
      let (exponent, rest) := readExponent rest
      (numberValue negative digits fraction exponent).map fun v => (v, rest)
    else .error .malformedJson
  | [] => .error .malformedJson

/-- The words of a document, with the values that they stand for. -/
def words : List (String × Value) :=
  [("null", .none), ("true", .bool true), ("false", .bool false), ("NaN", .real .undefined),
   ("Infinity", .real (.infinite false)), ("-Infinity", .real (.infinite true))]

def readWord (cs : List Char) : Option (Value × List Char) :=
  words.findSome? fun (w, v) =>
    if w.toList.isPrefixOf cs then some (v, cs.drop w.length) else none

/-- A word or a number at the start of a text. -/
def readAtom (cs : List Char) : Reading Value :=
  match readWord cs with
  | some r => .ok r
  | none =>
    match cs with
    | '-' :: cs => readMagnitude true cs
    | cs => readMagnitude false cs

mutual
/-- A value at the start of the text, with fuel for the tokens. -/
def readValue : (fuel : Nat) → List Char → Reading Value
  | 0, _ => .error .malformedJson
  | _ + 1, '"' :: cs =>
    match readText (cs.length + 1) cs with
    | none => .error .malformedJson
    | some (text, rest) => .ok (.text (String.ofList text), rest)
  | fuel + 1, '[' :: cs =>
    match cs.dropWhile isSpace with
    | ']' :: rest => .ok (.list [], rest)
    | cs => (readItems fuel cs).map fun (items, rest) => (.list items, rest)
  | fuel + 1, '\x7b' :: cs =>
    match cs.dropWhile isSpace with
    | '\x7d' :: rest => .ok (.table [], rest)
    | cs => (readMembers fuel cs).map fun (members, rest) => (.table (Table.ofPairs members), rest)
  | _ + 1, cs => readAtom cs

/-- The items of a list up to its end. -/
def readItems : (fuel : Nat) → List Char → Reading (List Value)
  | 0, _ => .error .malformedJson
  | fuel + 1, cs =>
    match readValue fuel cs with
    | .error f => .error f
    | .ok (v, rest) =>
      match rest.dropWhile isSpace with
      | ']' :: rest => .ok ([v], rest)
      | ',' :: rest =>
        (readItems fuel (rest.dropWhile isSpace)).map fun (vs, rest) => (v :: vs, rest)
      | _ => .error .malformedJson

/-- The members of a table up to its end. -/
def readMembers : (fuel : Nat) → List Char → Reading (List (Value × Value))
  | 0, _ => .error .malformedJson
  | fuel + 1, '"' :: cs =>
    match readText (cs.length + 1) cs with
    | none => .error .malformedJson
    | some (key, rest) =>
      match rest.dropWhile isSpace with
      | ':' :: rest =>
        match readValue fuel (rest.dropWhile isSpace) with
        | .error f => .error f
        | .ok (v, rest) =>
          let entry : Value × Value := (.text (String.ofList key), v)
          match rest.dropWhile isSpace with
          | '\x7d' :: rest => .ok ([entry], rest)
          | ',' :: rest =>
            (readMembers fuel (rest.dropWhile isSpace)).map fun (es, rest) => (entry :: es, rest)
          | _ => .error .malformedJson
      | _ => .error .malformedJson
  | _ + 1, _ => .error .malformedJson
end

/-- Read a document. -/
def read (cs : List Char) : Result Value :=
  match readValue (2 * cs.length + 2) (cs.dropWhile isSpace) with
  | .ok (v, rest) => if rest.all isSpace then .ok v else fail .malformedJson
  | .error f => fail f

/-! ### Writing -/

def unitEscape (n : Nat) : String := "\\u" ++ Number.hexPadded 4 (n : Int)

/-- A character inside a JSON text, in ASCII. -/
def charText (c : Char) : String :=
  if c == '"' then "\\\""
  else if c == '\\' then "\\\\"
  else if c == '\n' then "\\n"
  else if c == '\r' then "\\r"
  else if c == '\t' then "\\t"
  else if c.toNat == 8 then "\\b"
  else if c.toNat == 12 then "\\f"
  else if 32 ≤ c.toNat && c.toNat ≤ 126 then String.singleton c
  else if c.toNat < 0x10000 then unitEscape c.toNat
  else
    let rest := c.toNat - 0x10000
    unitEscape (0xD800 + rest / 0x400) ++ unitEscape (0xDC00 + rest % 0x400)

def textLiteral (s : String) : String :=
  "\"" ++ Text.join "" (s.toList.map charText) ++ "\""

def keyLiteral : Value → String
  | .text s => textLiteral s
  | .none => "\"null\""
  | .bool b => if b then "\"true\"" else "\"false\""
  | v => textLiteral v.quoted

/-- The parts of a sequence or table between brackets, a line each. -/
def bracket (opening closing : String) (indent : Nat) (parts : List String) : String :=
  if parts.isEmpty then opening ++ closing
  else
    let inner := "\n" ++ Text.rule ' ' (indent + 2)
    opening ++ inner ++ Text.join ("," ++ inner) parts ++ "\n" ++ Text.rule ' ' indent ++ closing

/-- A number with a fraction, or a word if it is not finite. -/
def realText : Double → String
  | .finite negative m e => (Double.finite negative m e).text
  | .infinite negative => if negative then "-Infinity" else "Infinity"
  | .undefined => "NaN"

mutual
/-- A value as JSON, at an indent. -/
def renderAt (indent : Nat) : Value → String
  | .none => "null"
  | .bool b => if b then "true" else "false"
  | .int n => toString n
  | .real x => realText x
  | .text s => textLiteral s
  | .list xs => bracket "[" "]" indent (renderAll (indent + 2) xs)
  | .tuple xs => bracket "[" "]" indent (renderAll (indent + 2) xs)
  | .table kvs => bracket "\x7b" "\x7d" indent (renderMembers (indent + 2) kvs)

def renderAll (indent : Nat) : List Value → List String
  | [] => []
  | x :: xs => renderAt indent x :: renderAll indent xs

def renderMembers (indent : Nat) : List (Value × Value) → List String
  | [] => []
  | (k, v) :: rest => (keyLiteral k ++ ": " ++ renderAt indent v) :: renderMembers indent rest
end

def render (v : Value) : String := renderAt 0 v

end Json

end RegisterMap
