import RegisterMap.Text.CharClass
import RegisterMap.Text.CaseTable

/-! # Upper and lower case

Texts of any script change their case letter by letter, by the tables of
`RegisterMap.Text.CaseTable`.  One letter looks around: a capital sigma at the end of a word has a
lower-case form of its own. -/

namespace RegisterMap.Text

/-- The other case of a letter, which may be several letters or itself. -/
def otherCase (groups : List (Nat × List Nat)) (runs : List CaseRun) (c : Char) : List Char :=
  match groups.find? (·.1 == c.toNat) with
  | some (_, letters) => letters.map Char.ofNat
  | none =>
    match runs.find? (·.has c.toNat) with
    | some run => [Char.ofNat (c.toNat + run.distance).toNat]
    | none => [c]

def upperChar (c : Char) : List Char :=
  if isAscii c then [c.toUpper] else otherCase upperGroups upperRuns c

/-- Upper-case form of a text. -/
def upper (s : String) : String := String.ofList (s.toList.flatMap upperChar)

def lowerChar (c : Char) : List Char :=
  if isAscii c then [c.toLower] else otherCase lowerGroups lowerRuns c

def isCased (c : Char) : Bool :=
  if isAscii c then c.isAlpha else inRuns casedRuns c.toNat

/-- A character passed over when a letter is looked for around. -/
def isCaseIgnorable (c : Char) : Bool :=
  if isAscii c then c == '\'' || c == '.' || c == ':' || c == '^' || c == '\x60'
  else inRuns caseIgnorableRuns c.toNat

/-- Is the first character that counts a letter with a case? -/
def meetsLetter (cs : List Char) : Bool :=
  match cs.dropWhile isCaseIgnorable with
  | [] => false
  | c :: _ => isCased c

/-- Lower-case form of what follows `before` (reversed); a capital sigma may end a word. -/
def lowerAfter (before : List Char) : List Char → List Char
  | [] => []
  | c :: rest =>
    (if c == 'Σ' then [if meetsLetter before && !meetsLetter rest then 'ς' else 'σ']
      else lowerChar c) ++ lowerAfter (c :: before) rest

/-- Lower-case form of a text. -/
def lower (s : String) : String := String.ofList (lowerAfter [] s.toList)

end RegisterMap.Text
