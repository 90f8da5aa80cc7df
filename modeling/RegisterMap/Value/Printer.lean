import RegisterMap.Value.Basic
import RegisterMap.Text.Cut
import RegisterMap.Number.Numeral

/-! # Text of values

`Value.display` is the text of a value in a message: a text stands as it is, everything inside a
sequence or a table is quoted.  `Value.outline` lists a table of tables with one line for each
member, indented by depth. -/

namespace RegisterMap

namespace Text

def apostrophe : Char := Char.ofNat 0x27

def doubleQuote : Char := Char.ofNat 0x22

/-- The quote around a text, an apostrophe if possible. -/
def quoteFor (cs : List Char) : Char :=
  if cs.contains apostrophe && !cs.contains doubleQuote then doubleQuote else apostrophe

def codeDigits (width : Nat) (c : Char) : String := Number.hexPadded width (c.toNat : Int)

/-- A character between quotes. -/
def quoteChar (quote c : Char) : String :=
  if c == quote || c == '\\' then "\\" ++ String.singleton c
  else if c == '\n' then "\\n"
  else if c == '\r' then "\\r"
  else if c == '\t' then "\\t"
  else if isPrintable c then String.singleton c
  else if c.toNat < 0x100 then "\\x" ++ codeDigits 2 c
  else if c.toNat < 0x10000 then "\\u" ++ codeDigits 4 c
  else "\\U" ++ codeDigits 8 c

/-- A text in quotes, with codes for what cannot be shown. -/
def quoted (s : String) : String :=
  let cs := s.toList
  let quote := quoteFor cs
  String.singleton quote ++ join "" (cs.map (quoteChar quote)) ++ String.singleton quote

end Text

namespace Value

def boolText (b : Bool) : String := if b then "True" else "False"

/-- Texts of the items of a tuple, a comma behind a single one. -/
def tupleText (items : List String) : String :=
  match items with
  | [one] => "(" ++ one ++ ",)"
  | _ => "(" ++ Text.join ", " items ++ ")"

mutual
/-- Text of a value inside a sequence or a table. -/
def quoted : Value → String
  | none => "None"
  | bool b => boolText b
  | int n => toString n
  | real x => x.text
  | text s => Text.quoted s
  | list xs => "[" ++ Text.join ", " (quotedAll xs) ++ "]"
  | tuple xs => tupleText (quotedAll xs)
  | table kvs => "\x7b" ++ Text.join ", " (quotedMembers kvs) ++ "\x7d"

def quotedAll : List Value → List String
  | [] => []
  | x :: xs => quoted x :: quotedAll xs

def quotedMembers : List (Value × Value) → List String
  | [] => []
  | (k, v) :: rest => (quoted k ++ ": " ++ quoted v) :: quotedMembers rest
end

/-- A value as it is printed. -/
def display : Value → String
  | text s => s
  | v => quoted v

mutual
/-- Lines of the members of a table down to a depth, if not negative. -/
def outlineLines (depth indent : Int) : List (Value × Value) → List String
  | [] => []
  | (k, v) :: rest =>
    if depth == 0 then []
    else memberLines depth indent k v ++ outlineLines depth indent rest

def memberLines (depth indent : Int) (k : Value) : Value → List String
  | table kvs =>
    (Text.blanks indent ++ k.display ++ " : dict size " ++ toString kvs.length) ::
      outlineLines (depth - 1) (indent + 2) kvs
  | v => [Text.blanks indent ++ k.display ++ " : " ++ v.display]
end

/-- The members of a table, a line each. -/
def outline (depth : Int) (kvs : List (Value × Value)) : String :=
  Text.join "\n" (outlineLines depth 2 kvs)

end Value

end RegisterMap
