import RegisterMap.Value.Printer
import RegisterMap.Source.Name

/-! # Names in an exported map

A register in a flat map is named by its dotted path.  `shortenNames` replaces each name by its
shortest ending that no other name shares, joined by low lines; `mangleNames` replaces the points by
low lines. -/

namespace RegisterMap.Export

open Text

/-- The last `n + 1` parts of a dotted name joined by low lines; are there fewer? -/
def ending (name : String) (n : Int) : String × Bool :=
  let parts := split '.' name
  let most : Int := parts.length - 1
  let few := most < n
  let start := -((if few then most else n) + 1)
  (join "_" (slice parts start parts.length), few)

/-- The names by their last part. -/
def byLastPart (names : List String) : Table String (List String) :=
  names.foldl (fun table name =>
    Table.update table ((split '.' name).getLast?.getD "") [] (· ++ [name])) []

/-- The last parts that come up again, for each repetition. -/
def repeated : (seen : List String) → List String → List String
  | _, [] => []
  | seen, p :: ps => if seen.contains p then p :: repeated seen ps else repeated (p :: seen) ps

def allDistinct : List String → Bool
  | [] => true
  | x :: xs => !xs.contains x && allDistinct xs

/-- The shortest endings of two parts or more that differ; none if the last name has no more parts. -/
def tellApart (names : List String) : (fuel n : Nat) → Result (List String)
  | 0, _ => fail .undefinedName
  | fuel + 1, n =>
    let endings := names.map fun name => ending name n
    let shorts := endings.map Prod.fst
    if allDistinct shorts then .ok shorts
    else if ((endings.getLast?).map Prod.snd).getD false then fail .undefinedName
    else tellApart names fuel (n + 1)

/-- The number of parts of the longest name. -/
def mostParts (names : List String) : Nat :=
  names.foldl (fun n name => max n (split '.' name).length) 0

/-- Replace a last part that names share by endings that tell them apart. -/
def separate (table : Table String (List String)) (part : String) :
    Result (Table String (List String)) :=
  match Table.get? table part with
  | none => .ok table
  | some names => do
    let shorts ← tellApart names (mostParts names + 1) 1
    return (shorts.zip names).foldl (fun t (short, name) => Table.put t short [name])
      (Table.erase table part)

/-- Give each name its shortest ending. -/
def shortNames (names : List String) : Result (Table String (List String)) :=
  let parts := names.map fun name => (split '.' name).getLast?.getD ""
  (repeated [] parts).foldlM separate (byLastPart names)

/-- Replace the keys of a table by their shortest endings. -/
def shortenNames (members : List (Value × Value)) : Result (List (Value × Value)) := do
  let names ← members.mapM fun kv =>
    match kv.1 with
    | .text s => .ok s
    | _ => fail .noSuchField
  let table ← shortNames names
  return table.filterMap fun (short, longs) =>
    longs.head?.bind fun long =>
      (Table.get? members (.text long)).map fun v => (.text short, v)

/-- The key with low lines for points. -/
def mangleKey : Value → Result Value
  | .text s => .ok (.text (replaceChar '.' '_' s))
  | _ => fail .noSuchField

mutual

/-- The members with new keys; of two with one key the later one stays. -/
def mangleMembers : List (Value × Value) → Result (List (Value × Value))
  | [] => .ok []
  | (k, v) :: rest => do
    let k ← mangleKey k
    let v ← mangleValue v
    return (k, v) :: (← mangleMembers rest)

def mangleValue : Value → Result Value
  | .table kvs => do return .table (Table.ofPairs (← mangleMembers kvs))
  | v => .ok v

end

/-- Replace the points in all keys of a table by low lines. -/
def mangleNames (members : List (Value × Value)) : Result (List (Value × Value)) := do
  return Table.ofPairs (← mangleMembers members)

/-- The final names of a map, short ones in a flat map. -/
def finishNames (members : List (Value × Value)) (flat mangle short : Bool) :
    Result (List (Value × Value)) := do
  let members ← if flat && short then shortenNames members else pure members
  if mangle then mangleNames members else return members

/-- Put tables without a common key together. -/
def mergeDistinct (old new : List (Value × Value)) : Result (List (Value × Value)) :=
  match new.filter fun kv => Table.has old kv.1 with
  | [] => .ok (Table.merge old new)
  | shared => if shared.all fun kv => kv.1.text?.isSome then fail .undefinedName else fail .wrongType

end RegisterMap.Export
