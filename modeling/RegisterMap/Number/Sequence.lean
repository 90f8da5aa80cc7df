import RegisterMap.Error

/-! # Sequences of equal or evenly spaced items -/

namespace RegisterMap.Number

/-- Do all differences of neighbours agree?  Behind a disagreement nothing is looked at. -/
def evenlySpacedBy {α : Type} (difference : α → α → Result Int) : List α → Result Bool
  | [] => fail .outOfRange
  | a :: rest => go none a rest
where
  go (offset : Option Int) (last : α) : List α → Result Bool
    | [] => .ok true
    | b :: rest =>
      match difference b last with
      | .error e => .error e
      | .ok d =>
        match offset with
        | none => go (some d) b rest
        | some d' => if d' = d then go offset b rest else .ok false

/-- Are the numbers equally spaced? -/
def evenlySpaced (xs : List Int) : Result Bool := evenlySpacedBy (fun a b => .ok (a - b)) xs

/-- Are these the numbers `0, …, n - 1` in some order? -/
def isPermutedRange (xs : List Int) : Bool := xs.isPerm ((List.range xs.length).map Int.ofNat)

end RegisterMap.Number

namespace RegisterMap

def allSame {α : Type} [BEq α] : List α → Bool
  | [] => true
  | a :: rest => rest.all (· == a)

/-- Are all items that are not empty equal? -/
def allSameOrEmpty {α : Type} [BEq α] (isEmpty : α → Bool) (xs : List α) : Bool :=
  allSame (xs.filter fun x => !isEmpty x)

def firstSome {α : Type} (xs : List (Option α)) : Option α := xs.findSome? id

end RegisterMap
