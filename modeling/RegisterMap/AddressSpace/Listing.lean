import RegisterMap.AddressSpace.Stage

/-! # Listing of an address space

Two columns show which ranges are used and which are free.  A space inside another one is listed in
its place under its own title. -/

namespace RegisterMap

namespace SpaceId

/-- A range in a listing. -/
def rangeCell (lo hi : Int) : String :=
  s!" {Text.alignRight 8 (Number.hex lo)}-{Text.alignRight 8 (Number.hex hi)} "

def cellWidth : Nat := 19

/-- The listing of an inner space with its title, between two rules. -/
def framed (listing : String) (indent inner inset : Int) (title : String) : String :=
  let lines := Text.split '\n' listing
  let heading := Text.blanks inner ++ "|" ++ Text.centre (2 * cellWidth + 1) title ++ "|"
  let rule := Text.blanks inset ++ "|" ++ Text.rule '-' (2 * cellWidth + 1) ++ "|"
  Text.join "\n" (rule :: heading :: lines.drop 1 ++ [Text.blanks indent ++ rule])

/-- The listing, sorted on the way. -/
def listingUpTo : (fuel : Nat) → SpaceId → Int → Build String
  | 0, _, _ => tooDeep
  | fuel + 1, id, indent => do
    id.updateRegion Region.sorted
    let r ← id.region
    let walk := r.walk
    let empty := Text.rule ' ' cellWidth
    let mut lines : List String :=
      ["|" ++ Text.centre cellWidth "Used" ++ "|" ++ Text.centre cellWidth "Free" ++ "|",
       "|" ++ Text.rule '-' cellWidth ++ "|" ++ Text.rule '-' cellWidth ++ "|"]
    for entry in walk.entries do
      match entry.item with
      | some (.space inner) =>
        let column := indent + r.inset
        inner.updateRegion fun q => { q with inset := r.inset }
        let listing ← listingUpTo fuel inner column
        let q ← inner.region
        let title := s!"{q.name}: {Number.hex q.base}-{Number.hex q.top}"
        lines := lines ++ [framed listing indent column r.inset title]
      | _ =>
        let cell := rangeCell (r.base + entry.lo) (r.base + entry.hi)
        match entry.kind with
        | .taken => lines := lines ++ [s!"|{cell}|{empty}|"]
        | .vacant => lines := lines ++ [s!"|{empty}|{cell}|"]
        | .reserved => pure ()
    if !walk.complete then Build.refuse .unsetQuantity
    return Text.blanks indent ++ Text.join ("\n" ++ Text.blanks indent) lines

/-- The listing, moved in by `indent`. -/
def listing (id : SpaceId) (indent : Int) : Build String := do
  listingUpTo (← depthBound) id indent

/-- Print the listing. -/
def print (id : SpaceId) (inset : Int) : Build Unit := do
  id.updateRegion fun r => { r with inset := inset }
  Build.say (← id.listing 0)

end SpaceId

end RegisterMap
