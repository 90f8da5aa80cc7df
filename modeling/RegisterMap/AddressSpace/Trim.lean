import RegisterMap.AddressSpace.Stage

/-! # Cutting off the common root

The paths of all spaces that hold registers may start alike.  `SpaceId.trim` puts empty names for
the common start. -/

namespace RegisterMap

namespace Path

/-- The items that two lists start with. -/
def commonStart {α : Type} [BEq α] : List α → List α → List α
  | a :: as, b :: bs => if a == b then a :: commonStart as bs else []
  | _, _ => []

/-- Put empty names for the first `n`. -/
def blankStart (n : Int) (names : List String) : List String :=
  names.zipIdx.map fun (name, i) => if (i : Int) < n then "" else name

end Path

namespace SpaceId

/-- The common start `common` cut to the paths of spaces with registers in here. -/
def commonPathUpTo : (fuel : Nat) → SpaceId → Option (List String) → Build (Option (List String))
  | 0, _, _ => tooDeep
  | fuel + 1, id, common => do
    let r ← id.region
    let hasRegisters := r.taken.any fun slot =>
      match slot.item with
      | .register _ => true
      | _ => false
    let common ←
      if hasRegisters then
        match r.path, common with
        | none, _ => Build.refuse .wrongType
        | some path, none => pure (some path.names)
        | some path, some names => pure (some (Path.commonStart path.names names))
      else pure common
    r.taken.foldlM (fun common slot =>
      match slot.item with
      | .space inner => commonPathUpTo fuel inner common
      | _ => return common) common

/-- The common start of all paths of spaces with registers, and of `common`. -/
def commonPath (id : SpaceId) (common : Option (List String)) : Build (Option (List String)) := do
  commonPathUpTo (← depthBound) id common

/-- `blankPath` down to a depth. -/
def blankPathUpTo : (fuel : Nat) → SpaceId → Int → Build Unit
  | 0, _, _ => tooDeep
  | fuel + 1, id, n => do
    match (← id.region).path with
    | none => return ()
    | some path =>
      id.setPath ⟨Path.blankStart n path.names, true⟩
      if (path.names.length : Int) < n then
        for slot in (← id.region).taken do
          match slot.item with
          | .space inner => blankPathUpTo fuel inner n
          | _ => pure ()

/-- Put empty names for the first `n` names of the paths. -/
def blankPath (id : SpaceId) (n : Int) : Build Unit := do blankPathUpTo (← depthBound) id n

/-- Put empty names for the common start of all paths. -/
def trim (id : SpaceId) : Build Unit := do
  match ← id.commonPath none with
  | none => return ()
  | some common => if common.isEmpty then return () else id.blankPath common.length

end SpaceId

end RegisterMap
