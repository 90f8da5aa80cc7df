/-! # Identities in a workspace

A register that is declared in a module is shared by all instances of the module, a bus by all
passengers that copy each other, a region by its parent and by whoever holds it.  Such things live
in the tables of a workspace and are referred to by identities. -/

namespace RegisterMap

/-- The identity of a register. -/
structure RegisterId where
  index : Nat
deriving DecidableEq, Repr, Inhabited

/-- The identity of a generate block. -/
structure BlockId where
  index : Nat
deriving DecidableEq, Repr, Inhabited

/-- The identity of a bus. -/
structure BusId where
  index : Nat
deriving DecidableEq, Repr, Inhabited

/-- The identity of a passenger. -/
structure PassengerId where
  index : Nat
deriving DecidableEq, Repr, Inhabited

/-- The identity of a space. -/
structure SpaceId where
  index : Nat
deriving DecidableEq, Repr, Inhabited

/-- What occupies a range of addresses. -/
inductive Occupant where
  | nothing
  | number (n : Int)
  | text (s : String)
  | register (id : RegisterId)
  | space (id : SpaceId)
  | passenger (id : PassengerId)
  | bus (id : BusId)
deriving DecidableEq, Repr, Inhabited

/-- Is there an item? -/
def Occupant.isSome : Occupant → Bool
  | nothing => false
  | _ => true

end RegisterMap
