/-! # Markers

A marker is a value that no setting in a design collides with. -/

namespace RegisterMap

/-- A named value that no setting collides with. -/
structure Marker where
  name : Option String
deriving DecidableEq, Repr, Inhabited

namespace Marker

/-- Numbers from which the value of a marker is taken. -/
def range : Int × Int := (-2147483648, 2147483647)

/-- The value of every marker. -/
def value : Int := range.1 + (range.2 - range.1) / 3

def display (m : Marker) : String := m.name.getD ("Unique(" ++ toString value ++ ")")

end Marker

end RegisterMap
