/-! # Refusals

Every operation of the library that can refuse its input does so with an `Error`.  There are two
kinds of refusal.

* A `Fault` names a request that no rule covers: a key that is not in a table, a place outside a
  list, an operand of the wrong type.  It carries no text.
* The other constructors carry the body of a message for the user.  `Error.message` writes the
  whole message, with the heading that the class of the refusal puts in front of it. -/

namespace RegisterMap

/-- Refusals without a text of their own. -/
inductive Fault where
  | missingKey
  /-- A sequence has no such place. -/
  | outOfRange
  /-- An operand has a type that the operation does not take. -/
  | wrongType
  /-- An operand has the right type and no admissible value. -/
  | badValue
  /-- A value has no such field. -/
  | noSuchField
  | undefinedName
  /-- A rule uses a quantity that no step before it has set. -/
  | unsetQuantity
  | fileNotFound
  /-- A cut of a file starts inside a character. -/
  | undecodableText
  | malformedJson
  | tooLarge
  /-- A number has more digits than memory holds. -/
  | outOfMemory
  | notAFolder
  | isAFolder
  | pathTooLong
deriving DecidableEq, Repr, Inhabited

/-- Why work is refused. -/
inductive Error where
  /-- A request that no rule covers. -/
  | fault (fault : Fault)
  | plain (text : String)
  | precondition (text : String)
  | design (text : String)
  | nameCollision (text : String)
  /-- A design that uses what is not supported. -/
  | unsupported (text : String)
  /-- An inconsistency that no design should lead to. -/
  | inconsistency (text : String)
  /-- A refusal from the table of numbered messages. -/
  | numbered (text : String)
  | reader (text : String)
deriving DecidableEq, Repr, Inhabited

namespace Error

/-- Heading of messages about mistakes in the design. -/
def designHeading : String := "Ghostbus ERROR: "

/-- The text shown to the user, if any. -/
def message : Error → Option String
  | fault _ => none
  | plain text => some text
  | precondition text => some text
  | design text => some (designHeading ++ text)
  | nameCollision text => some (designHeading ++ "Ghostbus Name Collision: " ++ text)
  | unsupported text => some (designHeading ++ "Ghostbus Unsupported Feature: " ++ text)
  | inconsistency text => some ("**** Internal Ghostbus Error (broken tool) ****: " ++ text)
  | numbered text => some (designHeading ++ text)
  | reader text => some text

/-- Mistakes in the design, which are reported without ending the program. -/
def isDesignMistake : Error → Bool
  | design _ | nameCollision _ | unsupported _ => true
  | _ => false

end Error

/-- A result or a refusal. -/
abbrev Result (α : Type) := Except Error α

def fail {α : Type} (f : Fault) : Result α := .error (.fault f)

end RegisterMap
