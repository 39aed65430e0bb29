import RegionTree.Decimal
import RegionTree.Text.Quoted
set_option autoImplicit false

/-!
# Faults of JSON texts

A text is refused because it is no JSON, because it ends too early, or because a value in it is
not of the form that is called for.  Only for the last kind is the cause told.
-/

namespace RegionTree.Json

/-- A value as far as a complaint about it tells. -/
inductive Found where
  | natural (n : Nat)
  | negative (n : Nat)
  | float (x : Float)
  | boolean (b : Bool)
  | text (s : String)
  | null
  | sequence
  | map
  deriving Repr

/-- Why a value is not of the form that is called for. -/
inductive Misfit where
  /-- A value of another kind. -/
  | invalidType (found : Found) (expected : String)
  /-- A sequence in place of a record that is too short. -/
  | invalidLength (length : Nat) (expected : String)
  /-- A key that the record does not have. -/
  | unknownField (name : String) (known : List String)
  /-- A key that occurs twice. -/
  | duplicateField (name : String)
  /-- A key that has to be there and is not. -/
  | missingField (name : String)
  /-- A value of none of the forms for `what`. -/
  | noVariant (what : String)
  deriving Repr

/-- Why a text is refused. -/
inductive Fault where
  /-- It is no JSON. -/
  | malformed
  /-- It ends too early. -/
  | incomplete
  /-- A value has the wrong form. -/
  | misfit (cause : Misfit)
  deriving Repr

/-- A name between backticks. -/
def backticked (s : String) : String := "\x60" ++ s ++ "\x60"

/-- The words for a value. -/
def Found.message : Found → String
  | .natural n => "integer " ++ backticked (toString n)
  | .negative n => "integer " ++ backticked ("-" ++ toString n)
  | .float x => "floating point " ++ backticked (Decimal.text x)
  | .boolean b => "boolean " ++ backticked (if b then "true" else "false")
  | .text s => "string " ++ Text.quote s
  | .null => "null"
  | .sequence => "sequence"
  | .map => "map"

/-- The keys a record has, in words. -/
def expectedFields : List String → String
  | [] => "there are no fields"
  | [a] => "expected " ++ backticked a
  | [a, b] => "expected " ++ backticked a ++ " or " ++ backticked b
  | names => "expected one of " ++ ", ".intercalate (names.map backticked)

/-- The words for a cause. -/
def Misfit.message : Misfit → String
  | .invalidType found expected => "invalid type: " ++ found.message ++ ", expected " ++ expected
  | .invalidLength length expected =>
    "invalid length " ++ toString length ++ ", expected " ++ expected
  | .unknownField name known =>
    "unknown field " ++ backticked name ++ ", " ++ expectedFields known
  | .duplicateField name => "duplicate field " ++ backticked name
  | .missingField name => "missing field " ++ backticked name
  | .noVariant what => "data did not match any variant of untagged enum " ++ what

end RegionTree.Json
