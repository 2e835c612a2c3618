import TreeSchema.Number.Text
import TreeSchema.Schema.Basic

/-!
# Mismatches

A mismatch is one disagreement between a value and a schema: what disagreed,
which node of the schema asked for it, and where in the value. Where no
alternative of a union fits, the mismatch holds those of every alternative.
-/

namespace TreeSchema

/-- The kind of value that a rule asks for. -/
inductive Expected where
  | scalar (type : ScalarType)
  | object
  | array
deriving DecidableEq

def Expected.name : Expected → String
  | scalar type => type.name
  | object => "object"
  | array => "array"

/-- A literal in a message. -/
def Literal.text : Literal → String
  | null => "null"
  | bool b => if b then "true" else "false"
  | number n => n.text
  | string s => Text.quoted s

/-- What a value and a rule disagree about. -/
inductive Disagreement where
  | typeMismatch (expected : Expected) (found : Kind)
  | notAnInteger (n : Binary64)
  | notInEnum (members : OneOrMore Literal)
  | missingRequiredField (field : String)
  | unknownField (field : String)
  | tupleLengthMismatch (expected found : Nat)
  | arrayTooShort (least found : Nat)
  | noAlternativeMatched (count : Nat)

def Disagreement.message : Disagreement → String
  | typeMismatch expected found => "expected " ++ expected.name ++ ", found " ++ found.name
  | notAnInteger n => "expected integer, found non-integer number " ++ n.text
  | notInEnum members =>
    "expected one of " ++ ", ".intercalate (members.toList.map Literal.text)
  | missingRequiredField field => "missing required field `" ++ field ++ "`"
  | unknownField field => "unknown field `" ++ field ++ "`"
  | tupleLengthMismatch expected found =>
    "expected a tuple of " ++ Numeral.text expected ++ " elements, found " ++
      Numeral.text found
  | arrayTooShort least found =>
    "expected at least " ++ Numeral.text least ++ " elements, found " ++ Numeral.text found
  | noAlternativeMatched count =>
    "value matches none of the " ++ Numeral.text count ++ " alternatives"

/-- A disagreement between a value and a schema. -/
structure Mismatch (α : Type) where
  disagreement : Disagreement
  /-- The mark of the node whose rule failed. -/
  mark : α
  /-- The value that failed; the whole mapping where a field is missing. -/
  actual : Value
  /-- The place in the validated value. -/
  path : Path
  /-- The mismatches of each alternative, where none fits. -/
  alternatives : List (List (Mismatch α))

def Mismatch.text {α : Type} (m : Mismatch α) : String :=
  m.disagreement.message ++ " at " ++ m.path.text

end TreeSchema
