import TreeSchema.Value.Basic

/-!
# Scalar types

The seven types of scalar values, each with its name in schemas, the values that
match it and its zero value.
-/

namespace TreeSchema

inductive ScalarType where
  | null | boolean | integer | float | string | date | binary
deriving DecidableEq

namespace ScalarType

/-- The canonical name of a type. -/
def name : ScalarType → String
  | null => "null"
  | boolean => "boolean"
  | integer => "integer"
  | float => "float"
  | string => "string"
  | date => "date"
  | binary => "binary"

/-- The type of a name; `number` is a second name of `float`. -/
def ofName? (s : String) : Option ScalarType :=
  if s = "null" then some null
  else if s = "boolean" then some boolean
  else if s = "integer" then some integer
  else if s = "float" ∨ s = "number" then some float
  else if s = "string" then some string
  else if s = "date" then some date
  else if s = "binary" then some binary
  else none

/-- The value is of the type. An integral number is of both number types. -/
def accepts : ScalarType → Value → Bool
  | null, .null => true
  | boolean, .bool _ => true
  | integer, .number n => n.isIntegral
  | float, .number _ => true
  | string, .string _ => true
  | date, .timestamp _ => true
  | binary, .bytes _ => true
  | _, _ => false

/-- The value that stands for nothing. -/
def zero : ScalarType → Value
  | null => .null
  | boolean => .bool false
  | integer | float => .number 0
  | string => .string ""
  | date => .timestamp .epoch
  | binary => .bytes []

theorem ofName?_name (t : ScalarType) : ofName? t.name = some t := by
  cases t <;> rfl

/-- Only the seven canonical names and the second name of `float` name a type. -/
theorem name_of_ofName? {s : String} {t : ScalarType} (h : ofName? s = some t) :
    s = t.name ∨ (s = "number" ∧ t = float) := by
  unfold ofName? at h
  repeat' split at h
  all_goals simp_all [name]
  all_goals subst h
  all_goals simp_all

theorem accepts_zero (t : ScalarType) : t.accepts t.zero = true := by
  cases t with
  | integer =>
    show (Binary64.ofInt 0).isIntegral = true
    simp [Binary64.ofInt_zero, Binary64.signedZero, Binary64.isIntegral]
  | _ => rfl

end ScalarType

end TreeSchema
