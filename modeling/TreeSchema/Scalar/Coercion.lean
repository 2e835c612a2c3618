import TreeSchema.Number.Text
import TreeSchema.Scalar.Basic
import TreeSchema.Text.Base64
import TreeSchema.Time.Text

/-!
# Coercion of scalars

A value of one scalar type is converted to another by this table; anything else
does not convert.

| target    | accepted sources                                                   |
|-----------|--------------------------------------------------------------------|
| `boolean` | null (false), number (is it not zero)                              |
| `string`  | null (empty), boolean, number, bytes (base64), timestamp           |
| `integer` | number, text of a number, boolean, null (0), timestamp; rounded    |
| `float`   | the same, not rounded                                              |
| `date`    | text of a timestamp, number                                        |
| `binary`  | base64 text                                                        |

Timestamps convert to and from milliseconds since the epoch. Only finite numbers
come out, and text is read without the white space around it.
-/

namespace TreeSchema.ScalarType

open Value

/-- A boolean: null is false, and a number tells whether it is not zero. -/
def toBoolean? : Value → Option Value
  | .null => some (.bool false)
  | .number n => if n.isNaN then none else some (.bool !n.isZero)
  | _ => none

/-- A number, finite or not. -/
def rawNumber? : Value → Option Binary64
  | .number n => some n
  | .string s => Binary64.ofText? (Text.trim s.toList)
  | .bool b => some (if b then 1 else 0)
  | .null => some 0
  | .timestamp t => some (.ofInt t.toMillis)
  | _ => none

/-- A finite number. -/
def toNumber? (v : Value) : Option Binary64 :=
  (rawNumber? v).filter Binary64.isFinite

/-- The text of a number: its exact digits if it is integral and has at most
twenty-one of them, else its shortest. -/
def numberText (n : Binary64) : String :=
  if n.isIntegralBelow (10 ^ (21 : Nat)) then n.integerText else n.text

/-- The text of a scalar. -/
def toText? : Value → Option String
  | .null => some ""
  | .bool b => some (if b then "true" else "false")
  | .number n => some (numberText n)
  | .bytes data => some (.ofList (Base64.encode data))
  | .timestamp t => some t.text
  | _ => none

/-- A timestamp. -/
def toTimestamp? : Value → Option Timestamp
  | .string s => Timestamp.ofText? (Text.trim s.toList)
  | .number n => if n.isFinite then Timestamp.ofMillis? n.round.toInt64 else none
  | _ => none

/-- Bytes. -/
def toBytes? : Value → Option (List UInt8)
  | .string s => Base64.decode (Text.trim s.toList)
  | _ => none

/-- Converts a value that is not of the target type. -/
def convert? (target : ScalarType) (v : Value) : Option Value :=
  match target with
  | null => none
  | boolean => toBoolean? v
  | integer => (toNumber? v).map fun n => .number n.round
  | float => (toNumber? v).map .number
  | string => (toText? v).map .string
  | date => (toTimestamp? v).map .timestamp
  | binary => (toBytes? v).map .bytes

/-- Coerces a value to a type; a value of the type stays as it is. -/
def coerce? (target : ScalarType) (v : Value) : Option Value :=
  if target.accepts v then some v else target.convert? v

end TreeSchema.ScalarType
