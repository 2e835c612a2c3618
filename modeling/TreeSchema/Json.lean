import TreeSchema.Number.Text
import TreeSchema.Text.Base64
import TreeSchema.Time.Text
import TreeSchema.Value.Basic

/-!
# Values as JSON

JSON has no bytes and no timestamps, and tells integers from other numbers only
by how they are written. Bytes go out as base64 text and timestamps as text or as
milliseconds; integral numbers go out as integers as long as they are exact.
NaN and the infinities have no JSON form.

* `Json.ofValue?` — writing, which fails at the first number that is not finite.
* `Json.toValue` — reading.
-/

namespace TreeSchema

/-- A JSON document. An object lists its members in ascending order of their keys. -/
inductive Json where
  | null
  | bool (b : Bool)
  | integer (n : Int)
  | float (x : Binary64)
  | string (s : String)
  | array (items : List Json)
  | object (members : Mapping Json)

/-- How timestamps are written. -/
inductive TimestampFormat where
  /-- As text, to the millisecond. -/
  | rfc3339
  /-- As the number of milliseconds since the epoch. -/
  | epochMillis
deriving DecidableEq

/-- Why a value has no JSON form. -/
inductive JsonError where
  | nonFinite (n : Binary64)
deriving DecidableEq

def JsonError.message : JsonError → String
  | nonFinite n => "Non-finite number " ++ n.text ++ " cannot be represented in JSON"

namespace Json

instance : Inhabited Json := ⟨.null⟩

/-- An object with the given members; of two with the same key the later counts. -/
def ofMembers (members : List (String × Json)) : Json :=
  .object (Mapping.ofList members).sorted

/-- A number: an integer if it is one in the range where every integer is a
binary64 number; negative zero is the integer zero. -/
def ofNumber? (n : Binary64) : Except JsonError Json :=
  if n.isIntegralBelow Binary64.exactBound then .ok (.integer n.truncate)
  else if n.isFinite then .ok (.float n)
  else .error (.nonFinite n)

def ofTimestamp (format : TimestampFormat) (t : Timestamp) : Json :=
  match format with
  | .rfc3339 => .string t.text
  | .epochMillis => .integer t.toMillis

/-- The JSON form of a value. -/
def ofValue? (format : TimestampFormat) (v : Value) : Except JsonError Json :=
  match v with
  | .null => .ok .null
  | .bool b => .ok (.bool b)
  | .number n => ofNumber? n
  | .string s => .ok (.string s)
  | .bytes data => .ok (.string (.ofList (Base64.encode data)))
  | .timestamp t => .ok (ofTimestamp format t)
  | .sequence items => do
    let items ← items.mapM fun item => ofValue? format item
    return .array items
  | .mapping fields => do
    let members ← fields.entries.attach.mapM fun ⟨e, _⟩ =>
      return (e.1, ← ofValue? format e.2)
    return ofMembers members
termination_by v.size
decreasing_by
  · exact Value.size_lt_of_mem ‹_›
  · exact Value.size_lt_of_mem_entries ‹_›

mutual
/-- The value a JSON document stands for. -/
def toValue : Json → Value
  | null => .null
  | bool b => .bool b
  | integer n => .number (.ofInt n)
  | float x => .number x
  | string s => .string s
  | array items => .sequence (itemsToValues items)
  | object members => .mapping (membersToValues members).refresh

def itemsToValues : List Json → List Value
  | [] => []
  | item :: items => item.toValue :: itemsToValues items

def membersToValues : Mapping Json → Mapping Value
  | ⟨keys, nodup, value⟩ => ⟨keys, nodup, fun key => (value key).toValue⟩
end

end Json

end TreeSchema
