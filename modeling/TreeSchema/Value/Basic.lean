import TreeSchema.Mapping
import TreeSchema.Number.Binary64
import TreeSchema.Time.Timestamp

/-!
# Values

Data, and the schemas that describe it, are trees of scalars, sequences and
mappings. One kind of number covers integers and fractions; whether a number is
an integer is a property of its value.

* `Value.size` decreases from a tree to its parts (`Value.size_lt_of_mem`,
  `Value.size_lt_of_mem_entries`, `Value.size_lt_of_get?`), so functions on values
  may recurse along any view of them.
* `Value.induction` — what holds of a tree if it holds of its parts holds of all.
-/

namespace TreeSchema

/-- A tree of data. -/
inductive Value where
  | null
  | bool (b : Bool)
  | number (n : Binary64)
  | string (s : String)
  | bytes (data : List UInt8)
  | timestamp (t : Timestamp)
  | sequence (items : List Value)
  | mapping (fields : Mapping Value)

/-- The kinds of values. -/
inductive Kind where
  | null | bool | number | string | bytes | timestamp | sequence | mapping
deriving DecidableEq

/-- The name of a kind in messages. -/
def Kind.name : Kind → String
  | .null => "null"
  | .bool => "boolean"
  | .number => "number"
  | .string => "string"
  | .bytes => "binary"
  | .timestamp => "date"
  | .sequence => "array"
  | .mapping => "object"

namespace Value

instance : Inhabited Value := ⟨.null⟩

/-! ### Observations -/

def kind : Value → Kind
  | null => .null
  | bool _ => .bool
  | number _ => .number
  | string _ => .string
  | bytes _ => .bytes
  | timestamp _ => .timestamp
  | sequence _ => .sequence
  | mapping _ => .mapping

/-- The value is neither a sequence nor a mapping. -/
def isScalar : Value → Bool
  | sequence _ | mapping _ => false
  | _ => true

/-- The value is an integral number; the infinities are. -/
def isInteger : Value → Bool
  | number n => n.isIntegral
  | _ => false

/-! ### Size -/

mutual
/-- The number of nodes of a tree. -/
def size : Value → Nat
  | sequence items => 1 + sizeItems items
  | mapping fields => 1 + sizeFields fields
  | _ => 1

def sizeItems : List Value → Nat
  | [] => 0
  | item :: items => item.size + sizeItems items

def sizeFields : Mapping Value → Nat
  | ⟨keys, _, value⟩ => total (fun key => (value key).size) keys.attach
end

theorem size_pos (v : Value) : 0 < v.size := by
  cases v with
  | sequence | mapping =>
    rw [size]
    omega
  | _ => exact Nat.one_pos

theorem sizeItems_eq_total (items : List Value) : sizeItems items = total size items := by
  induction items with
  | nil => rfl
  | cons item items ih => rw [sizeItems, total_cons, ih]

theorem size_lt_of_mem {item : Value} {items : List Value} (h : item ∈ items) :
    item.size < (sequence items).size := by
  have : item.size ≤ sizeItems items := by
    induction items with
    | nil => cases h
    | cons head rest ih =>
      rw [sizeItems]
      rcases List.mem_cons.mp h with rfl | h
      · omega
      · have := ih h
        omega
  rw [size]
  omega

theorem size_lt_of_get? {fields : Mapping Value} {key : String} {value : Value}
    (h : fields.get? key = some value) : value.size < (mapping fields).size := by
  obtain ⟨keys, nd, f⟩ := fields
  have hk : key ∈ keys := Mapping.mem_keys_of_get? h
  rw [Mapping.get?_eq_some_value ⟨keys, nd, f⟩ hk] at h
  obtain rfl : f ⟨key, hk⟩ = value := Option.some.inj h
  rw [size, sizeFields]
  have := le_total (fun key => (f key).size) (List.mem_attach keys ⟨key, hk⟩)
  omega

theorem size_lt_of_mem_entries {fields : Mapping Value} {e : String × Value}
    (h : e ∈ fields.entries) : e.2.size < (mapping fields).size :=
  size_lt_of_get? (Mapping.get?_of_mem_entries h)

/-- **Induction along the parts of a tree.** -/
@[induction_eliminator]
theorem induction {motive : Value → Prop} (null : motive .null) (bool : ∀ b, motive (.bool b))
    (number : ∀ n, motive (.number n)) (string : ∀ s, motive (.string s))
    (bytes : ∀ data, motive (.bytes data)) (timestamp : ∀ t, motive (.timestamp t))
    (sequence : ∀ items, (∀ item ∈ items, motive item) → motive (.sequence items))
    (mapping : ∀ fields : Mapping Value,
      (∀ key value, fields.get? key = some value → motive value) → motive (.mapping fields))
    (v : Value) : motive v :=
  match v with
  | .null => null
  | .bool b => bool b
  | .number n => number n
  | .string s => string s
  | .bytes data => bytes data
  | .timestamp t => timestamp t
  | .sequence items =>
    sequence items fun item _ =>
      induction null bool number string bytes timestamp sequence mapping item
  | .mapping fields =>
    mapping fields fun _ value _ =>
      induction null bool number string bytes timestamp sequence mapping value
termination_by v.size
decreasing_by
  · exact size_lt_of_mem ‹_›
  · exact size_lt_of_get? ‹_›

end Value

end TreeSchema
