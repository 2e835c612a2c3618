import TreeSchema.Proofs.Json.Writing
import TreeSchema.Proofs.Scalar.Inverse

/-!
# Scalars through JSON

Bytes go through JSON as text, and timestamps as text or numbers; conversion to the type of the
scalar turns them back. A timestamp has to be one that the format tells in full.

* `Value.timestamps`, `TimestampFormat.Holds` — the timestamps in a value, and which of them a
  format tells in full.
* `ScalarType.coerce?_toValue` — what is written of a scalar is converted back to its type.
-/

namespace TreeSchema

/-! ### Timestamps -/

/-- The timestamps in a value, at any depth. -/
def Value.timestamps (v : Value) : List Timestamp :=
  match v with
  | .timestamp t => [t]
  | .sequence items => items.attach.flatMap fun ⟨item, _⟩ => item.timestamps
  | .mapping fields => fields.entries.attach.flatMap fun ⟨e, _⟩ => e.2.timestamps
  | _ => []
termination_by v.size
decreasing_by
  · exact size_lt_of_mem ‹_›
  · exact size_lt_of_mem_entries ‹_›

namespace Value

theorem timestamps_timestamp (t : Timestamp) : (timestamp t).timestamps = [t] := by
  rw [timestamps]

theorem timestamps_subset_sequence {items : List Value} {item : Value} (h : item ∈ items) :
    item.timestamps ⊆ (sequence items).timestamps := by
  intro t ht
  rw [timestamps]
  exact List.mem_flatMap.mpr ⟨⟨item, h⟩, List.mem_attach _ _, ht⟩

theorem timestamps_subset_mapping {fields : Mapping Value} {key : String} {value : Value}
    (h : fields.get? key = some value) : value.timestamps ⊆ (mapping fields).timestamps := by
  intro t ht
  rw [timestamps]
  exact List.mem_flatMap.mpr
    ⟨⟨(key, value), Mapping.mem_entries_iff.mpr h⟩, List.mem_attach _ _, ht⟩

end Value

/-- A timestamp that a format tells in full: to the millisecond, outside leap seconds, and as
text in a year of four digits. -/
structure TimestampFormat.Holds (format : TimestampFormat) (t : Timestamp) : Prop where
  whole : t.nanos % 1000000 = 0
  plain : t.isLeap = false
  year : format = .rfc3339 → 0 ≤ t.date.year ∧ t.date.year ≤ 9999

/-! ### Scalars -/

namespace ScalarType

/-- What is equal to a value of a type is of the type. -/
theorem accepts_of_beq {type : ScalarType} {v w : Value} (h : (v == w) = true)
    (hw : type.accepts w = true) : type.accepts v = true := by
  have kind := Value.kind_eq_of_beq h
  cases type with
  | integer =>
    cases w with
    | number b =>
      obtain ⟨a, rfl, same⟩ := Value.beq_number_iff.mp (Value.beq_symm h)
      exact Binary64.isIntegral_of_beq (Binary64.beq_symm same) hw
    | _ => cases hw
  | _ => cases w <;> cases v <;> simp_all [accepts, Value.kind]

variable {format : TimestampFormat} {j : Json}

/-- Bytes are written as text that is converted to them. -/
theorem coerce?_bytes {data : List UInt8} (h : Json.ofValue? format (.bytes data) = .ok j) :
    binary.coerce? j.toValue = some (.bytes data) := by
  rw [Json.ofValue?] at h
  obtain rfl := Except.ok.inj h
  exact coerce?_bytes_text data

/-- A timestamp that is told in full is written as what is converted to it. -/
theorem coerce?_timestamp {t : Timestamp} (held : format.Holds t)
    (h : Json.ofValue? format (.timestamp t) = .ok j) :
    date.coerce? j.toValue = some (.timestamp t) := by
  have converted : toTimestamp? j.toValue = some t := by
    rw [Json.ofValue?] at h
    obtain rfl := Except.ok.inj h
    cases format with
    | rfc3339 =>
      rw [Json.ofTimestamp, Json.toValue, toTimestamp?, Timestamp.text, String.toList_ofList,
        Timestamp.trim_chars, Timestamp.ofText?_chars (held.year rfl) held.whole]
    | epochMillis =>
      exact toTimestamp?_ofInt_toMillis held.whole held.plain
  have other : date.accepts j.toValue = false := by
    cases hj : j.toValue <;> simp_all [toTimestamp?, accepts]
  rw [coerce?, if_neg (by simp [other]), convert?, converted, Option.map_some]

/-- **What is written of a scalar is converted back to its type.** -/
theorem coerce?_toValue {type : ScalarType} {v : Value} (ha : type.accepts v = true)
    (held : ∀ t ∈ v.timestamps, format.Holds t) (h : Json.ofValue? format v = .ok j) :
    ∃ r, type.coerce? j.toValue = some r ∧ (r == v) = true := by
  by_cases hv : v.kind ∈ Json.scalarKinds
  · have same := Json.beq_toValue h hv
    exact ⟨_, coerce?_of_accepts (accepts_of_beq same ha), same⟩
  · cases v with
    | bytes data =>
      cases type with
      | binary => exact ⟨_, coerce?_bytes h, by simp [Value.beq_eq_equal, Value.equal]⟩
      | _ => cases ha
    | timestamp t =>
      have holds := held t (by simp [Value.timestamps_timestamp])
      cases type with
      | date => exact ⟨_, coerce?_timestamp holds h, by simp [Value.beq_eq_equal, Value.equal]⟩
      | _ => cases ha
    | sequence | mapping => cases type <;> cases ha
    | _ => exact absurd (by simp [Value.kind, Json.scalarKinds]) hv

end ScalarType

end TreeSchema
