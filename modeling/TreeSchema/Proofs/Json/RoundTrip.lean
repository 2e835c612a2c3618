import TreeSchema.Proofs.Json.Writing
import TreeSchema.Proofs.Time.Calendar
import TreeSchema.Proofs.Value.Numbers

/-!
# JSON read back

Writing a value as JSON fails at the first number in it that JSON has no form for. What is written
of any other value is read as the value with its bytes and timestamps spelled out, and writing
that gives the same JSON again: exact integers are read as numbers that are written as integers,
and members in order stay in order.

* `Value.spelledOut` — bytes and timestamps as JSON has them.
* `Json.failure?_ofValue?` — what writing fails with.
* `Json.beq_spelledOut`, `Json.ofValue?_toValue` — what is read, and written again.
* `Json.ofValue?_faithful` — all of these.
-/

namespace TreeSchema

/-! ### Spelling out -/

/-- The value with its bytes as base64 text and its timestamps as text or milliseconds. -/
def Value.spelledOut (format : TimestampFormat) (v : Value) : Value :=
  match v with
  | .bytes data => .string (.ofList (Base64.encode data))
  | .timestamp t =>
    match format with
    | .rfc3339 => .string t.text
    | .epochMillis => .number (.ofInt t.toMillis)
  | .sequence items => .sequence (items.attach.map fun ⟨item, _⟩ => item.spelledOut format)
  | .mapping fields =>
    .mapping (.ofList (fields.entries.attach.map fun ⟨e, _⟩ => (e.1, e.2.spelledOut format)))
  | v => v
termination_by v.size
decreasing_by
  · exact size_lt_of_mem ‹_›
  · exact size_lt_of_mem_entries ‹_›

namespace Value

variable {format : TimestampFormat}

theorem spelledOut_sequence (items : List Value) :
    (sequence items).spelledOut format = .sequence (items.map (spelledOut format)) := by
  rw [spelledOut, List.map_subtype (g := spelledOut format) (fun _ _ => rfl),
    List.unattach_attach]

theorem spelledOut_mapping (fields : Mapping Value) :
    (mapping fields).spelledOut format = .mapping (fields.map (spelledOut format)) := by
  rw [spelledOut, List.map_subtype (g := fun e => (e.1, e.2.spelledOut format)) (fun _ _ => rfl),
    List.unattach_attach, ← Mapping.entries_map, Mapping.ofList_entries]

end Value

namespace Json

variable {format : TimestampFormat}

/-! ### Failing -/

theorem failure?_ofNumber? (n : Binary64) :
    failure? (ofNumber? n) = ([n].find? fun n => !n.isFinite).map .nonFinite := by
  cases n with
  | finite s m p h =>
    rw [ofNumber?]
    split
    · rfl
    · rfl
  | nan => rfl
  | infinity s => rfl

/-- **Writing fails at the first number that is not finite**, and only there. -/
theorem failure?_ofValue? (v : Value) :
    failure? (ofValue? format v) = (v.numbers.find? fun n => !n.isFinite).map .nonFinite := by
  induction v with
  | number n => rw [ofValue?, Value.numbers_number, failure?_ofNumber?]
  | sequence items ih =>
    rw [ofValue?, Value.numbers_sequence, List.find?_flatMap, List.map_findSome?]
    exact failure?_bind_ok.trans (failure?_mapM ih)
  | mapping fields ih =>
    have each : ∀ e ∈ fields.entries,
        failure? (do return (e.1, ← ofValue? format e.2) : Except JsonError (String × Json)) =
          (e.2.numbers.find? fun n => !n.isFinite).map .nonFinite := by
      intro e he
      exact failure?_bind_ok.trans (ih e.1 e.2 (Mapping.get?_of_mem_entries he))
    rw [ofValue?_mapping, Value.numbers_mapping, List.find?_flatMap, List.map_findSome?]
    exact failure?_bind_ok.trans (failure?_mapM each)
  | _ => simp [ofValue?, Value.numbers, failure?]

/-! ### Reading what was written -/

/-- An integer that is held exactly is read as a number that is written as this integer. -/
theorem ofNumber?_ofInt {n : Int} (hn : n.natAbs < Binary64.exactBound) :
    ofNumber? (.ofInt n) = .ok (.integer n) := by
  rw [ofNumber?, if_pos (Binary64.isIntegralBelow_ofInt hn), Binary64.truncate_ofInt hn]

/-- **What is written of a value is read as the value spelled out.** -/
theorem beq_spelledOut {v : Value} {j : Json} (h : ofValue? format v = .ok j) :
    (j.toValue == v.spelledOut format) = true := by
  induction v generalizing j with
  | null | bool | number | string =>
    have same := beq_toValue h (by simp [Value.kind, scalarKinds])
    simpa only [Value.spelledOut] using same
  | bytes data =>
    rw [ofValue?] at h
    obtain rfl := Except.ok.inj h
    rw [Value.spelledOut]
    exact Value.beq_string_iff.mpr rfl
  | timestamp t =>
    rw [ofValue?] at h
    obtain rfl := Except.ok.inj h
    cases format with
    | rfc3339 =>
      rw [Value.spelledOut]
      exact Value.beq_string_iff.mpr rfl
    | epochMillis =>
      rw [Value.spelledOut]
      exact Value.beq_number_iff.mpr ⟨_, rfl, Binary64.beq_self (Binary64.ofInt_ne_nan _)⟩
  | sequence items ih =>
    obtain ⟨forms, hforms, rfl⟩ := ofValue?_sequence_eq_ok_iff.mp h
    rw [toValue_array, Value.spelledOut_sequence]
    refine Value.beq_sequence_iff.mpr ⟨_, rfl, pointwise_map_iff.mpr ⟨hforms.length.symm, ?_⟩⟩
    intro i form item hform hitem
    exact ih item (List.mem_of_getElem? hitem) (hforms.related i item form hitem hform)
  | mapping fields ih =>
    obtain ⟨members, rfl, keys, hmembers⟩ := exists_members h
    rw [toValue_object, Value.spelledOut_mapping]
    refine Value.beq_mapping_iff.mpr ⟨_, rfl, ?_, ?_⟩
    · intro key
      rw [Mapping.keys_map, Mapping.keys_map]
      exact (keys key).symm
    · intro key a b ha hb
      rw [Mapping.get?_map, Option.map_eq_some_iff] at ha hb
      obtain ⟨form, hform, rfl⟩ := ha
      obtain ⟨x, hx, rfl⟩ := hb
      exact ih key x hx (hmembers key x form hx hform)

/-! ### Writing what was read -/

theorem ofNumber?_toValue {n : Binary64} {j : Json} (h : ofNumber? n = .ok j) :
    ofValue? format j.toValue = .ok j := by
  have written := h
  rw [ofNumber?] at h
  split at h
  · next exact =>
    obtain rfl := Except.ok.inj h
    rw [toValue, ofValue?, ofNumber?_ofInt (Binary64.natAbs_truncate_lt exact)]
  · split at h
    · obtain rfl := Except.ok.inj h
      rw [toValue, ofValue?, written]
    · cases h

theorem ofTimestamp_toValue (t : Timestamp) :
    ofValue? format (ofTimestamp format t).toValue = .ok (ofTimestamp format t) := by
  cases format with
  | rfc3339 => rw [ofTimestamp, toValue, ofValue?]
  | epochMillis => rw [ofTimestamp, toValue, ofValue?, ofNumber?_ofInt t.natAbs_toMillis_lt]

/-- **What was written is written again of what is read.** -/
theorem ofValue?_toValue {v : Value} {j : Json} (h : ofValue? format v = .ok j) :
    ofValue? format j.toValue = .ok j := by
  induction v generalizing j with
  | null | bool | string | bytes =>
    rw [ofValue?] at h
    obtain rfl := Except.ok.inj h
    rw [toValue, ofValue?]
  | number n =>
    rw [ofValue?] at h
    exact ofNumber?_toValue h
  | timestamp t =>
    rw [ofValue?] at h
    obtain rfl := Except.ok.inj h
    exact ofTimestamp_toValue t
  | sequence items ih =>
    obtain ⟨forms, hforms, rfl⟩ := ofValue?_sequence_eq_ok_iff.mp h
    rw [toValue_array]
    refine ofValue?_sequence_eq_ok_iff.mpr ⟨forms, ⟨(List.length_map _).symm, ?_⟩, rfl⟩
    intro i x form hx hform
    rw [List.getElem?_map, hform, Option.map_some] at hx
    obtain rfl := Option.some.inj hx
    obtain ⟨item, hitem, written⟩ := hforms.exists_left hform
    exact ih item (List.mem_of_getElem? hitem) written
  | mapping fields ih =>
    obtain ⟨members, hmembers, rfl⟩ := ofValue?_mapping_eq_ok_iff.mp h
    rw [toValue_object]
    -- The members are in order already, so ordering them once more does nothing.
    refine ofValue?_mapping_eq_ok_iff.mpr
      ⟨members.sorted, ⟨(Mapping.keys_map _ _).symm, ?_⟩, by rw [Mapping.sorted_sorted]⟩
    intro key x form hx hform
    rw [Mapping.get?_map, hform, Option.map_some] at hx
    obtain rfl := Option.some.inj hx
    rw [Mapping.get?_sorted] at hform
    obtain ⟨value, hvalue, written⟩ := hmembers.exists_left hform
    exact ih key value hvalue written

/-- **Writing fails exactly on values with a number that is not finite, at the first of these
numbers. What is written of other values is read as the value with bytes and timestamps spelled
out, of which the same is written.** -/
theorem ofValue?_faithful (format : TimestampFormat) (v : Value) :
    ((∃ e, ofValue? format v = .error e) ↔ ∃ n ∈ v.numbers, n.isFinite = false) ∧
      (∀ e, ofValue? format v = .error e →
        ∃ n, (v.numbers.find? fun n => !n.isFinite) = some n ∧ e = .nonFinite n) ∧
      ∀ j, ofValue? format v = .ok j →
        (j.toValue == v.spelledOut format) = true ∧ ofValue? format j.toValue = .ok j := by
  have error_iff : ∀ e, ofValue? format v = .error e ↔
      ∃ n, (v.numbers.find? fun n => !n.isFinite) = some n ∧ e = .nonFinite n := by
    intro e
    rw [eq_error_iff_failure?, failure?_ofValue?, Option.map_eq_some_iff]
    simp only [eq_comm]
  refine ⟨?_, fun e => (error_iff e).mp, fun j h => ⟨beq_spelledOut h, ofValue?_toValue h⟩⟩
  constructor
  · rintro ⟨e, h⟩
    obtain ⟨n, found, -⟩ := (error_iff e).mp h
    exact ⟨n, List.mem_of_find?_eq_some found, by simpa using List.find?_some found⟩
  · rintro ⟨n, mem, infinite⟩
    have found : (v.numbers.find? fun n => !n.isFinite).isSome = true :=
      List.find?_isSome.mpr ⟨n, mem, by simp [infinite]⟩
    obtain ⟨first, hfirst⟩ := Option.isSome_iff_exists.mp found
    exact ⟨.nonFinite first, (error_iff _).mpr ⟨first, hfirst, rfl⟩⟩

/-- Bytes, a timestamp, and negative zero. -/
def note : Value :=
  .mapping <| .ofList
    [("seal", .bytes [0, 255]), ("at", .timestamp .epoch), ("cost", .number (.signedZero true))]

/-- An infinity, and NaN behind it, though under a key that sorts before. -/
def spoiledNote : Value :=
  .mapping <| .ofList
    [("costs", .sequence [.number (.signedZero true), .number (.infinity true)]),
      ("at", .number .nan)]

theorem ofValue?_faithful_notes :
    ofValue? .epochMillis spoiledNote = .error (.nonFinite (.infinity true)) ∧
      ∃ j, ofValue? .epochMillis note = .ok j ∧
        (j.toValue == note.spelledOut .epochMillis) = true ∧
        ofValue? .epochMillis j.toValue = .ok j := by
  obtain ⟨fails, located, -⟩ := ofValue?_faithful .epochMillis spoiledNote
  have first : (spoiledNote.numbers.find? fun n => !n.isFinite) = some (.infinity true) := by
    decide +kernel
  obtain ⟨e, he⟩ := fails.mpr ⟨_, List.mem_of_find?_eq_some first, rfl⟩
  obtain ⟨n, found, rfl⟩ := located e he
  obtain rfl := Option.some.inj (first.symm.trans found)
  refine ⟨he, ?_⟩
  obtain ⟨fails, -, read⟩ := ofValue?_faithful .epochMillis note
  have numbers : note.numbers = [.signedZero true] := by decide +kernel
  cases hj : ofValue? .epochMillis note with
  | error e =>
    obtain ⟨n, mem, infinite⟩ := fails.mp ⟨e, hj⟩
    rw [numbers, List.mem_singleton] at mem
    subst mem
    cases infinite
  | ok j => exact ⟨j, rfl, read j hj⟩

end Json

end TreeSchema
