import TreeSchema.Json
import TreeSchema.Proofs.Number.Integers
import TreeSchema.Proofs.Value.Equality

/-!
# What is written as JSON

A collection is written by writing its parts, an object with its members in the order of their
keys. Scalars of the kinds that JSON has are read back equal, the integers among the numbers
because only exact ones are written as such.

* `Json.ofValue?_sequence_eq_ok_iff`, `Json.ofValue?_mapping_eq_ok_iff` — collections.
* `Json.beq_toValue` — scalars of the kinds that JSON has.
-/

namespace TreeSchema

namespace Json

/-! ### Reading collections -/

theorem toValue_array (items : List Json) :
    (array items).toValue = .sequence (items.map toValue) := by
  have each : ∀ items, itemsToValues items = items.map toValue := by
    intro items
    induction items with
    | nil => rfl
    | cons item items ih => rw [itemsToValues, ih, List.map_cons]
  rw [toValue, each]

theorem toValue_object (members : Mapping Json) :
    (object members).toValue = .mapping (members.map toValue) := by
  obtain ⟨keys, nodup, value⟩ := members
  rw [toValue, Mapping.refresh_eq, membersToValues]
  congr 1
  refine Mapping.ext_get? (by rw [Mapping.keys_map]) fun key => ?_
  rw [Mapping.get?_map]
  by_cases hk : key ∈ keys
  · rw [Mapping.get?_eq_some_value _ hk, Mapping.get?_eq_some_value ⟨keys, nodup, value⟩ hk,
      Option.map_some]
  · rw [Mapping.get?_eq_none_iff.mpr hk,
      (Mapping.get?_eq_none_iff (m := ⟨keys, nodup, value⟩)).mpr hk, Option.map_none]

/-! ### Writing collections -/

variable {format : TimestampFormat}

/-- **A sequence is written by writing its items.** -/
theorem ofValue?_sequence_eq_ok_iff {items : List Value} {j : Json} :
    ofValue? format (.sequence items) = .ok j ↔
      ∃ forms, Pointwise (fun _ x form => ofValue? format x = .ok form) items forms ∧
        j = .array forms := by
  rw [ofValue?, bind_eq_ok_iff]
  simp only [mapM_eq_ok_iff]
  constructor
  · rintro ⟨forms, hforms, h⟩
    exact ⟨forms, hforms, (Except.ok.inj h).symm⟩
  · rintro ⟨forms, hforms, rfl⟩
    exact ⟨forms, hforms, rfl⟩

theorem ofValue?_mapping (fields : Mapping Value) :
    ofValue? format (.mapping fields) = do
      let members ← fields.entries.mapM fun e => do return (e.1, ← ofValue? format e.2)
      return ofMembers members := by
  rw [ofValue?, List.mapM_subtype (g := fun e => do return (e.1, ← ofValue? format e.2))
    (fun _ _ => rfl), List.unattach_attach]

/-- **A mapping is written by writing the values of its fields**, and putting the members in
the order of their keys. -/
theorem ofValue?_mapping_eq_ok_iff {fields : Mapping Value} {j : Json} :
    ofValue? format (.mapping fields) = .ok j ↔
      ∃ members, fields.Pointwise (fun _ x form => ofValue? format x = .ok form) members ∧
        j = .object members.sorted := by
  have step_iff : ∀ (e : String × Value) (member : String × Json),
      (do return (e.1, ← ofValue? format e.2) : Except JsonError (String × Json)) = .ok member ↔
        member.1 = e.1 ∧ ofValue? format e.2 = .ok member.2 := by
    rintro e ⟨key, form⟩
    rw [bind_eq_ok_iff]
    constructor
    · rintro ⟨_, hform, h⟩
      cases h
      exact ⟨rfl, hform⟩
    · rintro ⟨rfl, hform⟩
      exact ⟨form, hform, rfl⟩
  rw [ofValue?_mapping, bind_eq_ok_iff]
  simp only [mapM_eq_ok_iff, step_iff]
  constructor
  · rintro ⟨written, hwritten, h⟩
    obtain rfl := Except.ok.inj h
    have keys : written.map (·.1) = fields.keys := by
      rw [← Mapping.entries_map_fst]
      exact (hwritten.mono fun _ _ _ h => h.1).map_eq
    have entries : (Mapping.ofList written).entries = written :=
      Mapping.entries_ofList (keys ▸ fields.nodup)
    exact ⟨_, Mapping.pointwise_iff_entries.mpr (entries.symm ▸ hwritten), rfl⟩
  · rintro ⟨members, hmembers, rfl⟩
    refine ⟨members.entries, Mapping.pointwise_iff_entries.mp hmembers, ?_⟩
    rw [ofMembers, Mapping.ofList_entries]
    rfl

/-- What is written of a mapping has members for its fields. -/
theorem exists_members {fields : Mapping Value} {j : Json}
    (h : ofValue? format (.mapping fields) = .ok j) :
    ∃ members, j = .object members ∧
      fields.Matching (fun x form => ofValue? format x = .ok form) members := by
  obtain ⟨members, hmembers, rfl⟩ := ofValue?_mapping_eq_ok_iff.mp h
  exact ⟨_, rfl, hmembers.matching.sorted⟩

/-! ### Scalars -/

/-- What is written of a number is read back equal. -/
theorem exists_toValue_eq_number {n : Binary64} {j : Json} (h : ofNumber? n = .ok j) :
    ∃ m, j.toValue = .number m ∧ (m == n) = true := by
  rw [ofNumber?] at h
  split at h
  · next exact =>
    obtain rfl := Except.ok.inj h
    exact ⟨_, rfl, Binary64.ofInt_truncate exact⟩
  · split at h
    · next finite =>
      obtain rfl := Except.ok.inj h
      refine ⟨n, rfl, Binary64.beq_self ?_⟩
      rintro rfl
      cases finite
    · cases h

/-- The kinds of scalars that JSON has. -/
def scalarKinds : List Kind := [.null, .bool, .number, .string]

/-- **A scalar of a kind that JSON has is read back equal.** -/
theorem beq_toValue {v : Value} {j : Json} (h : ofValue? format v = .ok j)
    (hv : v.kind ∈ scalarKinds) : (j.toValue == v) = true := by
  cases v with
  | number n =>
    rw [ofValue?] at h
    obtain ⟨m, hm, same⟩ := exists_toValue_eq_number h
    rw [hm]
    exact Value.beq_number_iff.mpr ⟨n, rfl, same⟩
  | null | bool | string =>
    rw [ofValue?] at h
    obtain rfl := Except.ok.inj h
    simp [toValue, Value.beq_eq_equal, Value.equal]
  | _ => simp [Value.kind, scalarKinds] at hv

end Json

end TreeSchema
