import TreeSchema.Proofs.Number.Integers
import TreeSchema.Proofs.Value.Equality

/-!
# Numbers in a value

The numbers in a value are listed in the order in which they stand. They decide whether the value
is equal to itself: equality falls short of an equivalence only at NaN, at whatever depth.

* `Value.numbers` — the numbers, item by item and field by field.
* `Value.beq_self_iff` — a value is equal to itself if NaN is not among its numbers.
* `Value.beq_partial_equivalence` — **equality is symmetric and transitive, reflexive but for NaN,
  and blind to the order of fields.**
-/

namespace TreeSchema.Value

/-- The numbers in a value, at any depth, in the order in which they stand. -/
def numbers (v : Value) : List Binary64 :=
  match v with
  | .number n => [n]
  | .sequence items => items.attach.flatMap fun ⟨item, _⟩ => item.numbers
  | .mapping fields => fields.entries.attach.flatMap fun ⟨e, _⟩ => e.2.numbers
  | _ => []
termination_by v.size
decreasing_by
  · exact size_lt_of_mem ‹_›
  · exact size_lt_of_mem_entries ‹_›

theorem numbers_number (n : Binary64) : (number n).numbers = [n] := by
  rw [numbers]

theorem numbers_sequence (items : List Value) :
    (sequence items).numbers = items.flatMap numbers := by
  rw [numbers, List.flatMap_subtype (g := numbers) (fun _ _ => rfl), List.unattach_attach]

theorem numbers_mapping (fields : Mapping Value) :
    (mapping fields).numbers = fields.entries.flatMap fun e => e.2.numbers := by
  rw [numbers, List.flatMap_subtype (g := fun e => e.2.numbers) (fun _ _ => rfl),
    List.unattach_attach]

theorem mem_numbers_sequence_iff {items : List Value} {n : Binary64} :
    n ∈ (sequence items).numbers ↔ ∃ item ∈ items, n ∈ item.numbers := by
  rw [numbers_sequence, List.mem_flatMap]

theorem mem_numbers_mapping_iff {fields : Mapping Value} {n : Binary64} :
    n ∈ (mapping fields).numbers ↔
      ∃ key value, fields.get? key = some value ∧ n ∈ value.numbers := by
  rw [numbers_mapping, List.mem_flatMap]
  constructor
  · rintro ⟨⟨key, value⟩, he, hn⟩
    exact ⟨key, value, Mapping.get?_of_mem_entries he, hn⟩
  · rintro ⟨key, value, hv, hn⟩
    exact ⟨(key, value), Mapping.mem_entries_iff.mpr hv, hn⟩

/-! ### Equality with itself -/

theorem beq_number_self_iff {n : Binary64} : (number n == number n) = true ↔ n ≠ .nan := by
  constructor
  · rintro h rfl
    obtain ⟨_, ⟨⟩, h⟩ := beq_number_iff.mp h
    cases h
  · intro h
    exact beq_number_iff.mpr ⟨n, rfl, Binary64.beq_self h⟩

theorem beq_sequence_self_iff {items : List Value} :
    (sequence items == sequence items) = true ↔ ∀ item ∈ items, (item == item) = true := by
  constructor
  · intro h item hi
    obtain ⟨others, same, related⟩ := beq_sequence_iff.mp h
    cases same
    obtain ⟨i, hi⟩ := List.mem_iff_getElem?.mp hi
    exact related.related i item item hi hi
  · intro h
    refine beq_sequence_iff.mpr ⟨items, rfl, pointwise_self fun i item hi => ?_⟩
    exact h item (List.mem_of_getElem? hi)

theorem beq_mapping_self_iff {fields : Mapping Value} :
    (mapping fields == mapping fields) = true ↔
      ∀ key value, fields.get? key = some value → (value == value) = true := by
  constructor
  · intro h key value hv
    obtain ⟨others, same, related⟩ := beq_mapping_iff.mp h
    cases same
    exact related.related key value value hv hv
  · intro h
    refine beq_mapping_iff.mpr ⟨fields, rfl, fun _ => Iff.rfl, fun key a b ha hb => ?_⟩
    obtain rfl := Option.some.inj (ha.symm.trans hb)
    exact h key a ha

/-- **A value is equal to itself exactly if NaN is not in it**, at any depth. -/
theorem beq_self_iff (v : Value) : (v == v) = true ↔ .nan ∉ v.numbers := by
  induction v with
  | number n =>
    rw [beq_number_self_iff, numbers_number, List.mem_singleton]
    exact ne_comm
  | sequence items ih =>
    rw [beq_sequence_self_iff, mem_numbers_sequence_iff]
    constructor
    · rintro h ⟨item, hi, hn⟩
      exact (ih item hi).mp (h item hi) hn
    · intro h item hi
      exact (ih item hi).mpr fun hn => h ⟨item, hi, hn⟩
  | mapping fields ih =>
    rw [beq_mapping_self_iff, mem_numbers_mapping_iff]
    constructor
    · rintro h ⟨key, value, hv, hn⟩
      exact (ih key value hv).mp (h key value hv) hn
    · intro h key value hv
      exact (ih key value hv).mpr fun hn => h ⟨key, value, hv, hn⟩
  | _ => simp [beq_eq_equal, equal, numbers]

/-- **Equality of values is a partial equivalence**: symmetric and transitive, and reflexive
exactly on the values without NaN. Of mappings it asks for the same keys and equal values of each
key, whatever the orders of the keys. -/
theorem beq_partial_equivalence :
    (∀ a b : Value, (a == b) = true → (b == a) = true) ∧
      (∀ a b c : Value, (a == b) = true → (b == c) = true → (a == c) = true) ∧
      (∀ a : Value, (a == a) = true ↔ .nan ∉ a.numbers) ∧
      ∀ m n : Mapping Value, (mapping m == mapping n) = true ↔
        (∀ key, key ∈ m.keys ↔ key ∈ n.keys) ∧
          ∀ key a b, m.get? key = some a → n.get? key = some b → (a == b) = true := by
  refine ⟨fun _ _ => beq_symm, fun _ _ _ => beq_trans, beq_self_iff, ?_⟩
  intro m n
  rw [beq_mapping_iff]
  constructor
  · rintro ⟨others, same, keys, related⟩
    cases same
    exact ⟨keys, related⟩
  · rintro ⟨keys, related⟩
    exact ⟨n, rfl, keys, related⟩

/-- A zero and a text. -/
def zeroFirst : Value :=
  .mapping <| .ofList [("x", .number (.signedZero false)), ("y", .sequence [.string "y"])]

/-- The same text and the other zero. -/
def zeroLast : Value :=
  .mapping <| .ofList [("y", .sequence [.string "y"]), ("x", .number (.signedZero true))]

theorem beq_partial_equivalence_zeros :
    (zeroFirst == zeroLast) = true ∧ (zeroLast == zeroFirst) = true ∧
      (zeroFirst == zeroFirst) = true := by
  obtain ⟨symm, trans, -, -⟩ := beq_partial_equivalence
  have same : (zeroFirst == zeroLast) = true := by decide +kernel
  exact ⟨same, symm _ _ same, trans _ _ _ same (symm _ _ same)⟩

end TreeSchema.Value
