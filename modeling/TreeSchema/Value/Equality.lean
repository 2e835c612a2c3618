import TreeSchema.Value.Basic

/-!
# Equality of values

Values are compared by what they say: numbers numerically, so that NaN equals
nothing and the two zeros are equal, and mappings by their bindings, whatever
their order. Everything else is compared part by part.

`Value.equal_sequence` and `Value.equal_mapping` state the two composite rules.
-/

namespace TreeSchema.Value

/-- The two values say the same. -/
def equal (a b : Value) : Bool :=
  match a, b with
  | null, null => true
  | bool a, bool b => a == b
  | number a, number b => a == b
  | string a, string b => a == b
  | bytes a, bytes b => a == b
  | timestamp a, timestamp b => a == b
  | sequence as, sequence bs =>
    as.length == bs.length && (as.zip bs).attach.all fun ⟨p, _⟩ => p.1.equal p.2
  | mapping as, mapping bs =>
    as.size == bs.size && as.entries.attach.all fun ⟨e, _⟩ =>
      (bs.get? e.1).any fun b => e.2.equal b
  | _, _ => false
termination_by a.size
decreasing_by
  · exact size_lt_of_mem (List.of_mem_zip ‹_›).1
  · exact size_lt_of_mem_entries ‹_›

instance : BEq Value := ⟨equal⟩

theorem beq_eq_equal (a b : Value) : (a == b) = a.equal b := rfl

theorem equal_sequence (as bs : List Value) :
    (sequence as).equal (sequence bs) =
      (as.length == bs.length && (as.zip bs).all fun p => p.1.equal p.2) := by
  rw [equal, List.all_subtype (g := fun p => p.1.equal p.2) (by simp), List.unattach_attach]

theorem equal_mapping (as bs : Mapping Value) :
    (mapping as).equal (mapping bs) = as.equalBy equal bs := by
  rw [equal, List.all_subtype (g := fun e => (bs.get? e.1).any fun b => e.2.equal b) (by simp),
    List.unattach_attach, Mapping.equalBy]

end TreeSchema.Value
