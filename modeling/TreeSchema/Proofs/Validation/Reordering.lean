import TreeSchema.Proofs.Document.Descent
import TreeSchema.Proofs.Document.Reordering
import TreeSchema.Proofs.Validation.Conformance

/-!
# Validation where the order of entries differs

Mismatches are listed in the order of the schema and of the value, but whether there is one
does not depend on either order.

* `Document.Reordered.validate_eq_nil` — what fits still fits in another order of labels,
  fields and entries; `Document.Reordered.validate_eq_nil_iff` — and only that.
-/

namespace TreeSchema.Document

variable {α β : Type} {d : Document α} {d' : Document β} {strict : Bool}

/-- A reference that has no target asks for nothing. -/
theorem validate_ref_of_none {mark : α} {label : String} {v : Value} {path : Path}
    (h : d.body? label = none) : d.validate strict (.node mark (.ref label)) v path = [] := by
  rw [validate]
  split
  · next body hb => simp [h] at hb
  · rfl

/-- **What fits still fits in another order** of labels, fields and entries. -/
theorem Reordered.validate_eq_nil (hd : d.Reordered d') {n : Schema α} {n' : Schema β}
    (hn : n.Reordered n') {v v' : Value} (hv : v.Reordered v') {path path' : Path}
    (h : d.validate strict n v path = []) : d'.validate strict n' v' path' = [] := by
  induction n, v using d.calls_induction generalizing n' v' path path' with
  | step n v ih =>
  cases hn with
  | any => rw [validate]
  | scalar =>
    have accepted := validate_scalar_eq_nil_iff.mp h
    rw [hv.eq_of_isScalar (ScalarType.isScalar_of_accepts accepted)]
    exact validate_scalar_eq_nil_iff.mpr accepted
  | enum =>
    obtain ⟨member, hm, he⟩ := validate_enum_eq_nil_iff.mp h
    rw [hv.eq_of_isScalar (Literal.isScalar_of_beq he)]
    exact validate_enum_eq_nil_iff.mpr ⟨member, hm, he⟩
  | @object _ _ fields fields' keys optional types =>
    obtain ⟨values, rfl, fits, known⟩ := validate_object_eq_nil_iff.mp h
    obtain ⟨others, rfl, same, origin⟩ := hv.of_mapping
    refine validate_object_eq_nil_iff.mpr ⟨others, rfl, ?_, ?_⟩
    · intro key f' hf'
      have hf := fields.get?_eq_some_value ((keys key).mpr (Mapping.mem_keys_of_get? hf'))
      obtain ⟨present, required⟩ := fits key _ hf
      refine ⟨?_, ?_⟩
      · intro y hy
        obtain ⟨x, hx, hxy⟩ := origin key y hy
        exact ih _ x (.field hf hx) (types key _ f' hf hf') hxy (present x hx)
      · intro declared
        exact (same key).mp (required ((optional key _ f' hf hf').trans declared))
    · intro hs key hk
      exact (keys key).mp (known hs key ((same key).mpr hk))
  | array length parts rest =>
    obtain ⟨items, rfl, enough, fits⟩ := validate_array_eq_nil_iff.mp h
    obtain ⟨others, rfl, same, origin⟩ := hv.of_sequence
    refine validate_array_eq_nil_iff.mpr ⟨others, rfl, by omega, fun i y hy => ?_⟩
    obtain ⟨x, hx, hxy⟩ := origin i y hy
    exact ih _ x (.item hx) (.itemAt length parts rest i) hxy (fits i x hx)
  | tuple length parts =>
    obtain ⟨items, rfl, enough, fits⟩ := validate_tuple_eq_nil_iff.mp h
    obtain ⟨others, rfl, same, origin⟩ := hv.of_sequence
    refine validate_tuple_eq_nil_iff.mpr ⟨others, rfl, by omega, fun i n' y hn' hy => ?_⟩
    obtain ⟨x, hx, hxy⟩ := origin i y hy
    obtain ⟨n, hn⟩ := exists_getElem?_of_length length hn'
    exact ih n x (.element hn hx) (parts i n n' hn hn') hxy (fits i n x hn hx)
  | dictionary type =>
    obtain ⟨values, rfl, fits⟩ := validate_dictionary_eq_nil_iff.mp h
    obtain ⟨others, rfl, -, origin⟩ := hv.of_mapping
    refine validate_dictionary_eq_nil_iff.mpr ⟨others, rfl, fun key y hy => ?_⟩
    obtain ⟨x, hx, hxy⟩ := origin key y hy
    exact ih _ x (.entry hx) type hxy (fits key x hx)
  | oneof length parts =>
    obtain ⟨n, hmem, fits⟩ := validate_oneof_eq_nil_iff.mp h
    obtain ⟨i, hn⟩ := List.mem_iff_getElem?.mp hmem
    obtain ⟨n', hn'⟩ := exists_getElem?_of_length length.symm hn
    refine validate_oneof_eq_nil_iff.mpr ⟨n', List.mem_of_getElem? hn', ?_⟩
    exact ih n v (.unfold (.alternative hmem)) (parts i n n' hn hn') hv fits
  | @ref _ _ label =>
    rcases hd.body? label with ⟨-, hb'⟩ | ⟨body, body', hb, hb', related⟩
    · exact validate_ref_of_none hb'
    · rw [validate_ref hb] at h
      rw [validate_ref hb']
      exact ih body v (.unfold (.target hb)) related hv h

section

variable {n : Schema α} {n' : Schema β} {v v' : Value}

/-- **Whether a value fits does not depend on the order** of labels, fields and entries. -/
theorem Reordered.validate_eq_nil_iff (hd : d.Reordered d') (hn : n.Reordered n')
    (hv : v.Reordered v') (path path' : Path) :
    d.validate strict n v path = [] ↔ d'.validate strict n' v' path' = [] :=
  ⟨hd.validate_eq_nil hn hv, hd.symm.validate_eq_nil hn.symm hv.symm⟩

theorem Reordered.conforms_eq (hd : d.Reordered d') (hn : n.Reordered n')
    (hv : v.Reordered v') : d'.conforms n' v' = d.conforms n v := by
  rw [Bool.eq_iff_iff, conforms, conforms, List.isEmpty_iff, List.isEmpty_iff]
  exact (hd.validate_eq_nil_iff hn hv [] []).symm

end

end TreeSchema.Document
