import TreeSchema.Proofs.Number.Rounding
import TreeSchema.Proofs.Restriction.Pruning
import TreeSchema.Proofs.Value.Equality

/-!
# Coerced scalars and enumerations

What is coerced to a type is of the type, and so stays as it is when it is coerced to the type
again. A number that something else was converted to is finite, whatever text it was read from.

A value that is restricted to an enumeration becomes a member, up to equality: it is equal to one
itself, or it is converted to the type of one and then equal to it. A member that is NaN is equal
to nothing, and nothing becomes it.

* `ScalarType.isFinite_of_convert?` — only finite numbers come out.
* `OneOrMore.hasValue_of_coerceTo?` — what a value is converted to in an enumeration is a member.
* `Document.hasValue_of_restrict_enum` — restriction to an enumeration.
* `Document.coercion_lands` — all of these.
-/

namespace TreeSchema

/-! ### Types -/

namespace ScalarType

/-- **Only finite numbers come out of a conversion.** -/
theorem isFinite_of_convert? {target : ScalarType} {v : Value} {n : Binary64}
    (h : target.convert? v = some (.number n)) : n.isFinite = true := by
  cases target with
  | integer =>
    obtain ⟨raw, read, same⟩ := Option.map_eq_some_iff.mp h
    cases same
    exact Binary64.isFinite_round (isFinite_of_toNumber? read)
  | float =>
    obtain ⟨raw, read, same⟩ := Option.map_eq_some_iff.mp h
    cases same
    exact isFinite_of_toNumber? read
  | null => cases h
  | boolean =>
    rw [convert?] at h
    cases v with
    | null => cases h
    | number =>
      rw [toBoolean?] at h
      split at h <;> cases h
    | _ => cases h
  | string | date | binary =>
    obtain ⟨_, -, same⟩ := Option.map_eq_some_iff.mp h
    cases same

end ScalarType

/-! ### Enumerations -/

namespace OneOrMore

variable {members : OneOrMore Literal} {v : Value} {member : Literal}

/-- What a value is converted to in an enumeration is a member, equal to the value as converted
to the type of the member. -/
theorem coerceTo?_eq_some (h : members.coerceTo? v = some member) :
    member ∈ members.toList ∧
      ∃ w, member.type.coerce? v = some w ∧ (w == member.toValue) = true := by
  have found := List.find?_some h
  obtain ⟨w, coerced, same⟩ := (Option.any_eq_true _ _).mp found
  exact ⟨List.mem_of_find?_eq_some h, w, coerced, same⟩

/-- A member that something is equal to is equal to itself, and so no NaN. -/
theorem hasValue_of_coerceTo? (h : members.coerceTo? v = some member) :
    members.hasValue member.toValue = true := by
  obtain ⟨mem, w, -, same⟩ := coerceTo?_eq_some h
  exact List.any_eq_true.mpr ⟨member, mem, Value.beq_trans (Value.beq_symm same) same⟩

end OneOrMore

namespace Document

variable {α : Type} {d : Document α} {mark : α} {members : OneOrMore Literal} {v w : Value}

/-- **What is restricted to an enumeration without filling is a member.** -/
theorem hasValue_of_restrict_enum {coerce : Bool}
    (h : d.restrict (.plain coerce) (.node mark (.enum members)) v = .ok (some w)) :
    members.hasValue w = true := by
  rw [restrict_enum, orFill_plain] at h
  split at h
  · next member =>
    cases h
    exact member
  · obtain ⟨member, converted, rfl⟩ := Option.map_eq_some_iff.mp (Except.ok.inj h)
    split at converted
    · exact OneOrMore.hasValue_of_coerceTo? converted
    · cases converted

/-- **Coercion lands in its target.** What is coerced to a type is of the type and stays as it is
when it is coerced again, and a number that something else was converted to is finite. What is
restricted to an enumeration with coercion and without filling is equal to a member. -/
theorem coercion_lands (d : Document α) :
    (∀ (type : ScalarType) (v w : Value), type.coerce? v = some w →
      type.accepts w = true ∧ type.coerce? w = some w ∧
        ∀ n, type.accepts v = false → w = .number n → n.isFinite = true) ∧
    ∀ (mark : α) (members : OneOrMore Literal) (v w : Value),
      d.restrict (.plain true) (.node mark (.enum members)) v = .ok (some w) →
        ∃ member ∈ members.toList, (member.toValue == w) = true := by
  constructor
  · intro type v w h
    have accepted := ScalarType.accepts_of_coerce? h
    refine ⟨accepted, ScalarType.coerce?_of_accepts accepted, ?_⟩
    rintro n other rfl
    rw [ScalarType.coerce?_of_not_accepts other] at h
    exact ScalarType.isFinite_of_convert? h
  · intro mark members v w h
    exact List.any_eq_true.mp (hasValue_of_restrict_enum h)

/-- An enumeration with NaN, a text and a fraction. -/
def oddMembers : OneOrMore Literal :=
  ⟨.number .nan, [.string "x", .number (.ofQuotient false 5 2)]⟩

def oddDocument : Document Unit where
  labels := ∅
  root := .node () (.enum oddMembers)
  guarded := nofun

theorem coercion_lands_odd :
    ScalarType.integer.coerce? (.string " 2.5 ") =
        some (.number (Binary64.ofQuotient false 5 2).round) ∧
      ScalarType.integer.accepts (.number (Binary64.ofQuotient false 5 2).round) = true ∧
      (Binary64.ofQuotient false 5 2).round.isFinite = true ∧
      oddDocument.restrict (.plain true) oddDocument.root (.string " 2.5 ") =
        .ok (some (.number (.ofQuotient false 5 2))) ∧
      ∃ member ∈ oddMembers.toList,
        (member.toValue == .number (.ofQuotient false 5 2)) = true := by
  obtain ⟨types, enumerations⟩ := coercion_lands oddDocument
  have read : ScalarType.toNumber? (.string " 2.5 ") = some (.ofQuotient false 5 2) := by
    decide +kernel
  have coerced : ScalarType.integer.coerce? (.string " 2.5 ") =
      some (.number (Binary64.ofQuotient false 5 2).round) := by
    rw [ScalarType.coerce?_of_not_accepts rfl, ScalarType.convert?, read, Option.map_some]
  obtain ⟨accepted, -, finite⟩ := types _ _ _ coerced
  have restricted : oddDocument.restrict (.plain true) oddDocument.root (.string " 2.5 ") =
      .ok (some (.number (.ofQuotient false 5 2))) := by
    have other : oddMembers.hasValue (.string " 2.5 ") = false := by
      simp [OneOrMore.hasValue, oddMembers, OneOrMore.toList, Literal.toValue,
        Value.beq_eq_equal, Value.equal]
    have member : oddMembers.coerceTo? (.string " 2.5 ") =
        some (.number (.ofQuotient false 5 2)) := by
      decide +kernel
    rw [oddDocument, restrict_enum, other, orFill_plain]
    show Except.ok ((oddMembers.coerceTo? (.string " 2.5 ")).map Literal.toValue) = _
    rw [member]
    rfl
  exact ⟨coerced, accepted, finite _ rfl rfl, restricted, enumerations _ _ _ _ restricted⟩

end Document

end TreeSchema
