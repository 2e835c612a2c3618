import TreeSchema.Proofs.Document.Closure
import TreeSchema.Restriction.Basic

/-!
# Restriction, rule by rule

What restriction makes of a value under each kind of rule, in terms of what it makes of
the parts, or of the fill value where the value is of another kind.

* `Document.restrict_object_eq_ok_iff`, `Document.restrict_dictionary_eq_ok_iff` — mappings,
  by what becomes of their values.
* `Document.restrict_array_eq_ok_iff`, `Document.restrict_tuple_eq_ok_iff` — sequences, by
  what becomes of their items.
* `Document.restrict_oneof_of_find?`, `Document.restrict_oneof_of_find?_eq_none` — unions, by
  whether the value conforms to an alternative as it is.
-/

namespace TreeSchema

/-! ### Kinds of values -/

namespace Value

theorem mapping_or_ne (v : Value) :
    (∃ values, v = .mapping values) ∨ ∀ values, v ≠ .mapping values := by
  cases v with
  | mapping values => exact .inl ⟨values, rfl⟩
  | _ => exact .inr nofun

theorem sequence_or_ne (v : Value) :
    (∃ items, v = .sequence items) ∨ ∀ items, v ≠ .sequence items := by
  cases v with
  | sequence items => exact .inl ⟨items, rfl⟩
  | _ => exact .inr nofun

end Value

/-! ### Options -/

namespace RestrictOptions

@[simp] theorem fillMode?_plain (coerce : Bool) : (plain coerce).fillMode? = none := rfl

/-- Every attempt of a union is made without filling. -/
theorem eq_plain_of_mem_attempts {β : Type} {o : RestrictOptions} {alternatives : List β}
    {attempt : RestrictOptions × β} (h : attempt ∈ o.attempts alternatives) :
    attempt.1 = plain attempt.1.coerce := by
  obtain ⟨pass, hp, h⟩ := List.mem_flatMap.mp h
  obtain ⟨alternative, -, rfl⟩ := List.mem_map.mp h
  rcases List.mem_cons.mp hp with rfl | hp
  · rfl
  · split at hp
    · obtain rfl := List.mem_singleton.mp hp
      rfl
    · cases hp

/-- The attempts without conversion come first. -/
theorem attempts_eq_append {β : Type} (o : RestrictOptions) (alternatives : List β) :
    ∃ others, o.attempts alternatives = alternatives.map (plain false, ·) ++ others :=
  ⟨_, by rw [attempts, passes, List.flatMap_cons]⟩

end RestrictOptions

namespace Document

variable {α : Type}

/-! ### Parts -/

/-- What a field of an object becomes, given the value under its key. -/
def restrictField (d : Document α) (o : RestrictOptions) (field : Field (Schema α)) :
    Option Value → Except (RecursionError α) (Option Value)
  | some x => d.restrict o field.type x
  | none => if field.optional then .ok none else d.fillFor o field.type

/-- What an item becomes by the part that describes it, given the item at its position:
what restriction makes of it, or else what the part is filled with. -/
def restrictItem (d : Document α) (o : RestrictOptions)
    (fill : Schema α → Except (RecursionError α) (Option Value)) (part : Schema α) :
    Option Value → Except (RecursionError α) (Option Value)
  | some x => orElse (d.restrict o part x) fun _ => fill part
  | none => fill part

/-- What the items become that are described one by one, if all of them become something. -/
def restrictItems (d : Document α) (o : RestrictOptions)
    (fill : Schema α → Except (RecursionError α) (Option Value)) (parts : List (Schema α))
    (items : List Value) : Except (RecursionError α) (Option (List Value)) :=
  (traverse 0 parts fun i part _ => OptionT.mk (d.restrictItem o fill part items[i]?)).run

section

variable {d : Document α} {o : RestrictOptions} {mark : α} {v : Value}

section

variable {fill : Schema α → Except (RecursionError α) (Option Value)} {parts : List (Schema α)}
  {items : List Value}

theorem restrictItem_of_restrict {part : Schema α} {x y : Value}
    (h : d.restrict o part x = .ok (some y)) :
    d.restrictItem o fill part (some x) = .ok (some y) := by
  rw [restrictItem, h]
  rfl

theorem restrictItems_eq_ok_some_iff {results : List Value} :
    d.restrictItems o fill parts items = .ok (some results) ↔
      Pointwise (fun i part y => d.restrictItem o fill part items[i]? = .ok (some y))
        parts results := by
  rw [restrictItems,
    traverse_run_eq_some_iff (f := fun i part => d.restrictItem o fill part items[i]?)]
  simp only [Nat.zero_add]

theorem exists_restrictItems
    (h : ∀ (i : Nat) part, parts[i]? = some part →
      ∃ y?, d.restrictItem o fill part items[i]? = .ok y?) :
    ∃ results?, d.restrictItems o fill parts items = .ok results? := by
  refine exists_traverse_run (f := fun i part => d.restrictItem o fill part items[i]?) ?_
  intro i part hp
  rw [Nat.zero_add]
  exact h i part hp

end

/-! ### Scalars -/

@[simp] theorem restrict_any : d.restrict o (.node mark .any) v = .ok (some v) := by
  rw [restrict]

theorem restrict_scalar {type : ScalarType} :
    d.restrict o (.node mark (.scalar type)) v =
      if type.accepts v then .ok (some v)
      else d.orFill o (.node mark (.scalar type)) (type.coerceIf o.coerce v) := by
  rw [restrict]

theorem restrict_enum {members : OneOrMore Literal} :
    d.restrict o (.node mark (.enum members)) v =
      if members.hasValue v then .ok (some v)
      else d.orFill o (.node mark (.enum members))
        ((if o.coerce then members.coerceTo? v else none).map Literal.toValue) := by
  rw [restrict]

/-! ### Mappings -/

theorem restrict_object {fields : Mapping (Field (Schema α))} {values : Mapping Value} :
    d.restrict o (.node mark (.object fields)) (.mapping values) =
      fields.traverse (fun e _ => d.restrictField o e.2 (values.get? e.1)) >>=
        fun results => .ok (some (.mapping results.somes)) := by
  rw [restrict]
  refine congrArg (· >>= _) (congrArg fields.traverse ?_)
  funext e _
  split
  · next x hx => rw [hx, restrictField]
  · next hx => rw [hx, restrictField]

theorem restrict_object_eq_ok_iff {fields : Mapping (Field (Schema α))} {values : Mapping Value}
    {r? : Option Value} :
    d.restrict o (.node mark (.object fields)) (.mapping values) = .ok r? ↔
      ∃ results, fields.Pointwise (fun key field y? =>
        d.restrictField o field (values.get? key) = .ok y?) results ∧
        r? = some (.mapping results.somes) := by
  rw [restrict_object, bind_eq_ok_iff]
  simp only [Mapping.traverse_eq_ok_iff (f := fun e : String × Field (Schema α) =>
    d.restrictField o e.2 (values.get? e.1))]
  constructor
  · rintro ⟨results, hr, h⟩
    exact ⟨results, hr, (Except.ok.inj h).symm⟩
  · rintro ⟨results, hr, rfl⟩
    exact ⟨results, hr, rfl⟩

theorem restrict_dictionary_eq_ok_iff {type : Schema α} {values : Mapping Value}
    {r? : Option Value} :
    d.restrict o (.node mark (.dictionary type)) (.mapping values) = .ok r? ↔
      ∃ results, values.Pointwise (fun _ x y? => d.restrict o type x = .ok y?) results ∧
        r? = some (.mapping results.somes) := by
  rw [restrict, bind_eq_ok_iff]
  simp only [Mapping.traverse_eq_ok_iff (f := fun e : String × Value => d.restrict o type e.2)]
  constructor
  · rintro ⟨results, hr, h⟩
    exact ⟨results, hr, (Except.ok.inj h).symm⟩
  · rintro ⟨results, hr, rfl⟩
    exact ⟨results, hr, rfl⟩

/-! ### Sequences -/

theorem restrict_array {initial : List (Schema α)} {rest : Schema α}
    {items : List Value} :
    d.restrict o (.node mark (.array initial rest)) (.sequence items) =
      d.restrictItems o (d.fillInitial o) initial items >>= fun
        | none => d.fillFor o (.node mark (.array initial rest))
        | some first =>
          traverse 0 (items.drop initial.length) (fun _ x _ => d.restrict o rest x) >>=
            fun others => .ok (some (.sequence (first ++ others.filterMap id))) := by
  rw [restrict, restrictItems]
  refine congrArg₂ (fun x f => OptionT.run x >>= f) (congrArg (traverse 0 initial) ?_) ?_
  · funext i part _
    congr 1
    split
    · next x hx => rw [hx, restrictItem]
    · next hx => rw [hx, restrictItem]
  · funext first?
    cases first? <;> rfl

/-- An array becomes a sequence of what its items become, or it is filled for want of
an initial item. -/
theorem restrict_array_eq_ok_iff {initial : List (Schema α)} {rest : Schema α}
    {items : List Value} {r? : Option Value} :
    d.restrict o (.node mark (.array initial rest)) (.sequence items) = .ok r? ↔
      (∃ first others,
        Pointwise (fun i part y => d.restrictItem o (d.fillInitial o) part items[i]? = .ok (some y))
          initial first ∧
        Pointwise (fun _ x y? => d.restrict o rest x = .ok y?) (items.drop initial.length) others ∧
        r? = some (.sequence (first ++ others.filterMap id))) ∨
      d.restrictItems o (d.fillInitial o) initial items = .ok none ∧
        d.fillFor o (.node mark (.array initial rest)) = .ok r? := by
  rw [restrict_array, bind_eq_ok_iff]
  constructor
  · rintro ⟨first?, hfirst, h⟩
    cases first? with
    | none => exact .inr ⟨hfirst, h⟩
    | some first =>
      obtain ⟨others, hothers, h⟩ := bind_eq_ok h
      cases h
      exact .inl ⟨first, others, restrictItems_eq_ok_some_iff.mp hfirst,
        traverse_eq_ok_iff.mp hothers, rfl⟩
  · rintro (⟨first, others, hfirst, hothers, rfl⟩ | ⟨hnone, h⟩)
    · refine ⟨some first, restrictItems_eq_ok_some_iff.mpr hfirst, ?_⟩
      exact bind_eq_ok_iff.mpr ⟨others, traverse_eq_ok_iff.mpr hothers, rfl⟩
    · exact ⟨none, hnone, h⟩

/-- An array becomes the sequence of what its items become where each becomes something. -/
theorem restrict_array_of_pointwise {initial : List (Schema α)} {rest : Schema α}
    {items rs : List Value} (hl : initial.length ≤ items.length)
    (hr : Pointwise (fun i x y => d.restrict o (Rule.itemAt initial rest i) x = .ok (some y))
      items rs) :
    d.restrict o (.node mark (.array initial rest)) (.sequence items) =
      .ok (some (.sequence rs)) := by
  have length := hr.length
  refine restrict_array_eq_ok_iff.mpr (.inl ⟨rs.take initial.length,
    (rs.drop initial.length).map some, ⟨by simp; omega, ?_⟩, ⟨by simp [length], ?_⟩, ?_⟩)
  · intro i part y hp hy
    obtain ⟨hi, -⟩ := List.getElem?_eq_some_iff.mp hp
    rw [List.getElem?_take_of_lt hi] at hy
    obtain ⟨x, hx, h⟩ := hr.exists_left hy
    rw [Rule.itemAt_of_getElem? hp] at h
    rw [hx]
    exact restrictItem_of_restrict h
  · intro i x y? hx hy
    rw [List.getElem?_drop] at hx
    rw [List.getElem?_map, List.getElem?_drop, Option.map_eq_some_iff] at hy
    obtain ⟨y, hy, rfl⟩ := hy
    have h := hr.related _ x y hx hy
    rw [Rule.itemAt_length_add] at h
    exact h
  · rw [List.filterMap_map, Function.id_comp, List.filterMap_some, List.take_append_drop]

theorem restrict_tuple {elements : OneOrMore (Schema α)} {items : List Value} :
    d.restrict o (.node mark (.tuple elements)) (.sequence items) =
      if items.length ≠ elements.toList.length ∧ o.fillMode?.isNone then .ok none
      else d.restrictItems o (d.fillFor o) elements.toList items >>= fun results =>
        d.orFill o (.node mark (.tuple elements)) (results.map .sequence) := by
  rw [restrict, restrictItems]
  congr 1
  refine congrArg (fun x => OptionT.run x >>= _) (congrArg (traverse 0 elements.toList) ?_)
  funext i part _
  congr 1
  split
  · next x hx => rw [hx, restrictItem]
  · next hx => rw [hx, restrictItem]

/-- A tuple of another length is absent without filling. Else it becomes the sequence
of what its elements become, or it is filled for want of an element. -/
theorem restrict_tuple_eq_ok_iff {elements : OneOrMore (Schema α)} {items : List Value}
    {r? : Option Value} :
    d.restrict o (.node mark (.tuple elements)) (.sequence items) = .ok r? ↔
      (items.length ≠ elements.toList.length ∧ o.fillMode? = none) ∧ r? = none ∨
      (items.length = elements.toList.length ∨ o.fillMode? ≠ none) ∧
        ((∃ results, Pointwise (fun i part y =>
            d.restrictItem o (d.fillFor o) part items[i]? = .ok (some y)) elements.toList results ∧
          r? = some (.sequence results)) ∨
        d.restrictItems o (d.fillFor o) elements.toList items = .ok none ∧
          d.fillFor o (.node mark (.tuple elements)) = .ok r?) := by
  rw [restrict_tuple]
  by_cases hl : items.length ≠ elements.toList.length ∧ o.fillMode? = none
  · rw [if_pos (by simpa using hl)]
    constructor
    · intro h
      exact .inl ⟨hl, (Except.ok.inj h).symm⟩
    · rintro (⟨-, rfl⟩ | ⟨h, -⟩)
      · rfl
      · exact absurd h (by simpa using hl)
  · rw [if_neg (by simpa using hl), bind_eq_ok_iff]
    constructor
    · rintro ⟨results?, hresults, h⟩
      refine .inr ⟨by grind, ?_⟩
      cases results? with
      | none => exact .inr ⟨hresults, h⟩
      | some results =>
        exact .inl ⟨results, restrictItems_eq_ok_some_iff.mp hresults, (Except.ok.inj h).symm⟩
    · rintro (⟨h, -⟩ | ⟨-, h⟩)
      · exact absurd h hl
      · rcases h with ⟨results, hresults, rfl⟩ | ⟨hnone, h⟩
        · exact ⟨some results, restrictItems_eq_ok_some_iff.mpr hresults, rfl⟩
        · exact ⟨none, hnone, h⟩

/-- A tuple becomes the sequence of what its items become where each becomes something. -/
theorem restrict_tuple_of_pointwise {elements : OneOrMore (Schema α)} {items rs : List Value}
    (hl : items.length = elements.toList.length)
    (hr : Pointwise (fun i part y => ∃ x, items[i]? = some x ∧
      d.restrict o part x = .ok (some y)) elements.toList rs) :
    d.restrict o (.node mark (.tuple elements)) (.sequence items) =
      .ok (some (.sequence rs)) := by
  refine restrict_tuple_eq_ok_iff.mpr (.inr ⟨.inl hl, .inl ⟨rs, hr.mono ?_, rfl⟩⟩)
  rintro i part y ⟨x, hx, h⟩
  rw [hx]
  exact restrictItem_of_restrict h

/-! ### Values of another kind -/

theorem restrict_object_of_ne {fields : Mapping (Field (Schema α))}
    (h : ∀ values, v ≠ .mapping values) : d.restrict o (.node mark (.object fields)) v =
      d.fillFor o (.node mark (.object fields)) := by
  cases v with
  | mapping values => exact absurd rfl (h values)
  | _ => rw [restrict]; simp

theorem restrict_dictionary_of_ne {type : Schema α} (h : ∀ values, v ≠ .mapping values) :
    d.restrict o (.node mark (.dictionary type)) v =
      d.fillFor o (.node mark (.dictionary type)) := by
  cases v with
  | mapping values => exact absurd rfl (h values)
  | _ => rw [restrict]; simp

theorem restrict_array_of_ne {initial : List (Schema α)} {rest : Schema α}
    (h : ∀ items, v ≠ .sequence items) : d.restrict o (.node mark (.array initial rest)) v =
      d.fillFor o (.node mark (.array initial rest)) := by
  cases v with
  | sequence items => exact absurd rfl (h items)
  | _ => rw [restrict]; simp

theorem restrict_tuple_of_ne {elements : OneOrMore (Schema α)}
    (h : ∀ items, v ≠ .sequence items) : d.restrict o (.node mark (.tuple elements)) v =
      d.fillFor o (.node mark (.tuple elements)) := by
  cases v with
  | sequence items => exact absurd rfl (h items)
  | _ => rw [restrict]; simp

/-! ### References and unions -/

theorem restrict_ref {label : String} {body : Schema α} (hb : d.body? label = some body) :
    d.restrict o (.node mark (.ref label)) v = d.restrict o body v := by
  rw [restrict]
  split
  · next body' hb' => rw [Option.some.inj (hb.symm.trans hb')]
  · next hb' => simp [hb] at hb'

theorem restrict_ref_of_none {label : String} (hb : d.body? label = none) :
    d.restrict o (.node mark (.ref label)) v = .ok (some v) := by
  rw [restrict]
  split
  · next body hb' => simp [hb] at hb'
  · rfl

/-- A schema makes of a value what the schema at the end of its references does. -/
theorem restrict_resolve (n : Schema α) : d.restrict o (d.resolve n) v = d.restrict o n v :=
  d.apply_resolve (f := fun n => d.restrict o n v) (fun _ _ _ hb => restrict_ref hb) n

/-- What a value becomes by one attempt of a union. -/
def attempt (d : Document α) (v : Value) (attempt : RestrictOptions × Schema α) :
    Except (RecursionError α) (Option Candidate) :=
  d.restrict attempt.1 attempt.2 v >>= fun result =>
    .ok (result.map fun w => ⟨w, d.conforms attempt.2 w⟩)

private theorem find?_attach {β : Type} (xs : List β) (p : β → Bool) :
    (xs.attach.find? fun x => p x.1).map (·.1) = xs.find? p := by
  have h := List.find?_map (p := p) (f := Subtype.val) (l := xs.attach)
  rw [List.attach_map_subtype_val] at h
  exact h.symm

theorem restrict_oneof_of_find? {alternatives : OneOrMore (Schema α)} {alternative : Schema α}
    (h : (alternatives.toList.find? fun a => d.conforms a v) = some alternative) :
    d.restrict o (.node mark (.oneof alternatives)) v = d.restrict o alternative v := by
  rw [← find?_attach] at h
  obtain ⟨found, hfound, rfl⟩ := Option.map_eq_some_iff.mp h
  rw [restrict, hfound]

theorem restrict_oneof_of_find?_eq_none {alternatives : OneOrMore (Schema α)}
    (h : (alternatives.toList.find? fun a => d.conforms a v) = none) :
    d.restrict o (.node mark (.oneof alternatives)) v =
      resultsUntil Candidate.conforms (o.attempts alternatives.toList)
        (fun attempt _ => d.attempt v attempt) >>=
        d.chooseCandidate o (.node mark (.oneof alternatives)) := by
  rw [← find?_attach, Option.map_eq_none_iff] at h
  rw [restrict, h]
  rfl

end

end Document

end TreeSchema
