import TreeSchema.Proofs.Document.Closure
import TreeSchema.Proofs.Value.Reordering
import TreeSchema.Validation.Basic

/-!
# Conformance

`Document.Conforms` says which values a schema accepts, rule by rule and without
reference to mismatches, paths or the order of checks. What a mapping is forgiven,
keys that are not declared or required fields that are absent, is its parameter.

* `Document.decides` — validation finds no mismatch exactly where the value conforms.
* `Document.Conforms.mono` — what conforms conforms where more is forgiven.
* `Document.Conforms.reordered` — the order of entries is irrelevant.
-/

namespace TreeSchema

theorem ScalarType.isScalar_of_accepts {type : ScalarType} {v : Value}
    (h : type.accepts v = true) : v.isScalar = true := by
  cases type <;> cases v <;> simp_all [accepts, Value.isScalar]

/-- What is equal to a literal is a scalar. -/
theorem Literal.isScalar_of_beq {member : Literal} {v : Value}
    (h : (member.toValue == v) = true) : v.isScalar = true := by
  cases member <;> cases v <;>
    simp_all [toValue, Value.beq_eq_equal, Value.equal, Value.isScalar]

theorem OneOrMore.hasValue_iff {members : OneOrMore Literal} {v : Value} :
    members.hasValue v = true ↔ ∃ member ∈ members.toList, (member.toValue == v) = true :=
  List.any_eq_true

/-- What mappings are forgiven by the objects they are held against. -/
structure Leniency where
  /-- Keys that are not declared. -/
  extraFields : Bool
  /-- Required fields that are absent. -/
  absentFields : Bool

namespace Leniency

/-- Nothing is forgiven. -/
def strict : Leniency := ⟨false, false⟩

/-- Keys that are not declared are forgiven. -/
def loose : Leniency := ⟨true, false⟩

/-- Absent fields are forgiven. -/
def partly : Leniency := ⟨false, true⟩

end Leniency

namespace Document

variable {α : Type}

/-- The value conforms to the schema. -/
inductive Conforms (d : Document α) (l : Leniency) : Schema α → Value → Prop where
  | any {mark : α} {v : Value} : Conforms d l (.node mark .any) v
  | scalar {mark : α} {type : ScalarType} {v : Value} :
      type.accepts v = true → Conforms d l (.node mark (.scalar type)) v
  | enum {mark : α} {members : OneOrMore Literal} {member : Literal} {v : Value} :
      member ∈ members.toList → (member.toValue == v) = true →
      Conforms d l (.node mark (.enum members)) v
  | object {mark : α} {fields : Mapping (Field (Schema α))} {values : Mapping Value} :
      (∀ key field x, fields.get? key = some field → values.get? key = some x →
        Conforms d l field.type x) →
      (l.absentFields = false → ∀ key field, fields.get? key = some field →
        field.optional = false → key ∈ values.keys) →
      (l.extraFields = false → ∀ key ∈ values.keys, key ∈ fields.keys) →
      Conforms d l (.node mark (.object fields)) (.mapping values)
  | array {mark : α} {initial : List (Schema α)} {rest : Schema α} {items : List Value} :
      initial.length ≤ items.length →
      (∀ (i : Nat) part x, initial[i]? = some part → items[i]? = some x → Conforms d l part x) →
      (∀ x ∈ items.drop initial.length, Conforms d l rest x) →
      Conforms d l (.node mark (.array initial rest)) (.sequence items)
  | tuple {mark : α} {elements : OneOrMore (Schema α)} {items : List Value} :
      items.length = elements.toList.length →
      (∀ (i : Nat) part x, elements.toList[i]? = some part → items[i]? = some x →
        Conforms d l part x) →
      Conforms d l (.node mark (.tuple elements)) (.sequence items)
  | dictionary {mark : α} {type : Schema α} {values : Mapping Value} :
      (∀ key x, values.get? key = some x → Conforms d l type x) →
      Conforms d l (.node mark (.dictionary type)) (.mapping values)
  | oneof {mark : α} {alternatives : OneOrMore (Schema α)} {alternative : Schema α}
      {v : Value} : alternative ∈ alternatives.toList → Conforms d l alternative v →
      Conforms d l (.node mark (.oneof alternatives)) v
  | ref {mark : α} {label : String} {body : Schema α} {v : Value} :
      d.body? label = some body → Conforms d l body v →
      Conforms d l (.node mark (.ref label)) v

/-- What the items of an array are held against, by their positions. -/
theorem conforms_array_iff {d : Document α} {l : Leniency} {mark : α} {initial : List (Schema α)}
    {rest : Schema α} {v : Value} :
    d.Conforms l (.node mark (.array initial rest)) v ↔
      ∃ items, v = .sequence items ∧ initial.length ≤ items.length ∧
        ∀ (i : Nat) x, items[i]? = some x → d.Conforms l (Rule.itemAt initial rest i) x := by
  constructor
  · intro h
    cases h with
    | @array _ _ _ items hl hinitial hrest =>
    refine ⟨items, rfl, hl, ?_⟩
    intro i x hx
    by_cases hi : i < initial.length
    · have hp := List.getElem?_eq_getElem hi
      rw [Rule.itemAt_of_getElem? hp]
      exact hinitial i _ x hp hx
    · obtain ⟨j, rfl⟩ := Nat.exists_eq_add_of_le (Nat.le_of_not_lt hi)
      rw [Rule.itemAt_length_add]
      refine hrest x (List.mem_of_getElem? (i := j) ?_)
      rw [List.getElem?_drop]
      exact hx
  · rintro ⟨items, rfl, hl, h⟩
    refine .array hl ?_ ?_
    · intro i part x hp hx
      exact Rule.itemAt_of_getElem? hp ▸ h i x hx
    · intro x hx
      obtain ⟨i, hi⟩ := List.mem_iff_getElem?.mp hx
      rw [List.getElem?_drop] at hi
      exact Rule.itemAt_length_add initial rest i ▸ h _ x hi

/-! ### More is forgiven -/

/-- What conforms conforms where more is forgiven. -/
theorem Conforms.mono {d : Document α} {l l' : Leniency} {n : Schema α} {v : Value}
    (extra : l'.extraFields = false → l.extraFields = false)
    (absent : l'.absentFields = false → l.absentFields = false) (h : d.Conforms l n v) :
    d.Conforms l' n v := by
  induction h with
  | any => exact .any
  | scalar ha => exact .scalar ha
  | enum hm he => exact .enum hm he
  | object _ required known ih =>
    exact .object ih (fun hl => required (absent hl)) fun hl => known (extra hl)
  | array hl _ _ initial rest => exact .array hl initial rest
  | tuple hl _ ih => exact .tuple hl ih
  | dictionary _ ih => exact .dictionary ih
  | oneof ha _ ih => exact .oneof ha ih
  | ref hb _ ih => exact .ref hb ih

theorem Conforms.of_strict {d : Document α} {l : Leniency} {n : Schema α} {v : Value}
    (h : d.Conforms .strict n v) : d.Conforms l n v :=
  h.mono (fun _ => rfl) fun _ => rfl

/-! ### Another order of entries -/

/-- **The order of the entries of a value is irrelevant.** -/
theorem Conforms.reordered {d : Document α} {l : Leniency} {n : Schema α} {v w : Value}
    (h : d.Conforms l n v) (hw : v.Reordered w) : d.Conforms l n w := by
  induction h generalizing w with
  | any => exact .any
  | scalar ha =>
    rw [hw.eq_of_isScalar (ScalarType.isScalar_of_accepts ha)]
    exact .scalar ha
  | enum hm he =>
    rw [hw.eq_of_isScalar (Literal.isScalar_of_beq he)]
    exact .enum hm he
  | object _ required known ih =>
    obtain ⟨others, rfl, hk, hv⟩ := hw.of_mapping
    refine .object ?_ ?_ ?_
    · intro key field y hf hy
      obtain ⟨x, hx, hxy⟩ := hv key y hy
      exact ih key field x hf hx hxy
    · intro hl key field hf ho
      exact (hk key).mp (required hl key field hf ho)
    · intro hl key hkey
      exact known hl key ((hk key).mpr hkey)
  | @array mark initial rest items hl _ _ ihInitial ihRest =>
    obtain ⟨others, rfl, hlen, hv⟩ := hw.of_sequence
    refine .array (hlen ▸ hl) ?_ ?_
    · intro i part y hp hy
      obtain ⟨x, hx, hxy⟩ := hv i y hy
      exact ihInitial i part x hp hx hxy
    · intro y hy
      obtain ⟨i, hi⟩ := List.mem_iff_getElem?.mp hy
      rw [List.getElem?_drop] at hi
      obtain ⟨x, hx, hxy⟩ := hv _ y hi
      rw [← List.getElem?_drop] at hx
      exact ihRest x (List.mem_of_getElem? hx) hxy
  | tuple hl _ ih =>
    obtain ⟨others, rfl, hlen, hv⟩ := hw.of_sequence
    refine .tuple (hlen.trans hl) ?_
    intro i part y hp hy
    obtain ⟨x, hx, hxy⟩ := hv i y hy
    exact ih i part x hp hx hxy
  | dictionary _ ih =>
    obtain ⟨others, rfl, -, hv⟩ := hw.of_mapping
    refine .dictionary ?_
    intro key y hy
    obtain ⟨x, hx, hxy⟩ := hv key y hy
    exact ih key x hx hxy
  | oneof ha _ ih => exact .oneof ha (ih hw)
  | ref hb _ ih => exact .ref hb (ih hw)

/-! ### Values without mismatches, rule by rule -/

section Rules

variable {d : Document α} {strict : Bool} {mark : α} {v : Value} {path : Path}

theorem validate_scalar_eq_nil_iff {type : ScalarType} :
    d.validate strict (.node mark (.scalar type)) v path = [] ↔ type.accepts v = true := by
  rw [validate]
  split <;> simp_all

theorem validate_enum_eq_nil_iff {members : OneOrMore Literal} :
    d.validate strict (.node mark (.enum members)) v path = [] ↔
      ∃ member ∈ members.toList, (member.toValue == v) = true := by
  rw [validate, ← OneOrMore.hasValue_iff]
  split <;> simp_all

private theorem unknownFields_eq_nil_iff {fields : Mapping (Field (Schema α))}
    {values : Mapping Value} :
    (values.entries.filter fun e => !fields.contains e.1) = [] ↔
      ∀ key ∈ values.keys, key ∈ fields.keys := by
  rw [List.filter_eq_nil_iff]
  constructor
  · intro h key hk
    have he := Mapping.mem_entries_iff.mpr (values.get?_eq_some_value hk)
    exact Mapping.contains_iff.mp (by simpa using h _ he)
  · intro h e he
    have hk := Mapping.mem_keys_of_get? (Mapping.get?_of_mem_entries he)
    simpa using Mapping.contains_iff.mpr (h e.1 hk)

theorem validate_object_eq_nil_iff {fields : Mapping (Field (Schema α))} :
    d.validate strict (.node mark (.object fields)) v path = [] ↔
      ∃ values, v = .mapping values ∧
        (∀ key field, fields.get? key = some field →
          (∀ x, values.get? key = some x →
            d.validate strict field.type x (path ++ [.key key]) = []) ∧
          (field.optional = false → key ∈ values.keys)) ∧
        (strict = true → ∀ key ∈ values.keys, key ∈ fields.keys) := by
  cases v with
  | mapping values =>
    rw [validate]
    simp only [List.append_eq_nil_iff, List.flatMap_eq_nil_iff, Value.mapping.injEq,
      exists_eq_left']
    refine and_congr ?_ ?_
    · constructor
      · intro h key field hf
        have hfield := h (key, field) (Mapping.mem_entries_iff.mpr hf)
        split at hfield
        · next x hx =>
          refine ⟨?_, fun _ => Mapping.mem_keys_of_get? hx⟩
          intro y hy
          obtain rfl := Option.some.inj (hx.symm.trans hy)
          exact hfield
        · next hx =>
          refine ⟨fun y hy => by simp [hx] at hy, ?_⟩
          intro ho
          simp [ho] at hfield
      · intro h e he
        obtain ⟨present, required⟩ := h e.1 e.2 (Mapping.get?_of_mem_entries he)
        split
        · next x hx => exact present x hx
        · next hx =>
          by_cases ho : e.2.optional = true
          · rw [if_pos ho]
          · have := required (Bool.eq_false_iff.mpr ho)
            exact absurd this (Mapping.get?_eq_none_iff.mp hx)
    · cases strict with
      | false => simp
      | true =>
        rw [if_pos rfl, List.map_eq_nil_iff, unknownFields_eq_nil_iff]
        simp
  | _ => simp [validate]

private theorem getElem?_attach_eq_some_iff {β : Type} {xs : List β} {i : Nat}
    {x : { x : β // x ∈ xs }} : xs.attach[i]? = some x ↔ xs[i]? = some x.1 := by
  have values : xs.attach[i]?.map (·.1) = xs[i]? := by
    rw [← List.getElem?_map, List.attach_map_subtype_val]
  rw [← values, Option.map_eq_some_iff]
  constructor
  · intro h
    exact ⟨x, h, rfl⟩
  · rintro ⟨y, hy, hxy⟩
    rwa [← Subtype.ext hxy]

private theorem flatten_mapIdx_eq_nil_iff {β γ : Type} {xs : List β} {f : Nat → β → List γ} :
    (xs.mapIdx f).flatten = [] ↔ ∀ (i : Nat) x, xs[i]? = some x → f i x = [] := by
  simp only [List.eq_nil_iff_forall_not_mem, mem_flatten_mapIdx_iff]
  constructor
  · intro h i x hx y hy
    exact h y ⟨i, x, hx, hy⟩
  · rintro h y ⟨i, x, hx, hy⟩
    exact h i x hx y hy

theorem validate_array_eq_nil_iff {initial : List (Schema α)} {rest : Schema α} :
    d.validate strict (.node mark (.array initial rest)) v path = [] ↔
      ∃ items, v = .sequence items ∧ initial.length ≤ items.length ∧
        ∀ (i : Nat) x, items[i]? = some x →
          d.validate strict (Rule.itemAt initial rest i) x (path ++ [.index i]) = [] := by
  cases v with
  | sequence items =>
    rw [validate]
    simp only [List.append_eq_nil_iff, Value.sequence.injEq, exists_eq_left',
      flatten_mapIdx_eq_nil_iff, getElem?_attach_eq_some_iff]
    refine and_congr ?_ ?_
    · split <;> simp <;> omega
    · constructor
      · intro h i x hx
        exact h i ⟨x, List.mem_of_getElem? hx⟩ hx
      · rintro h i ⟨x, hm⟩ hx
        exact h i x hx
  | _ => simp [validate]

theorem validate_tuple_eq_nil_iff {elements : OneOrMore (Schema α)} :
    d.validate strict (.node mark (.tuple elements)) v path = [] ↔
      ∃ items, v = .sequence items ∧ items.length = elements.toList.length ∧
        ∀ (i : Nat) part x, elements.toList[i]? = some part → items[i]? = some x →
          d.validate strict part x (path ++ [.index i]) = [] := by
  cases v with
  | sequence items =>
    rw [validate]
    simp only [List.append_eq_nil_iff, Value.sequence.injEq, exists_eq_left',
      flatten_mapIdx_eq_nil_iff, List.getElem?_zip_eq_some, getElem?_attach_eq_some_iff]
    refine and_congr ?_ ?_
    · split <;> simp_all
    · constructor
      · intro h i part x hp hx
        exact h i (⟨x, List.mem_of_getElem? hx⟩, part) ⟨hx, hp⟩
      · rintro h i ⟨⟨x, hm⟩, part⟩ ⟨hx, hp⟩
        exact h i part x hp hx
  | _ => simp [validate]

theorem validate_dictionary_eq_nil_iff {type : Schema α} :
    d.validate strict (.node mark (.dictionary type)) v path = [] ↔
      ∃ values, v = .mapping values ∧ ∀ key x, values.get? key = some x →
        d.validate strict type x (path ++ [.key key]) = [] := by
  cases v with
  | mapping values =>
    rw [validate]
    simp only [List.flatMap_eq_nil_iff, Value.mapping.injEq, exists_eq_left']
    constructor
    · intro h key x hx
      exact h ⟨(key, x), Mapping.mem_entries_iff.mpr hx⟩ (List.mem_attach _ _)
    · rintro h ⟨⟨key, x⟩, he⟩ -
      exact h key x (Mapping.mem_entries_iff.mp he)
  | _ => simp [validate]

theorem someMismatches?_eq_none_iff {ms : List (Mismatch α)} :
    someMismatches? ms = none ↔ ms = [] := by
  cases ms <;> simp [someMismatches?]

/-- A traversal with an optional step gives up exactly where a step does. -/
private theorem traverse_eq_none_iff {β γ : Type} (start : Nat) {xs : List β}
    {f : β → Option γ} : traverse start xs (fun _ x _ => f x) = none ↔ ∃ x ∈ xs, f x = none := by
  induction xs generalizing start with
  | nil => simp [traverse]
  | cons x xs ih =>
    rw [traverse]
    simp only [List.mem_cons, exists_eq_or_imp, ← ih (start + 1)]
    cases hf : f x with
    | none => simp
    | some y => cases ht : traverse (start + 1) xs fun _ a _ => f a <;> simp

theorem validate_oneof_eq_nil_iff {alternatives : OneOrMore (Schema α)} :
    d.validate strict (.node mark (.oneof alternatives)) v path = [] ↔
      ∃ alternative ∈ alternatives.toList, d.validate strict alternative v path = [] := by
  have gives_up : (∃ alternative ∈ alternatives.toList,
        d.validate strict alternative v path = []) ↔
      traverse 0 alternatives.toList (fun _ alternative _ =>
        someMismatches? (d.validate strict alternative v path)) = none := by
    rw [traverse_eq_none_iff 0 (f := fun alternative =>
      someMismatches? (d.validate strict alternative v path))]
    simp only [someMismatches?_eq_none_iff]
  rw [gives_up, validate]
  split
  · next failures h => simp [h]
  · next h => simp [h]

theorem validate_ref {label : String} {body : Schema α} (h : d.body? label = some body) :
    d.validate strict (.node mark (.ref label)) v path = d.validate strict body v path := by
  rw [validate]
  split
  · next body' h' => rw [Option.some.inj (h.symm.trans h')]
  · next h' => simp [h] at h'

end Rules

/-! ### Validation decides conformance -/

/-- Wherever the value is found, validation finds no mismatch exactly if it conforms. -/
def Decides (d : Document α) (strict : Bool) (n : Schema α) (v : Value) : Prop :=
  ∀ path, d.validate strict n v path = [] ↔ d.Conforms ⟨!strict, false⟩ n v

section Rules

variable {d : Document α} {strict : Bool} {mark : α} {v : Value}

theorem decides_any : d.Decides strict (.node mark .any) v := by
  intro path
  rw [validate]
  exact ⟨fun _ => .any, fun _ => rfl⟩

theorem decides_scalar {type : ScalarType} :
    d.Decides strict (.node mark (.scalar type)) v := by
  intro path
  rw [validate_scalar_eq_nil_iff]
  constructor
  · exact .scalar
  · intro h
    cases h with
    | scalar ha => exact ha

theorem decides_enum {members : OneOrMore Literal} :
    d.Decides strict (.node mark (.enum members)) v := by
  intro path
  rw [validate_enum_eq_nil_iff]
  constructor
  · rintro ⟨member, hm, he⟩
    exact .enum hm he
  · intro h
    cases h with
    | enum hm he => exact ⟨_, hm, he⟩

theorem decides_object {fields : Mapping (Field (Schema α))}
    (ih : ∀ values, v = .mapping values → ∀ key field x, fields.get? key = some field →
      values.get? key = some x → d.Decides strict field.type x) :
    d.Decides strict (.node mark (.object fields)) v := by
  intro path
  rw [validate_object_eq_nil_iff]
  constructor
  · rintro ⟨values, rfl, hfields, hknown⟩
    refine .object ?_ ?_ ?_
    · intro key field x hf hx
      exact (ih values rfl key field x hf hx _).mp ((hfields key field hf).1 x hx)
    · intro _ key field hf ho
      exact (hfields key field hf).2 ho
    · intro hs
      exact hknown (by simpa using hs)
  · intro h
    cases h with
    | @object _ _ values present required known =>
    refine ⟨values, rfl, ?_, ?_⟩
    · intro key field hf
      refine ⟨?_, fun ho => required rfl key field hf ho⟩
      intro x hx
      exact (ih values rfl key field x hf hx _).mpr (present key field x hf hx)
    · intro hs
      exact known (by simpa using hs)

theorem decides_array {initial : List (Schema α)} {rest : Schema α}
    (ih : ∀ items, v = .sequence items → ∀ part ∈ (Rule.array initial rest).parts,
      ∀ x ∈ items, d.Decides strict part x) :
    d.Decides strict (.node mark (.array initial rest)) v := by
  intro path
  rw [validate_array_eq_nil_iff]
  constructor
  · rintro ⟨items, rfl, hl, hitems⟩
    refine conforms_array_iff.mpr ⟨items, rfl, hl, ?_⟩
    intro i x hx
    exact (ih items rfl _ (Rule.mem_parts_itemAt initial rest i) x
      (List.mem_of_getElem? hx) _).mp (hitems i x hx)
  · intro h
    obtain ⟨items, rfl, hl, hitems⟩ := conforms_array_iff.mp h
    refine ⟨items, rfl, hl, ?_⟩
    intro i x hx
    exact (ih items rfl _ (Rule.mem_parts_itemAt initial rest i) x
      (List.mem_of_getElem? hx) _).mpr (hitems i x hx)

theorem decides_tuple {elements : OneOrMore (Schema α)}
    (ih : ∀ items, v = .sequence items → ∀ part ∈ elements.toList, ∀ x ∈ items,
      d.Decides strict part x) :
    d.Decides strict (.node mark (.tuple elements)) v := by
  intro path
  rw [validate_tuple_eq_nil_iff]
  constructor
  · rintro ⟨items, rfl, hl, hitems⟩
    refine .tuple hl ?_
    intro i part x hp hx
    exact (ih items rfl part (List.mem_of_getElem? hp) x (List.mem_of_getElem? hx) _).mp
      (hitems i part x hp hx)
  · intro h
    cases h with
    | @tuple _ _ items hl hparts =>
    refine ⟨items, rfl, hl, ?_⟩
    intro i part x hp hx
    exact (ih items rfl part (List.mem_of_getElem? hp) x (List.mem_of_getElem? hx) _).mpr
      (hparts i part x hp hx)

theorem decides_dictionary {type : Schema α}
    (ih : ∀ values, v = .mapping values → ∀ key x, values.get? key = some x →
      d.Decides strict type x) :
    d.Decides strict (.node mark (.dictionary type)) v := by
  intro path
  rw [validate_dictionary_eq_nil_iff]
  constructor
  · rintro ⟨values, rfl, h⟩
    refine .dictionary ?_
    intro key x hx
    exact (ih values rfl key x hx _).mp (h key x hx)
  · intro h
    cases h with
    | @dictionary _ _ values hvalues =>
    refine ⟨values, rfl, ?_⟩
    intro key x hx
    exact (ih values rfl key x hx _).mpr (hvalues key x hx)

theorem decides_oneof {alternatives : OneOrMore (Schema α)}
    (ih : ∀ alternative ∈ alternatives.toList, d.Decides strict alternative v) :
    d.Decides strict (.node mark (.oneof alternatives)) v := by
  intro path
  rw [validate_oneof_eq_nil_iff]
  constructor
  · rintro ⟨alternative, ha, h⟩
    exact .oneof ha ((ih alternative ha path).mp h)
  · intro h
    cases h with
    | oneof ha h => exact ⟨_, ha, (ih _ ha path).mpr h⟩

theorem decides_ref {label : String} {body : Schema α} (hb : d.body? label = some body)
    (ih : d.Decides strict body v) : d.Decides strict (.node mark (.ref label)) v := by
  intro path
  rw [validate_ref hb, ih path]
  constructor
  · exact .ref hb
  · intro h
    cases h with
    | ref hb' h => exact Option.some.inj (hb.symm.trans hb') ▸ h

end Rules

/-- **Validation decides conformance**, of every value to every node of a document
whose references have targets. -/
theorem decides {d : Document α} (complete : d.Complete) (strict : Bool) {n : Schema α}
    (hn : n ∈ d.nodes) (v : Value) : d.Decides strict n v := by
  refine d.descent_nodes (motive := d.Decides strict) ?_ hn v
  intro mark rule v hn smaller unfolded
  cases rule with
  | any => exact decides_any
  | scalar type => exact decides_scalar
  | enum members => exact decides_enum
  | object fields =>
    refine decides_object ?_
    rintro values rfl key field x hf hx
    exact smaller _ (Rule.mem_parts_of_get? hf) x
      (Value.size_lt_of_get? hx)
  | array initial rest =>
    refine decides_array ?_
    rintro items rfl part hp x hx
    exact smaller part hp x (Value.size_lt_of_mem hx)
  | tuple elements =>
    refine decides_tuple ?_
    rintro items rfl part hp x hx
    exact smaller part (Rule.mem_parts_tuple hp) x (Value.size_lt_of_mem hx)
  | dictionary type =>
    refine decides_dictionary ?_
    rintro values rfl key x hx
    exact smaller type (Rule.mem_parts_dictionary type) x (Value.size_lt_of_get? hx)
  | oneof alternatives =>
    refine decides_oneof ?_
    intro alternative ha
    exact unfolded alternative (.alternative ha)
  | ref label =>
    obtain ⟨body, hb⟩ := complete mark label hn
    exact decides_ref hb (unfolded body (.target hb))

theorem conforms_iff {d : Document α} (complete : d.Complete) {n : Schema α} (hn : n ∈ d.nodes)
    {v : Value} : d.conforms n v = true ↔ d.Conforms .strict n v := by
  rw [conforms, List.isEmpty_iff]
  exact decides complete true hn v []

/-- **Validation against a node of a compiled document finds no mismatch exactly if
the value conforms**, wherever it is found and whether or not undeclared keys are
allowed. -/
theorem validate_eq_nil_iff_conforms {source : Value} {d : Document Site}
    (hd : compile source = .ok d) {n : Node} (hn : n ∈ d.nodes) (strict : Bool) (v : Value)
    (path : Path) : d.validate strict n v path = [] ↔ d.Conforms ⟨!strict, false⟩ n v :=
  decides (complete_of_compile hd) strict hn v path

/-- A tree of height one, whose entries are not in the order of their declaration. -/
def sapling : Value :=
  .mapping <| .ofList
    [("children", .sequence
      [.mapping <| .ofList [("text", .string "leaf"), ("children", .sequence [])]]),
      ("text", .string "stem")]

theorem conforms_sapling :
    compile treeSource = .ok tree.locate ∧ tree.locate.root ∈ tree.locate.nodes ∧
      tree.locate.Conforms .strict tree.locate.root sapling ∧
      ¬ tree.locate.Conforms .loose tree.locate.root (.mapping ∅) := by
  have decided := validate_eq_nil_iff_conforms compile_treeSource (root_mem_nodes _)
  refine ⟨compile_treeSource, root_mem_nodes _, ?_, ?_⟩
  · have fits : tree.locate.validate true tree.locate.root sapling [] = [] := by cbv
    exact (decided true sapling []).mp fits
  · have misses : (tree.locate.validate false tree.locate.root (.mapping ∅) []).length = 1 := by cbv
    intro h
    rw [(decided false _ []).mpr h] at misses
    cases misses

end Document

end TreeSchema
