import TreeSchema.Proofs.Value.Equality
import TreeSchema.Schema.Source

/-!
# Schemas with equal sources

Sources are compared as values: the order of fields does not matter, and enumerations may
write a number in either way that is equal. Still a source tells its rule. Every directive
has its word, no type is named as another, and `optional` heads the source of a field only,
never that of a schema.

* `Rule.Alike` — rules that ask for the same, given what is alike about their parts.
* `Schema.toSource_node` — the source of a schema from those of its parts.
* `Schema.alike_of_beq_toSource` — schemas with equal sources have rules alike, and parts
  with equal sources.
-/

namespace TreeSchema

/-! ### Rules -/

namespace Rule

variable {β γ : Type}

/-- Applies a function to every part. -/
def map (f : β → γ) : Rule β → Rule γ
  | scalar type => scalar type
  | any => any
  | enum members => enum members
  | object fields => object (fields.map fun field => ⟨field.optional, f field.type⟩)
  | array initial rest => array (initial.map f) (f rest)
  | tuple elements => tuple (elements.map f)
  | dictionary values => dictionary (f values)
  | oneof alternatives => oneof (alternatives.map f)
  | ref label => ref label

theorem mapParts_eq_map (rule : Rule β) (f : β → γ) :
    (rule.mapParts fun _ _ part _ => f part) = rule.map f := by
  have parts : ∀ xs : List β, (xs.attach.mapIdx fun _ x => f x.1) = xs.map f := by
    intro xs
    rw [mapIdx_attach (k := fun _ => f) fun _ _ => rfl, mapIdx_eq_map]
  cases rule with
  | object fields =>
    rw [mapParts, map]
    congr 1
    apply Mapping.ext_entries
    rw [Mapping.entries_ofEntries, Mapping.entries_map, ← mapIdx_eq_map]
    exact mapIdx_attach fun _ _ => rfl
  | array initial rest => rw [mapParts, map, parts]
  | tuple elements =>
    rw [mapParts, map, parts]
    rfl
  | oneof alternatives =>
    rw [mapParts, map, parts]
    rfl
  | _ => rfl

/-- The rules ask for the same of a value, if related parts do. -/
inductive Alike (R : β → β → Prop) : Rule β → Rule β → Prop where
  | scalar {type : ScalarType} : Alike R (.scalar type) (.scalar type)
  | any : Alike R .any .any
  | enum {members members' : OneOrMore Literal} :
      Pointwise (fun _ l m => (l.toValue == m.toValue) = true) members.toList members'.toList →
      Alike R (.enum members) (.enum members')
  | object {fields fields' : Mapping (Field β)} :
      fields.Matching (fun f g => f.optional = g.optional ∧ R f.type g.type) fields' →
      Alike R (.object fields) (.object fields')
  | array {initial initial' : List β} {rest rest' : β} :
      Pointwise (fun _ => R) initial initial' → R rest rest' →
      Alike R (.array initial rest) (.array initial' rest')
  | tuple {elements elements' : OneOrMore β} :
      Pointwise (fun _ => R) elements.toList elements'.toList →
      Alike R (.tuple elements) (.tuple elements')
  | dictionary {values values' : β} : R values values' →
      Alike R (.dictionary values) (.dictionary values')
  | oneof {alternatives alternatives' : OneOrMore β} :
      Pointwise (fun _ => R) alternatives.toList alternatives'.toList →
      Alike R (.oneof alternatives) (.oneof alternatives')
  | ref {label : String} : Alike R (.ref label) (.ref label)

end Rule

/-! ### Equal directives -/

theorem ScalarType.name_ne_any (t : ScalarType) : t.name ≠ "any" := by
  cases t <;> simp [name]

theorem ScalarType.name_injective {s t : ScalarType} (h : s.name = t.name) : s = t := by
  have := congrArg ScalarType.ofName? h
  rw [ofName?_name, ofName?_name] at this
  exact Option.some.inj this

namespace Directive

theorem name_injective {d e : Directive} (h : d.name = e.name) : d = e := by
  have := congrArg ofName? h
  rw [ofName?_name, ofName?_name] at this
  exact Option.some.inj this

theorem beq_source_iff {d e : Directive} {xs ys : List Value} :
    (d.source xs == e.source ys) = true ↔
      d = e ∧ Pointwise (fun _ x y => (x == y) = true) xs ys := by
  rw [source, source, Value.beq_sequence_iff]
  simp only [Value.sequence.injEq, exists_eq_left', pointwise_cons_iff, Value.beq_eq_equal,
    Value.equal, beq_iff_eq]
  exact and_congr_left fun _ => ⟨name_injective, congrArg name⟩

end Directive

/-! ### Equal sources of schemas -/

namespace Schema

variable {α : Type}

theorem toSource_node (mark : α) (rule : Rule (Schema α)) :
    (node mark rule).toSource = (rule.map toSource).source := by
  rw [toSource, Rule.mapParts_eq_map]

/-- No schema has the source of a field that is declared optional. -/
theorem toSource_ne_optional (n : Schema α) (w : Value) :
    ¬ (n.toSource == Directive.optional.source [w]) = true := by
  obtain ⟨mark, rule⟩ := n
  rw [toSource_node]
  intro h
  cases rule with
  | scalar | any | object => cases Value.kind_eq_of_beq h
  | _ => cases (Directive.beq_source_iff.mp h).1

theorem beq_toSource_of_field {f g : Field (Schema α)}
    (h : (Field.source ⟨f.optional, f.type.toSource⟩ ==
      Field.source ⟨g.optional, g.type.toSource⟩) = true) :
    f.optional = g.optional ∧ (f.type.toSource == g.type.toSource) = true := by
  obtain ⟨optional, n⟩ := f
  obtain ⟨optional', m⟩ := g
  cases optional with
  | false =>
    cases optional' with
    | false => exact ⟨rfl, h⟩
    | true => exact absurd h (toSource_ne_optional n _)
  | true =>
    cases optional' with
    | false => exact absurd (Value.beq_symm h) (toSource_ne_optional m _)
    | true =>
      obtain ⟨-, types⟩ := Directive.beq_source_iff.mp h
      exact ⟨rfl, (pointwise_cons_iff.mp types).1⟩

/-- **Schemas with equal sources have rules alike.** -/
theorem alike_of_beq_toSource {mark mark' : α} {rule rule' : Rule (Schema α)}
    (h : ((node mark rule).toSource == (node mark' rule').toSource) = true) :
    rule.Alike (fun n m => (n.toSource == m.toSource) = true) rule' := by
  rw [toSource_node, toSource_node] at h
  cases rule with
  | scalar type =>
    cases rule' with
    | scalar type' =>
      obtain rfl := ScalarType.name_injective (Value.beq_string_iff.mp h)
      exact .scalar
    | any => exact absurd (Value.beq_string_iff.mp h) (ScalarType.name_ne_any type)
    | _ => cases Value.kind_eq_of_beq h
  | any =>
    cases rule' with
    | any => exact .any
    | scalar type' => exact absurd (Value.beq_string_iff.mp h).symm (ScalarType.name_ne_any type')
    | _ => cases Value.kind_eq_of_beq h
  | enum members =>
    cases rule' with
    | enum members' =>
      obtain ⟨-, literals⟩ := Directive.beq_source_iff.mp h
      exact .enum (pointwise_map_iff.mp literals)
    | scalar | any | object => cases Value.kind_eq_of_beq h
    | _ => cases (Directive.beq_source_iff.mp h).1
  | object fields =>
    cases rule' with
    | object fields' =>
      obtain ⟨_, he, keys, related⟩ := Value.beq_mapping_iff.mp h
      cases he
      refine .object ⟨?_, ?_⟩
      · simpa using keys
      · intro key f g hf hg
        exact beq_toSource_of_field (related key _ _ (by simp [hf]) (by simp [hg]))
    | _ => cases Value.kind_eq_of_beq h
  | array initial rest =>
    cases rule' with
    | array initial' rest' =>
      obtain ⟨-, items⟩ := Directive.beq_source_iff.mp h
      obtain ⟨hinitial, hrest⟩ := items.of_concat
      exact .array (pointwise_map_iff.mp hinitial) hrest
    | scalar | any | object => cases Value.kind_eq_of_beq h
    | _ => cases (Directive.beq_source_iff.mp h).1
  | tuple elements =>
    cases rule' with
    | tuple elements' =>
      obtain ⟨-, types⟩ := Directive.beq_source_iff.mp h
      rw [OneOrMore.toList_map, OneOrMore.toList_map, pointwise_map_iff] at types
      exact .tuple types
    | scalar | any | object => cases Value.kind_eq_of_beq h
    | _ => cases (Directive.beq_source_iff.mp h).1
  | dictionary values =>
    cases rule' with
    | dictionary values' =>
      obtain ⟨-, types⟩ := Directive.beq_source_iff.mp h
      exact .dictionary (pointwise_cons_iff.mp types).1
    | scalar | any | object => cases Value.kind_eq_of_beq h
    | _ => cases (Directive.beq_source_iff.mp h).1
  | oneof alternatives =>
    cases rule' with
    | oneof alternatives' =>
      obtain ⟨-, types⟩ := Directive.beq_source_iff.mp h
      rw [OneOrMore.toList_map, OneOrMore.toList_map, pointwise_map_iff] at types
      exact .oneof types
    | scalar | any | object => cases Value.kind_eq_of_beq h
    | _ => cases (Directive.beq_source_iff.mp h).1
  | ref label =>
    cases rule' with
    | ref label' =>
      obtain ⟨-, labels⟩ := Directive.beq_source_iff.mp h
      obtain rfl := Value.beq_string_iff.mp (pointwise_cons_iff.mp labels).1
      exact .ref
    | scalar | any | object => cases Value.kind_eq_of_beq h
    | _ => cases (Directive.beq_source_iff.mp h).1

end Schema

end TreeSchema
