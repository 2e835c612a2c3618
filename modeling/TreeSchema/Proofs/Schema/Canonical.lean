import TreeSchema.Proofs.Document.Lookup
import TreeSchema.Proofs.Schema.Places

/-!
# Canonical sources

A schema is written as the source that it was read from, but for the names of types: null is
written as a name, and `number` as `float`. Members of enumerations, labels and keys are no
types, and stay. Every node was read from the fragment of the source at its place.

* `Value.canonical` — a source with the canonical names of types.
* `Form.eq_source_of_ofValue` — the form of a source tells the source, but for the name of a type.
* `Schema.exists_fragments_of_ofSource` — what is read is a rule over what its fragments are
  read as.
* `Schema.toSource_of_ofSource` — **what is read is written as the canonical source.**
* `Schema.exists_fragment_of_mem_locate` — **every node is read from the fragment at its place.**
-/

namespace TreeSchema

/-! ### Canonical names -/

/-- The canonical name of a type. -/
def ScalarType.canonicalName (name : String) : String :=
  if name = "number" then float.name else name

/-- The arguments of the directive are types. -/
def Directive.takesTypes (word : String) : Bool :=
  word ≠ enum.name ∧ word ≠ ref.name

namespace Value

mutual
/-- A source with the canonical names of types. -/
def canonical : Value → Value
  | null => string ScalarType.null.name
  | string name => string (ScalarType.canonicalName name)
  | sequence (string word :: arguments) =>
    sequence (string word ::
      if Directive.takesTypes word then canonicalItems arguments else arguments)
  | mapping fields => mapping (canonicalFields fields)
  | v => v

def canonicalItems : List Value → List Value
  | [] => []
  | v :: vs => v.canonical :: canonicalItems vs

def canonicalFields : Mapping Value → Mapping Value
  | ⟨keys, nodup, value⟩ => ⟨keys, nodup, fun key => (value key).canonical⟩
end

theorem canonicalItems_eq (vs : List Value) : canonicalItems vs = vs.map canonical := by
  induction vs with
  | nil => rfl
  | cons v vs ih => rw [canonicalItems, ih, List.map_cons]

theorem canonicalFields_eq (fields : Mapping Value) :
    canonicalFields fields = fields.map canonical := by
  obtain ⟨keys, nodup, value⟩ := fields
  rw [canonicalFields]
  have keys_eq := Mapping.keys_map canonical ⟨keys, nodup, value⟩
  refine Mapping.ext_get? keys_eq.symm fun key => ?_
  rw [Mapping.get?_map]
  by_cases h : key ∈ keys
  · rw [Mapping.get?_eq_some_value ⟨keys, nodup, value⟩ h,
      Mapping.get?_eq_some_value ⟨keys, nodup, fun key => (value key).canonical⟩ h]
    rfl
  · rw [Mapping.get?_eq_none_iff.mpr h, Mapping.get?_eq_none_iff.mpr h]
    rfl

end Value

theorem Directive.canonical_source (directive : Directive) (arguments : List Value) :
    (directive.source arguments).canonical =
      directive.source
        (if takesTypes directive.name then arguments.map Value.canonical else arguments) := by
  rw [source, Value.canonical, Value.canonicalItems_eq]
  rfl

theorem Field.canonical_source (field : Field Value) :
    field.source.canonical = Field.source ⟨field.optional, field.type.canonical⟩ := by
  obtain ⟨optional, type⟩ := field
  cases optional with
  | true => exact Directive.canonical_source .optional [type]
  | false => rfl

/-- **The canonical source of a rule** is made of those of its parts. -/
theorem Rule.canonical_source (rule : Rule Value) :
    rule.source.canonical = (rule.map Value.canonical).source := by
  cases rule with
  | scalar type => cases type <;> rfl
  | any => rfl
  | object fields =>
    rw [source, Value.canonical, Value.canonicalFields_eq, map, source, Mapping.map_map,
      Mapping.map_map]
    simp only [Field.canonical_source]
  | array initial rest =>
    rw [source, Directive.canonical_source, map, source]
    simp [Directive.takesTypes, Directive.name]
  | enum members => exact Directive.canonical_source .enum _
  | ref label => exact Directive.canonical_source .ref _
  | tuple elements => exact Directive.canonical_source .tuple _
  | dictionary values => exact Directive.canonical_source .dictionary _
  | oneof alternatives => exact Directive.canonical_source .oneof _

/-! ### Forms and their sources -/

namespace Form

/-- The source of a form. -/
def source : Form → Value
  | scalar type => .string type.name
  | any => .string "any"
  | enum members => Directive.enum.source members.toList
  | tuple elements => Directive.tuple.source elements.toList
  | array items => Directive.array.source items.toList
  | dictionary values => Directive.dictionary.source [values]
  | oneof alternatives => Directive.oneof.source alternatives.toList
  | ref label => Directive.ref.source [.string label]
  | object fields => .mapping fields

theorem source_of_ofDirective {directive : Directive} {arguments : List Value} {form : Form}
    (h : ofDirective directive arguments = .ok form) :
    form.source = directive.source arguments := by
  have many : ∀ {make : OneOrMore Value → Form},
      (∀ xs, (make xs).source = directive.source xs.toList) →
      (someArguments directive arguments).map make = .ok form →
      form.source = directive.source arguments := by
    intro make made h
    cases ha : someArguments directive arguments with
    | error e =>
      rw [ha] at h
      cases h
    | ok xs =>
      rw [ha] at h
      cases h
      rw [made, toList_of_someArguments ha]
  cases directive with
  | enum | tuple | array | oneof => exact many (fun _ => rfl) h
  | dictionary | ref =>
    simp only [ofDirective] at h
    split at h
    all_goals cases h
    rfl
  | optional => cases h

/-- **The form of a source tells the source**, but for the name of a type. -/
theorem eq_source_of_ofValue {v : Value} {form : Form} (h : ofValue v = .ok form) :
    form.source = v ∨ ∃ type, form = .scalar type ∧ v.canonical = .string type.name := by
  cases v with
  | null =>
    cases h
    exact .inr ⟨.null, rfl, rfl⟩
  | string name =>
    simp only [ofValue, ofName] at h
    split at h
    · next any =>
      cases h
      exact .inl (congrArg Value.string any.symm)
    · split at h
      · next type named =>
        cases h
        refine .inr ⟨type, rfl, ?_⟩
        rw [Value.canonical]
        rcases ScalarType.name_of_ofName? named with rfl | ⟨rfl, rfl⟩
        · cases type <;> rfl
        · rfl
      · cases h
  | sequence items =>
    simp only [ofValue] at h
    unfold ofItems at h
    split at h
    · cases h
    · next word arguments =>
      split at h
      · next directive named =>
        left
        rw [source_of_ofDirective h, Directive.eq_name_of_ofName? named]
        rfl
      · cases h
    · cases h
  | mapping fields =>
    cases h
    exact .inl rfl
  | _ => cases h

end Form

theorem FieldForm.source_of_ofValue {v : Value} {field : FieldForm} (h : ofValue v = .ok field) :
    Field.source ⟨field.optional, field.type⟩ = v := by
  unfold ofValue at h
  split at h
  · next word arguments =>
    split at h
    · next optional =>
      split at h
      · cases h
        rw [optional]
        rfl
      · cases h
    · cases h
      rfl
  · cases h
    rfl

/-! ### Rules over fragments -/

namespace Rule

/-- The source is that of the rule, but for the name of a type. -/
def Spells (rule : Rule Value) (v : Value) : Prop :=
  rule.source = v ∨ ∃ type, rule = .scalar type ∧ v.canonical = .string type.name

theorem Spells.canonical {rule : Rule Value} {v : Value} (h : rule.Spells v) :
    v.canonical = (rule.map Value.canonical).source := by
  rcases h with rfl | ⟨type, rfl, named⟩
  · exact rule.canonical_source
  · exact named

theorem atPath?_directive {directive : Directive} {arguments : List Value} {p : Path × Value}
    (h : p ∈ arguments.mapIdx fun i x => (argumentPath i, x)) :
    (directive.source arguments).atPath? p.1 = some p.2 := by
  obtain ⟨i, hi, rfl⟩ := List.mem_mapIdx.mp h
  simp [Directive.source, argumentPath, Value.atPath?, Value.child?, hi]

/-- **The parts of a rule stand at their places in its source.** -/
theorem Spells.atPath? {rule : Rule Value} {v : Value} (h : rule.Spells v) {p : Path × Value}
    (hp : p ∈ rule.places) : v.atPath? p.1 = some p.2 := by
  rcases h with rfl | ⟨type, rfl, -⟩
  · cases rule with
    | scalar | any | enum | ref => simp [places, parts] at hp
    | object fields =>
      obtain ⟨⟨key, optional, type⟩, he, rfl⟩ := List.mem_map.mp hp
      have found : (fields.map Field.source).get? key = some (Field.source ⟨optional, type⟩) := by
        rw [Mapping.get?_map, Mapping.get?_of_mem_entries he, Option.map_some]
      rw [source, fieldPath, Value.atPath?, Value.child?, found, Option.bind_some]
      cases optional with
      | true =>
        have argument : (argumentPath 0, type) ∈ [type].mapIdx fun i x => (argumentPath i, x) := by
          simp
        exact atPath?_directive argument
      | false => rfl
    | _ => exact atPath?_directive hp
  · simp [places, parts] at hp

variable {β γ : Type}

theorem places_map (rule : Rule β) (f : β → γ) :
    (rule.map f).places = rule.places.map fun p => (p.1, f p.2) := by
  cases rule with
  | object fields =>
    rw [map, places, places, Mapping.entries_map, List.map_map, List.map_map]
    rfl
  | _ =>
    rw [places_eq_mapIdx (by simp [map]), places_eq_mapIdx (by simp), parts_map, mapIdx_map,
      map_mapIdx]

theorem mem_parts_of_mem_places {rule : Rule β} {p : Path × β} (h : p ∈ rule.places) :
    p.2 ∈ rule.parts := by
  cases rule with
  | object fields =>
    obtain ⟨e, he, rfl⟩ := List.mem_map.mp h
    exact mem_parts_object he
  | _ =>
    obtain ⟨i, hi, rfl⟩ := List.mem_mapIdx.mp h
    exact List.getElem_mem hi

end Rule

/-! ### Pairs -/

section

variable {β γ : Type}

/-- Related lists, paired. -/
theorem exists_pairs {R : β → γ → Prop} {xs : List β} {ys : List γ}
    (h : Pointwise (fun _ => R) xs ys) :
    ∃ ps : List (β × γ), ps.map Prod.fst = xs ∧ ps.map Prod.snd = ys ∧ ∀ p ∈ ps, R p.1 p.2 := by
  refine ⟨xs.zip ys, List.map_fst_zip (Nat.le_of_eq h.length.symm),
    List.map_snd_zip (Nat.le_of_eq h.length), fun p hp => ?_⟩
  obtain ⟨i, hi⟩ := List.mem_iff_getElem?.mp hp
  obtain ⟨hx, hy⟩ := List.getElem?_zip_eq_some.mp hi
  exact h.related i p.1 p.2 hx hy

theorem OneOrMore.exists_pairs {R : β → γ → Prop} {xs : OneOrMore β} {ys : OneOrMore γ}
    (h : Pointwise (fun _ => R) xs.toList ys.toList) :
    ∃ ps : OneOrMore (β × γ), ps.map Prod.fst = xs ∧ ps.map Prod.snd = ys ∧
      ∀ p ∈ ps.toList, R p.1 p.2 := by
  obtain ⟨first, others⟩ := xs
  obtain ⟨first', others'⟩ := ys
  obtain ⟨related, later⟩ := pointwise_cons_iff.mp h
  obtain ⟨ps, rfl, rfl, all⟩ := TreeSchema.exists_pairs later
  exact ⟨⟨(first, first'), ps⟩, rfl, rfl, List.forall_mem_cons.mpr ⟨related, all⟩⟩

theorem OneOrMore.initial_map (xs : OneOrMore β) (f : β → γ) :
    (xs.map f).initial = xs.initial.map f := by
  rw [initial, toList_map, initial, List.map_dropLast]

theorem OneOrMore.last_map (xs : OneOrMore β) (f : β → γ) : (xs.map f).last = f xs.last := by
  have whole := initial_append_last (xs.map f)
  rw [toList_map, ← initial_append_last xs, initial_map, List.map_append] at whole
  exact List.singleton_injective (List.append_cancel_left whole)

/-- A mapping to which one is related by a function is its image. -/
theorem Mapping.Pointwise.eq_map {m : Mapping β} {n : Mapping γ} {g : γ → β}
    (h : m.Pointwise (fun _ a b => a = g b) n) : m = n.map g := by
  refine ext_get? (by rw [keys_map, h.keys]) fun key => ?_
  rw [get?_map]
  cases hb : n.get? key with
  | none =>
    rw [Option.map_none, get?_eq_none_iff, ← h.keys]
    exact get?_eq_none_iff.mp hb
  | some b =>
    obtain ⟨a, ha, rfl⟩ := h.exists_left hb
    exact ha

end

/-! ### Reading -/

section

variable {readFragment : Value → Except SchemaError (Schema Unit)}

theorem Form.exists_pairs_of_readArguments {arguments : OneOrMore Value}
    {ns : OneOrMore (Schema Unit)} (h : readArguments readFragment arguments = .ok ns) :
    ∃ ps : OneOrMore (Value × Schema Unit), ps.map Prod.fst = arguments ∧ ps.map Prod.snd = ns ∧
      ∀ p ∈ ps.toList, readFragment p.1 = .ok p.2 := by
  rw [readArguments, OneOrMore.traverse_eq_ok_iff
    (f := fun i x => Schema.within (Rule.argumentPath i) (readFragment x))] at h
  exact OneOrMore.exists_pairs (h.mono fun _ _ _ h => Schema.within_eq_ok h)

theorem FieldForm.exists_pair_of_read {key : String} {x : Value} {field : Field (Schema Unit)}
    (h : read readFragment key x = .ok field) :
    ∃ p : Field (Value × Schema Unit), x = Field.source ⟨p.optional, p.type.1⟩ ∧
      field = ⟨p.optional, p.type.2⟩ ∧ readFragment p.type.1 = .ok p.type.2 := by
  unfold read at h
  split at h
  · cases h
  · next form hf =>
    obtain ⟨type, ht, h⟩ := bind_eq_ok h
    cases h
    exact ⟨⟨form.optional, (form.type, type)⟩, (source_of_ofValue hf).symm, rfl,
      Schema.within_eq_ok ht⟩

theorem Form.exists_pairs_of_readFields {fields : Mapping Value}
    {read : Mapping (Field (Schema Unit))}
    (h : fields.traverse (fun e _ => FieldForm.read readFragment e.1 e.2) = .ok read) :
    ∃ ps : Mapping (Field (Value × Schema Unit)),
      fields = ps.map (fun p => Field.source ⟨p.optional, p.type.1⟩) ∧
      read = ps.map (fun p => ⟨p.optional, p.type.2⟩) ∧
      ∀ key p, ps.get? key = some p → readFragment p.type.1 = .ok p.type.2 := by
  have each := Mapping.traverse_eq_ok_iff
    (f := fun e : String × Value => FieldForm.read readFragment e.1 e.2) |>.mp h
  have chosen : ∀ key x, fields.get? key = some x → ∃ p : Field (Value × Schema Unit),
      x = Field.source ⟨p.optional, p.type.1⟩ ∧
      read.get? key = some ⟨p.optional, p.type.2⟩ ∧ readFragment p.type.1 = .ok p.type.2 := by
    intro key x hx
    obtain ⟨field, hf, hread⟩ := each.exists_right hx
    obtain ⟨p, spelled, rfl, types⟩ := FieldForm.exists_pair_of_read hread
    exact ⟨p, spelled, hf, types⟩
  obtain ⟨ps, hps⟩ := Mapping.exists_pointwise chosen
  refine ⟨ps, ?_, ?_, ?_⟩
  · exact Mapping.Pointwise.eq_map ⟨hps.keys, fun key x p hx hp => (hps.related key x p hx hp).1⟩
  · refine Mapping.Pointwise.eq_map ⟨hps.keys.trans each.keys.symm, fun key field p hf hp => ?_⟩
    obtain ⟨x, -, -, found, -⟩ := hps.exists_left hp
    exact Option.some.inj (hf.symm.trans found)
  · intro key p hp
    obtain ⟨x, -, -, -, types⟩ := hps.exists_left hp
    exact types

end

namespace Schema

variable {defined : String → Bool} {v : Value} {n : Schema Unit}

/-- **What is read is a rule over what its fragments are read as.** -/
theorem exists_fragments_of_ofSource (h : ofSource defined v = .ok n) :
    ∃ rule : Rule (Value × Schema Unit), (rule.map Prod.fst).Spells v ∧
      n = node () (rule.map Prod.snd) ∧ ∀ p ∈ rule.parts, ofSource defined p.1 = .ok p.2 := by
  rw [ofSource_eq] at h
  obtain ⟨form, hform, h⟩ := bind_eq_ok h
  have spelled := Form.eq_source_of_ofValue hform
  cases form with
  | scalar type =>
    cases h
    refine ⟨.scalar type, ?_, rfl, List.forall_mem_nil _⟩
    rcases spelled with written | ⟨type, ⟨⟩, named⟩
    · exact .inl written
    · exact .inr ⟨_, rfl, named⟩
  | any =>
    cases h
    exact ⟨.any, .inl (spelled.resolve_right (by simp)), rfl, List.forall_mem_nil _⟩
  | enum members =>
    obtain ⟨literals, hl, h⟩ := bind_eq_ok h
    cases h
    have same : literals.toList.map Literal.toValue = members.toList.map id := by
      refine Pointwise.map_eq ((OneOrMore.traverse_eq_ok_iff.mp hl).mono fun i x l hx => ?_)
      unfold memberOfSource at hx
      split at hx
      · next literal found =>
        cases hx
        exact (Literal.ofValue?_eq_some_iff.mp found).symm
      · cases hx
    refine ⟨.enum literals, .inl ?_, rfl, List.forall_mem_nil _⟩
    rw [← spelled.resolve_right (by simp), Rule.map, Rule.source, same, List.map_id]
    rfl
  | tuple elements =>
    obtain ⟨ns, hns, h⟩ := bind_eq_ok h
    cases h
    obtain ⟨ps, rfl, rfl, types⟩ := Form.exists_pairs_of_readArguments hns
    exact ⟨.tuple ps, .inl (spelled.resolve_right (by simp)), rfl, types⟩
  | array items =>
    obtain ⟨ns, hns, h⟩ := bind_eq_ok h
    cases h
    obtain ⟨ps, rfl, rfl, types⟩ := Form.exists_pairs_of_readArguments hns
    refine ⟨.array ps.initial ps.last, .inl ?_, ?_, ?_⟩
    · rw [← spelled.resolve_right (by simp), Rule.map, Rule.source, ← ps.initial_map,
        ← ps.last_map Prod.fst, OneOrMore.initial_append_last]
      rfl
    · rw [OneOrMore.initial_map, OneOrMore.last_map, Rule.map]
    · rwa [Rule.parts, OneOrMore.initial_append_last]
  | dictionary values =>
    obtain ⟨type, ht, h⟩ := bind_eq_ok h
    cases h
    refine ⟨.dictionary (values, type), .inl (spelled.resolve_right (by simp)), rfl, ?_⟩
    exact List.forall_mem_singleton.mpr (within_eq_ok ht)
  | oneof alternatives =>
    obtain ⟨ns, hns, h⟩ := bind_eq_ok h
    cases h
    obtain ⟨ps, rfl, rfl, types⟩ := Form.exists_pairs_of_readArguments hns
    exact ⟨.oneof ps, .inl (spelled.resolve_right (by simp)), rfl, types⟩
  | ref label =>
    simp only [Form.read, refOfSource] at h
    split at h
    · cases h
      exact ⟨.ref label, .inl (spelled.resolve_right (by simp)), rfl, List.forall_mem_nil _⟩
    · cases h
  | object fields =>
    obtain ⟨read, hread, h⟩ := bind_eq_ok h
    cases h
    obtain ⟨ps, rfl, rfl, types⟩ := Form.exists_pairs_of_readFields hread
    refine ⟨.object ps, .inl ?_, rfl, fun p hp => ?_⟩
    · rw [← spelled.resolve_right (by simp), Rule.map, Rule.source, Mapping.map_map]
      rfl
    · obtain ⟨field, hf, rfl⟩ := List.mem_map.mp hp
      obtain ⟨key, hk⟩ := Mapping.mem_values_iff.mp hf
      exact types key field hk

/-- **What is read is written as the canonical source.** -/
theorem toSource_of_ofSource (h : ofSource defined v = .ok n) : n.toSource = v.canonical := by
  induction n using parts_induction generalizing v with
  | node mark rule ih =>
  obtain ⟨read, spelled, same, types⟩ := exists_fragments_of_ofSource h
  obtain ⟨-, rfl⟩ := node.inj same
  rw [Rule.parts_map] at ih
  rw [toSource_node, spelled.canonical, Rule.map_map, Rule.map_map]
  refine congrArg Rule.source (Rule.map_congr fun p hp => ?_)
  exact ih p.2 (List.mem_map_of_mem hp) (types p hp)

theorem toSource_unmarked {α : Type} (n : Schema α) : n.unmarked.toSource = n.toSource := by
  induction n using parts_induction with
  | node mark rule ih =>
  rw [unmarked_node, toSource_node, toSource_node, Rule.map_map]
  exact congrArg Rule.source (Rule.map_congr ih)

theorem mem_descendants_iff {α : Type} {n m : Schema α} :
    m ∈ n.descendants ↔ ∃ part ∈ n.rule.parts, m ∈ part.descendants ++ [part] := by
  obtain ⟨mark, rule⟩ := n
  rw [descendants_node, List.mem_flatMap]
  rfl

/-- **Every node is read from the fragment at its place.** -/
theorem exists_fragment_of_mem_locate (h : ofSource defined v = .ok n) {site : Site}
    {start : Nat} {m : Node}
    (hm : m ∈ (n.locate site start).descendants ++ [n.locate site start]) :
    ∃ path fragment, m.mark.origin = site.origin ++ path ∧ v.atPath? path = some fragment ∧
      ofSource defined fragment = .ok m.unmarked := by
  induction n using parts_induction generalizing v site start with
  | node mark rule ih =>
  rcases List.mem_append.mp hm with hm | hm
  · obtain ⟨read, spelled, same, types⟩ := exists_fragments_of_ofSource h
    obtain ⟨-, rfl⟩ := node.inj same
    obtain ⟨q, hq, hm⟩ := mem_descendants_iff.mp hm
    obtain ⟨_, _, below, first, hp, place, origin, rfl⟩ := exists_place_of_mem_parts hq
    rw [Rule.places_map] at place
    obtain ⟨⟨path, fragment, part⟩, hpart, ⟨⟩⟩ := List.mem_map.mp place
    have fragment_at : v.atPath? path = some fragment := by
      refine spelled.atPath? (p := (path, fragment)) ?_
      rw [Rule.places_map]
      exact List.mem_map.mpr ⟨_, hpart, rfl⟩
    obtain ⟨rest, inner, origin', inner_at, read_inner⟩ :=
      ih part hp (types _ (Rule.mem_parts_of_mem_places hpart)) hm
    refine ⟨path ++ rest, inner, ?_, ?_, read_inner⟩
    · rw [origin', origin, List.append_assoc]
    · rw [Value.atPath?_append, fragment_at, Option.bind_some, inner_at]
  · obtain rfl := List.mem_singleton.mp hm
    refine ⟨[], v, ?_, rfl, ?_⟩
    · rw [mark_locate, List.append_nil]
    · rw [unmarked_locate, h]

end Schema

end TreeSchema
