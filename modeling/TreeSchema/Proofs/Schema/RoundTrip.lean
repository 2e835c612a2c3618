import TreeSchema.Proofs.Document.Closure
import TreeSchema.Proofs.Schema.Layer
import TreeSchema.Proofs.Schema.Source

/-!
# Reading schemas that were written

The source that a schema is written as is read as that schema, but for its marks. What
decides it is one layer deep: the form of a written rule is the rule over the sources of its
parts, since every directive has its own word and no schema is written as a directive headed
by `optional`.

* `Form.ofValue_source` — the form of a written rule.
* `Schema.ofSource_toSource` — a schema whose references are to defined labels is read back.
* `Schema.unmarked_locate`, `Schema.heads_unmarked` — what the schema without marks keeps.
-/

namespace TreeSchema

variable {α β γ : Type}

/-! ### Rules -/

namespace OneOrMore

theorem initial_ofLast (init : List α) (last : α) : (ofLast init last).initial = init := by
  rw [initial, toList_ofLast, List.dropLast_concat]

theorem last_ofLast (init : List α) (last : α) : (ofLast init last).last = last := by
  have whole := initial_append_last (ofLast init last)
  rw [toList_ofLast, initial_ofLast] at whole
  exact List.singleton_injective (List.append_cancel_left whole)

theorem map_ofLast (f : α → β) (init : List α) (last : α) :
    (ofLast init last).map f = ofLast (init.map f) (f last) := by
  cases init with
  | nil => rfl
  | cons first rest => simp [ofLast, map]

end OneOrMore

namespace Rule

/-- A function applied to the images of parts is applied with what made the images. -/
theorem map_mapParts_eq (rule : Rule α) (f : Nat → Path → (part : α) → part ∈ rule.parts → β)
    (g : β → γ) :
    (rule.mapParts f).map g = rule.mapParts fun i path part h => g (f i path part h) := by
  cases rule with
  | object fields =>
    rw [mapParts, map, mapParts]
    congr 1
    apply Mapping.ext_entries
    rw [Mapping.entries_map, Mapping.entries_ofEntries, Mapping.entries_ofEntries, map_mapIdx]
  | array initial rest => rw [mapParts, map, mapParts, map_mapIdx]
  | tuple elements => rw [mapParts, map, mapParts, OneOrMore.map, map_mapIdx]
  | dictionary values => rfl
  | oneof alternatives => rw [mapParts, map, mapParts, OneOrMore.map, map_mapIdx]
  | _ => rfl

/-- The rule over images of its parts, where each image is determined by the part. -/
theorem map_mapParts (rule : Rule α) (f : Nat → Path → (part : α) → part ∈ rule.parts → β)
    {g : β → γ} {k : α → γ} (same : ∀ i path part h, g (f i path part h) = k part) :
    (rule.mapParts f).map g = rule.map k := by
  rw [map_mapParts_eq, ← mapParts_eq_map]
  simp only [same]

theorem map_id (rule : Rule α) : rule.map id = rule := by
  cases rule with
  | object fields =>
    rw [map]
    congr 1
    apply Mapping.ext_entries
    rw [Mapping.entries_map]
    exact List.map_id _
  | _ => simp [map, OneOrMore.map]

/-- The form of the source of a rule, given the sources of its parts. -/
def form : Rule Value → Form
  | scalar type => .scalar type
  | any => .any
  | enum members => .enum (members.map Literal.toValue)
  | object fields => .object (fields.map Field.source)
  | array initial rest => .array (.ofLast initial rest)
  | tuple elements => .tuple elements
  | dictionary values => .dictionary values
  | oneof alternatives => .oneof alternatives
  | ref label => .ref label

end Rule

namespace Form

theorem ofValue_directive (directive : Directive) (arguments : List Value) :
    ofValue (directive.source arguments) = ofDirective directive arguments := by
  rw [Directive.source, ofValue, ofItems, Directive.ofName?_name]

theorem ofName_name (type : ScalarType) : ofName type.name = .ok (.scalar type) := by
  rw [ofName, if_neg type.name_ne_any, ScalarType.ofName?_name]

/-- **The form of a written rule.** -/
theorem ofValue_source (rule : Rule Value) : ofValue rule.source = .ok rule.form := by
  cases rule with
  | scalar type => exact ofName_name type
  | any => rfl
  | object fields => rfl
  | array initial rest =>
    rw [Rule.source, ofValue_directive, ← OneOrMore.toList_ofLast]
    rfl
  | _ =>
    rw [Rule.source, ofValue_directive]
    rfl

end Form

/-! ### Schemas -/

namespace Schema

/-- The schema without its marks. -/
def unmarked : Schema α → Schema Unit
  | node _ rule => node () (rule.mapParts fun _ _ part _ => part.unmarked)
termination_by n => n.size
decreasing_by exact size_lt_of_mem_parts ‹_›

theorem unmarked_node (mark : α) (rule : Rule (Schema α)) :
    (node mark rule).unmarked = node () (rule.map unmarked) := by
  rw [unmarked, Rule.mapParts_eq_map]

/-- Marking a schema and forgetting the marks gives the schema back. -/
theorem unmarked_locate (site : Site) (start : Nat) (n : Schema Unit) :
    (n.locate site start).unmarked = n := by
  induction n using parts_induction generalizing site start with
  | node mark rule ih =>
  rw [locate, unmarked_node]
  congr 1
  rw [Rule.map_mapParts (k := id), Rule.map_id]
  intro i path part hp
  exact ih part hp _ _

/-- Without marks the same labels are met by references and alternatives alone. -/
theorem heads_unmarked (n : Schema α) : n.unmarked.heads = n.heads := by
  induction n using parts_induction with
  | node mark rule ih =>
  rw [unmarked_node]
  cases rule with
  | oneof alternatives =>
    rw [Rule.map, heads_oneof, heads_oneof, OneOrMore.toList_map, List.flatMap_map]
    exact List.flatMap_congr fun part hp => ih part (Rule.mem_parts_oneof hp)
  | ref label => rw [Rule.map, heads_ref, heads_ref]
  | _ => simp [Rule.map, heads]

end Schema

/-! ### Reading what was written -/

namespace FieldForm

/-- A schema is not written as the source of an optional field. -/
theorem ofValue_toSource (n : Schema α) : ofValue n.toSource = .ok ⟨false, n.toSource⟩ := by
  obtain ⟨mark, rule⟩ := n
  rw [Schema.toSource_node]
  cases rule <;> rfl

theorem ofValue_source (optional : Bool) (n : Schema α) :
    ofValue (Field.source ⟨optional, n.toSource⟩) = .ok ⟨optional, n.toSource⟩ := by
  cases optional with
  | true => rfl
  | false => exact ofValue_toSource n

end FieldForm

namespace Form

variable {readFragment : Value → Except SchemaError (Schema Unit)}

theorem readArguments_map {xs : OneOrMore (Schema α)}
    (h : ∀ x ∈ xs.toList, readFragment x.toSource = .ok x.unmarked) :
    readArguments readFragment (xs.map Schema.toSource) = .ok (xs.map Schema.unmarked) := by
  rw [readArguments, OneOrMore.traverse_eq_ok_iff
    (f := fun i x => Schema.within (Rule.argumentPath i) (readFragment x)),
    OneOrMore.toList_map, OneOrMore.toList_map, pointwise_map_iff]
  refine pointwise_self fun i x hx => ?_
  rw [h x (List.mem_of_getElem? hx)]
  rfl

theorem readMembers_map (members : OneOrMore Literal) :
    (members.map Literal.toValue).traverse 0 (fun i x _ => Schema.memberOfSource i x) =
      .ok members := by
  rw [OneOrMore.traverse_eq_ok_iff, OneOrMore.toList_map]
  nth_rewrite 2 [← List.map_id members.toList]
  refine pointwise_map_iff.mpr (pointwise_self fun i member _ => ?_)
  rw [Schema.memberOfSource, Literal.ofValue?_eq_some_iff.mpr rfl]
  rfl

theorem readFields_map {fields : Mapping (Field (Schema α))}
    (h : ∀ key field, fields.get? key = some field →
      readFragment field.type.toSource = .ok field.type.unmarked) :
    (fields.map fun field => Field.source ⟨field.optional, field.type.toSource⟩).traverse
        (fun e _ => FieldForm.read readFragment e.1 e.2) =
      .ok (fields.map fun field => ⟨field.optional, field.type.unmarked⟩) := by
  rw [Mapping.traverse_eq_ok_iff (f := fun e => FieldForm.read readFragment e.1 e.2)]
  refine Mapping.pointwise_map fun key field hf => ?_
  rw [FieldForm.read, FieldForm.ofValue_source]
  show (Schema.within _ (readFragment field.type.toSource) >>= _) = _
  rw [h key field hf]
  rfl

/-- A rule whose parts are read back is read back. -/
theorem read_form {defined : String → Bool} {rule : Rule (Schema α)}
    (refs : ∀ label, rule = .ref label → defined label = true)
    (parts : ∀ part ∈ rule.parts, readFragment part.toSource = .ok part.unmarked) :
    (rule.map Schema.toSource).form.read defined readFragment =
      .ok (.node () (rule.map Schema.unmarked)) := by
  cases rule with
  | scalar type => rfl
  | any => rfl
  | enum members =>
    show ((members.map Literal.toValue).traverse 0 _ >>= _) = _
    rw [readMembers_map]
    rfl
  | object fields =>
    have types : ∀ key field, fields.get? key = some field →
        readFragment field.type.toSource = .ok field.type.unmarked := by
      intro key field hf
      exact parts _ (Rule.mem_parts_of_get? hf)
    rw [Rule.map, Rule.form, Mapping.map_map, read, readFields_map types]
    rfl
  | array initial rest =>
    show (readArguments readFragment (.ofLast (initial.map Schema.toSource) rest.toSource) >>= _) =
      _
    rw [← OneOrMore.map_ofLast, readArguments_map (by rwa [OneOrMore.toList_ofLast])]
    show Except.ok (Schema.node () (Rule.array _ _)) = _
    rw [OneOrMore.map_ofLast, OneOrMore.initial_ofLast, OneOrMore.last_ofLast]
    rfl
  | tuple elements =>
    show (readArguments readFragment (elements.map Schema.toSource) >>= _) = _
    rw [readArguments_map parts]
    rfl
  | dictionary values =>
    show (Schema.within _ (readFragment values.toSource) >>= _) = _
    rw [parts values (Rule.mem_parts_dictionary values)]
    rfl
  | oneof alternatives =>
    show (readArguments readFragment (alternatives.map Schema.toSource) >>= _) = _
    rw [readArguments_map parts]
    rfl
  | ref label =>
    show Schema.refOfSource defined label = _
    rw [Schema.refOfSource, if_pos (refs label rfl)]
    rfl

end Form

namespace Schema

/-- **A schema whose references are to defined labels is read back from its source.** -/
theorem ofSource_toSource {labels : List String} {defined : String → Bool}
    (hdef : ∀ label ∈ labels, defined label = true) {n : Schema α} (h : n.Closed labels) :
    ofSource defined n.toSource = .ok n.unmarked := by
  induction h with
  | @node mark rule refs _ ih =>
    rw [toSource_node, ofSource_eq, Form.ofValue_source, unmarked_node]
    exact Form.read_form (fun label hl => hdef label (refs label hl)) ih

end Schema

end TreeSchema
