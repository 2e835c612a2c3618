import TreeSchema.Proofs.Document.Reachable
import TreeSchema.Proofs.Json.Scalars
import TreeSchema.Proofs.Restriction.Equations
import TreeSchema.Proofs.Validation.Conformance

/-!
# Transport through JSON

What is written of a value as JSON has no bytes, no timestamps and another order of entries. A
schema whose nodes tell the types of their values brings the value back: what is read is
restricted, with conversion, to a value equal to the one that was written.

* `Document.Returned` — what is written of the value is restricted to it; shown rule by rule.
* `Document.isTyped` — nothing a node leads to leaves the type of its values open.
* `Document.restrict_toValue` — values that conform to such nodes are returned.
-/

namespace TreeSchema

namespace Document

/-! ### Rule by rule -/

section

variable {α : Type} {d : Document α} {mark : α} {format : TimestampFormat}

/-- What is written of the value is restricted to it, with conversion. -/
def Returned (d : Document α) (format : TimestampFormat) (n : Schema α) (v : Value) : Prop :=
  ∀ j, Json.ofValue? format v = .ok j →
    ∃ r, d.restrict (.plain true) n j.toValue = .ok (some r) ∧ (r == v) = true

theorem returned_scalar {type : ScalarType} {v : Value} (ha : type.accepts v = true)
    (held : ∀ t ∈ v.timestamps, format.Holds t) :
    d.Returned format (.node mark (.scalar type)) v := by
  intro j hj
  obtain ⟨r, hr, same⟩ := ScalarType.coerce?_toValue ha held hj
  have converted : type.coerceIf (RestrictOptions.plain true).coerce j.toValue = some r := hr
  refine ⟨r, ?_, same⟩
  rw [restrict_scalar]
  split
  · next accepted => rw [← hr, ScalarType.coerce?_of_accepts accepted]
  · rw [converted, orFill]

/-- What is equal to a member is written as a value that is equal to it too. -/
theorem returned_enum {members : OneOrMore Literal} {member : Literal} {v : Value}
    (hm : member ∈ members.toList) (he : (member.toValue == v) = true) :
    d.Returned format (.node mark (.enum members)) v := by
  intro j hj
  have kind : v.kind ∈ Json.scalarKinds := by
    rw [← Value.kind_eq_of_beq he]
    cases member <;> simp [Literal.toValue, Value.kind, Json.scalarKinds]
  have same := Json.beq_toValue hj kind
  have found := OneOrMore.hasValue_iff.mpr ⟨member, hm, Value.beq_trans he (Value.beq_symm same)⟩
  exact ⟨_, by rw [restrict_enum, if_pos found], same⟩

/-- What is written under the key of a field is restricted to what it was written of, and
nothing is made of a field that is absent. -/
theorem exists_restrictField {field : Field (Schema α)} {key : String} {values : Mapping Value}
    {members : Mapping Json}
    (written : values.Matching (fun x form => Json.ofValue? format x = .ok form) members)
    (ih : ∀ x, values.get? key = some x → d.Returned format field.type x)
    (required : field.optional = false → key ∈ values.keys) :
    ∃ y?, d.restrictField (.plain true) field ((members.map Json.toValue).get? key) = .ok y? ∧
      (∀ y, y? = some y → key ∈ values.keys) ∧
      (∀ x, values.get? key = some x → ∃ y, y? = some y ∧ (y == x) = true) := by
  rw [Mapping.get?_map]
  cases hx : values.get? key with
  | some x =>
    obtain ⟨form, hform, hx'⟩ := written.exists_right hx
    obtain ⟨y, hy, same⟩ := ih x hx form hx'
    rw [hform]
    refine ⟨some y, hy, fun _ _ => Mapping.mem_keys_of_get? hx, ?_⟩
    rintro _ ⟨⟩
    exact ⟨y, rfl, same⟩
  | none =>
    have absent := Mapping.get?_eq_none_iff.mp hx
    have unwritten := Mapping.get?_eq_none_iff.mpr fun hk => absent ((written.keys key).mpr hk)
    have ho : field.optional = true := by
      by_contra h
      exact absent (required (Bool.eq_false_iff.mpr h))
    refine ⟨none, ?_, nofun, nofun⟩
    rw [unwritten, Option.map_none, restrictField, if_pos ho]

theorem returned_object {fields : Mapping (Field (Schema α))} {values : Mapping Value}
    (ih : ∀ key field x, fields.get? key = some field → values.get? key = some x →
      d.Returned format field.type x)
    (required : ∀ key field, fields.get? key = some field → field.optional = false →
      key ∈ values.keys)
    (known : ∀ key ∈ values.keys, key ∈ fields.keys) :
    d.Returned format (.node mark (.object fields)) (.mapping values) := by
  intro j hj
  obtain ⟨members, rfl, written⟩ := Json.exists_members hj
  rw [Json.toValue_object]
  obtain ⟨results, hr⟩ := Mapping.exists_pointwise fun key field hf =>
    exists_restrictField written (fun x hx => ih key field x hf hx) (required key field hf)
  refine ⟨.mapping results.somes, ?_, ?_⟩
  · exact restrict_object_eq_ok_iff.mpr
      ⟨results, ⟨hr.keys, fun key field y? hf hy => (hr.related key field y? hf hy).1⟩, rfl⟩
  · refine Value.beq_mapping_iff.mpr ⟨values, rfl, Mapping.matching_somes ?_ ?_⟩
    · intro key y hy
      obtain ⟨field, -, -, present, -⟩ := hr.exists_left hy
      exact present y rfl
    · intro key x hx
      have hk := known key (Mapping.mem_keys_of_get? hx)
      obtain ⟨y?, hy, -, -, returned⟩ := hr.exists_right (fields.get?_eq_some_value hk)
      obtain ⟨y, rfl, same⟩ := returned x hx
      exact ⟨y, hy, same⟩

theorem returned_dictionary {type : Schema α} {values : Mapping Value}
    (ih : ∀ key x, values.get? key = some x → d.Returned format type x) :
    d.Returned format (.node mark (.dictionary type)) (.mapping values) := by
  intro j hj
  obtain ⟨members, rfl, hm⟩ := Json.exists_members hj
  rw [Json.toValue_object]
  have parts : ∀ key form, members.get? key = some form → ∃ y? : Option Value,
      d.restrict (.plain true) type form.toValue = .ok y? ∧
      ∃ x y, values.get? key = some x ∧ y? = some y ∧ (y == x) = true := by
    intro key form hform
    have hk := (hm.keys key).mpr (Mapping.mem_keys_of_get? hform)
    have hx := values.get?_eq_some_value hk
    obtain ⟨y, hy, same⟩ := ih key _ hx form (hm.related key _ form hx hform)
    exact ⟨some y, hy, _, y, hx, rfl, same⟩
  obtain ⟨results, hr⟩ := Mapping.exists_pointwise parts
  refine ⟨.mapping results.somes, ?_, ?_⟩
  · refine restrict_dictionary_eq_ok_iff.mpr ⟨results, ⟨?_, ?_⟩, rfl⟩
    · rw [Mapping.keys_map, hr.keys]
    · intro key w y? hw hy
      rw [Mapping.get?_map, Option.map_eq_some_iff] at hw
      obtain ⟨form, hform, rfl⟩ := hw
      exact (hr.related key form y? hform hy).1
  · refine Value.beq_mapping_iff.mpr ⟨values, rfl, Mapping.matching_somes ?_ ?_⟩
    · intro key y hy
      obtain ⟨form, -, -, x, _, hx, -⟩ := hr.exists_left hy
      exact Mapping.mem_keys_of_get? hx
    · intro key x hx
      obtain ⟨form, hform, -⟩ := hm.exists_right hx
      obtain ⟨_, hy, -, x', y, hx', rfl, same⟩ := hr.exists_right hform
      obtain rfl := Option.some.inj (hx.symm.trans hx')
      exact ⟨y, hy, same⟩

theorem returned_array {initial : List (Schema α)} {rest : Schema α} {items : List Value}
    (hl : initial.length ≤ items.length)
    (ih : ∀ (i : Nat) x, items[i]? = some x → d.Returned format (Rule.itemAt initial rest i) x) :
    d.Returned format (.node mark (.array initial rest)) (.sequence items) := by
  intro j hj
  obtain ⟨forms, hforms, rfl⟩ := Json.ofValue?_sequence_eq_ok_iff.mp hj
  rw [Json.toValue_array]
  have parts : ∀ (i : Nat) form, forms[i]? = some form → ∃ y,
      d.restrict (.plain true) (Rule.itemAt initial rest i) form.toValue = .ok (some y) ∧
      ∃ x, items[i]? = some x ∧ (y == x) = true := by
    intro i form hform
    obtain ⟨x, hx, written⟩ := hforms.exists_left hform
    obtain ⟨y, hy, same⟩ := ih i x hx form written
    exact ⟨y, hy, x, hx, same⟩
  obtain ⟨rs, hr⟩ := exists_pointwise parts
  have length := hforms.length
  refine ⟨.sequence rs, ?_, ?_⟩
  · refine restrict_array_of_pointwise (by simpa [length] using hl) ?_
    rw [← List.map_id rs, pointwise_map_iff]
    exact hr.mono fun i form y h => h.1
  · refine Value.beq_sequence_iff.mpr ⟨items, rfl, .of_exists_right (by rw [hr.length, length]) ?_⟩
    intro i y hy
    obtain ⟨form, -, -, returned⟩ := hr.exists_left hy
    exact returned

theorem returned_tuple {elements : OneOrMore (Schema α)} {items : List Value}
    (hl : items.length = elements.toList.length)
    (ih : ∀ (i : Nat) part x, elements.toList[i]? = some part → items[i]? = some x →
      d.Returned format part x) :
    d.Returned format (.node mark (.tuple elements)) (.sequence items) := by
  intro j hj
  obtain ⟨forms, hforms, rfl⟩ := Json.ofValue?_sequence_eq_ok_iff.mp hj
  rw [Json.toValue_array]
  have parts : ∀ (i : Nat) part, elements.toList[i]? = some part → ∃ y,
      (∃ w, (forms.map Json.toValue)[i]? = some w ∧
        d.restrict (.plain true) part w = .ok (some y)) ∧
      ∃ x, items[i]? = some x ∧ (y == x) = true := by
    intro i part hp
    obtain ⟨hi, -⟩ := List.getElem?_eq_some_iff.mp hp
    have hx := List.getElem?_eq_getElem (hl ▸ hi)
    obtain ⟨form, hform, written⟩ := hforms.exists_right hx
    obtain ⟨y, hy, same⟩ := ih i part _ hp hx form written
    exact ⟨y, ⟨form.toValue, by rw [List.getElem?_map, hform, Option.map_some], hy⟩, _, hx, same⟩
  obtain ⟨rs, hr⟩ := exists_pointwise parts
  have length := hforms.length
  refine ⟨.sequence rs, ?_, ?_⟩
  · exact restrict_tuple_of_pointwise (by simpa [length] using hl) (hr.mono fun i part y h => h.1)
  · refine Value.beq_sequence_iff.mpr ⟨items, rfl, .of_exists_right (by rw [hr.length, hl]) ?_⟩
    intro i y hy
    obtain ⟨part, -, -, returned⟩ := hr.exists_left hy
    exact returned

theorem returned_ref {label : String} {body : Schema α} {v : Value}
    (hb : d.body? label = some body) (h : d.Returned format body v) :
    d.Returned format (.node mark (.ref label)) v := by
  intro j hj
  rw [restrict_ref hb]
  exact h j hj

end

end Document

/-! ### Nodes that tell types -/

/-- The rule tells the type of its values; `any` and unions do not. -/
def Rule.isTyped {β : Type} : Rule β → Bool
  | .any | .oneof _ => false
  | _ => true

namespace Document

/-- No node that the node leads to, itself among them, leaves the type of its values open. -/
def isTyped (d : Document Site) (n : Node) : Bool :=
  (d.reachableNodes n).all fun m => m.rule.isTyped

section

variable {e : Document Unit} {n m : Node}

theorem isTyped_rule (hn : n ∈ e.locate.nodes) (typed : e.locate.isTyped n = true) :
    n.rule.isTyped = true :=
  List.all_eq_true.mp typed n (mem_reachableNodes_self hn)

theorem isTyped_of_mem_children (hn : n ∈ e.locate.nodes) (typed : e.locate.isTyped n = true)
    (hm : m ∈ e.locate.children n) : e.locate.isTyped m = true :=
  List.all_eq_true.mpr fun x hx =>
    List.all_eq_true.mp typed x (reachableNodes_subset hn hm hx)

/-- **What is written of a value that conforms is restricted to it**, with conversion. -/
theorem returned_of_conforms {format : TimestampFormat} (hn : n ∈ e.locate.nodes)
    (typed : e.locate.isTyped n = true) {v : Value} (held : ∀ t ∈ v.timestamps, format.Holds t)
    (hv : e.locate.Conforms .strict n v) : e.locate.Returned format n v := by
  refine e.locate.descent_nodes
    (motive := fun n v => e.locate.isTyped n = true → (∀ t ∈ v.timestamps, format.Holds t) →
      e.locate.Conforms .strict n v → e.locate.Returned format n v) ?_ hn v typed held hv
  intro mark rule v hn smaller unfolded typed held hv
  have child : ∀ {m : Node}, m ∈ e.locate.children (.node mark rule) → e.locate.isTyped m = true :=
    fun hm => isTyped_of_mem_children hn typed hm
  cases rule with
  | any => exact absurd (isTyped_rule hn typed) Bool.false_ne_true
  | oneof alternatives => exact absurd (isTyped_rule hn typed) Bool.false_ne_true
  | scalar type =>
    cases hv with
    | scalar ha => exact returned_scalar ha held
  | enum members =>
    cases hv with
    | enum hm he => exact returned_enum hm he
  | object fields =>
    cases hv with
    | object present required known =>
    refine returned_object ?_ (required rfl) (known rfl)
    intro key field x hf hx
    have part := Rule.mem_parts_of_get? hf
    exact smaller _ part x (Value.size_lt_of_get? hx) (child part)
      (fun t ht => held t (Value.timestamps_subset_mapping hx ht)) (present key field x hf hx)
  | array initial rest =>
    obtain ⟨items, rfl, hl, hitems⟩ := conforms_array_iff.mp hv
    refine returned_array hl ?_
    intro i x hx
    have part := Rule.mem_parts_itemAt initial rest i
    have mem := List.mem_of_getElem? hx
    exact smaller _ part x (Value.size_lt_of_mem mem) (child part)
      (fun t ht => held t (Value.timestamps_subset_sequence mem ht)) (hitems i x hx)
  | tuple elements =>
    cases hv with
    | tuple hl hparts =>
    refine returned_tuple hl ?_
    intro i element x hp hx
    have part := Rule.mem_parts_tuple (List.mem_of_getElem? hp)
    have mem := List.mem_of_getElem? hx
    exact smaller element part x (Value.size_lt_of_mem mem) (child part)
      (fun t ht => held t (Value.timestamps_subset_sequence mem ht)) (hparts i element x hp hx)
  | dictionary type =>
    cases hv with
    | dictionary hvalues =>
    refine returned_dictionary ?_
    intro key x hx
    have part := Rule.mem_parts_dictionary type
    exact smaller type part x (Value.size_lt_of_get? hx) (child part)
      (fun t ht => held t (Value.timestamps_subset_mapping hx ht)) (hvalues key x hx)
  | ref label =>
    cases hv with
    | @ref _ _ body _ hb hbody =>
    exact returned_ref hb
      (unfolded body (.target hb) (child (Option.mem_toList.mpr hb)) held hbody)

end

/-- **A value that conforms strictly to a node of a compiled document survives JSON**: if
nothing the node leads to leaves the type of its values open, and the format tells all
timestamps in the value in full, then what is written of it is restricted to it again by
conversion alone. -/
theorem restrict_toValue {source : Value} {d : Document Site} (hd : compile source = .ok d)
    {n : Node} (hn : n ∈ d.nodes) (typed : d.isTyped n = true) {v : Value} {path : Path}
    (hv : d.validate true n v path = []) {format : TimestampFormat}
    (held : ∀ t ∈ v.timestamps, format.Holds t) {j : Json}
    (hj : Json.ofValue? format v = .ok j) :
    ∃ r, d.restrict (.plain true) n j.toValue = .ok (some r) ∧ (r == v) = true := by
  have strict := (validate_eq_nil_iff_conforms hd hn true v path).mp hv
  obtain ⟨e, -, rfl⟩ := compile_eq_ok_iff.mp hd
  exact returned_of_conforms hn typed held strict j hj

/-- The source of letters: when they were sent, their seals, and the replies. -/
def lettersSource : Value :=
  .mapping <| .ofList
    [(labelsKey, .mapping <| .ofList
      [("letter", .mapping <| .ofList
        [("at", .string "date"), ("by", .sequence [.string "optional", .string "binary"]),
          ("re", .sequence [.string "array", .sequence [.string "ref", .string "letter"]])])]),
      (schemaKey, .sequence [.string "ref", .string "letter"])]

/-- Letters: when they were sent, their seals, and the replies. -/
def letters : Document Unit where
  labels := .ofList
    [("letter", .node () <| .object <| .ofList
      [("at", ⟨false, .node () (.scalar .date)⟩), ("by", ⟨true, .node () (.scalar .binary)⟩),
        ("re", ⟨false, .node () (.array [] (.node () (.ref "letter")))⟩)])]
  root := .node () (.ref "letter")
  guarded := of_decide_eq_true (by cbv)

/-- A day and a half second after the epoch. -/
def nextDay : Timestamp :=
  ⟨86400, 500000000, by decide, by decide, by decide, by decide⟩

/-- A sealed letter and a reply to it, with fields in another order than declared. -/
def letter : Value :=
  .mapping <| .ofList
    [("by", .bytes [0, 255]), ("at", .timestamp .epoch),
      ("re", .sequence
        [.mapping <| .ofList [("re", .sequence []), ("at", .timestamp nextDay)]])]

theorem ofSource_lettersSource : ofSource lettersSource = .ok letters :=
  ofSource_eq_ok_iff.mpr ⟨by cbv, _, rfl, by cbv, by cbv, _, rfl, by cbv⟩

theorem compile_lettersSource : compile lettersSource = .ok letters.locate := by
  rw [compile, ofSource_lettersSource]
  rfl

theorem restrict_toValue_letter :
    compile lettersSource = .ok letters.locate ∧ letters.locate.root ∈ letters.locate.nodes ∧
      letters.locate.isTyped letters.locate.root = true ∧
      letters.locate.validate true letters.locate.root letter [] = [] ∧
      (∀ t ∈ letter.timestamps, TimestampFormat.rfc3339.Holds t) ∧
      ∃ j, Json.ofValue? .rfc3339 letter = .ok j ∧
        ∃ r, letters.locate.restrict (.plain true) letters.locate.root j.toValue = .ok (some r) ∧
          (r == letter) = true := by
  have typed : letters.locate.isTyped letters.locate.root = true := by cbv
  have fits : letters.locate.validate true letters.locate.root letter [] = [] := by cbv
  have timestamps : letter.timestamps = [.epoch, nextDay] := by cbv
  have held : ∀ t ∈ letter.timestamps, TimestampFormat.rfc3339.Holds t := by
    rw [timestamps]
    intro t ht
    simp only [List.mem_cons, List.not_mem_nil, or_false] at ht
    rcases ht with rfl | rfl
    · exact ⟨rfl, rfl, fun _ => by decide⟩
    · exact ⟨rfl, rfl, fun _ => by decide⟩
  have written : (Json.ofValue? .rfc3339 letter).isOk = true := by cbv
  refine ⟨compile_lettersSource, root_mem_nodes _, typed, fits, held, ?_⟩
  cases hj : Json.ofValue? .rfc3339 letter with
  | error e =>
    rw [hj] at written
    cases written
  | ok j =>
    exact ⟨j, rfl, restrict_toValue compile_lettersSource (root_mem_nodes _) typed fits held hj⟩

end Document

end TreeSchema
