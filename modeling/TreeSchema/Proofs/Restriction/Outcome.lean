import TreeSchema.Proofs.Restriction.Fill
import TreeSchema.Proofs.Restriction.Pruning
import TreeSchema.Proofs.Scalar.Coercion

/-!
# What restriction leaves

Restriction leaves nothing that is not described: no key that is not declared, no
scalar of another type, no array without an initial item, no tuple of another length.
Required fields may be absent, unless zero values are put in their place. That holds
of parts of the value, of converted scalars and of fill values, and of the candidates
of unions, which are taken if they conform or if nothing is filled.

* `Document.origin_of_absence` — with an option to fill, nothing is left for want of a fill value.
* `Document.restrict_zero_ne` — with zero values there is always a result.
* `Document.conforms_of_restrict` — what is left conforms, as the options would have it.
* `Document.validate_eq_nil_of_zero`, `Document.conforms_partly_of_restrict` — the same of
  compiled documents, for zero values and for restriction with any options.
-/

namespace TreeSchema

/-- What a result is forgiven: absent fields, unless zero values are put there. -/
def RestrictOptions.leniency (o : RestrictOptions) : Leniency :=
  o.fillMode?.elim .partly FillMode.leniency

theorem RestrictOptions.leniency_extraFields (o : RestrictOptions)
    (_ : Leniency.partly.extraFields = false) : o.leniency.extraFields = false := by
  unfold leniency
  rcases o.fillMode? with _ | _ | _ <;> rfl

theorem RestrictOptions.fillMode?_of_leniency {o : RestrictOptions}
    (h : o.leniency.absentFields = false) : o.fillMode? = some .zero := by
  unfold leniency at h
  rcases hm : o.fillMode? with _ | _ | _
  · rw [hm] at h
    cases h
  · rfl
  · rw [hm] at h
    cases h

theorem RestrictOptions.leniency_of_zero {o : RestrictOptions} (zero : o.fillMode? = some .zero) :
    o.leniency = .strict := by
  rw [leniency, zero]
  rfl

namespace Document

variable {α : Type} {d : Document α} {o : RestrictOptions} {mark : α} {v r : Value}

/-! ### Absence -/

theorem fillFor_zero_ne (zero : o.fillMode? = some .zero) (n : Schema α) :
    d.fillFor o n ≠ .ok none := by
  rw [fillFor, zero]
  exact d.fillWithin_zero_ne [] n

/-- **Where absence comes from**: with an option to fill, nothing is left only where the schema
has no fill value, or where what it unfolds to leaves nothing. -/
theorem origin_of_absence (filled : o.fillMode? ≠ none) {n : Schema α}
    (h : d.restrict o n v = .ok none) :
    d.fillFor o n = .ok none ∨ ∃ m, d.Unfolds n m ∧ d.restrict o m v = .ok none := by
  obtain ⟨mark, rule⟩ := n
  have unmade : ∀ {r? : Option Value}, d.orFill o (.node mark rule) r? = .ok none →
      d.fillFor o (.node mark rule) = .ok none := by
    intro r? h
    cases r? with
    | none => exact h
    | some r => cases h
  cases rule with
  | any => simp at h
  | scalar type =>
    rw [restrict_scalar] at h
    split at h
    · cases h
    · exact .inl (unmade h)
  | enum members =>
    rw [restrict_enum] at h
    split at h
    · cases h
    · exact .inl (unmade h)
  | object fields =>
    rcases v.mapping_or_ne with ⟨values, rfl⟩ | hv
    · obtain ⟨results, -, hr⟩ := restrict_object_eq_ok_iff.mp h
      cases hr
    · rw [restrict_object_of_ne hv] at h
      exact .inl h
  | array initial rest =>
    rcases v.sequence_or_ne with ⟨items, rfl⟩ | hv
    · rcases restrict_array_eq_ok_iff.mp h with ⟨first, others, -, -, hr⟩ | ⟨-, h⟩
      · cases hr
      · exact .inl h
    · rw [restrict_array_of_ne hv] at h
      exact .inl h
  | tuple elements =>
    rcases v.sequence_or_ne with ⟨items, rfl⟩ | hv
    · rcases restrict_tuple_eq_ok_iff.mp h with ⟨⟨-, hmode⟩, -⟩ | ⟨-, ⟨results, -, hr⟩ | ⟨-, h⟩⟩
      · exact absurd hmode filled
      · cases hr
      · exact .inl h
    · rw [restrict_tuple_of_ne hv] at h
      exact .inl h
  | dictionary type =>
    rcases v.mapping_or_ne with ⟨values, rfl⟩ | hv
    · obtain ⟨results, -, hr⟩ := restrict_dictionary_eq_ok_iff.mp h
      cases hr
    · rw [restrict_dictionary_of_ne hv] at h
      exact .inl h
  | oneof alternatives =>
    rcases restrict_oneof_cases h with ⟨a, ha, -, h⟩ | ⟨-, h⟩
    · exact .inr ⟨a, .alternative ha, h⟩
    · rw [chooseCandidate] at h
      split at h
      · cases h
      · rw [if_pos (Option.isSome_iff_ne_none.mpr filled)] at h
        exact .inl h
  | ref label =>
    cases hb : d.body? label with
    | some body =>
      rw [restrict_ref hb] at h
      exact .inr ⟨body, .target hb, h⟩
    | none =>
      rw [restrict_ref_of_none hb] at h
      cases h

/-- **Where zero values are put, restriction has a result, unless it fails.** -/
theorem restrict_zero_ne (zero : o.fillMode? = some .zero) (n : Schema α) (v : Value) :
    d.restrict o n v ≠ .ok none := by
  refine d.unfolds_induction (motive := fun n => d.restrict o n v ≠ .ok none) ?_ n
  intro n unfolded h
  rcases origin_of_absence (by simp [zero]) h with h | ⟨m, unfolds, h⟩
  · exact fillFor_zero_ne zero n h
  · exact unfolded m unfolds h

theorem restrictField_zero_ne (zero : o.fillMode? = some .zero) {field : Field (Schema α)}
    (required : field.optional = false) (x? : Option Value) :
    d.restrictField o field x? ≠ .ok none := by
  cases x? with
  | some x => exact restrict_zero_ne zero field.type x
  | none =>
    rw [restrictField, if_neg (by simp [required])]
    exact fillFor_zero_ne zero field.type

/-! ### Fill values -/

theorem conforms_of_fillFor (complete : d.Complete) (nan_free : d.NaNFree) {n : Schema α}
    (hn : n ∈ d.nodes) (h : d.fillFor o n = .ok (some r)) : d.Conforms o.leniency n r := by
  unfold fillFor at h
  split at h
  · next mode hmode =>
    rw [RestrictOptions.leniency, hmode]
    exact conforms_of_fillWithin complete nan_free [] n hn mode r h
  · cases h

theorem conforms_of_fillInitial (complete : d.Complete) (nan_free : d.NaNFree) {n : Schema α}
    (hn : n ∈ d.nodes) (h : d.fillInitial o n = .ok (some r)) : d.Conforms o.leniency n r := by
  unfold fillInitial at h
  split at h
  · next mode hmode =>
    rcases orElse_eq_ok h with h | ⟨-, h⟩
    · rw [RestrictOptions.leniency, hmode]
      exact conforms_of_fillWithin complete nan_free [] n hn mode r h
    · exact Conforms.of_strict (conforms_of_fillWithin complete nan_free [] n hn .zero r h)
  · cases h

/-! ### Rule by rule -/

/-- What restriction leaves of a value conforms, as the options would have it. -/
def Sound (d : Document α) (n : Schema α) (v : Value) : Prop :=
  ∀ o r, d.restrict o n v = .ok (some r) → d.Conforms o.leniency n r

theorem sound_scalar (complete : d.Complete) (nan_free : d.NaNFree) {type : ScalarType}
    (hn : .node mark (.scalar type) ∈ d.nodes) : d.Sound (.node mark (.scalar type)) v := by
  intro o r h
  rw [restrict_scalar] at h
  split at h
  · next ha =>
    cases h
    exact .scalar ha
  · unfold orFill at h
    split at h
    · next w hw =>
      cases h
      rw [ScalarType.coerceIf] at hw
      split at hw
      · exact .scalar (ScalarType.accepts_of_coerce? hw)
      · cases hw
    · exact conforms_of_fillFor complete nan_free hn h

theorem sound_enum (complete : d.Complete) (nan_free : d.NaNFree)
    {members : OneOrMore Literal} (hn : .node mark (.enum members) ∈ d.nodes) :
    d.Sound (.node mark (.enum members)) v := by
  intro o r h
  rw [restrict_enum] at h
  split at h
  · next hv =>
    cases h
    obtain ⟨member, hm, he⟩ := OneOrMore.hasValue_iff.mp hv
    exact .enum hm he
  · unfold orFill at h
    split at h
    · next w hw =>
      cases h
      obtain ⟨member, hm, rfl⟩ := Option.map_eq_some_iff.mp hw
      split at hm
      · exact nan_free.conforms_member hn (List.mem_of_find?_eq_some hm) _
      · cases hm
    · exact conforms_of_fillFor complete nan_free hn h

theorem Sound.conforms_of_restrictItem
    {fill : Schema α → Except (RecursionError α) (Option Value)} {part : Schema α}
    {x? : Option Value} (filled : ∀ y, fill part = .ok (some y) → d.Conforms o.leniency part y)
    (ih : ∀ x, x? = some x → d.Sound part x) {y : Value}
    (h : d.restrictItem o fill part x? = .ok (some y)) : d.Conforms o.leniency part y := by
  cases x? with
  | none => exact filled y h
  | some x =>
    rw [restrictItem] at h
    rcases orElse_eq_ok h with h | ⟨-, h⟩
    · exact ih x rfl o y h
    · exact filled y h

theorem sound_object (complete : d.Complete) (nan_free : d.NaNFree)
    {fields : Mapping (Field (Schema α))} (hn : .node mark (.object fields) ∈ d.nodes)
    (ih : ∀ values, v = .mapping values → ∀ key field x, fields.get? key = some field →
      values.get? key = some x → d.Sound field.type x) :
    d.Sound (.node mark (.object fields)) v := by
  intro o r h
  rcases v.mapping_or_ne with ⟨values, rfl⟩ | hv
  · obtain ⟨results, hr, hres⟩ := restrict_object_eq_ok_iff.mp h
    cases hres
    refine .object ?_ ?_ ?_
    · intro key field y hf hy
      rw [Mapping.get?_somes, Option.join_eq_some_iff] at hy
      have hfield := hr.related key field _ hf hy
      cases hx : values.get? key with
      | some x =>
        rw [hx] at hfield
        exact ih values rfl key field x hf hx o y hfield
      | none =>
        rw [hx, restrictField] at hfield
        split at hfield
        · cases hfield
        · have hm := Rule.mem_parts_of_get? hf
          exact conforms_of_fillFor complete nan_free (mem_nodes_of_mem_parts hn hm) hfield
    · intro hl key field hf ho
      have zero := RestrictOptions.fillMode?_of_leniency hl
      obtain ⟨y?, hy, hfield⟩ := hr.exists_right hf
      cases y? with
      | some y => exact Mapping.mem_keys_somes_iff.mpr ⟨y, hy⟩
      | none => exact absurd hfield (restrictField_zero_ne zero ho _)
    · intro _ key hk
      obtain ⟨y, hy⟩ := Mapping.mem_keys_somes_iff.mp hk
      obtain ⟨field, hf, -⟩ := hr.exists_left hy
      exact Mapping.mem_keys_of_get? hf
  · rw [restrict_object_of_ne hv] at h
    exact conforms_of_fillFor complete nan_free hn h

theorem sound_dictionary (complete : d.Complete) (nan_free : d.NaNFree) {type : Schema α}
    (hn : .node mark (.dictionary type) ∈ d.nodes)
    (ih : ∀ values, v = .mapping values → ∀ key x, values.get? key = some x →
      d.Sound type x) : d.Sound (.node mark (.dictionary type)) v := by
  intro o r h
  rcases v.mapping_or_ne with ⟨values, rfl⟩ | hv
  · obtain ⟨results, hr, hres⟩ := restrict_dictionary_eq_ok_iff.mp h
    cases hres
    refine .dictionary ?_
    intro key y hy
    rw [Mapping.get?_somes, Option.join_eq_some_iff] at hy
    obtain ⟨x, hx, hxy⟩ := hr.exists_left hy
    exact ih values rfl key x hx o y hxy
  · rw [restrict_dictionary_of_ne hv] at h
    exact conforms_of_fillFor complete nan_free hn h

theorem sound_array (complete : d.Complete) (nan_free : d.NaNFree)
    {initial : List (Schema α)} {rest : Schema α}
    (hn : .node mark (.array initial rest) ∈ d.nodes)
    (ih : ∀ items, v = .sequence items → ∀ part ∈ (Rule.array initial rest).parts,
      ∀ x ∈ items, d.Sound part x) : d.Sound (.node mark (.array initial rest)) v := by
  intro o r h
  rcases v.sequence_or_ne with ⟨items, rfl⟩ | hv
  · rcases restrict_array_eq_ok_iff.mp h with ⟨first, others, hfirst, hothers, hr⟩ | ⟨-, h⟩
    · cases hr
      refine .array (by simp [hfirst.length]) ?_ ?_
      · intro i part y hp hy
        obtain ⟨hi, -⟩ := List.getElem?_eq_some_iff.mp hp
        rw [List.getElem?_append_left (hfirst.length ▸ hi)] at hy
        have hm : part ∈ (Rule.array initial rest).parts :=
          Rule.mem_parts_initial (List.mem_of_getElem? hp)
        refine Sound.conforms_of_restrictItem ?_ ?_ (hfirst.related i part y hp hy)
        · intro y
          exact conforms_of_fillInitial complete nan_free (mem_nodes_of_mem_parts hn hm)
        · intro x hx
          exact ih items rfl part hm x (List.mem_of_getElem? hx)
      · intro y hy
        rw [← hfirst.length, List.drop_left, List.mem_filterMap] at hy
        obtain ⟨_, hy, rfl⟩ := hy
        obtain ⟨i, hi⟩ := List.mem_iff_getElem?.mp hy
        obtain ⟨x, hx, hxy⟩ := hothers.exists_left hi
        exact ih items rfl rest (Rule.mem_parts_rest initial rest) x
          (List.mem_of_mem_drop (List.mem_of_getElem? hx)) o y hxy
    · exact conforms_of_fillFor complete nan_free hn h
  · rw [restrict_array_of_ne hv] at h
    exact conforms_of_fillFor complete nan_free hn h

theorem sound_tuple (complete : d.Complete) (nan_free : d.NaNFree)
    {elements : OneOrMore (Schema α)} (hn : .node mark (.tuple elements) ∈ d.nodes)
    (ih : ∀ items, v = .sequence items → ∀ part ∈ elements.toList, ∀ x ∈ items,
      d.Sound part x) : d.Sound (.node mark (.tuple elements)) v := by
  intro o r h
  rcases v.sequence_or_ne with ⟨items, rfl⟩ | hv
  · rcases restrict_tuple_eq_ok_iff.mp h with ⟨-, hr⟩ | ⟨-, ⟨results, hr, hres⟩ | ⟨-, h⟩⟩
    · cases hr
    · cases hres
      refine .tuple hr.length ?_
      intro i part y hp hy
      have hm : part ∈ (Rule.tuple elements).parts :=
        Rule.mem_parts_tuple (List.mem_of_getElem? hp)
      refine Sound.conforms_of_restrictItem ?_ ?_ (hr.related i part y hp hy)
      · intro y
        exact conforms_of_fillFor complete nan_free (mem_nodes_of_mem_parts hn hm)
      · intro x hx
        exact ih items rfl part hm x (List.mem_of_getElem? hx)
    · exact conforms_of_fillFor complete nan_free hn h
  · rw [restrict_tuple_of_ne hv] at h
    exact conforms_of_fillFor complete nan_free hn h

theorem sound_oneof (complete : d.Complete) (nan_free : d.NaNFree)
    {alternatives : OneOrMore (Schema α)} (hn : .node mark (.oneof alternatives) ∈ d.nodes)
    (ih : ∀ alternative ∈ alternatives.toList, d.Sound alternative v) :
    d.Sound (.node mark (.oneof alternatives)) v := by
  intro o r h
  rcases restrict_oneof_cases h with ⟨a, ha, -, h⟩ | ⟨-, h⟩
  · exact .oneof ha (ih a ha o r h)
  · rw [chooseCandidate] at h
    split at h
    · next c hc =>
      cases h
      have nodes : ∀ a ∈ alternatives.toList, a ∈ d.nodes := fun a ha =>
        mem_nodes_of_mem_parts hn (Rule.mem_parts_oneof ha)
      obtain ⟨a, ha, hconforms⟩ := conforms_of_find?_candidates complete nodes hc
      exact .oneof ha hconforms.of_strict
    · split at h
      · exact conforms_of_fillFor complete nan_free hn h
      · next unfilled =>
        -- The first candidate stands for the union though it does not conform.
        obtain ⟨c, hc, rfl⟩ := Option.map_eq_some_iff.mp (Except.ok.inj h)
        obtain ⟨coerce, a, ha, hprune, -⟩ :=
          exists_prune_of_mem_candidates (List.mem_of_head? hc)
        have partly : o.leniency = (RestrictOptions.plain coerce).leniency := by
          rw [RestrictOptions.leniency, Option.not_isSome_iff_eq_none.mp unfilled]
          rfl
        rw [partly]
        exact .oneof ha (ih a ha _ _ (restrict_plain_eq_ok_iff.mpr hprune))

theorem sound_ref {label : String} {body : Schema α} (hb : d.body? label = some body)
    (ih : d.Sound body v) : d.Sound (.node mark (.ref label)) v := by
  intro o r h
  rw [restrict_ref hb] at h
  exact .ref hb (ih o r h)

/-! ### Results conform -/

/-- **What restriction leaves conforms**, strictly where zero values are put, and else
but for absent fields. -/
theorem conforms_of_restrict (complete : d.Complete) (nan_free : d.NaNFree) {n : Schema α}
    (hn : n ∈ d.nodes) (h : d.restrict o n v = .ok (some r)) : d.Conforms o.leniency n r := by
  refine d.descent_nodes (motive := d.Sound) ?_ hn v o r h
  intro mark rule v hn smaller unfolded
  cases rule with
  | any => exact fun o r _ => .any
  | scalar type => exact sound_scalar complete nan_free hn
  | enum members => exact sound_enum complete nan_free hn
  | object fields =>
    refine sound_object complete nan_free hn ?_
    rintro values rfl key field x hf hx
    exact smaller _ (Rule.mem_parts_of_get? hf) x
      (Value.size_lt_of_get? hx)
  | array initial rest =>
    refine sound_array complete nan_free hn ?_
    rintro items rfl part hp x hx
    exact smaller part hp x (Value.size_lt_of_mem hx)
  | tuple elements =>
    refine sound_tuple complete nan_free hn ?_
    rintro items rfl part hp x hx
    exact smaller part (Rule.mem_parts_tuple hp) x (Value.size_lt_of_mem hx)
  | dictionary type =>
    refine sound_dictionary complete nan_free hn ?_
    rintro values rfl key x hx
    exact smaller type (Rule.mem_parts_dictionary type) x (Value.size_lt_of_get? hx)
  | oneof alternatives =>
    refine sound_oneof complete nan_free hn ?_
    intro alternative ha
    exact unfolded alternative (.alternative ha)
  | ref label =>
    obtain ⟨body, hb⟩ := complete mark label hn
    exact sound_ref hb (unfolded body (.target hb))

/-! ### Compiled documents -/

/-- **Zero values conform strictly**, recursive or not, **and so does what restriction leaves
of any value where zero values are put.** -/
theorem validate_eq_nil_of_zero {source : Value} {d : Document Site}
    (hd : compile source = .ok d) (nan_free : d.NaNFree) {n : Node} (hn : n ∈ d.nodes)
    (path : Path) :
    (∀ z, d.zero n = .ok z → d.validate true n z path = []) ∧
      ∀ (o : RestrictOptions) v r, o.fillZero = true → d.restrict o n v = .ok (some r) →
        d.validate true n r path = [] := by
  have complete := complete_of_compile hd
  constructor
  · intro z hz
    refine (decides complete true hn z path).mpr ?_
    rw [zero] at hz
    cases hf : d.fill .zero n with
    | error e =>
      rw [hf] at hz
      cases hz
    | ok z? =>
      rw [hf] at hz
      cases z? with
      | none => exact absurd hf (d.fillWithin_zero_ne [] n)
      | some z' =>
        cases hz
        exact conforms_of_fillWithin complete nan_free [] n hn .zero z' hf
  · intro o v r ho hr
    have zero : o.fillMode? = some .zero := if_pos ho
    have conforms := conforms_of_restrict complete nan_free hn hr
    rw [RestrictOptions.leniency_of_zero zero] at conforms
    exact (decides complete true hn r path).mpr conforms

/-- The source of a part made of parts, with the day on which it was built, if it was. -/
def assemblySource : Value :=
  .mapping <| .ofList
    [(labelsKey, .mapping <| .ofList
      [("part", .mapping <| .ofList
        [("name", .string "string"),
          ("kind", .sequence [.string "enum", .string "bolt", .string "nut"]),
          ("sizes", .sequence [.string "array", .string "float", .string "float"]),
          ("parts", .sequence [.string "array", .sequence [.string "ref", .string "part"]]),
          ("note", .sequence [.string "optional", .string "date"])])]),
      (schemaKey, .sequence
        [.string "tuple", .sequence [.string "ref", .string "part"],
          .sequence [.string "oneof", .string "date", .string "null"]])]

/-- A part made of parts, with the day on which it was built, if it was. -/
def assembly : Document Unit where
  labels := .ofList
    [("part", .node () <| .object <| .ofList
      [("name", ⟨false, .node () (.scalar .string)⟩),
        ("kind", ⟨false, .node () (.enum ⟨.string "bolt", [.string "nut"]⟩)⟩),
        ("sizes", ⟨false,
          .node () (.array [.node () (.scalar .float)] (.node () (.scalar .float)))⟩),
        ("parts", ⟨false, .node () (.array [] (.node () (.ref "part")))⟩),
        ("note", ⟨true, .node () (.scalar .date)⟩)])]
  root := .node () <| .tuple
    ⟨.node () (.ref "part"),
      [.node () (.oneof ⟨.node () (.scalar .date), [.node () (.scalar .null)]⟩)]⟩
  guarded := of_decide_eq_true (by cbv)

theorem compile_assemblySource : compile assemblySource = .ok assembly.locate := by
  have read : ofSource assemblySource = .ok assembly :=
    ofSource_eq_ok_iff.mpr ⟨by cbv, _, rfl, by cbv, by cbv, _, rfl, by cbv⟩
  rw [compile, read]
  rfl

theorem nanFree_assembly : assembly.locate.NaNFree :=
  List.all_eq_true.mp (by cbv)

/-- A part that is nothing yet, and the first day. -/
def blank : Value :=
  .sequence
    [.mapping <| .ofList
      [("name", .string ""), ("kind", .string "bolt"), ("sizes", .sequence [.number 0]),
        ("parts", .sequence [])],
      .timestamp .epoch]

/-- A part without a name or sizes, of no known kind, and no day. -/
def unfinished : Value :=
  .sequence
    [.mapping <| .ofList
      [("note", .bool true), ("kind", .string "screw"),
        ("parts", .sequence [.mapping <| .ofList [("name", .string "head")]])]]

/-- What is made of it with zero values. -/
def finished : Value :=
  .sequence
    [.mapping <| .ofList
      [("name", .string ""), ("kind", .string "bolt"), ("sizes", .sequence [.number 0]),
        ("parts", .sequence
          [.mapping <| .ofList
            [("name", .string "head"), ("kind", .string "bolt"), ("sizes", .sequence [.number 0]),
              ("parts", .sequence [])]]),
        ("note", .timestamp .epoch)],
      .timestamp .epoch]

theorem validate_blank_finished :
    compile assemblySource = .ok assembly.locate ∧ assembly.locate.NaNFree ∧
      assembly.locate.root ∈ assembly.locate.nodes ∧
      assembly.locate.zero assembly.locate.root = .ok blank ∧
      assembly.locate.validate true assembly.locate.root blank [] = [] ∧
      assembly.locate.restrict ⟨false, true, true⟩ assembly.locate.root unfinished =
        .ok (some finished) ∧
      assembly.locate.validate true assembly.locate.root finished [] = [] := by
  have made : assembly.locate.zero assembly.locate.root = .ok blank := by cbv
  have left : assembly.locate.restrict ⟨false, true, true⟩ assembly.locate.root unfinished =
      .ok (some finished) := by cbv
  obtain ⟨zeros, restrictions⟩ :=
    validate_eq_nil_of_zero compile_assemblySource nanFree_assembly (root_mem_nodes _) []
  exact ⟨compile_assemblySource, nanFree_assembly, root_mem_nodes _, made, zeros blank made, left,
    restrictions _ unfinished finished rfl left⟩

/-- **What restriction leaves of any value conforms but for absent fields**, whatever the
options: no key that is not declared, no scalar of another type, no array that is too short
and no tuple of another length is ever left. -/
theorem conforms_partly_of_restrict {source : Value} {d : Document Site}
    (hd : compile source = .ok d) (nan_free : d.NaNFree) {n : Node} (hn : n ∈ d.nodes)
    {o : RestrictOptions} {v r : Value} (hr : d.restrict o n v = .ok (some r)) :
    d.Conforms .partly n r :=
  (conforms_of_restrict (complete_of_compile hd) nan_free hn hr).mono o.leniency_extraFields nofun

/-- A part with an undeclared key and of no known kind, and no day. -/
def labelled : Value :=
  .sequence
    [.mapping <| .ofList [("tag", .bool true), ("kind", .string "screw"), ("sizes", .sequence [])],
      .null]

/-- What is left of it with empty collections put in: neither the key nor the kind. -/
def stripped : Value :=
  .sequence
    [.mapping <| .ofList [("sizes", .sequence [.number 0]), ("parts", .sequence [])], .null]

theorem conforms_partly_stripped :
    compile assemblySource = .ok assembly.locate ∧ assembly.locate.NaNFree ∧
      assembly.locate.root ∈ assembly.locate.nodes ∧
      assembly.locate.restrict ⟨true, false, false⟩ assembly.locate.root labelled =
        .ok (some stripped) ∧
      assembly.locate.Conforms .partly assembly.locate.root stripped ∧
      (assembly.locate.validate true assembly.locate.root stripped []).length = 2 := by
  have left : assembly.locate.restrict ⟨true, false, false⟩ assembly.locate.root labelled =
      .ok (some stripped) := by cbv
  exact ⟨compile_assemblySource, nanFree_assembly, root_mem_nodes _, left,
    conforms_partly_of_restrict compile_assemblySource nanFree_assembly (root_mem_nodes _) left,
    by cbv⟩

end Document

end TreeSchema
