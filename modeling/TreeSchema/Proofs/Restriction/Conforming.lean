import TreeSchema.Proofs.Restriction.Pruning

/-!
# Restriction of values that conform

A value that conforms, at most with keys that are not declared, is cut down to one
that conforms strictly. Nothing is missing or unusable in it, so the options are
irrelevant; and where no key is undeclared, nothing is cut off.

`Document.Kept` says this of one value, and is shown rule by rule. A union is where
the alternatives compete: one that the value conforms to yields a candidate that
conforms in the pass without conversion, and no option comes before that pass.

* `Document.exists_kept` — what conforms is kept.
* `Document.restrict_eq_of_conforms` — a value that conforms strictly is kept whole.
* `Document.restrict_conforms_of_loose` — one with other keys conforms strictly afterwards.
-/

namespace TreeSchema.Document

variable {α : Type}

/-- The value is restricted to a value that conforms strictly, whatever the options,
and to itself if it conforms strictly. -/
structure Kept (d : Document α) (n : Schema α) (v r : Value) : Prop where
  result : ∀ o, d.restrict o n v = .ok (some r)
  conforms : d.Conforms .strict n r
  whole : d.Conforms .strict n v → r.Reordered v

variable {d : Document α} {mark : α}

/-! ### Rule by rule -/

theorem kept_scalar {type : ScalarType} {v : Value} (ha : type.accepts v = true) :
    d.Kept (.node mark (.scalar type)) v v := by
  refine ⟨?_, .scalar ha, fun _ => .refl v⟩
  intro o
  rw [restrict_scalar, if_pos ha]

theorem kept_enum {members : OneOrMore Literal} {member : Literal} {v : Value}
    (hm : member ∈ members.toList) (he : (member.toValue == v) = true) :
    d.Kept (.node mark (.enum members)) v v := by
  refine ⟨?_, .enum hm he, fun _ => .refl v⟩
  intro o
  rw [restrict_enum, if_pos (OneOrMore.hasValue_iff.mpr ⟨member, hm, he⟩)]

theorem exists_kept_object {fields : Mapping (Field (Schema α))} {values : Mapping Value}
    (ih : ∀ key field x, fields.get? key = some field → values.get? key = some x →
      ∃ r, d.Kept field.type x r)
    (required : ∀ key field, fields.get? key = some field → field.optional = false →
      key ∈ values.keys) :
    ∃ r, d.Kept (.node mark (.object fields)) (.mapping values) r := by
  -- What is there is kept, and what is not there is optional.
  have parts : ∀ key field, fields.get? key = some field → ∃ y? : Option Value,
      (∀ o, d.restrictField o field (values.get? key) = .ok y?) ∧
      (∀ y, y? = some y → ∃ x, values.get? key = some x ∧ d.Kept field.type x y) ∧
      (y? = none → values.get? key = none) := by
    intro key field hf
    cases hx : values.get? key with
    | some x =>
      obtain ⟨y, hy⟩ := ih key field x hf hx
      refine ⟨some y, hy.result, ?_, nofun⟩
      rintro _ ⟨⟩
      exact ⟨x, rfl, hy⟩
    | none =>
      refine ⟨none, ?_, nofun, fun _ => rfl⟩
      intro o
      have ho : field.optional = true := by
        by_contra h
        exact Mapping.get?_eq_none_iff.mp hx (required key field hf (Bool.eq_false_iff.mpr h))
      rw [restrictField, if_pos ho]
  obtain ⟨results, hr⟩ := Mapping.exists_pointwise parts
  have related : ∀ {key y?}, results.get? key = some y? → ∃ field,
      fields.get? key = some field ∧
      (∀ y, y? = some y → ∃ x, values.get? key = some x ∧ d.Kept field.type x y) ∧
      (y? = none → values.get? key = none) := by
    intro key y? hy
    obtain ⟨field, hf, -, h⟩ := hr.exists_left hy
    exact ⟨field, hf, h⟩
  refine ⟨.mapping results.somes, ?_, ?_, ?_⟩
  · intro o
    refine restrict_object_eq_ok_iff.mpr ⟨results, ⟨hr.keys, ?_⟩, rfl⟩
    intro key field y? hf hy
    exact (hr.related key field y? hf hy).1 o
  · refine .object ?_ ?_ ?_
    · intro key field y hf hy
      rw [Mapping.get?_somes, Option.join_eq_some_iff] at hy
      obtain ⟨x, -, h⟩ := (hr.related key field _ hf hy).2.1 y rfl
      exact h.conforms
    · intro _ key field hf ho
      obtain ⟨y?, hy, -, -, absent⟩ := hr.exists_right hf
      have hk := required key field hf ho
      cases y? with
      | none => exact absurd hk (Mapping.get?_eq_none_iff.mp (absent rfl))
      | some y => exact Mapping.mem_keys_somes_iff.mpr ⟨y, hy⟩
    · intro _ key hk
      obtain ⟨y, hy⟩ := Mapping.mem_keys_somes_iff.mp hk
      obtain ⟨field, hf, -⟩ := related hy
      exact Mapping.mem_keys_of_get? hf
  · intro hv
    cases hv with
    | object present _ known =>
    refine .of_somes ?_ ?_
    · intro key y hy
      obtain ⟨field, -, h, -⟩ := related hy
      obtain ⟨x, hx, -⟩ := h y rfl
      exact Mapping.mem_keys_of_get? hx
    · intro key x hx
      have hk := known rfl key (Mapping.mem_keys_of_get? hx)
      obtain ⟨field, hf⟩ := Option.isSome_iff_exists.mp (Mapping.get?_isSome_iff.mpr hk)
      obtain ⟨y?, hy, -, found, absent⟩ := hr.exists_right hf
      cases y? with
      | none => rw [absent rfl] at hx; cases hx
      | some y =>
        obtain ⟨x', hx', h⟩ := found y rfl
        obtain rfl := Option.some.inj (hx.symm.trans hx')
        exact ⟨y, hy, h.whole (present key field x hf hx)⟩

theorem exists_kept_dictionary {type : Schema α} {values : Mapping Value}
    (ih : ∀ key x, values.get? key = some x → ∃ r, d.Kept type x r) :
    ∃ r, d.Kept (.node mark (.dictionary type)) (.mapping values) r := by
  have parts : ∀ key x, values.get? key = some x → ∃ y? : Option Value,
      ∃ y, y? = some y ∧ d.Kept type x y := by
    intro key x hx
    obtain ⟨y, hy⟩ := ih key x hx
    exact ⟨some y, y, rfl, hy⟩
  obtain ⟨results, hr⟩ := Mapping.exists_pointwise parts
  refine ⟨.mapping results.somes, ?_, ?_, ?_⟩
  · intro o
    refine restrict_dictionary_eq_ok_iff.mpr ⟨results, ⟨hr.keys, ?_⟩, rfl⟩
    intro key x y? hx hy
    obtain ⟨y, rfl, h⟩ := hr.related key x y? hx hy
    exact h.result o
  · refine .dictionary ?_
    intro key y hy
    rw [Mapping.get?_somes, Option.join_eq_some_iff] at hy
    obtain ⟨x, -, _, ⟨⟩, h⟩ := hr.exists_left hy
    exact h.conforms
  · intro hv
    cases hv with
    | dictionary present =>
    refine .of_somes ?_ ?_
    · intro key y hy
      obtain ⟨x, hx, -⟩ := hr.exists_left hy
      exact Mapping.mem_keys_of_get? hx
    · intro key x hx
      obtain ⟨_, hy, y, rfl, h⟩ := hr.exists_right hx
      exact ⟨y, hy, h.whole (present key x hx)⟩

theorem exists_kept_array {initial : List (Schema α)} {rest : Schema α} {items : List Value}
    (hl : initial.length ≤ items.length)
    (ih : ∀ (i : Nat) x, items[i]? = some x → ∃ r, d.Kept (Rule.itemAt initial rest i) x r) :
    ∃ r, d.Kept (.node mark (.array initial rest)) (.sequence items) r := by
  obtain ⟨rs, hr⟩ := exists_pointwise ih
  have length := hr.length
  refine ⟨.sequence rs, ?_, ?_, ?_⟩
  · intro o
    exact restrict_array_of_pointwise hl (hr.mono fun i x y h => h.result o)
  · refine conforms_array_iff.mpr ⟨rs, rfl, by omega, ?_⟩
    intro i y hy
    obtain ⟨x, -, h⟩ := hr.exists_left hy
    exact h.conforms
  · intro hv
    obtain ⟨_, ⟨⟩, -, hitems⟩ := conforms_array_iff.mp hv
    refine .sequence length ?_
    intro i y x hy hx
    exact (hr.related i x y hx hy).whole (hitems i x hx)

theorem exists_kept_tuple {elements : OneOrMore (Schema α)} {items : List Value}
    (hl : items.length = elements.toList.length)
    (ih : ∀ (i : Nat) part x, elements.toList[i]? = some part → items[i]? = some x →
      ∃ r, d.Kept part x r) :
    ∃ r, d.Kept (.node mark (.tuple elements)) (.sequence items) r := by
  have parts : ∀ (i : Nat) part, elements.toList[i]? = some part →
      ∃ y x, items[i]? = some x ∧ d.Kept part x y := by
    intro i part hp
    obtain ⟨hi, -⟩ := List.getElem?_eq_some_iff.mp hp
    have hx := List.getElem?_eq_getElem (hl ▸ hi)
    obtain ⟨y, hy⟩ := ih i part _ hp hx
    exact ⟨y, _, hx, hy⟩
  obtain ⟨rs, hr⟩ := exists_pointwise parts
  refine ⟨.sequence rs, ?_, ?_, ?_⟩
  · intro o
    exact restrict_tuple_of_pointwise hl (hr.mono fun i part y ⟨x, hx, h⟩ => ⟨x, hx, h.result o⟩)
  · refine .tuple hr.length ?_
    intro i part y hp hy
    obtain ⟨x, -, h⟩ := hr.related i part y hp hy
    exact h.conforms
  · intro hv
    cases hv with
    | tuple _ hparts =>
    refine .sequence (hr.length.trans hl.symm) ?_
    intro i y x hy hx
    obtain ⟨part, hp, x', hx', h⟩ := hr.exists_left hy
    obtain rfl := Option.some.inj (hx.symm.trans hx')
    exact h.whole (hparts i part x hp hx)

theorem exists_kept_oneof (complete : d.Complete) {alternatives : OneOrMore (Schema α)}
    {v : Value} (hn : ∀ alternative ∈ alternatives.toList, alternative ∈ d.nodes)
    (ih : ∀ alternative ∈ alternatives.toList, d.Conforms .loose alternative v →
      ∃ r, d.Kept alternative v r)
    (hv : d.Conforms .loose (.node mark (.oneof alternatives)) v) :
    ∃ r, d.Kept (.node mark (.oneof alternatives)) v r := by
  cases hfind : alternatives.toList.find? fun a => d.conforms a v with
  | some first =>
    have hm := List.mem_of_find?_eq_some hfind
    have fits := List.find?_some (p := fun a => d.conforms a v) hfind
    have hfirst := (conforms_iff complete (hn first hm)).mp fits
    obtain ⟨r, hr⟩ := ih first hm hfirst.of_strict
    refine ⟨r, ?_, .oneof hm hr.conforms, fun _ => hr.whole hfirst⟩
    intro o
    rw [restrict_oneof_of_find? hfind]
    exact hr.result o
  | none =>
    have none_fits : ∀ a ∈ alternatives.toList, d.conforms a v = false := by
      intro a ha
      exact Bool.eq_false_iff.mpr (List.find?_eq_none.mp hfind a ha)
    -- An alternative that the value conforms to makes a candidate that conforms.
    obtain ⟨c, hc⟩ : ∃ c, (d.plainCandidates alternatives.toList v).find? Candidate.conforms =
        some c := by
      cases hv with
      | @oneof _ _ a _ ha hloose =>
      obtain ⟨r, hr⟩ := ih a ha hloose
      have pruned := restrict_plain_eq_ok_iff.mp (hr.result (.plain false))
      have fits := (conforms_iff complete (hn a ha)).mpr hr.conforms
      exact Option.isSome_iff_exists.mp
        (List.find?_isSome.mpr ⟨_, mem_plainCandidates ha pruned, fits⟩)
    obtain ⟨a, ha, hconforms⟩ :=
      conforms_of_find?_candidates complete hn ((candidates_plain _ v).symm ▸ hc)
    refine ⟨c.value, ?_, .oneof ha hconforms, ?_⟩
    · intro o
      obtain ⟨others, ho⟩ := d.exists_candidates_eq_append o alternatives.toList v
      rw [restrict_oneof_of_forall none_fits, chooseCandidate, ho, List.find?_append, hc]
      rfl
    · intro hstrict
      cases hstrict with
      | @oneof _ _ b _ hb hv =>
      have fits := (conforms_iff complete (hn b hb)).mpr hv
      rw [none_fits b hb] at fits
      cases fits

theorem kept_ref {label : String} {body : Schema α} {v r : Value}
    (hb : d.body? label = some body) (h : d.Kept body v r) :
    d.Kept (.node mark (.ref label)) v r := by
  refine ⟨?_, .ref hb h.conforms, ?_⟩
  · intro o
    rw [restrict_ref hb]
    exact h.result o
  · intro hv
    cases hv with
    | ref hb' hbody => exact h.whole (Option.some.inj (hb.symm.trans hb') ▸ hbody)

/-! ### What conforms is kept -/

/-- **What conforms to a node, at most with keys that are not declared, is kept.** -/
theorem exists_kept (complete : d.Complete) {n : Schema α} (hn : n ∈ d.nodes) {v : Value}
    (hv : d.Conforms .loose n v) : ∃ r, d.Kept n v r := by
  refine d.descent_nodes
    (motive := fun n v => d.Conforms .loose n v → ∃ r, d.Kept n v r) ?_ hn v hv
  intro mark rule v hn smaller unfolded hv
  cases rule with
  | any => exact ⟨v, fun o => restrict_any, .any, fun _ => .refl v⟩
  | scalar type =>
    cases hv with
    | scalar ha => exact ⟨v, kept_scalar ha⟩
  | enum members =>
    cases hv with
    | enum hm he => exact ⟨v, kept_enum hm he⟩
  | object fields =>
    cases hv with
    | object present required _ =>
    refine exists_kept_object ?_ (required rfl)
    intro key field x hf hx
    exact smaller _ (Rule.mem_parts_of_get? hf) x
      (Value.size_lt_of_get? hx) (present key field x hf hx)
  | array initial rest =>
    obtain ⟨items, rfl, hl, hitems⟩ := conforms_array_iff.mp hv
    refine exists_kept_array hl ?_
    intro i x hx
    exact smaller _ (Rule.mem_parts_itemAt initial rest i) x
      (Value.size_lt_of_mem (List.mem_of_getElem? hx)) (hitems i x hx)
  | tuple elements =>
    cases hv with
    | tuple hl hparts =>
    refine exists_kept_tuple hl ?_
    intro i part x hp hx
    exact smaller part (Rule.mem_parts_tuple (List.mem_of_getElem? hp)) x
      (Value.size_lt_of_mem (List.mem_of_getElem? hx)) (hparts i part x hp hx)
  | dictionary type =>
    cases hv with
    | dictionary hvalues =>
    refine exists_kept_dictionary ?_
    intro key x hx
    exact smaller type (Rule.mem_parts_dictionary type) x (Value.size_lt_of_get? hx)
      (hvalues key x hx)
  | oneof alternatives =>
    refine exists_kept_oneof complete ?_ ?_ hv
    · intro alternative ha
      exact mem_nodes_of_mem_parts hn (Rule.mem_parts_oneof ha)
    · intro alternative ha
      exact unfolded alternative (.alternative ha)
  | ref label =>
    cases hv with
    | @ref _ _ body _ hb hbody =>
    obtain ⟨r, hr⟩ := unfolded body (.target hb) hbody
    exact ⟨r, kept_ref hb hr⟩

/-- **A value that conforms strictly to a node of a compiled document is restricted to
itself**, up to the order of entries and whatever the options. -/
theorem restrict_eq_of_conforms {source : Value} {d : Document Site}
    (hd : compile source = .ok d) {n : Node} (hn : n ∈ d.nodes) {v : Value} {path : Path}
    (hv : d.validate true n v path = []) (o : RestrictOptions) :
    ∃ r, d.restrict o n v = .ok (some r) ∧ r.Reordered v := by
  have complete := complete_of_compile hd
  have strict := (decides complete true hn v path).mp hv
  obtain ⟨r, hr⟩ := exists_kept complete hn strict.of_strict
  exact ⟨r, hr.result o, hr.whole strict⟩

theorem restrict_sapling :
    compile treeSource = .ok tree.locate ∧ tree.locate.root ∈ tree.locate.nodes ∧
      tree.locate.validate true tree.locate.root sapling [] = [] ∧
      ∃ r, tree.locate.restrict ⟨true, true, true⟩ tree.locate.root sapling = .ok (some r) ∧
        r.Reordered sapling := by
  have fits : tree.locate.validate true tree.locate.root sapling [] = [] := by cbv
  exact ⟨compile_treeSource, root_mem_nodes _, fits,
    restrict_eq_of_conforms compile_treeSource (root_mem_nodes _) fits ⟨true, true, true⟩⟩

/-- **A value that conforms to a node of a compiled document but for keys that are not
declared is restricted to one that conforms strictly**, the same whatever the options. -/
theorem restrict_conforms_of_loose {source : Value} {d : Document Site}
    (hd : compile source = .ok d) {n : Node} (hn : n ∈ d.nodes) {v : Value} {path : Path}
    (hv : d.validate false n v path = []) :
    ∃ r, (∀ o, d.restrict o n v = .ok (some r)) ∧ ∀ path, d.validate true n r path = [] := by
  have complete := complete_of_compile hd
  have loose := (decides complete false hn v path).mp hv
  obtain ⟨r, hr⟩ := exists_kept complete hn loose
  exact ⟨r, hr.result, fun path => (decides complete true hn r path).mpr hr.conforms⟩

/-- A tree with an undeclared key. -/
def tagged : Value :=
  .mapping <| .ofList
    [("tag", .bool true), ("text", .string "stem"), ("children", .sequence [])]

theorem restrict_tagged :
    compile treeSource = .ok tree.locate ∧ tree.locate.root ∈ tree.locate.nodes ∧
      tree.locate.validate false tree.locate.root tagged [] = [] ∧
      ∃ r, (∀ o, tree.locate.restrict o tree.locate.root tagged = .ok (some r)) ∧
        ∀ path, tree.locate.validate true tree.locate.root r path = [] := by
  have fits : tree.locate.validate false tree.locate.root tagged [] = [] := by cbv
  exact ⟨compile_treeSource, root_mem_nodes _, fits,
    restrict_conforms_of_loose compile_treeSource (root_mem_nodes _) fits⟩

end TreeSchema.Document
