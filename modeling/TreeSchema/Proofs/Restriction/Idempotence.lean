import TreeSchema.Proofs.Restriction.Conforming
import TreeSchema.Proofs.Restriction.Outcome

/-!
# When restriction is idempotent

Restricting a result once more, without any options, gives the same result almost
everywhere: it leaves nothing to cut off. What is in the way are unions. A union
that has to do with a value that conforms to none of its alternatives lets the first
alternative stand that makes anything of the value; of the result another alternative
may make something else, and if that conforms it is preferred.

`Document.Reaches` follows a value down to the unions that it is held against, and
`Document.Undisputed` is what each of them has to make of its part.

* `Document.fixed_iff_settled` — what conforms but for absent fields is kept as it is
  exactly if every union that it reaches is undisputed.
* `Document.fixed_of_restrict_zero` — where zero values are put, restriction is idempotent.
* `Document.restrict_idempotent_iff` — the result of a restriction is kept as it is
  exactly under that condition.
* `Document.restrict_not_idempotent` — a result that is not.
-/

namespace TreeSchema.Document

variable {α : Type}

/-! ### Parts of a value and what they are held against -/

/-- A part of the value is held against a schema that the schema leads to. Unions are not
entered. -/
inductive Enters (d : Document α) : Schema α → Value → Schema α → Value → Prop where
  | field {mark : α} {fields : Mapping (Field (Schema α))} {values : Mapping Value}
      {key : String} {field : Field (Schema α)} {x : Value} :
      fields.get? key = some field → values.get? key = some x →
      Enters d (.node mark (.object fields)) (.mapping values) field.type x
  | item {mark : α} {initial : List (Schema α)} {rest : Schema α} {items : List Value} {i : Nat}
      {x : Value} : items[i]? = some x →
      Enters d (.node mark (.array initial rest)) (.sequence items) (Rule.itemAt initial rest i) x
  | element {mark : α} {elements : OneOrMore (Schema α)} {items : List Value} {i : Nat}
      {part : Schema α} {x : Value} : elements.toList[i]? = some part → items[i]? = some x →
      Enters d (.node mark (.tuple elements)) (.sequence items) part x
  | entry {mark : α} {type : Schema α} {values : Mapping Value} {key : String} {x : Value} :
      values.get? key = some x → Enters d (.node mark (.dictionary type)) (.mapping values) type x
  | target {mark : α} {label : String} {body : Schema α} {v : Value} :
      d.body? label = some body → Enters d (.node mark (.ref label)) v body v

/-- The schema and value are reached by entering parts any number of times. -/
inductive Reaches (d : Document α) : Schema α → Value → Schema α → Value → Prop where
  | here {n : Schema α} {v : Value} : Reaches d n v n v
  | next {n m q : Schema α} {v w x : Value} :
      d.Enters n v m w → Reaches d m w q x → Reaches d n v q x

variable {d : Document α}

theorem mem_nodes_of_enters {n m : Schema α} {v w : Value} (hn : n ∈ d.nodes)
    (h : d.Enters n v m w) : m ∈ d.nodes := by
  cases h with
  | field hf _ => exact mem_nodes_of_mem_parts hn (Rule.mem_parts_of_get? hf)
  | item _ => exact mem_nodes_of_mem_parts hn (Rule.mem_parts_itemAt _ _ _)
  | element hp _ =>
    exact mem_nodes_of_mem_parts hn (Rule.mem_parts_tuple (List.mem_of_getElem? hp))
  | entry _ => exact mem_nodes_of_mem_parts hn (Rule.mem_parts_dictionary _)
  | target hb => exact mem_nodes_of_body? hb

theorem mem_nodes_of_reaches {n m : Schema α} {v w : Value} (hn : n ∈ d.nodes)
    (h : d.Reaches n v m w) : m ∈ d.nodes := by
  induction h with
  | here => exact hn
  | next enters _ ih => exact ih (mem_nodes_of_enters hn enters)

/-! ### Values that are kept as they are -/

/-- The value is kept as it is, up to the order of entries. -/
def Fixed (d : Document α) (n : Schema α) (v : Value) : Prop :=
  ∃ r, d.restrict (.plain false) n v = .ok (some r) ∧ r.Reordered v

/-- What conforms strictly is kept as it is. -/
theorem Fixed.of_conforms (complete : d.Complete) {n : Schema α} (hn : n ∈ d.nodes) {v : Value}
    (hv : d.Conforms .strict n v) : d.Fixed n v := by
  obtain ⟨r, hr⟩ := exists_kept complete hn hv.of_strict
  exact ⟨r, hr.result _, hr.whole hv⟩

/-- **Parts of a value that is kept are kept.** -/
theorem Fixed.of_enters {n part : Schema α} {v x : Value} (hv : d.Fixed n v)
    (h : d.Enters n v part x) : d.Fixed part x := by
  obtain ⟨r, hr, same⟩ := hv
  cases h with
  | @field mark fields values key field _ hf hx =>
    obtain ⟨results, hresults, hres⟩ := restrict_object_eq_ok_iff.mp hr
    cases hres
    obtain ⟨_, ⟨⟩, -, kept⟩ := same.of_mapping
    obtain ⟨y, hy, hyx⟩ := kept key x hx
    rw [Mapping.get?_somes, Option.join_eq_some_iff] at hy
    have hfield := hresults.related key field _ hf hy
    rw [hx] at hfield
    exact ⟨y, hfield, hyx⟩
  | @item mark initial rest items i _ hx =>
    rcases restrict_array_eq_ok_iff.mp hr with ⟨first, others, hfirst, hothers, hres⟩ | ⟨-, h⟩
    · cases hres
      obtain ⟨_, ⟨⟩, length, kept⟩ := same.of_sequence
      obtain ⟨y, hy, hyx⟩ := kept i x hx
      refine ⟨y, ?_, hyx⟩
      by_cases hi : i < initial.length
      · have hp := List.getElem?_eq_getElem hi
        rw [List.getElem?_append_left (hfirst.length ▸ hi)] at hy
        have hitem := hfirst.related i _ y hp hy
        rw [hx, restrictItem_plain (fillInitial_plain _)] at hitem
        rw [Rule.itemAt_of_getElem? hp]
        exact hitem
      · obtain ⟨j, rfl⟩ := Nat.exists_eq_add_of_le (Nat.le_of_not_lt hi)
        -- No item past the initial ones was left out, for the lengths agree.
        have all : others = (others.filterMap id).map some := by
          refine eq_map_some_of_length ?_
          have hrest := hothers.length
          rw [List.length_append, hfirst.length] at length
          rw [List.length_drop] at hrest
          omega
        rw [← hfirst.length, List.getElem?_append_right (Nat.le_add_right _ _),
          Nat.add_sub_cancel_left] at hy
        have hj : others[j]? = some (some y) := by
          rw [all, List.getElem?_map, hy]
          rfl
        rw [Rule.itemAt_length_add]
        refine hothers.related j x (some y) ?_ hj
        rw [List.getElem?_drop]
        exact hx
    · cases h
  | @element mark elements items i _ _ hp hx =>
    rcases restrict_tuple_eq_ok_iff.mp hr with ⟨-, hres⟩ | ⟨-, ⟨results, hresults, hres⟩ | ⟨-, h⟩⟩
    · cases hres
    · cases hres
      obtain ⟨_, ⟨⟩, -, kept⟩ := same.of_sequence
      obtain ⟨y, hy, hyx⟩ := kept i x hx
      have hitem := hresults.related i part y hp hy
      rw [hx, restrictItem_plain (fillFor_plain _)] at hitem
      exact ⟨y, hitem, hyx⟩
    · cases h
  | @entry mark type values key _ hx =>
    obtain ⟨results, hresults, hres⟩ := restrict_dictionary_eq_ok_iff.mp hr
    cases hres
    obtain ⟨_, ⟨⟩, -, kept⟩ := same.of_mapping
    obtain ⟨y, hy, hyx⟩ := kept key x hx
    rw [Mapping.get?_somes, Option.join_eq_some_iff] at hy
    exact ⟨y, hresults.related key x _ hx hy, hyx⟩
  | target hb =>
    rw [restrict_ref hb] at hr
    exact ⟨r, hr, same⟩

theorem Fixed.of_reaches {n m : Schema α} {v w : Value} (hv : d.Fixed n v)
    (h : d.Reaches n v m w) : d.Fixed m w := by
  induction h with
  | here => exact hv
  | next enters _ ih => exact ih (hv.of_enters enters)

section Rules

variable {mark : α}

theorem fixed_object {fields : Mapping (Field (Schema α))} {values : Mapping Value}
    (known : ∀ key ∈ values.keys, key ∈ fields.keys)
    (ih : ∀ key field x, fields.get? key = some field → values.get? key = some x →
      d.Fixed field.type x) : d.Fixed (.node mark (.object fields)) (.mapping values) := by
  have parts : ∀ key field, fields.get? key = some field → ∃ y? : Option Value,
      d.restrictField (.plain false) field (values.get? key) = .ok y? ∧
      (∀ y, y? = some y → key ∈ values.keys) ∧
      ∀ x, values.get? key = some x → ∃ y, y? = some y ∧ y.Reordered x := by
    intro key field hf
    cases hx : values.get? key with
    | some x =>
      obtain ⟨y, hy, hyx⟩ := ih key field x hf hx
      refine ⟨some y, hy, fun _ _ => Mapping.mem_keys_of_get? hx, ?_⟩
      rintro _ ⟨⟩
      exact ⟨y, rfl, hyx⟩
    | none =>
      refine ⟨none, ?_, nofun, nofun⟩
      rw [restrictField, fillFor_plain]
      split
      · rfl
      · rfl
  obtain ⟨results, hr⟩ := Mapping.exists_pointwise parts
  refine ⟨.mapping results.somes, ?_, .of_somes ?_ ?_⟩
  · refine restrict_object_eq_ok_iff.mpr ⟨results, ⟨hr.keys, ?_⟩, rfl⟩
    intro key field y? hf hy
    exact (hr.related key field y? hf hy).1
  · intro key y hy
    obtain ⟨field, -, -, present, -⟩ := hr.exists_left hy
    exact present y rfl
  · intro key x hx
    have hk := known key (Mapping.mem_keys_of_get? hx)
    obtain ⟨y?, hy, -, -, kept⟩ := hr.exists_right (fields.get?_eq_some_value hk)
    obtain ⟨y, rfl, hyx⟩ := kept x hx
    exact ⟨y, hy, hyx⟩

theorem fixed_dictionary {type : Schema α} {values : Mapping Value}
    (ih : ∀ key x, values.get? key = some x → d.Fixed type x) :
    d.Fixed (.node mark (.dictionary type)) (.mapping values) := by
  have parts : ∀ key x, values.get? key = some x → ∃ y? : Option Value,
      ∃ y, y? = some y ∧ d.restrict (.plain false) type x = .ok (some y) ∧ y.Reordered x := by
    intro key x hx
    obtain ⟨y, hy⟩ := ih key x hx
    exact ⟨some y, y, rfl, hy⟩
  obtain ⟨results, hr⟩ := Mapping.exists_pointwise parts
  refine ⟨.mapping results.somes, ?_, .of_somes ?_ ?_⟩
  · refine restrict_dictionary_eq_ok_iff.mpr ⟨results, ⟨hr.keys, ?_⟩, rfl⟩
    intro key x y? hx hy
    obtain ⟨y, rfl, h, -⟩ := hr.related key x y? hx hy
    exact h
  · intro key y hy
    obtain ⟨x, hx, -⟩ := hr.exists_left hy
    exact Mapping.mem_keys_of_get? hx
  · intro key x hx
    obtain ⟨_, hy, y, rfl, -, hyx⟩ := hr.exists_right hx
    exact ⟨y, hy, hyx⟩

theorem fixed_array {initial : List (Schema α)} {rest : Schema α} {items : List Value}
    (hl : initial.length ≤ items.length)
    (ih : ∀ (i : Nat) x, items[i]? = some x → d.Fixed (Rule.itemAt initial rest i) x) :
    d.Fixed (.node mark (.array initial rest)) (.sequence items) := by
  obtain ⟨rs, hr⟩ := exists_pointwise ih
  refine ⟨.sequence rs, ?_, .sequence hr.length ?_⟩
  · exact restrict_array_of_pointwise hl (hr.mono fun i x y h => h.1)
  · intro i y x hy hx
    exact (hr.related i x y hx hy).2

theorem fixed_tuple {elements : OneOrMore (Schema α)} {items : List Value}
    (hl : items.length = elements.toList.length)
    (ih : ∀ (i : Nat) part x, elements.toList[i]? = some part → items[i]? = some x →
      d.Fixed part x) : d.Fixed (.node mark (.tuple elements)) (.sequence items) := by
  have parts : ∀ (i : Nat) part, elements.toList[i]? = some part → ∃ y x, items[i]? = some x ∧
      d.restrict (.plain false) part x = .ok (some y) ∧ y.Reordered x := by
    intro i part hp
    obtain ⟨hi, -⟩ := List.getElem?_eq_some_iff.mp hp
    have hx := List.getElem?_eq_getElem (hl ▸ hi)
    obtain ⟨y, hy⟩ := ih i part _ hp hx
    exact ⟨y, _, hx, hy⟩
  obtain ⟨rs, hr⟩ := exists_pointwise parts
  refine ⟨.sequence rs, ?_, .sequence (hr.length.trans hl.symm) ?_⟩
  · exact restrict_tuple_of_pointwise hl (hr.mono fun i part y ⟨x, hx, h, _⟩ => ⟨x, hx, h⟩)
  · intro i y x hy hx
    obtain ⟨part, -, x', hx', -, hyx⟩ := hr.exists_left hy
    obtain rfl := Option.some.inj (hx.symm.trans hx')
    exact hyx

end Rules

/-! ### Unions -/

/-- What a union has to make of a value to keep it: the value conforms to an alternative,
or else no pruning of it does and the first pruning there is leaves it as it is. -/
def Undisputed (d : Document α) (alternatives : List (Schema α)) (v : Value) : Prop :=
  (∃ a ∈ alternatives, d.Conforms .strict a v) ∨
    (∀ a ∈ alternatives, ∀ w, d.prune false a v = some w → ¬ d.Conforms .strict a w) ∧
      ∃ w, alternatives.findSome? (fun a => d.prune false a v) = some w ∧ w.Reordered v

/-- **A union keeps a value exactly if it is undisputed.** -/
theorem fixed_oneof_iff (complete : d.Complete) {mark : α} {alternatives : OneOrMore (Schema α)}
    {v : Value} (hn : .node mark (.oneof alternatives) ∈ d.nodes) :
    d.Fixed (.node mark (.oneof alternatives)) v ↔ d.Undisputed alternatives.toList v := by
  have part : ∀ {a}, a ∈ alternatives.toList → a ∈ d.nodes := fun ha =>
    mem_nodes_of_mem_parts hn (Rule.mem_parts_oneof ha)
  constructor
  · rintro ⟨r, hr, same⟩
    rcases restrict_oneof_cases hr with ⟨a, ha, hc, -⟩ | ⟨none_fits, h⟩
    · exact .inl ⟨a, ha, (conforms_iff complete (part ha)).mp hc⟩
    · refine .inr ?_
      rw [chooseCandidate] at h
      split at h
      · next c hc =>
        -- A candidate that conforms is the value, which does not conform.
        cases h
        obtain ⟨a, ha, hconforms⟩ := conforms_of_find?_candidates complete (fun a => part) hc
        have hv := hconforms.reordered same
        rw [← conforms_iff complete (part ha), none_fits a ha] at hv
        cases hv
      · next hfind =>
        rw [candidates_plain] at hfind h
        rw [if_neg (by simp), head?_plainCandidates] at h
        refine ⟨?_, r, Except.ok.inj h, same⟩
        intro a ha w hw hconforms
        have := List.find?_eq_none.mp hfind _ (mem_plainCandidates ha hw)
        exact this ((conforms_iff complete (part ha)).mpr hconforms)
  · rintro h
    by_cases fits : d.Conforms .strict (.node mark (.oneof alternatives)) v
    · exact .of_conforms complete hn fits
    · rcases h with ⟨a, ha, hv⟩ | ⟨none_conforms, w, hw, same⟩
      · exact absurd (.oneof ha hv) fits
      · refine ⟨w, ?_, same⟩
        have none_fits : ∀ a ∈ alternatives.toList, d.conforms a v = false := by
          intro a ha
          refine Bool.eq_false_iff.mpr fun hc => fits (.oneof ha ?_)
          exact (conforms_iff complete (part ha)).mp hc
        have none_found : (d.plainCandidates alternatives.toList v).find? Candidate.conforms =
            none := by
          rw [List.find?_eq_none]
          intro c hc hconforms
          obtain ⟨a, ha, hu, hcandidate⟩ := exists_of_mem_plainCandidates hc
          rw [hcandidate, conforms_iff complete (part ha)] at hconforms
          exact none_conforms a ha _ hu hconforms
        rw [restrict_oneof_of_forall none_fits, candidates_plain, chooseCandidate, none_found,
          head?_plainCandidates, hw]
        rfl

/-! ### Exactly then -/

/-- Every union that the value reaches is undisputed. -/
def Settled (d : Document α) (n : Schema α) (v : Value) : Prop :=
  ∀ mark alternatives w, d.Reaches n v (.node mark (.oneof alternatives)) w →
    d.Undisputed alternatives.toList w

theorem Settled.of_enters {n m : Schema α} {v w : Value} (hv : d.Settled n v)
    (h : d.Enters n v m w) : d.Settled m w := fun mark alternatives u hu =>
  hv mark alternatives u (.next h hu)

theorem fixed_of_settled (complete : d.Complete) (n : Schema α) (v : Value) :
    n ∈ d.nodes → d.Conforms .partly n v → d.Settled n v → d.Fixed n v := by
  refine d.descent (motive := fun n v =>
    n ∈ d.nodes → d.Conforms .partly n v → d.Settled n v → d.Fixed n v) ?_ n v
  intro n v smaller unfolded hn hv settled
  have part : ∀ {m w}, d.Enters n v m w → w.size < v.size → d.Conforms .partly m w →
      d.Fixed m w := fun enters hs hw =>
    smaller _ _ hs (mem_nodes_of_enters hn enters) hw (settled.of_enters enters)
  cases hv with
  | any => exact ⟨v, restrict_any, .refl v⟩
  | scalar ha => exact ⟨v, (kept_scalar ha).result _, .refl v⟩
  | enum hm he => exact ⟨v, (kept_enum hm he).result _, .refl v⟩
  | object present _ known =>
    refine fixed_object (known rfl) ?_
    intro key field x hf hx
    exact part (.field hf hx) (Value.size_lt_of_get? hx) (present key field x hf hx)
  | @array mark initial rest items hl hinitial hrest =>
    have hv : d.Conforms .partly (.node mark (.array initial rest)) (.sequence items) :=
      .array hl hinitial hrest
    obtain ⟨_, ⟨⟩, -, hitems⟩ := conforms_array_iff.mp hv
    refine fixed_array hl ?_
    intro i x hx
    exact part (.item hx) (Value.size_lt_of_mem (List.mem_of_getElem? hx)) (hitems i x hx)
  | tuple hl hparts =>
    refine fixed_tuple hl ?_
    intro i q x hq hx
    exact part (.element hq hx) (Value.size_lt_of_mem (List.mem_of_getElem? hx))
      (hparts i q x hq hx)
  | dictionary hvalues =>
    refine fixed_dictionary ?_
    intro key x hx
    exact part (.entry hx) (Value.size_lt_of_get? hx) (hvalues key x hx)
  | oneof ha _ => exact (fixed_oneof_iff complete hn).mpr (settled _ _ v .here)
  | @ref mark label body _ hb hbody =>
    obtain ⟨r, hr, same⟩ := unfolded body (.target hb) (mem_nodes_of_body? hb) hbody
      (settled.of_enters (.target hb))
    exact ⟨r, (restrict_ref hb).trans hr, same⟩

/-- **What conforms but for absent fields is kept as it is exactly if every union that
it reaches is undisputed.** -/
theorem fixed_iff_settled (complete : d.Complete) {n : Schema α} (hn : n ∈ d.nodes) {v : Value}
    (hv : d.Conforms .partly n v) : d.Fixed n v ↔ d.Settled n v := by
  constructor
  · intro fixed mark alternatives w reaches
    exact (fixed_oneof_iff complete (mem_nodes_of_reaches hn reaches)).mp (fixed.of_reaches reaches)
  · exact fixed_of_settled complete n v hn hv

/-- **Where zero values are put, restriction is idempotent**: its results conform strictly. -/
theorem fixed_of_restrict_zero (complete : d.Complete) (nan_free : d.NaNFree) {n : Schema α}
    (hn : n ∈ d.nodes) {o : RestrictOptions} (zero : o.fillMode? = some .zero) {v r : Value}
    (h : d.restrict o n v = .ok (some r)) : d.Fixed n r := by
  exact .of_conforms complete hn
    (RestrictOptions.leniency_of_zero zero ▸ conforms_of_restrict complete nan_free hn h)

/-! ### A union that is disputed -/

/-- The source of a union of two kinds of objects. -/
def unionSource : Value :=
  .mapping <| .ofList
    [(schemaKey, .sequence
      [.string "oneof",
        .mapping <| .ofList [("a", .string "string"), ("b", .string "any")],
        .mapping <| .ofList
          [("c", .sequence [.string "optional", .mapping <| .ofList [("d", .string "string")]])]])]

/-- A union of two kinds of objects. -/
def union : Document Unit where
  labels := ∅
  root := .node () <| .oneof
    ⟨.node () <| .object <| .ofList
      [("a", ⟨false, .node () (.scalar .string)⟩), ("b", ⟨false, .node () .any⟩)],
    [.node () <| .object <| .ofList
      [("c", ⟨true, .node () <| .object <| .ofList
        [("d", ⟨false, .node () (.scalar .string)⟩)]⟩)]]⟩
  guarded := of_decide_eq_true (by cbv)

theorem compile_unionSource : compile unionSource = .ok union.locate := by
  have read : ofSource unionSource = .ok union :=
    ofSource_eq_ok_iff.mpr ⟨by cbv, _, rfl, by cbv, by cbv, _, rfl, by cbv⟩
  rw [compile, read]
  rfl

theorem nanFree_union : union.locate.NaNFree :=
  List.all_eq_true.mp (by cbv)

/-- A value that conforms to the first alternative. -/
def agreed : Value :=
  .mapping <| .ofList [("a", .string "text"), ("b", .bool true)]

/-- A value of which both alternatives of the union keep something. -/
def disputed : Value :=
  .mapping <| .ofList [("b", .bool true), ("c", .mapping ∅)]

/-- What the first alternative keeps. -/
def disputedPart : Value :=
  .mapping <| .ofList [("b", .bool true)]

theorem restrict_disputed :
    union.locate.restrict ⟨false, false, false⟩ union.locate.root disputed =
      .ok (some disputedPart) := by
  cbv

/-- Of what the first alternative keeps, the second keeps nothing, and that conforms. -/
theorem not_fixed_disputedPart : ¬ union.locate.Fixed union.locate.root disputedPart := by
  rintro ⟨r, hr, same⟩
  have emptied : union.locate.restrict (.plain false) union.locate.root disputedPart =
      .ok (some (.mapping ∅)) := by cbv
  rw [emptied] at hr
  cases hr
  obtain ⟨_, hs, keys, -⟩ := same.of_mapping
  cases hs
  have : "b" ∈ (∅ : Mapping Value).keys := (keys "b").mpr (Mapping.contains_iff.mp (by cbv))
  cases this

/-! ### Restriction twice -/

/-- **The result of a restriction is restricted to itself, without options and up to the
order of entries, exactly if every union that it reaches is undisputed.** -/
theorem restrict_idempotent_iff {source : Value} {d : Document Site}
    (hd : compile source = .ok d) (nan_free : d.NaNFree) {n : Node} (hn : n ∈ d.nodes)
    {o : RestrictOptions} {v r : Value} (hr : d.restrict o n v = .ok (some r)) :
    (∃ r', d.restrict ⟨false, false, false⟩ n r = .ok (some r') ∧ r'.Reordered r) ↔
      d.Settled n r := by
  have complete := complete_of_compile hd
  have partly : d.Conforms .partly n r :=
    (conforms_of_restrict complete nan_free hn hr).mono o.leniency_extraFields nofun
  exact fixed_iff_settled complete hn partly

/-- The union is undisputed over one value and not over what is left of another. -/
theorem settled_union :
    compile unionSource = .ok union.locate ∧ union.locate.NaNFree ∧
      union.locate.root ∈ union.locate.nodes ∧
      union.locate.restrict ⟨false, false, false⟩ union.locate.root disputed =
        .ok (some disputedPart) ∧
      ¬ union.locate.Settled union.locate.root disputedPart ∧
      union.locate.restrict ⟨false, false, false⟩ union.locate.root agreed = .ok (some agreed) ∧
      union.locate.Settled union.locate.root agreed := by
  have kept : union.locate.restrict ⟨false, false, false⟩ union.locate.root agreed =
      .ok (some agreed) := by cbv
  refine ⟨compile_unionSource, nanFree_union, root_mem_nodes _, restrict_disputed, ?_, kept, ?_⟩
  · intro settled
    exact not_fixed_disputedPart ((restrict_idempotent_iff compile_unionSource nanFree_union
      (root_mem_nodes _) restrict_disputed).mpr settled)
  · exact (restrict_idempotent_iff compile_unionSource nanFree_union (root_mem_nodes _) kept).mp
      ⟨agreed, kept, .refl agreed⟩

/-- Restriction is not idempotent: restricted twice, a value may lose what it kept at first. -/
theorem restrict_not_idempotent :
    compile unionSource = .ok union.locate ∧ union.locate.NaNFree ∧
      union.locate.root ∈ union.locate.nodes ∧
      union.locate.restrict ⟨false, false, false⟩ union.locate.root disputed =
        .ok (some disputedPart) ∧
      ¬ ∃ r, union.locate.restrict ⟨false, false, false⟩ union.locate.root disputedPart =
        .ok (some r) ∧ r.Reordered disputedPart :=
  ⟨compile_unionSource, nanFree_union, root_mem_nodes _, restrict_disputed,
    not_fixed_disputedPart⟩

end TreeSchema.Document
