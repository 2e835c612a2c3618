import TreeSchema.Proofs.Document.Lookup
import TreeSchema.Proofs.Document.Reachable
import TreeSchema.Proofs.Document.Shape
import TreeSchema.Proofs.Restriction.Fill

/-!
# Fixed shapes

A node has a fixed shape if every node that it leads to decides the category of its values. That
is said of nodes one by one. At one place of a value several of them may describe what is there,
by different alternatives of a union, and they need not decide for the same category: the values
of the node agree at a place exactly if all the nodes do that describe it.

* `Document.LeadsTo` — from a schema to those that describe what is at a path;
  `Document.schemasAt`, `Document.mem_schemasAt_iff` — all of them, computed.
* `Document.exists_leadsTo` — a part of a value is described by a schema at its path;
  `Document.exists_atPath` — and what a schema describes there is a part of a value.
* `Document.shape_eq_of_leadsTo_nil` — at the place of the schema itself the shape stays.
* `Document.decided_of_hasFixedShape` — a fixed shape decides every schema that is led to.
* `Document.categoriesAgree_of_compile` — **where values agree**;
  `Document.not_categoriesAgree` — and that a fixed shape alone does not make them.
-/

namespace TreeSchema

/-! ### What describes a place -/

/-- From a schema to the one that describes the part of a value at a step. -/
inductive Schema.HasChild {α : Type} : Schema α → Step → Schema α → Prop where
  | field {mark : α} {fields : Mapping (Field (Schema α))} {key : String}
      {field : Field (Schema α)} : fields.get? key = some field →
      HasChild (.node mark (.object fields)) (.key key) field.type
  | item {mark : α} {initial : List (Schema α)} {rest : Schema α} {i : Nat} :
      HasChild (.node mark (.array initial rest)) (.index i) (Rule.itemAt initial rest i)
  | element {mark : α} {elements : OneOrMore (Schema α)} {i : Nat} {part : Schema α} :
      elements.toList[i]? = some part → HasChild (.node mark (.tuple elements)) (.index i) part
  | entry {mark : α} {type : Schema α} {key : String} :
      HasChild (.node mark (.dictionary type)) (.key key) type

/-- The schema that describes the part of a value at a step, without unfolding. -/
def Schema.child? {α : Type} : Schema α → Step → Option (Schema α)
  | .node _ (.object fields), .key key => (fields.get? key).map (·.type)
  | .node _ (.array initial rest), .index i => some (Rule.itemAt initial rest i)
  | .node _ (.tuple elements), .index i => elements.toList[i]?
  | .node _ (.dictionary type), .key _ => some type
  | _, _ => none

theorem Schema.child?_eq_some_iff {α : Type} {n m : Schema α} {step : Step} :
    n.child? step = some m ↔ n.HasChild step m := by
  constructor
  · intro h
    unfold child? at h
    split at h
    · obtain ⟨field, hf, rfl⟩ := Option.map_eq_some_iff.mp h
      exact .field hf
    · cases h
      exact .item
    · exact .element h
    · cases h
      exact .entry
    · cases h
  · intro h
    cases h with
    | field hf => rw [child?, hf, Option.map_some]
    | item => rfl
    | element hp => exact hp
    | entry => rfl

namespace Document

/-- From a schema to one that describes what its values have at a path. -/
inductive LeadsTo {α : Type} (d : Document α) : Schema α → Path → Schema α → Prop where
  | here {n : Schema α} : LeadsTo d n [] n
  | unfold {n m c : Schema α} {path : Path} : d.Unfolds n m → LeadsTo d m path c →
      LeadsTo d n path c
  | step {n m c : Schema α} {step : Step} {path : Path} : n.HasChild step m →
      LeadsTo d m path c → LeadsTo d n (step :: path) c

/-- The schema and all that it unfolds to. -/
def unfoldings {α : Type} (d : Document α) (n : Schema α) : List (Schema α) :=
  n :: match n with
  | .node _ rule =>
    match rule with
    | .oneof alternatives =>
      alternatives.toList.attach.flatMap fun ⟨alternative, _⟩ => d.unfoldings alternative
    | .ref label =>
      match _h : d.body? label with
      | some body => d.unfoldings body
      | none => []
    | _ => []
termination_by d.height n
decreasing_by
  · exact d.height_alternative_lt ‹_›
  · exact d.height_target_lt _h

/-- The schemas that describe what is at a path. -/
def schemasAt {α : Type} (d : Document α) (n : Schema α) : Path → List (Schema α)
  | [] => d.unfoldings n
  | step :: rest =>
    (d.unfoldings n).flatMap fun m => (m.child? step).toList.flatMap fun c => d.schemasAt c rest

/-- All schemas that describe what is at the path have one shape. -/
def shapesAgree {α : Type} (d : Document α) (n : Schema α) (path : Path) : Bool :=
  let shapes := (d.schemasAt n path).map d.shape
  shapes.all fun s => shapes.all fun t => s = t

section

variable {α : Type} {d : Document α} {n m c : Schema α} {l : Leniency} {v u : Value} {path : Path}

theorem mem_children_of_hasChild {step : Step} (h : n.HasChild step m) : m ∈ d.children n := by
  cases h with
  | field hf => exact Rule.mem_parts_of_get? hf
  | item => exact Rule.mem_parts_itemAt _ _ _
  | element hp => exact Rule.mem_parts_tuple (List.mem_of_getElem? hp)
  | entry => exact Rule.mem_parts_dictionary _

theorem LeadsTo.trans {path' : Path} (h : d.LeadsTo n path m) (h' : d.LeadsTo m path' c) :
    d.LeadsTo n (path ++ path') c := by
  induction h with
  | here => exact h'
  | unfold unfolds _ ih => exact .unfold unfolds (ih h')
  | step child _ ih => exact .step child (ih h')

theorem mem_unfoldings_iff :
    c ∈ d.unfoldings n ↔ c = n ∨ ∃ m, d.Unfolds n m ∧ c ∈ d.unfoldings m := by
  obtain ⟨mark, rule⟩ := n
  rw [unfoldings.eq_def, List.mem_cons]
  refine or_congr_right ⟨?_, ?_⟩
  · intro h
    cases rule with
    | oneof alternatives =>
      obtain ⟨⟨alternative, ha⟩, -, h⟩ := List.mem_flatMap.mp h
      exact ⟨alternative, .alternative ha, h⟩
    | ref label =>
      simp only at h
      split at h
      · next body hb => exact ⟨body, .target hb, h⟩
      · cases h
    | _ => cases h
  · rintro ⟨m, unfolds, h⟩
    cases unfolds with
    | alternative ha => exact List.mem_flatMap.mpr ⟨⟨m, ha⟩, List.mem_attach _ _, h⟩
    | target hb =>
      simp only
      split
      · next body hb' => exact Option.some.inj (hb.symm.trans hb') ▸ h
      · next hb' => simp [hb] at hb'

theorem leadsTo_of_mem_unfoldings (h : c ∈ d.unfoldings n) : d.LeadsTo n [] c := by
  induction n using d.unfolds_induction with
  | step n unfolded =>
  rcases mem_unfoldings_iff.mp h with rfl | ⟨m, unfolds, h⟩
  · exact .here
  · exact .unfold unfolds (unfolded m unfolds h)

/-- **What is computed is what the schema leads to.** -/
theorem mem_schemasAt_iff : c ∈ d.schemasAt n path ↔ d.LeadsTo n path c := by
  constructor
  · intro h
    induction path generalizing n with
    | nil => exact leadsTo_of_mem_unfoldings h
    | cons step rest ih =>
      obtain ⟨m, hm, h⟩ := List.mem_flatMap.mp h
      obtain ⟨k, hk, h⟩ := List.mem_flatMap.mp h
      have child := Schema.child?_eq_some_iff.mp (Option.mem_toList.mp hk)
      exact (leadsTo_of_mem_unfoldings hm).trans (.step child (ih h))
  · intro h
    induction h with
    | here => exact mem_unfoldings_iff.mpr (.inl rfl)
    | @unfold n m c path unfolds _ ih =>
      cases path with
      | nil => exact mem_unfoldings_iff.mpr (.inr ⟨m, unfolds, ih⟩)
      | cons step rest =>
        obtain ⟨k, hk, h⟩ := List.mem_flatMap.mp ih
        exact List.mem_flatMap.mpr ⟨k, mem_unfoldings_iff.mpr (.inr ⟨m, unfolds, hk⟩), h⟩
    | @step n m c step path child _ ih =>
      refine List.mem_flatMap.mpr ⟨n, mem_unfoldings_iff.mpr (.inl rfl), ?_⟩
      exact List.mem_flatMap.mpr
        ⟨m, Option.mem_toList.mpr (Schema.child?_eq_some_iff.mpr child), ih⟩

theorem shapesAgree_iff : d.shapesAgree n path = true ↔
    ∀ c c', d.LeadsTo n path c → d.LeadsTo n path c' → d.shape c = d.shape c' := by
  simp only [shapesAgree, List.all_eq_true, List.forall_mem_map, decide_eq_true_eq,
    mem_schemasAt_iff]
  exact ⟨fun h c c' hc hc' => h c hc c' hc', fun h c hc c' hc' => h c c' hc hc'⟩

/-- The schema and all that it leads to have shapes that are decided. -/
def Decided (d : Document α) (n : Schema α) : Prop :=
  ∀ path c, d.LeadsTo n path c → (d.shape c).isFixed = true

/-- The schema and all that it leads to have values. -/
def Populated (d : Document α) (n : Schema α) : Prop :=
  ∀ path c, d.LeadsTo n path c → ∃ v, d.Conforms .strict c v

theorem Decided.of_unfolds (decided : d.Decided n) (unfolds : d.Unfolds n m) : d.Decided m :=
  fun path c leads => decided path c (.unfold unfolds leads)

theorem Decided.of_leadsTo (decided : d.Decided n) (leads : d.LeadsTo n path m) : d.Decided m :=
  fun path' c leads' => decided (path ++ path') c (leads.trans leads')

theorem not_decided_any {mark : α} : ¬ d.Decided (.node mark .any) := by
  intro decided
  have fixed := decided [] _ .here
  rw [shape] at fixed
  cases fixed

/-! ### From parts of values to schemas -/

/-- A part of a value is described by a schema that a step leads to. -/
theorem exists_leadsTo_step (hl : l.extraFields = false) (decided : d.Decided n)
    (h : d.Conforms l n v) {step : Step} (hx : v.child? step = some u) :
    ∃ m, d.LeadsTo n [step] m ∧ d.Conforms l m u := by
  induction h with
  | any => exact absurd decided not_decided_any
  | scalar ha =>
    rw [Value.child?_of_isScalar (ScalarType.isScalar_of_accepts ha)] at hx
    cases hx
  | enum _ he =>
    rw [Value.child?_of_isScalar (Literal.isScalar_of_beq he)] at hx
    cases hx
  | @object mark fields values present _ known =>
    cases step with
    | index i => cases hx
    | key key =>
      have declared := fields.get?_eq_some_value (known hl key (Mapping.mem_keys_of_get? hx))
      exact ⟨_, .step (.field declared) .here, present key _ u declared hx⟩
  | @array mark initial rest items length first others =>
    cases step with
    | key key => cases hx
    | index i =>
      have whole : d.Conforms l (.node mark (.array initial rest)) (.sequence items) :=
        .array length first others
      obtain ⟨_, ⟨⟩, -, each⟩ := conforms_array_iff.mp whole
      exact ⟨_, .step .item .here, each i u hx⟩
  | @tuple mark elements items length parts =>
    cases step with
    | key key => cases hx
    | index i =>
      have item : items[i]? = some u := hx
      obtain ⟨part, hp⟩ := exists_getElem?_of_length length item
      exact ⟨part, .step (.element hp) .here, parts i part u hp item⟩
  | dictionary values =>
    cases step with
    | index i => cases hx
    | key key => exact ⟨_, .step .entry .here, values key u hx⟩
  | oneof ha _ ih =>
    obtain ⟨m, leads, fits⟩ := ih (decided.of_unfolds (.alternative ha)) hx
    exact ⟨m, .unfold (.alternative ha) leads, fits⟩
  | ref hb _ ih =>
    obtain ⟨m, leads, fits⟩ := ih (decided.of_unfolds (.target hb)) hx
    exact ⟨m, .unfold (.target hb) leads, fits⟩

/-- **A part of a value is described by a schema at its path.** -/
theorem exists_leadsTo (hl : l.extraFields = false) (decided : d.Decided n)
    (h : d.Conforms l n v) (hu : v.atPath? path = some u) :
    ∃ c, d.LeadsTo n path c ∧ d.Conforms l c u := by
  induction path generalizing n v with
  | nil =>
    cases hu
    exact ⟨n, .here, h⟩
  | cons step rest ih =>
    obtain ⟨x, hx, hu⟩ := Option.bind_eq_some_iff.mp hu
    obtain ⟨m, leads, fits⟩ := exists_leadsTo_step hl decided h hx
    obtain ⟨c, leads', fits'⟩ := ih (decided.of_leadsTo leads) fits hu
    exact ⟨c, leads.trans leads', fits'⟩

/-! ### From schemas to parts of values -/

/-- Something can be chosen such that it is what is given where that is asked for. -/
theorem exists_and_eq_given {β : Type} {P : β → Prop} {asked : Prop} {given : β}
    (fits : asked → P given) (h : ∃ x, P x) : ∃ x, P x ∧ (asked → x = given) := by
  by_cases ha : asked
  · exact ⟨given, fits ha, fun _ => rfl⟩
  · obtain ⟨x, hx⟩ := h
    exact ⟨x, hx, fun h => absurd h ha⟩

/-- A value of a part is the part of a value, if the other parts have values as well. -/
theorem exists_child (others : ∀ step m, n.HasChild step m → ∃ x, d.Conforms l m x) {step : Step}
    (child : n.HasChild step m) (hu : d.Conforms l m u) :
    ∃ v, d.Conforms l n v ∧ v.child? step = some u := by
  cases child with
  | @field mark fields key field hf =>
    -- Every field is there, and that of the step has the given value.
    have parts : ∀ key' field', fields.get? key' = some field' →
        ∃ x, d.Conforms l field'.type x ∧ (key' = key → x = u) := by
      intro key' field' hf'
      refine exists_and_eq_given ?_ (others _ _ (.field hf'))
      rintro rfl
      exact Option.some.inj (hf.symm.trans hf') ▸ hu
    obtain ⟨values, hr⟩ := Mapping.exists_pointwise parts
    refine ⟨.mapping values, .object ?_ ?_ ?_, ?_⟩
    · intro key' field' x hf' hx
      exact (hr.related key' field' x hf' hx).1
    · intro _ key' field' hf' _
      exact hr.keys ▸ Mapping.mem_keys_of_get? hf'
    · intro _ key' hk
      exact hr.keys ▸ hk
    · obtain ⟨x, hx, -, same⟩ := hr.exists_right hf
      exact same rfl ▸ hx
  | @item mark initial rest i =>
    have parts : ∀ j k, (List.range (max initial.length (i + 1)))[j]? = some k →
        ∃ x, d.Conforms l (Rule.itemAt initial rest j) x ∧ (j = i → x = u) := by
      intro j _ _
      refine exists_and_eq_given ?_ (others (.index j) _ .item)
      rintro rfl
      exact hu
    obtain ⟨items, hr⟩ := exists_pointwise parts
    have length := hr.length
    rw [List.length_range] at length
    refine ⟨.sequence items, conforms_array_iff.mpr ⟨items, rfl, by omega, ?_⟩, ?_⟩
    · intro j x hx
      obtain ⟨_, _, fits, -⟩ := hr.exists_left hx
      exact fits
    · have hi : (List.range (max initial.length (i + 1)))[i]? = some i :=
        List.getElem?_range (by omega)
      obtain ⟨x, hx, -, same⟩ := hr.exists_right hi
      exact same rfl ▸ hx
  | @element mark elements i _ hp =>
    have parts : ∀ (j : Nat) part, elements.toList[j]? = some part →
        ∃ x, d.Conforms l part x ∧ (j = i → x = u) := by
      intro j part hp'
      refine exists_and_eq_given ?_ (others _ _ (.element hp'))
      rintro rfl
      exact Option.some.inj (hp.symm.trans hp') ▸ hu
    obtain ⟨items, hr⟩ := exists_pointwise parts
    refine ⟨.sequence items, .tuple hr.length ?_, ?_⟩
    · intro j part x hp' hx
      exact (hr.related j part x hp' hx).1
    · obtain ⟨x, hx, -, same⟩ := hr.exists_right hp
      exact same rfl ▸ hx
  | @entry mark type key =>
    refine ⟨.mapping ((∅ : Mapping Value).insert key u), .dictionary ?_, ?_⟩
    · intro key' x hx
      rw [Mapping.get?_insert] at hx
      split at hx
      · cases hx
        exact hu
      · cases hx
    · rw [Value.child?, Mapping.get?_insert, if_pos rfl]

/-- **What a schema at a path describes is a part of a value there**, where all have values. -/
theorem exists_atPath (populated : d.Populated n) (h : d.LeadsTo n path c)
    (hu : d.Conforms .strict c u) :
    ∃ v, d.Conforms .strict n v ∧ v.atPath? path = some u := by
  induction h with
  | here => exact ⟨u, hu, rfl⟩
  | unfold unfolds _ ih =>
    obtain ⟨v, hv, hx⟩ := ih (fun path c leads => populated path c (.unfold unfolds leads)) hu
    cases unfolds with
    | target hb => exact ⟨v, .ref hb hv, hx⟩
    | alternative ha => exact ⟨v, .oneof ha hv, hx⟩
  | @step n m _ step path child _ ih =>
    obtain ⟨x, hx, hxu⟩ := ih (fun path c leads => populated _ c (.step child leads)) hu
    obtain ⟨v, hv, hvx⟩ := exists_child (fun step m child => populated [step] m (.step child .here))
      child hx
    refine ⟨v, hv, ?_⟩
    rw [Value.atPath?, hvx]
    exact hxu

/-! ### Unfolding keeps shapes -/

theorem shape_eq_of_unfolds (decided : d.Decided n) (unfolds : d.Unfolds n m) :
    d.shape m = d.shape n := by
  cases unfolds with
  | target hb => rw [shape_ref hb]
  | @alternative mark alternatives _ ha =>
    have fixed := decided [] _ (.unfold (.alternative ha) .here)
    obtain ⟨category, only⟩ := Shape.exists_eq_only fixed
    have has : (d.shape (.node mark (.oneof alternatives))).has category = true := by
      rw [shape_oneof]
      refine Shape.has_foldr_union (List.mem_map_of_mem ha) ?_
      rw [only]
      exact Shape.has_only_iff.mpr rfl
    rw [only, Shape.eq_only_of_has (decided [] _ .here) has]

/-- **At the place of the schema itself the shape stays.** -/
theorem shape_eq_of_leadsTo_nil (decided : d.Decided n) (h : d.LeadsTo n [] c) :
    d.shape c = d.shape n := by
  generalize hp : ([] : Path) = path at h
  induction h with
  | here => rfl
  | unfold unfolds _ ih =>
    rw [ih (decided.of_unfolds unfolds) hp, shape_eq_of_unfolds decided unfolds]
  | step => cases hp

end

/-! ### Nodes of a fixed shape -/

section

variable {e : Document Unit} {n m c : Node} {path : Path}

/-- Nodes lead to nodes. -/
theorem mem_reachableNodes_of_leadsTo (hn : n ∈ e.locate.nodes) (h : e.locate.LeadsTo n path c) :
    c ∈ e.locate.reachableNodes n := by
  induction h with
  | here => exact mem_reachableNodes_self hn
  | unfold unfolds _ ih =>
    have child := unfolds.mem_children
    exact reachableNodes_subset hn child (ih (mem_nodes_of_mem_children hn child))
  | step takes _ ih =>
    have child := mem_children_of_hasChild (d := e.locate) takes
    exact reachableNodes_subset hn child (ih (mem_nodes_of_mem_children hn child))

theorem mem_nodes_of_mem_reachableNodes (h : m ∈ e.locate.reachableNodes n) :
    m ∈ e.locate.nodes := by
  obtain ⟨id, -, found⟩ := mem_reachableNodes_iff.mp h
  exact List.mem_of_getElem? found

/-- A node that decides its shape with all that it leads to has a shape that is decided. -/
theorem isFixed_shape (complete : e.locate.Complete) (hn : n ∈ e.locate.nodes)
    (fixed : e.locate.hasFixedShape n = true) : (e.locate.shape n).isFixed = true := by
  induction n using e.locate.unfolds_induction with
  | step n unfolded =>
  have own := List.all_eq_true.mp fixed n (mem_reachableNodes_self hn)
  obtain ⟨mark, rule⟩ := n
  cases rule with
  | any => cases own
  | oneof alternatives => exact own
  | ref label =>
    obtain ⟨body, hb⟩ := complete mark label hn
    have unfolds : e.locate.Unfolds (.node mark (.ref label)) body := .target hb
    rw [shape_ref hb]
    exact unfolded body unfolds (mem_nodes_of_body? hb)
      (hasFixedShape_of_links hn (.single unfolds.mem_children) fixed)
  | _ =>
    rw [shape]
    exact Shape.isFixed_only _

/-- **A fixed shape decides the shape of every schema that is led to.** -/
theorem decided_of_hasFixedShape (complete : e.locate.Complete) (hn : n ∈ e.locate.nodes)
    (fixed : e.locate.hasFixedShape n = true) : e.locate.Decided n := by
  intro path c leads
  have way := (mem_reachableNodes_iff_links hn).mp (mem_reachableNodes_of_leadsTo hn leads)
  exact isFixed_shape complete (mem_nodes_of_links hn way) (hasFixedShape_of_links hn way fixed)

end

/-! ### Where values agree -/

/-- Values that conform strictly to the node have parts of one category at the path. -/
def CategoriesAgree (d : Document Site) (n : Node) (path : Path) : Prop :=
  ∀ v w x y, d.validate true n v [] = [] → d.validate true n w [] = [] →
    v.atPath? path = some x → w.atPath? path = some y → x.category = y.category

/-- **Where values agree.** The values of a node of a fixed shape have parts of one category at
a path if all the schemas that describe what is there have one shape; and only then, as long as
every node that the node leads to has values. -/
theorem categoriesAgree_of_compile {source : Value} {d : Document Site}
    (hd : compile source = .ok d) {n : Node} (hn : n ∈ d.nodes)
    (fixed : d.hasFixedShape n = true) (path : Path) :
    (d.shapesAgree n path = true → d.CategoriesAgree n path) ∧
      ((∀ m ∈ d.reachableNodes n, ∃ v, d.validate true m v [] = []) →
        d.CategoriesAgree n path → d.shapesAgree n path = true) := by
  have complete := complete_of_compile hd
  have accepts : ∀ {m : Node} {v}, m ∈ d.nodes →
      (d.validate true m v [] = [] ↔ d.Conforms .strict m v) :=
    fun hm => decides complete true hm _ []
  obtain ⟨e, -, rfl⟩ := compile_eq_ok_iff.mp hd
  have decided := decided_of_hasFixedShape complete hn fixed
  constructor
  · intro agree v w x y hv hw hx hy
    obtain ⟨c, leads, hc⟩ := exists_leadsTo rfl decided ((accepts hn).mp hv) hx
    obtain ⟨c', leads', hc'⟩ := exists_leadsTo rfl decided ((accepts hn).mp hw) hy
    have same := shapesAgree_iff.mp agree c c' leads leads'
    exact Shape.eq_of_has (decided path c leads) (has_category hc) (same ▸ has_category hc')
  · intro inhabited agree
    refine shapesAgree_iff.mpr fun c c' leads leads' => ?_
    have populated : e.locate.Populated n := by
      intro path m leads
      have reached := mem_reachableNodes_of_leadsTo hn leads
      obtain ⟨v, hv⟩ := inhabited m reached
      exact ⟨v, (accepts (mem_nodes_of_mem_reachableNodes reached)).mp hv⟩
    obtain ⟨x, hx⟩ := populated path c leads
    obtain ⟨y, hy⟩ := populated path c' leads'
    obtain ⟨v, hv, hvx⟩ := exists_atPath populated leads hx
    obtain ⟨w, hw, hwy⟩ := exists_atPath populated leads' hy
    have same := agree v w x y ((accepts hn).mpr hv) ((accepts hn).mpr hw) hvx hwy
    rw [Shape.eq_only_of_has (decided path c leads) (has_category hx),
      Shape.eq_only_of_has (decided path c' leads') (has_category hy), same]

/-- The node has a zero value, which conforms to it strictly. -/
def holdsZero (d : Document Site) (n : Node) : Bool :=
  match d.zero n with
  | .ok z => (d.validate true n z []).isEmpty
  | .error _ => false

theorem exists_validate_of_holdsZero {d : Document Site} {n : Node} (h : d.holdsZero n = true) :
    ∃ v, d.validate true n v [] = [] := by
  unfold holdsZero at h
  split at h
  · exact ⟨_, List.isEmpty_iff.mp h⟩
  · cases h

/-- All figures are somewhere, and what says where is an object for all of them. -/
theorem categoriesAgree_drawing :
    compile drawingSource = .ok drawing.locate ∧
      drawing.locate.root ∈ drawing.locate.nodes ∧
      drawing.locate.hasFixedShape drawing.locate.root = true ∧
      (∀ path, drawing.locate.CategoriesAgree drawing.locate.root path ↔
        drawing.locate.shapesAgree drawing.locate.root path = true) ∧
      drawing.locate.CategoriesAgree drawing.locate.root [.index 0, .key "at"] := by
  have fixed : drawing.locate.hasFixedShape drawing.locate.root = true := by cbv
  have agree : drawing.locate.shapesAgree drawing.locate.root [.index 0, .key "at"] = true := by
    cbv
  have zeros : (drawing.locate.reachableNodes drawing.locate.root).all drawing.locate.holdsZero =
      true := by cbv
  have exact_at := fun path =>
    categoriesAgree_of_compile compile_drawingSource (root_mem_nodes drawing.locate) fixed path
  have inhabited := fun m hm => exists_validate_of_holdsZero (List.all_eq_true.mp zeros m hm)
  exact ⟨compile_drawingSource, root_mem_nodes _, fixed,
    fun path => ⟨(exact_at path).2 inhabited, (exact_at path).1⟩, (exact_at _).1 agree⟩

/-! ### Where they do not -/

/-- The source of things with a title, which is a text or has one. -/
def titledSource : Value :=
  .mapping <| .ofList
    [(schemaKey, .sequence
      [.string "oneof",
        .mapping <| .ofList [("title", .string "string")],
        .mapping <| .ofList [("title", .mapping <| .ofList [("text", .string "string")])]])]

/-- Things with a title, which is a text or has one. -/
def titled : Document Unit where
  labels := ∅
  root := .node () <| .oneof
    ⟨.node () <| .object <| .ofList [("title", ⟨false, .node () (.scalar .string)⟩)],
      [.node () <| .object <| .ofList
        [("title", ⟨false, .node () <| .object <| .ofList
          [("text", ⟨false, .node () (.scalar .string)⟩)]⟩)]]⟩
  guarded := fun _ h => absurd h List.not_mem_nil

theorem compile_titledSource : compile titledSource = .ok titled.locate :=
  compile_eq_ok_iff.mpr
    ⟨titled, ofSource_eq_ok_iff.mpr ⟨by cbv, _, rfl, by cbv, by cbv, _, rfl, by cbv⟩, rfl⟩

/-- **A fixed shape does not make values agree.** Both alternatives are objects, and every node
decides its shape, but what is at the title is a scalar by one and an object by the other. -/
theorem not_categoriesAgree :
    compile titledSource = .ok titled.locate ∧ titled.locate.root ∈ titled.locate.nodes ∧
      titled.locate.hasFixedShape titled.locate.root = true ∧
      ¬ titled.locate.CategoriesAgree titled.locate.root [.key "title"] := by
  refine ⟨compile_titledSource, root_mem_nodes _, by cbv, fun agree => ?_⟩
  have same := agree (.mapping <| .ofList [("title", .string "x")])
    (.mapping <| .ofList [("title", .mapping <| .ofList [("text", .string "x")])])
    (.string "x") (.mapping <| .ofList [("text", .string "x")])
    (by cbv) (by cbv) (by cbv) (by cbv)
  cases same

end Document

end TreeSchema
