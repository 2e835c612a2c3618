import TreeSchema.Proofs.Document.Unfolding
import TreeSchema.Proofs.Validation.Conformance

/-!
# Shapes are sound

The shape of a schema is made out by unfolding alone, without looking at any value. Every value
that the schema accepts has a category of the shape, whether undeclared keys are forgiven or
not. All categories are there, with the mark of a schema that takes everything, exactly if
unfolding comes upon such a schema.

* `Shape.has_union`, `Shape.any_foldr_union` — joining shapes.
* `Document.has_category` — values have a category of the shape.
* `Document.any_shape_iff` — where a schema is met that takes every value.
* `Document.shape_of_compile` — **the shapes of the nodes of a compiled document**.
-/

namespace TreeSchema

/-! ### Shapes -/

namespace Shape

variable {s t : Shape} {c c' : Category}

theorem has_union : (s.union t).has c = (s.has c || t.has c) := by
  cases c <;> rfl

theorem has_foldr_union {shapes : List Shape} (hs : s ∈ shapes) (h : s.has c = true) :
    (shapes.foldr union none).has c = true := by
  induction shapes with
  | nil => cases hs
  | cons first rest ih =>
    rw [List.foldr_cons, has_union, Bool.or_eq_true]
    rcases List.mem_cons.mp hs with rfl | hs
    · exact .inl h
    · exact .inr (ih hs)

/-- One shape of many is that of a schema that takes every value. -/
theorem any_foldr_union {shapes : List Shape} :
    (shapes.foldr union none).any = true ↔ ∃ s ∈ shapes, s.any = true := by
  induction shapes with
  | nil => exact ⟨nofun, fun ⟨_, hs, _⟩ => nomatch hs⟩
  | cons first rest ih =>
    rw [List.foldr_cons, List.exists_mem_cons_iff, ← ih]
    exact iff_of_eq (Bool.or_eq_true _ _)

theorem has_only_iff : (only c).has c' = true ↔ c' = c := by
  cases c <;> cases c' <;> decide

/-- A shape that is that of one category has no other. -/
theorem eq_of_isOnly (h : s.isOnly c = true) (h' : s.has c' = true) : c' = c := by
  rw [of_decide_eq_true h] at h'
  exact has_only_iff.mp h'

theorem isFixed_only (c : Category) : (only c).isFixed = true := by
  cases c <;> decide

theorem exists_eq_only (fixed : s.isFixed = true) : ∃ c, s = only c := by
  simp only [isFixed, isOnly, Bool.or_eq_true, decide_eq_true_eq] at fixed
  rcases fixed with (rfl | rfl) | rfl
  · exact ⟨.scalar, rfl⟩
  · exact ⟨.array, rfl⟩
  · exact ⟨.object, rfl⟩

/-- A shape that is decided is that of any category it has. -/
theorem eq_only_of_has (fixed : s.isFixed = true) (h : s.has c = true) : s = only c := by
  obtain ⟨category, rfl⟩ := exists_eq_only fixed
  rw [has_only_iff.mp h]

/-- A shape that is decided has one category. -/
theorem eq_of_has (fixed : s.isFixed = true) (h : s.has c = true) (h' : s.has c' = true) :
    c = c' := by
  rw [eq_only_of_has fixed h] at h'
  exact (has_only_iff.mp h').symm

end Shape

theorem Value.category_of_isScalar {v : Value} (h : v.isScalar = true) : v.category = .scalar := by
  cases v <;> first | rfl | cases h

namespace Document

section

variable {α : Type} {d : Document α} {n : Schema α} {l : Leniency} {v : Value}

/-- **Values have a category of the shape.** -/
theorem has_category (h : d.Conforms l n v) : (d.shape n).has v.category = true := by
  induction h with
  | any =>
    rw [shape]
    rename_i v
    cases v.category <;> rfl
  | scalar ha =>
    rw [shape, Value.category_of_isScalar (ScalarType.isScalar_of_accepts ha)]
    rfl
  | enum _ he =>
    rw [shape, Value.category_of_isScalar (Literal.isScalar_of_beq he)]
    rfl
  | oneof ha _ ih =>
    rw [shape_oneof]
    exact Shape.has_foldr_union (List.mem_map_of_mem ha) ih
  | ref hb _ ih =>
    rw [shape_ref hb]
    exact ih
  | _ =>
    rw [shape]
    rfl

/-! ### Schemas that take every value -/

/-- The shape is that of a schema that takes every value if the schema is one, or unfolds to
one whose shape is. -/
theorem any_shape_step (complete : d.Complete) (hn : n ∈ d.nodes) :
    (d.shape n).any = true ↔ n.rule = .any ∨ ∃ m, d.Unfolds n m ∧ (d.shape m).any = true := by
  obtain ⟨mark, rule⟩ := n
  cases rule with
  | any =>
    rw [shape]
    exact ⟨fun _ => .inl rfl, fun _ => rfl⟩
  | oneof alternatives =>
    rw [shape_oneof, Shape.any_foldr_union]
    constructor
    · rintro ⟨s, hs, h⟩
      obtain ⟨alternative, ha, rfl⟩ := List.mem_map.mp hs
      exact .inr ⟨alternative, .alternative ha, h⟩
    · rintro (h | ⟨alternative, ⟨⟩ | ha, h⟩)
      · cases h
      · exact ⟨_, List.mem_map_of_mem ha, h⟩
  | ref label =>
    obtain ⟨body, hb⟩ := complete mark label hn
    rw [shape_ref hb]
    constructor
    · intro h
      exact .inr ⟨body, .target hb, h⟩
    · rintro (h | ⟨m, unfolds, h⟩)
      · cases h
      · cases unfolds with
        | target hb' => exact Option.some.inj (hb'.symm.trans hb) ▸ h
  | _ =>
    rw [shape]
    constructor
    · intro h
      cases h
    · rintro (h | ⟨m, unfolds, -⟩)
      · cases h
      · cases unfolds

/-- **The shape has the mark of a schema that takes every value exactly if unfolding comes upon
one.** -/
theorem any_shape_iff (complete : d.Complete) (hn : n ∈ d.nodes) :
    (d.shape n).any = true ↔ ∃ mark, Relation.ReflTransGen d.Unfolds n (.node mark .any) := by
  induction n using d.unfolds_induction with
  | step n unfolded =>
  have inner : ∀ {m}, d.Unfolds n m → ((d.shape m).any = true ↔
      ∃ mark, Relation.ReflTransGen d.Unfolds m (.node mark .any)) := fun unfolds =>
    unfolded _ unfolds (mem_nodes_of_unfolds hn unfolds)
  rw [any_shape_step complete hn]
  constructor
  · rintro (h | ⟨m, unfolds, h⟩)
    · obtain ⟨mark, rule⟩ := n
      obtain rfl : rule = .any := h
      exact ⟨mark, .refl⟩
    · obtain ⟨mark, way⟩ := (inner unfolds).mp h
      exact ⟨mark, .head unfolds way⟩
  · rintro ⟨mark, way⟩
    rcases way.cases_head with rfl | ⟨m, unfolds, rest⟩
    · exact .inl rfl
    · exact .inr ⟨m, unfolds, (inner unfolds).mpr ⟨mark, rest⟩⟩

end

/-! ### Compiled documents -/

/-- **The shapes of the nodes of a compiled document are sound.** A shape is made out without
meeting a label inside of itself. Values without mismatches have a category of it, wherever
they are found and whether or not undeclared keys are allowed, so where it is that of one
category alone they all have that one. It has the mark of a schema that takes every value
exactly if such a node is reached through references and alternatives. -/
theorem shape_of_compile {source : Value} {d : Document Site} (hd : compile source = .ok d)
    {n : Node} (hn : n ∈ d.nodes) :
    d.shapeWithin [] n = some (d.shape n) ∧
      (∀ strict v path, d.validate strict n v path = [] →
        (d.shape n).has v.category = true) ∧
      ((d.shape n).any = true ↔ ∃ mark, Relation.ReflTransGen d.Unfolds n (.node mark .any)) ∧
      ∀ category, (d.shape n).isOnly category = true →
        ∀ strict v path, d.validate strict n v path = [] → v.category = category := by
  have complete := complete_of_compile hd
  have has : ∀ strict v path, d.validate strict n v path = [] →
      (d.shape n).has v.category = true := fun strict v path h =>
    has_category ((decides complete strict hn v path).mp h)
  refine ⟨shapeWithin_eq_shape complete hn nofun, has, any_shape_iff complete hn, ?_⟩
  intro category only strict v path h
  exact Shape.eq_of_isOnly only (has strict v path h)

/-- The source of logs: lists of entries, which are notes or anything at all. -/
def logSource : Value :=
  .mapping <| .ofList
    [(labelsKey, .mapping <| .ofList
      [("entry", .sequence
        [.string "oneof", .string "string", .sequence [.string "ref", .string "blob"]]),
        ("blob", .string "any")]),
      (schemaKey, .sequence [.string "array", .sequence [.string "ref", .string "entry"]])]

/-- Logs: lists of entries, which are notes or anything at all. -/
def log : Document Unit where
  labels := .ofList
    [("entry", .node () (.oneof ⟨.node () (.scalar .string), [.node () (.ref "blob")]⟩)),
      ("blob", .node () .any)]
  root := .node () (.array [] (.node () (.ref "entry")))
  guarded := of_decide_eq_true (by cbv)

theorem compile_logSource : compile logSource = .ok log.locate :=
  compile_eq_ok_iff.mpr
    ⟨log, ofSource_eq_ok_iff.mpr ⟨by cbv, _, rfl, by cbv, by cbv, _, rfl, by cbv⟩, rfl⟩

/-- The reference to the entries of a log. -/
def logEntry : Node :=
  .node ⟨4, schemaPath ++ [.index 1]⟩ (.ref "entry")

/-- A log is a list, and an entry may be anything. -/
theorem shape_log :
    compile logSource = .ok log.locate ∧ log.locate.root ∈ log.locate.nodes ∧
      (log.locate.shape log.locate.root).isOnly .array = true ∧
      (∀ strict v path, log.locate.validate strict log.locate.root v path = [] →
        v.category = .array) ∧
      logEntry ∈ log.locate.nodes ∧ (log.locate.shape logEntry).any = true ∧
      ∃ mark, Relation.ReflTransGen log.locate.Unfolds logEntry (.node mark .any) := by
  have list : (log.locate.shape log.locate.root).isOnly .array = true := by cbv
  have open_entry : (log.locate.shape logEntry).any = true := by cbv
  have hentry : logEntry ∈ log.locate.nodes := List.mem_of_getElem? (i := 4) (by cbv)
  obtain ⟨-, -, -, confined⟩ := shape_of_compile compile_logSource (root_mem_nodes _)
  obtain ⟨-, -, reached, -⟩ := shape_of_compile compile_logSource hentry
  exact ⟨compile_logSource, root_mem_nodes _, list, confined .array list, hentry, open_entry,
    reached.mp open_entry⟩

end Document

end TreeSchema
