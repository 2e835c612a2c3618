import TreeSchema.Proofs.Validation.SameType

/-!
# Lookup is sound for validation

A lookup follows a path through schemas, not knowing the value. Where a value that conforms
strictly has a part at the path, the lookup may give up as ambiguous, but it does not answer
that nothing is there, and the schema that it answers describes the part.

The alternatives of a union are followed all at once, and the answer is a schema that one of
them leads to, not always one that the value conforms to. What makes it right is that the
others lead to schemas of the same type or nowhere, and that one to which the value conforms
does not lead nowhere.

* `Value.atPath?` — the part of a value at a path.
* `Document.describes_childAt` — one step of a lookup is sound.
* `Document.conforms_of_atPath` — so is a path.
* `Document.validate_eq_nil_of_atPath` — lookup in a compiled document is sound for
  validation.
-/

namespace TreeSchema

/-! ### Parts of values -/

namespace Value

/-- The part that a step leads to. -/
def child? : Value → Step → Option Value
  | mapping fields, .key key => fields.get? key
  | sequence items, .index i => items[i]?
  | _, _ => none

/-- The part at a path. -/
def atPath? (v : Value) : Path → Option Value
  | [] => some v
  | step :: rest => (v.child? step).bind fun x => x.atPath? rest

theorem atPath?_append (v : Value) (p q : Path) :
    v.atPath? (p ++ q) = (v.atPath? p).bind fun w => w.atPath? q := by
  induction p generalizing v with
  | nil => rfl
  | cons step p ih =>
    rw [List.cons_append, atPath?, atPath?]
    cases v.child? step with
    | none => rfl
    | some x => exact ih x

theorem child?_of_isScalar {v : Value} (h : v.isScalar = true) (step : Step) :
    v.child? step = none := by
  cases v <;> first | rfl | cases h

end Value

/-! ### Alternatives -/

namespace Lookup

variable {α : Type} {same : Schema α → Schema α → Bool} {results : List (Lookup α)}

theorem ofOption_eq_found_iff {n? : Option (Schema α)} {c : Schema α} :
    ofOption n? = found c ↔ n? = some c := by
  cases n? <;> simp [ofOption]

theorem mem_filterMap_found? {c : Schema α} :
    c ∈ results.filterMap found? ↔ found c ∈ results := by
  rw [List.mem_filterMap]
  constructor
  · rintro ⟨r, hr, hc⟩
    cases r with
    | found m => exact Option.some.inj hc ▸ hr
    | absent => cases hc
    | ambiguous => cases hc
  · intro h
    exact ⟨found c, h, rfl⟩

theorem ne_ambiguous_of_mem (h : results.any isAmbiguous = false) {r : Lookup α}
    (hr : r ∈ results) : r ≠ ambiguous := by
  rintro rfl
  exact absurd rfl (List.any_eq_false.mp h _ hr)

/-- Alternatives lead nowhere together only if each leads nowhere. -/
theorem eq_absent_of_agreed (h : agreed same results = absent) : ∀ r ∈ results, r = absent := by
  rw [agreed] at h
  split at h
  · cases h
  · next clear =>
    have clear := Bool.eq_false_iff.mpr clear
    split at h
    · next none_found =>
      intro r hr
      cases r with
      | found m =>
        have := mem_filterMap_found?.mpr hr
        rw [none_found] at this
        cases this
      | absent => rfl
      | ambiguous => exact absurd rfl (ne_ambiguous_of_mem clear hr)
    · split at h <;> cases h

/-- What alternatives lead to together is what one of them leads to; every other leads to a
schema that is the same, or nowhere. -/
theorem eq_found_of_agreed {c : Schema α} (h : agreed same results = found c) :
    found c ∈ results ∧
      ∀ r ∈ results, r = absent ∨ ∃ m, r = found m ∧ (m = c ∨ same c m = true) := by
  rw [agreed] at h
  split at h
  · cases h
  · next clear =>
    have clear := Bool.eq_false_iff.mpr clear
    split at h
    · cases h
    · next first others all_found =>
      split at h
      · next agree =>
        cases h
        refine ⟨mem_filterMap_found?.mp (all_found ▸ List.mem_cons_self), ?_⟩
        intro r hr
        cases r with
        | found m =>
          have hm := mem_filterMap_found?.mpr hr
          rw [all_found, List.mem_cons] at hm
          exact .inr ⟨m, rfl, hm.imp_right (List.all_eq_true.mp agree m)⟩
        | absent => exact .inl rfl
        | ambiguous => exact absurd rfl (ne_ambiguous_of_mem clear hr)
      · cases h

end Lookup

namespace Document

variable {α : Type} [DecidableEq α] {d : Document α}

/-! ### One step -/

theorem childAt_oneof {mark : α} {alternatives : OneOrMore (Schema α)} (step : Step)
    (fixed : (d.shape (.node mark (.oneof alternatives))).isFixed = true) :
    d.childAt (.node mark (.oneof alternatives)) step =
      .agreed d.sameType (alternatives.toList.map fun alternative => d.childAt alternative step) := by
  rw [childAt, if_pos fixed, List.map_subtype (g := fun n => d.childAt n step) (by simp),
    List.unattach_attach]

theorem childAt_ref {mark : α} {label : String} {body : Schema α} (step : Step)
    (hb : d.body? label = some body) :
    d.childAt (.node mark (.ref label)) step = d.childAt body step := by
  rw [childAt]
  split
  · next body' hb' => rw [Option.some.inj (hb.symm.trans hb')]
  · next hb' => simp [hb] at hb'

theorem childAt_ref_of_none {mark : α} {label : String} (step : Step)
    (hb : d.body? label = none) : d.childAt (.node mark (.ref label)) step = .ambiguous := by
  rw [childAt]
  split
  · next body hb' => simp [hb] at hb'
  · rfl

theorem mem_nodes_of_childAt {n c : Schema α} {step : Step} (hn : n ∈ d.nodes)
    (h : d.childAt n step = .found c) : c ∈ d.nodes := by
  induction n using d.unfolds_induction with
  | step n unfolded =>
  obtain ⟨mark, rule⟩ := n
  have part : ∀ {part}, part ∈ rule.parts → part ∈ d.nodes := mem_nodes_of_mem_parts hn
  cases rule with
  | scalar | any | enum => simp [childAt] at h
  | object fields =>
    cases step with
    | key key =>
      simp only [childAt, Lookup.ofOption_eq_found_iff, Option.map_eq_some_iff] at h
      obtain ⟨field, hf, rfl⟩ := h
      exact part (Rule.mem_parts_of_get? hf)
    | index i => simp [childAt] at h
  | array initial rest =>
    cases step with
    | key key => simp [childAt] at h
    | index i =>
      simp only [childAt, Lookup.found.injEq] at h
      exact part (h ▸ Rule.mem_parts_itemAt initial rest i)
  | tuple elements =>
    cases step with
    | key key => simp [childAt] at h
    | index i =>
      simp only [childAt, Lookup.ofOption_eq_found_iff] at h
      exact part (Rule.mem_parts_tuple (List.mem_of_getElem? h))
  | dictionary type =>
    cases step with
    | key key =>
      simp only [childAt, Lookup.found.injEq] at h
      exact part (h ▸ Rule.mem_parts_dictionary type)
    | index i => simp [childAt] at h
  | oneof alternatives =>
    by_cases fixed : (d.shape (.node mark (.oneof alternatives))).isFixed = true
    · rw [childAt_oneof step fixed] at h
      obtain ⟨chosen, -⟩ := Lookup.eq_found_of_agreed h
      obtain ⟨alternative, ha, hc⟩ := List.mem_map.mp chosen
      exact unfolded alternative (.alternative ha) (part (Rule.mem_parts_oneof ha)) hc
    · simp [childAt, fixed] at h
  | ref label =>
    cases hb : d.body? label with
    | some body =>
      rw [childAt_ref step hb] at h
      exact unfolded body (.target hb) (mem_nodes_of_body? hb) h
    | none =>
      rw [childAt_ref_of_none step hb] at h
      cases h

/-- What a step leads to is right where it leads to a value: it is not nothing, and if it is a
schema, the value conforms to it. -/
def Describes (d : Document α) (l : Leniency) (x : Value) : Lookup α → Prop
  | .found c => d.Conforms l c x
  | .absent => False
  | .ambiguous => True

/-- Alternatives together lead to what is right where one of them does, if schemas of one type
among those that they lead to accept the same. -/
theorem describes_agreed {l : Leniency} {x : Value} {results : List (Lookup α)} {r : Lookup α}
    (hr : r ∈ results) (h : d.Describes l x r)
    (agree : ∀ c m, .found c ∈ results → .found m ∈ results → d.sameType c m = true →
      d.Conforms l m x → d.Conforms l c x) :
    d.Describes l x (.agreed d.sameType results) := by
  cases together : Lookup.agreed d.sameType results with
  | ambiguous => trivial
  | absent => exact Lookup.eq_absent_of_agreed together r hr ▸ h
  | found c =>
    obtain ⟨chosen, others⟩ := Lookup.eq_found_of_agreed together
    obtain rfl | ⟨m, rfl, rfl | same⟩ := others r hr
    · exact h.elim
    · exact h
    · exact agree c m chosen hr same h

/-- **One step of a lookup is sound.** -/
theorem describes_childAt (identified : d.Identified) {l : Leniency} (hl : l.extraFields = false)
    {n : Schema α} (hn : n ∈ d.nodes) {v x : Value} (h : d.Conforms l n v) {step : Step}
    (hx : v.child? step = some x) : d.Describes l x (d.childAt n step) := by
  induction h with
  | any =>
    simp only [childAt]
    trivial
  | scalar ha =>
    rw [Value.child?_of_isScalar (ScalarType.isScalar_of_accepts ha)] at hx
    cases hx
  | enum _ he =>
    rw [Value.child?_of_isScalar (Literal.isScalar_of_beq he)] at hx
    cases hx
  | @object mark fields values present _ known =>
    cases step with
    | index i => cases hx
    | key key =>
      have declared := fields.get?_eq_some_value (known hl key (Mapping.mem_keys_of_get? hx))
      simp only [childAt, declared]
      exact present key _ x declared hx
  | @array mark initial rest items length first others =>
    cases step with
    | key key => cases hx
    | index i =>
      have whole : d.Conforms l (.node mark (.array initial rest)) (.sequence items) :=
        .array length first others
      obtain ⟨_, he, -, each⟩ := conforms_array_iff.mp whole
      cases he
      simp only [childAt]
      exact each i x hx
  | @tuple mark elements items length parts =>
    cases step with
    | key key => cases hx
    | index i =>
      obtain ⟨hi, -⟩ := List.getElem?_eq_some_iff.mp hx
      have described := List.getElem?_eq_getElem (length ▸ hi)
      simp only [childAt, described]
      exact parts i _ x described hx
  | dictionary values =>
    cases step with
    | index i => cases hx
    | key key =>
      simp only [childAt]
      exact values key x hx
  | @oneof mark alternatives alternative v ha h ih =>
    by_cases fixed : (d.shape (.node mark (.oneof alternatives))).isFixed = true
    · have parts : ∀ part ∈ alternatives.toList, part ∈ d.nodes := fun part hp =>
        mem_nodes_of_mem_parts hn (Rule.mem_parts_oneof hp)
      have nodes : ∀ c, .found c ∈ alternatives.toList.map (fun part => d.childAt part step) →
          c ∈ d.nodes := by
        intro c hc
        obtain ⟨part, hp, hc⟩ := List.mem_map.mp hc
        exact mem_nodes_of_childAt (parts part hp) hc
      rw [childAt_oneof step fixed]
      refine describes_agreed (List.mem_map_of_mem ha) (ih (parts alternative ha) hx) ?_
      intro c m hc hm same h
      exact h.of_sameType identified (nodes c hc) (nodes m hm) same
    · simp only [childAt, if_neg fixed]
      trivial
  | ref hb h ih =>
    rw [childAt_ref _ hb]
    exact ih (mem_nodes_of_body? hb) hx

/-! ### Paths -/

theorem mapError_eq_ok_iff {ε ε' β : Type} {f : ε → ε'} {result : Except ε β} {b : β} :
    result.mapError f = .ok b ↔ result = .ok b := by
  cases result <;> simp [Except.mapError]

/-- **A lookup is sound along a whole path**: it finds something where the value has a part,
and what it finds describes the part. -/
theorem conforms_of_atPath (identified : d.Identified) {l : Leniency}
    (hl : l.extraFields = false) {n : Schema α} (hn : n ∈ d.nodes) {v u : Value}
    (h : d.Conforms l n v) {path : Path} (hu : v.atPath? path = some u) :
    d.atPath n path ≠ .ok none ∧
      ∀ c, d.atPath n path = .ok (some c) → c ∈ d.nodes ∧ d.Conforms l c u := by
  induction path generalizing n v with
  | nil =>
    cases hu
    refine ⟨nofun, ?_⟩
    rintro c ⟨⟩
    exact ⟨hn, h⟩
  | cons step rest ih =>
    obtain ⟨x, hx, hu⟩ := Option.bind_eq_some_iff.mp hu
    have described := describes_childAt identified hl hn h hx
    rw [atPath]
    cases hc : d.childAt n step with
    | ambiguous => exact ⟨nofun, nofun⟩
    | absent =>
      rw [hc] at described
      exact described.elim
    | found child =>
      rw [hc] at described
      obtain ⟨somewhere, sound⟩ := ih (mem_nodes_of_childAt hn hc) described hu
      refine ⟨fun nowhere => somewhere (mapError_eq_ok_iff.mp nowhere), fun c found => ?_⟩
      exact sound c (mapError_eq_ok_iff.mp found)

/-- **Lookup is sound for validation.** Where a valid value has a part, a lookup in a compiled
document does not find nothing, and the part is valid against the schema it finds. -/
theorem validate_eq_nil_of_atPath {source : Value} {d : Document Site}
    (hd : compile source = .ok d) {n : Node} (hn : n ∈ d.nodes) {v u : Value}
    {place path : Path} (hv : d.validate true n v place = []) (hu : v.atPath? path = some u) :
    d.atPath n path ≠ .ok none ∧
      ∀ c, d.atPath n path = .ok (some c) → d.validate true c u (place ++ path) = [] := by
  have complete := complete_of_compile hd
  have strict := (decides complete true hn v place).mp hv
  obtain ⟨somewhere, sound⟩ := conforms_of_atPath (identified_of_compile hd) rfl hn strict hu
  refine ⟨somewhere, fun c found => ?_⟩
  obtain ⟨hc, h⟩ := sound c found
  exact (decides complete true hc u _).mpr h

/-- The source of drawings: dots and lines, each somewhere, which is said in two ways. -/
def drawingSource : Value :=
  .mapping <| .ofList
    [(labelsKey, .mapping <| .ofList
      [("figure", .sequence
        [.string "oneof",
          .mapping <| .ofList
            [("kind", .sequence [.string "enum", .string "dot"]),
              ("at", .mapping <| .ofList [("x", .string "float"), ("note", .string "string")])],
          .mapping <| .ofList
            [("kind", .sequence [.string "enum", .string "line"]),
              ("at", .mapping <| .ofList [("note", .string "string"), ("x", .string "float")])]])]),
      (schemaKey, .sequence [.string "array", .sequence [.string "ref", .string "figure"]])]

/-- Drawings: dots and lines, each somewhere. -/
def drawing : Document Unit where
  labels := .ofList
    [("figure", .node () <| .oneof
      ⟨.node () <| .object <| .ofList
        [("kind", ⟨false, .node () (.enum ⟨.string "dot", []⟩)⟩),
          ("at", ⟨false, .node () <| .object <| .ofList
            [("x", ⟨false, .node () (.scalar .float)⟩),
              ("note", ⟨false, .node () (.scalar .string)⟩)]⟩)],
        [.node () <| .object <| .ofList
          [("kind", ⟨false, .node () (.enum ⟨.string "line", []⟩)⟩),
            ("at", ⟨false, .node () <| .object <| .ofList
              [("note", ⟨false, .node () (.scalar .string)⟩),
                ("x", ⟨false, .node () (.scalar .float)⟩)]⟩)]]⟩)]
  root := .node () (.array [] (.node () (.ref "figure")))
  guarded := of_decide_eq_true (by cbv)

theorem compile_drawingSource : compile drawingSource = .ok drawing.locate :=
  compile_eq_ok_iff.mpr
    ⟨drawing, ofSource_eq_ok_iff.mpr ⟨by cbv, _, rfl, by cbv, by cbv, _, rfl, by cbv⟩, rfl⟩

/-- One line. -/
def line : Value :=
  .sequence [.mapping <| .ofList
    [("kind", .string "line"),
      ("at", .mapping <| .ofList [("x", .number 1), ("note", .string "level")])]]

/-- The schema of the place of a line is found among those of dots. -/
theorem validate_line_at :
    compile drawingSource = .ok drawing.locate ∧
      drawing.locate.validate true drawing.locate.root line [] = [] ∧
      line.atPath? [.index 0, .key "at", .key "note"] = some (.string "level") ∧
      ∃ c, drawing.locate.atPath drawing.locate.root [.index 0, .key "at", .key "note"] =
          .ok (some c) ∧
        drawing.locate.validate true c (.string "level") [.index 0, .key "at", .key "note"] = [] := by
  have fits : drawing.locate.validate true drawing.locate.root line [] = [] := by cbv
  have found : drawing.locate.atPath drawing.locate.root [.index 0, .key "at", .key "note"] =
      .ok (some (.node
        ⟨3, labelPath "figure" ++ [.index 1, .key "at", .key "note"]⟩ (.scalar .string))) := by
    cbv
  have part : line.atPath? [.index 0, .key "at", .key "note"] = some (.string "level") := rfl
  refine ⟨compile_drawingSource, fits, part, _, found, ?_⟩
  exact (validate_eq_nil_of_atPath compile_drawingSource (root_mem_nodes _) fits part).2 _ found

end Document

end TreeSchema
