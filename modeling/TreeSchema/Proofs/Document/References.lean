import TreeSchema.Proofs.Document.Lookup
import TreeSchema.Proofs.Document.Termination
import TreeSchema.Proofs.Restriction.Cycles

/-!
# References stand for what they lead to

A reference does what the schema at the end of its chain does, wherever one of them is put in
the place of the other. Almost always that is plain, as work on a reference is work on its
target. Zero values are the exception: a reference notes that its label is being unfolded, and
the target taken by itself does not, so an endless chain of labels is noticed one unfolding
earlier or later, and may be reported at another label.

* `Document.Interchangeable` — two schemas that nothing tells apart.
* `Document.forcesCycle_resolve_iff` — a reference forces a cycle if what it leads to does.
* `Document.fillWithin_resolve_of_ok` — a fill value stays the same without the references that
  led to it.
* `Document.interchangeable_resolve_of_compile` — **references are transparent.**
-/

namespace TreeSchema

namespace Document

section

variable {α : Type} [DecidableEq α]

/-- The schemas do the same with every value, lead to the same schemas, and have the same zero
value, if they have one. -/
structure Interchangeable (d : Document α) (n m : Schema α) : Prop where
  validate : ∀ strict v path, d.validate strict n v path = d.validate strict m v path
  restrict : ∀ o v, d.restrict o n v = d.restrict o m v
  shape : d.shape n = d.shape m
  childAt : ∀ step, d.childAt n step = d.childAt m step
  /-- Where there is none, the errors may name different labels. -/
  zero : (∃ z, d.zero n = .ok z ∧ d.zero m = .ok z) ∨
    ∃ e e', d.zero n = .error e ∧ d.zero m = .error e'

end

variable {α : Type} {d : Document α}

/-! ### Values -/

theorem validate_resolve (d : Document α) (strict : Bool) (n : Schema α) (v : Value)
    (path : Path) : d.validate strict (d.resolve n) v path = d.validate strict n v path :=
  d.apply_resolve (f := fun n => d.validate strict n v path) (fun _ _ _ hb => validate_ref hb) n

theorem shape_resolve (d : Document α) (n : Schema α) : d.shape (d.resolve n) = d.shape n :=
  d.apply_resolve (f := d.shape) (fun _ _ _ hb => shape_ref hb) n

theorem childAt_resolve [DecidableEq α] (d : Document α) (n : Schema α) (step : Step) :
    d.childAt (d.resolve n) step = d.childAt n step :=
  d.apply_resolve (f := fun n => d.childAt n step) (fun _ _ _ hb => childAt_ref step hb) n

/-! ### Zero values -/

/-- Nothing but its target is forced by a reference. -/
theorem eq_target_of_forces {mark : α} {label : String} {body m : Schema α}
    (hb : d.body? label = some body) (h : d.Forces (.node mark (.ref label)) m) : m = body := by
  cases h with
  | target hb' => exact Option.some.inj (hb'.symm.trans hb)

/-- A reference forces a cycle if its target does: a cycle that the reference itself is on goes
through the target. -/
theorem forcesCycle_ref_iff {mark : α} {label : String} {body : Schema α}
    (hb : d.body? label = some body) :
    d.ForcesCycle (.node mark (.ref label)) ↔ d.ForcesCycle body := by
  constructor
  · rintro ⟨m, reached, cycle⟩
    rcases reached.cases_head with rfl | ⟨target, first, rest⟩
    · obtain ⟨target, first, back⟩ := Relation.TransGen.head'_iff.mp cycle
      obtain rfl := eq_target_of_forces hb first
      exact ⟨_, back, cycle⟩
    · obtain rfl := eq_target_of_forces hb first
      exact ⟨m, rest, cycle⟩
  · rintro ⟨m, reached, cycle⟩
    exact ⟨m, .head (.target hb) reached, cycle⟩

theorem forcesCycle_resolve_iff (d : Document α) (n : Schema α) :
    d.ForcesCycle (d.resolve n) ↔ d.ForcesCycle n :=
  (d.apply_resolve (f := d.ForcesCycle)
    (fun _ _ _ hb => propext (forcesCycle_ref_iff hb)) n).to_iff

/-- **A fill value stays the same without the references that led to it**, by induction on their
chain. The labels on the chain were being unfolded, and with fewer of these the value stays. -/
theorem fillWithin_resolve_of_ok {mode : FillMode} {unfolding : List String} {n : Schema α}
    {r? : Option Value} (h : d.fillWithin mode unfolding n = .ok r?) :
    d.fillWithin mode [] (d.resolve n) = .ok r? := by
  fun_induction d.resolve n generalizing unfolding with
  | case1 mark label body hb ih =>
    by_cases met : label ∈ unfolding
    · rw [fillWithin, if_pos met] at h
      cases h
    · rw [fillWithin_ref hb met] at h
      exact ih h
  | case2 => exact fillWithin_of_subset (List.nil_subset _) h
  | case3 => exact fillWithin_of_subset (List.nil_subset _) h

theorem zero_resolve_of_ok {n : Schema α} {z : Value} (h : d.zero n = .ok z) :
    d.zero (d.resolve n) = .ok z := by
  rw [zero] at h ⊢
  cases made : d.fill .zero n with
  | error e =>
    rw [made] at h
    cases h
  | ok r? =>
    have same : d.fill .zero (d.resolve n) = .ok r? := fillWithin_resolve_of_ok made
    rw [same, ← made]
    exact h

/-- **A schema without a zero value leads to one without.** The errors may differ. -/
theorem zero_resolve (d : Document α) (n : Schema α) :
    (∃ z, d.zero n = .ok z ∧ d.zero (d.resolve n) = .ok z) ∨
      ∃ e e', d.zero n = .error e ∧ d.zero (d.resolve n) = .error e' := by
  cases h : d.zero n with
  | ok z => exact .inl ⟨z, rfl, zero_resolve_of_ok h⟩
  | error e =>
    have cycle : d.ForcesCycle n := exists_zero_eq_error_iff.mp ⟨e, h⟩
    have cycle' : d.ForcesCycle (d.resolve n) := (d.forcesCycle_resolve_iff n).mpr cycle
    obtain ⟨e', h'⟩ := exists_zero_eq_error_iff.mpr cycle'
    exact .inr ⟨e, e', rfl, h'⟩

/-! ### References -/

theorem interchangeable_resolve [DecidableEq α] (d : Document α) (n : Schema α) :
    d.Interchangeable n (d.resolve n) where
  validate strict v path := (d.validate_resolve strict n v path).symm
  restrict _ _ := (restrict_resolve n).symm
  shape := (d.shape_resolve n).symm
  childAt step := (d.childAt_resolve n step).symm
  zero := d.zero_resolve n

/-- **References are transparent.** The references that start at a node of a compiled document
lead to a node that is none, and nothing tells it from the node. -/
theorem interchangeable_resolve_of_compile {source : Value} {d : Document Site}
    (hd : compile source = .ok d) {n : Node} (hn : n ∈ d.nodes) :
    d.resolve n ∈ d.nodes ∧ (d.resolve n).isRef = false ∧ d.Interchangeable n (d.resolve n) :=
  ⟨resolve_mem_nodes hn, ((grounded_of_compile hd).follow n hn).2, d.interchangeable_resolve n⟩

/-- The source of eggs and hens, each of which comes from the other. -/
def eggSource : Value :=
  .mapping <| .ofList
    [(labelsKey, .mapping <| .ofList
      [("egg", .mapping <| .ofList [("laidBy", .sequence [.string "ref", .string "hen"])]),
        ("hen", .mapping <| .ofList [("hatchedFrom", .sequence [.string "ref", .string "egg"])]),
        ("first", .sequence [.string "ref", .string "egg"])]),
      (schemaKey, .sequence [.string "ref", .string "first"])]

/-- Eggs and hens. -/
def eggs : Document Unit where
  labels := .ofList
    [("egg", .node () <| .object <| .ofList [("laidBy", ⟨false, .node () (.ref "hen")⟩)]),
      ("hen", .node () <| .object <| .ofList [("hatchedFrom", ⟨false, .node () (.ref "egg")⟩)]),
      ("first", .node () (.ref "egg"))]
  root := .node () (.ref "first")
  guarded := of_decide_eq_true (by cbv)

theorem compile_eggSource : compile eggSource = .ok eggs.locate :=
  compile_eq_ok_iff.mpr
    ⟨eggs, ofSource_eq_ok_iff.mpr ⟨by cbv, _, rfl, by cbv, by cbv, _, rfl, by cbv⟩, rfl⟩

/-- The schema of an egg. -/
def egg : Node :=
  .node ⟨0, labelPath "egg"⟩ <| .object <| .ofList
    [("laidBy", ⟨false, .node ⟨3, labelPath "egg" ++ [.key "laidBy"]⟩ (.ref "hen")⟩)]

/-- What comes first is an egg, by two references. Neither has a zero value; starting from the
references it is the egg that is met again, starting from the egg it is the hen. -/
theorem interchangeable_egg :
    compile eggSource = .ok eggs.locate ∧ eggs.locate.root ∈ eggs.locate.nodes ∧
      eggs.locate.resolve eggs.locate.root = egg ∧
      eggs.locate.Interchangeable eggs.locate.root egg ∧
      eggs.locate.zero eggs.locate.root =
        .error ⟨"egg", ⟨4, labelPath "hen" ++ [.key "hatchedFrom"]⟩⟩ ∧
      eggs.locate.zero egg = .error ⟨"hen", ⟨3, labelPath "egg" ++ [.key "laidBy"]⟩⟩ := by
  have leads : eggs.locate.resolve eggs.locate.root = egg := by cbv
  have hroot : eggs.locate.root ∈ eggs.locate.nodes := root_mem_nodes _
  obtain ⟨-, -, same⟩ := interchangeable_resolve_of_compile compile_eggSource hroot
  rw [leads] at same
  exact ⟨compile_eggSource, hroot, leads, same, by cbv, by cbv⟩

end Document

end TreeSchema
