import TreeSchema.Proofs.Document.Arena
import TreeSchema.Restriction.Fill
import TreeSchema.Shape

/-!
# Unfolding comes to an end

A reference unfolds to its target and a union to its alternatives. In a document this has no
cycle, so what unfolds schemas needs no guard: a chain of references is shorter than the list
of nodes, and a walk through the alternatives never meets a label that it is inside of.

* `Document.not_transGen_unfoldsTo` — unfolding has no cycle.
* `Document.follow`, `Document.follow_eq_resolve` — following references for as many steps as
  there are nodes ends where `resolve` does.
* `Document.shapeWithin`, `Document.shapeWithin_eq_shape` — the shape, given up where a label
  is met again, is never given up.
-/

namespace TreeSchema

/-! ### Traversals without failure -/

theorem traverse_eq_some {α β : Type} {start : Nat} {xs : List α}
    {f : (i : Nat) → (x : α) → x ∈ xs → Option β} {g : α → β}
    (h : ∀ i x hx, f i x hx = some (g x)) : traverse start xs f = some (xs.map g) := by
  induction xs generalizing start with
  | nil => rfl
  | cons x xs ih =>
    rw [traverse, h, ih fun i a ha => h i a _]
    rfl

namespace Schema

/-- The schema is a reference. -/
def isRef {α : Type} : Schema α → Bool
  | node _ (.ref _) => true
  | _ => false

end Schema

namespace Document

section

variable {α : Type} {d : Document α}

/-- What a schema unfolds to is one of its direct parts. -/
theorem Unfolds.mem_children {n m : Schema α} (h : d.Unfolds n m) : m ∈ d.children n := by
  cases h with
  | target hb => exact Option.mem_toList.mpr hb
  | alternative ha => exact Rule.mem_parts_oneof ha

/-! ### Ranks -/

theorem rankAbove_ref {mark : α} {label : String} (hk : label ∈ d.labels.keys) :
    d.rankAbove (Schema.node mark (.ref label)).heads =
      Search.rank (labelHeads d.labels) d.labels.keys label + 1 := by
  rw [Schema.heads_ref, rankAbove, List.foldr_cons, if_pos hk, List.foldr_nil, Nat.max_zero]

/-- No rank is above the number of labels. -/
theorem rankAbove_le_size (d : Document α) (labels : List String) :
    d.rankAbove labels ≤ d.labels.size + 1 :=
  rankAbove_le d fun _ _ _ => Nat.lt_succ_of_le List.countP_le_length

theorem size_labels_lt (d : Document α) : d.labels.size < d.nodes.length := by
  rw [nodes_eq, List.length_append, List.length_append, Mapping.values, List.length_map,
    Mapping.length_entries, List.length_singleton]
  omega

/-! ### References -/

/-- The schema at the end of a chain of references, if it is among the given number of
schemas that are looked at. -/
def follow (d : Document α) : Nat → Schema α → Option (Schema α)
  | 0, _ => none
  | fuel + 1, .node _ (.ref label) => (d.body? label).bind (d.follow fuel)
  | _ + 1, n => some n

/-- **A chain of references ends**, with as much fuel as its labels have ranks. -/
theorem follow_eq_resolve (complete : d.Complete) {n : Schema α} (hn : n ∈ d.nodes) {fuel : Nat}
    (h : d.rankAbove n.heads < fuel) :
    d.follow fuel n = some (d.resolve n) ∧ (d.resolve n).isRef = false := by
  induction fuel generalizing n with
  | zero => exact absurd h (Nat.not_lt_zero _)
  | succ fuel ih =>
    obtain ⟨mark, rule⟩ := n
    cases rule with
    | ref label =>
      obtain ⟨body, hb⟩ := complete mark label hn
      have lower : d.rankAbove body.heads < d.rankAbove (Schema.node mark (.ref label)).heads :=
        d.rankAbove_target_lt hb
      rw [follow, hb, Option.bind_some, resolve_ref d hb]
      exact ih (mem_nodes_of_body? hb) (by omega)
    | _ =>
      rw [resolve]
      · exact ⟨rfl, rfl⟩
      · simp

/-! ### Shapes -/

theorem shape_oneof (d : Document α) {mark : α} {alternatives : OneOrMore (Schema α)} :
    d.shape (.node mark (.oneof alternatives)) =
      (alternatives.toList.map d.shape).foldr Shape.union .none := by
  rw [shape, List.map_subtype (g := d.shape) (by simp), List.unattach_attach]

theorem shape_ref {mark : α} {label : String} {body : Schema α} (hb : d.body? label = some body) :
    d.shape (.node mark (.ref label)) = d.shape body := by
  rw [shape]
  split
  · next body' hb' => rw [Option.some.inj (hb.symm.trans hb')]
  · next hb' => simp [hb] at hb'

/-- The shape of a schema, unless a label is met while it is being unfolded. -/
def shapeWithin (d : Document α) (unfolding : List String) (n : Schema α) : Option Shape :=
  match n with
  | .node _ rule =>
    match rule with
    | .oneof alternatives => do
      let shapes ← traverse 0 alternatives.toList fun _ alternative _ =>
        d.shapeWithin unfolding alternative
      some (shapes.foldr Shape.union .none)
    | .ref label =>
      if label ∈ unfolding then none
      else
        match _h : d.body? label with
        | some body => d.shapeWithin (label :: unfolding) body
        | none => some .all
    | .scalar _ => some (.only .scalar)
    | .any => some .all
    | .enum _ => some (.only .scalar)
    | .object _ => some (.only .object)
    | .array _ _ => some (.only .array)
    | .tuple _ => some (.only .array)
    | .dictionary _ => some (.only .object)
termination_by (d.unfoldable unfolding, n.size)
decreasing_by
  · exact .right _ (Schema.size_lt_of_mem_parts (Rule.mem_parts_oneof ‹_›))
  · exact .left _ _ (d.unfoldable_cons_lt _h ‹_›)

/-- **No label is met while it is being unfolded**, as long as those that are being unfolded
have ranks no lower than the labels ahead. -/
theorem shapeWithin_eq_shape (complete : d.Complete) {n : Schema α} (hn : n ∈ d.nodes)
    {unfolding : List String} (above : ∀ label ∈ unfolding, d.rankAbove n.heads ≤
      Search.rank (labelHeads d.labels) d.labels.keys label) :
    d.shapeWithin unfolding n = some (d.shape n) := by
  induction n using d.unfolds_induction generalizing unfolding with
  | step n unfolded =>
  obtain ⟨mark, rule⟩ := n
  cases rule with
  | oneof alternatives =>
    have shapes : ∀ alternative ∈ alternatives.toList,
        d.shapeWithin unfolding alternative = some (d.shape alternative) := by
      intro alternative ha
      refine unfolded alternative (.alternative ha)
        (mem_nodes_of_mem_parts hn (Rule.mem_parts_oneof ha)) fun label hl => ?_
      exact Nat.le_trans (d.rankAbove_alternative_le ha) (above label hl)
    rw [shapeWithin, traverse_eq_some fun i x hx => shapes x hx, shape_oneof]
    rfl
  | ref label =>
    obtain ⟨body, hb⟩ := complete mark label hn
    have top : d.rankAbove (Schema.node mark (.ref label)).heads =
        Search.rank (labelHeads d.labels) d.labels.keys label + 1 :=
      rankAbove_ref (Mapping.mem_keys_of_get? hb)
    have lower : d.rankAbove body.heads < d.rankAbove (Schema.node mark (.ref label)).heads :=
      d.rankAbove_target_lt hb
    have fresh : label ∉ unfolding := by
      intro hl
      have := above label hl
      omega
    have equation : d.shapeWithin unfolding (.node mark (.ref label)) =
        d.shapeWithin (label :: unfolding) body := by
      rw [shapeWithin, if_neg fresh]
      split
      · next body' hb' => rw [Option.some.inj (hb.symm.trans hb')]
      · next hb' => simp [hb] at hb'
    rw [equation, shape_ref hb]
    refine unfolded body (.target hb) (mem_nodes_of_body? hb) fun other ho => ?_
    rcases List.mem_cons.mp ho with rfl | ho
    · omega
    · have := above other ho
      omega
  | _ => rw [shapeWithin, shape]

end

/-! ### Nodes by their numbers -/

/-- From a node, by its number, to a node that it unfolds to, by its number. -/
def UnfoldsTo (d : Document Site) (id id' : Nat) : Prop :=
  ∃ n m, d.node? id = some n ∧ d.Unfolds n m ∧ m.mark.id = id'

/-- **Unfolding has no cycle.** -/
theorem not_transGen_unfoldsTo {e : Document Unit} (id : Nat) :
    ¬ Relation.TransGen e.locate.UnfoldsTo id id := by
  refine acyclic_of_lt (fun id => (e.locate.node? id).elim 0 e.locate.height) ?_ id
  rintro id id' ⟨n, m, hn, unfolds, rfl⟩
  have mem := mem_nodes_of_unfolds (List.mem_of_getElem? hn) unfolds
  rw [hn, node?_eq_some_of_mem mem]
  exact e.locate.height_lt unfolds

end Document

end TreeSchema
