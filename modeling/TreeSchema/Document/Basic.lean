import TreeSchema.Schema.Basic
import TreeSchema.Search

/-!
# Documents

A document is a root schema together with the labelled schemas that references
speak of. Labels may refer to themselves and to each other, but not by
references and alternatives alone: between two visits to a label there is always
an object, array, tuple or dictionary, which takes the value apart. That is the
proof field `guarded`, and it is what bounds the work on any value.

* `Document.Unfolds` — from a reference to its target and from a union to its alternatives.
* `Document.height`, `Document.height_lt` — unfolding lowers the height of a
  schema, so functions on a value and a schema may recurse lexicographically on
  the size of the value and the height of the schema.
* `Document.resolve` — the schema at the end of a chain of references.
-/

namespace TreeSchema

/-- The labels that the body of a label meets by references and alternatives alone. -/
def labelHeads {α : Type} (labels : Mapping (Schema α)) (label : String) : List String :=
  (labels.get? label).elim [] Schema.heads

/-- A root schema and the schemas that labels stand for, in the order of their
declaration. No label reaches itself by references and alternatives alone. -/
structure Document (α : Type) where
  labels : Mapping (Schema α)
  root : Schema α
  guarded : Search.Guarded (labelHeads labels) labels.keys

namespace Document

variable {α : Type}

/-- What a label stands for. -/
def body? (d : Document α) (label : String) : Option (Schema α) :=
  d.labels.get? label

/-- A reference unfolds to its target, a union to each of its alternatives. -/
inductive Unfolds (d : Document α) : Schema α → Schema α → Prop where
  | target {mark : α} {label : String} {body : Schema α} :
      d.body? label = some body → Unfolds d (.node mark (.ref label)) body
  | alternative {mark : α} {alternatives : OneOrMore (Schema α)} {alternative : Schema α} :
      alternative ∈ alternatives.toList →
      Unfolds d (.node mark (.oneof alternatives)) alternative

/-! ### Height -/

/-- A number above the ranks of all labels of the document in a list. -/
def rankAbove (d : Document α) (labels : List String) : Nat :=
  labels.foldr (fun label r =>
    max (if label ∈ d.labels.keys then
      Search.rank (labelHeads d.labels) d.labels.keys label + 1 else 0) r) 0

theorem rank_lt_rankAbove (d : Document α) {labels : List String} {label : String}
    (h : label ∈ labels) (hk : label ∈ d.labels.keys) :
    Search.rank (labelHeads d.labels) d.labels.keys label < d.rankAbove labels := by
  induction labels with
  | nil => cases h
  | cons first rest ih =>
    rw [rankAbove, List.foldr_cons]
    rcases List.mem_cons.mp h with rfl | h
    · rw [if_pos hk]
      omega
    · have := ih h
      rw [rankAbove] at this
      omega

theorem rankAbove_le (d : Document α) {labels : List String} {bound : Nat}
    (h : ∀ label ∈ labels, label ∈ d.labels.keys →
      Search.rank (labelHeads d.labels) d.labels.keys label < bound) :
    d.rankAbove labels ≤ bound := by
  induction labels with
  | nil => exact Nat.zero_le _
  | cons first rest ih =>
    rw [rankAbove, List.foldr_cons]
    have tail := ih fun label hl => h label (List.mem_cons_of_mem _ hl)
    rw [rankAbove] at tail
    have head := h first List.mem_cons_self
    split
    · next hk =>
      have := head hk
      omega
    · omega

theorem rankAbove_alternative_le (d : Document α) {mark : α}
    {alternatives : OneOrMore (Schema α)} {alternative : Schema α}
    (h : alternative ∈ alternatives.toList) :
    d.rankAbove alternative.heads ≤
      d.rankAbove (Schema.node mark (.oneof alternatives)).heads := by
  refine rankAbove_le d fun label hl hk => rank_lt_rankAbove d ?_ hk
  rw [Schema.heads_oneof]
  exact List.mem_flatMap.mpr ⟨alternative, h, hl⟩

theorem rankAbove_target_lt (d : Document α) {mark : α} {label : String} {body : Schema α}
    (h : d.body? label = some body) :
    d.rankAbove body.heads < d.rankAbove (Schema.node mark (.ref label)).heads := by
  have hk : label ∈ d.labels.keys := Mapping.mem_keys_of_get? h
  have met : label ∈ (Schema.node mark (.ref label)).heads := by
    rw [Schema.heads_ref]
    exact List.mem_singleton_self label
  have top := rank_lt_rankAbove d met hk
  refine Nat.lt_of_le_of_lt (rankAbove_le d fun label' hl hk' => ?_) top
  refine Search.rank_lt d.guarded ?_ hk'
  rw [labelHeads, show d.labels.get? label = some body from h]
  exact hl

/-- The greatest number of times that a schema can be unfolded in a row. -/
def height (d : Document α) : Schema α → Nat
  | .node _ (.oneof alternatives) =>
    1 + (alternatives.toList.attach.map fun ⟨alternative, _⟩ => d.height alternative).foldr max 0
  | .node _ (.ref label) =>
    match _h : d.body? label with
    | some body => 1 + d.height body
    | none => 0
  | _ => 0
termination_by n => (d.rankAbove n.heads, n.size)
decreasing_by
  · rcases Nat.lt_or_eq_of_le (d.rankAbove_alternative_le ‹_›) with h | h
    · exact .left _ _ h
    · rw [h]
      exact .right _ (Schema.size_lt_of_mem_parts ‹_›)
  · exact .left _ _ (d.rankAbove_target_lt _h)

private theorem le_foldr_max {n : Nat} {ns : List Nat} (h : n ∈ ns) : n ≤ ns.foldr max 0 := by
  induction ns with
  | nil => cases h
  | cons m ms ih =>
    rw [List.foldr_cons]
    rcases List.mem_cons.mp h with rfl | h
    · omega
    · have := ih h
      omega

theorem height_alternative_lt (d : Document α) {mark : α}
    {alternatives : OneOrMore (Schema α)} {alternative : Schema α}
    (h : alternative ∈ alternatives.toList) :
    d.height alternative < d.height (.node mark (.oneof alternatives)) := by
  have : d.height (.node mark (.oneof alternatives)) =
      1 + (alternatives.toList.map d.height).foldr max 0 := by
    rw [height, List.map_subtype (g := d.height) (by simp), List.unattach_attach]
  rw [this]
  have := le_foldr_max (List.mem_map_of_mem (f := d.height) h)
  omega

theorem height_target_lt (d : Document α) {mark : α} {label : String} {body : Schema α}
    (h : d.body? label = some body) : d.height body < d.height (.node mark (.ref label)) := by
  have : d.height (.node mark (.ref label)) = 1 + d.height body := by
    rw [height]
    split
    · next body' h' => rw [h] at h'; rw [Option.some.inj h']
    · next h' => rw [h] at h'; cases h'
  omega

/-- **Unfolding lowers the height.** -/
theorem height_lt (d : Document α) {n m : Schema α} (h : d.Unfolds n m) :
    d.height m < d.height n := by
  cases h with
  | target h => exact d.height_target_lt h
  | alternative h => exact d.height_alternative_lt h

/-! ### References -/

/-- The schema at the end of a chain of references; a schema of any other kind is
its own. -/
def resolve (d : Document α) (n : Schema α) : Schema α :=
  match n with
  | .node mark (.ref label) =>
    match _h : d.body? label with
    | some body => d.resolve body
    | none => .node mark (.ref label)
  | n => n
termination_by d.height n
decreasing_by exact d.height_target_lt _h

theorem resolve_ref (d : Document α) {mark : α} {label : String} {body : Schema α}
    (h : d.body? label = some body) : d.resolve (.node mark (.ref label)) = d.resolve body := by
  rw [resolve]
  split
  · next body' h' => rw [h] at h'; rw [Option.some.inj h']
  · next h' => rw [h] at h'; cases h'

/-- What makes no difference between a reference and its target makes none between a
schema and the one at the end of its references. -/
theorem apply_resolve (d : Document α) {β : Sort _} {f : Schema α → β}
    (same : ∀ mark label body, d.body? label = some body → f (.node mark (.ref label)) = f body)
    (n : Schema α) : f (d.resolve n) = f n := by
  fun_induction d.resolve n with
  | case1 mark label body hb ih => rw [ih, same mark label body hb]
  | case2 => rfl
  | case3 => rfl

end Document

end TreeSchema
