import TreeSchema.Document.Basic
import TreeSchema.Schema.Site
import TreeSchema.Traversal

/-!
# Fill values

The value that stands for nothing at a schema, made up without any input. In zero
mode every kind of schema has one; in empty mode only collections do, and an
array makes up its initial items in zero mode where it has to.

Making up a value unfolds the schema, so a label that is met again while it is
being unfolded has none, and that is an error. Only what a value cannot do
without is unfolded: required fields, initial items, elements of tuples and
alternatives in order.

* `Document.fill` — the fill value in a mode.
* `Document.zero` — the zero value.
-/

namespace TreeSchema

/-- What fill values are made up for. -/
inductive FillMode where
  /-- Everything. -/
  | zero
  /-- Collections only. -/
  | empty
deriving DecidableEq

/-- A label met again while it was being unfolded. -/
structure RecursionError (α : Type) where
  label : String
  /-- The mark of the reference that met it again. -/
  mark : α
deriving DecidableEq

/-- The error of a document whose nodes know where they stand. -/
def RecursionError.message (e : RecursionError Site) : String :=
  "label " ++ Text.quoted e.label ++
    " is recursive and has no finite zero value (entered again at " ++ e.mark.origin.text ++ ")"

/-- The first result, or else that of a second attempt, made only then. -/
def orElse {ε β : Type} (first : Except ε (Option β)) (second : Unit → Except ε (Option β)) :
    Except ε (Option β) :=
  match first with
  | .ok none => second ()
  | result => result

namespace Document

variable {α : Type}

/-- A fill value that only zero mode has. -/
def leaf (mode : FillMode) (v : Value) : Option Value :=
  match mode with
  | .zero => some v
  | .empty => none

/-- The number of labels that are not being unfolded. -/
def unfoldable (d : Document α) (unfolding : List String) : Nat :=
  d.labels.keys.countP (· ∉ unfolding)

private theorem countP_cons_lt {keys unfolding : List String} {label : String}
    (hk : label ∈ keys) (hu : label ∉ unfolding) :
    keys.countP (· ∉ label :: unfolding) < keys.countP (· ∉ unfolding) := by
  have le : ∀ ks : List String,
      ks.countP (· ∉ label :: unfolding) ≤ ks.countP (· ∉ unfolding) := fun ks =>
    List.countP_mono_left (l := ks) fun key _ h =>
      decide_eq_true fun hm => of_decide_eq_true h (List.mem_cons_of_mem _ hm)
  induction keys with
  | nil => cases hk
  | cons key keys ih =>
    rw [List.countP_cons, List.countP_cons]
    by_cases hkey : key = label
    · subst hkey
      have before : decide (key ∉ key :: unfolding) = false := by simp
      have after : decide (key ∉ unfolding) = true := by simp [hu]
      rw [before, after, if_neg Bool.false_ne_true, if_pos rfl]
      have := le keys
      omega
    · have := ih ((List.mem_cons.mp hk).resolve_left fun h => hkey h.symm)
      have same : (decide (key ∉ label :: unfolding)) = decide (key ∉ unfolding) := by
        simp [hkey]
      rw [same]
      omega

theorem unfoldable_cons_lt (d : Document α) {unfolding : List String} {label : String}
    {body : Schema α} (hb : d.body? label = some body) (hu : label ∉ unfolding) :
    d.unfoldable (label :: unfolding) < d.unfoldable unfolding :=
  countP_cons_lt (Mapping.mem_keys_of_get? hb) hu

/-- The fill value of a schema, given the labels that are being unfolded. -/
def fillWithin (d : Document α) (mode : FillMode) (unfolding : List String) (n : Schema α) :
    Except (RecursionError α) (Option Value) :=
  match n with
  | .node mark rule =>
    match rule with
    | .scalar type => .ok (leaf mode type.zero)
    | .any => .ok (leaf mode .null)
    | .enum members => .ok (leaf mode members.first.toValue)
    | .dictionary _ => .ok (some (.mapping ∅))
    | .object fields => do
      let values ← fields.traverse fun e _ =>
        if e.2.optional then .ok none else d.fillWithin mode unfolding e.2.type
      return some (.mapping values.somes)
    | .array initial _ => do
      let items ← (traverse 0 initial fun _ part _ => OptionT.mk <|
        orElse (d.fillWithin mode unfolding part) fun _ =>
          d.fillWithin .zero unfolding part).run
      return items.map .sequence
    | .tuple elements => do
      let items ← (traverse 0 elements.toList fun _ part _ => OptionT.mk <|
        d.fillWithin mode unfolding part).run
      return items.map .sequence
    | .oneof alternatives =>
      firstSome alternatives.toList fun alternative _ => d.fillWithin mode unfolding alternative
    | .ref label =>
      if label ∈ unfolding then .error ⟨label, mark⟩
      else
        match _h : d.body? label with
        | some body => d.fillWithin mode (label :: unfolding) body
        | none => .ok (leaf mode .null)
termination_by (d.unfoldable unfolding, n.size)
decreasing_by
  · exact .right _ (Schema.size_lt_of_mem_fields ‹_›)
  · exact .right _ (Schema.size_lt_of_mem_parts (Rule.mem_parts_initial ‹_›))
  · exact .right _ (Schema.size_lt_of_mem_parts (Rule.mem_parts_initial ‹_›))
  · exact .right _ (Schema.size_lt_of_mem_parts (Rule.mem_parts_tuple ‹_›))
  · exact .right _ (Schema.size_lt_of_mem_parts (Rule.mem_parts_oneof ‹_›))
  · exact .left _ _ (d.unfoldable_cons_lt _h ‹_›)

/-- The fill value of a schema, if it has one. -/
def fill (d : Document α) (mode : FillMode) (n : Schema α) :
    Except (RecursionError α) (Option Value) :=
  d.fillWithin mode [] n

/-- The zero value of a schema. -/
def zero (d : Document α) (n : Schema α) : Except (RecursionError α) Value :=
  (d.fill .zero n).map (·.getD .null)

end Document

end TreeSchema
