import TreeSchema.Lookup
import TreeSchema.Proofs.Document.Unfolding
import TreeSchema.Restriction.Basic

/-!
# Work on a value comes to an end

What works on a schema and a value calls itself on the parts of the value, or on the same value
and what the schema unfolds to. Cutting a recursion off at a depth, with anything at all for the
results there, tells whether calls reach that depth: they do not if the results stay the same.

* `Recursion.cutAt`, `Recursion.Descends.cutAt_eq` — a recursion whose calls lower a measure
  ends above it.
* `Document.Calls`, `Document.Calls.lex` — the calls, and how they descend;
  `Document.calls_induction` — induction along them.
* `Document.Involves` — what a schema has to do with, where all calls stay.
* `Document.callDepth`, `Document.Calls.callDepth_lt` — a bound on their depth.
* `Document.lookups`, `Document.cutAt_lookups` — looking up the child at a step ends.
-/

namespace TreeSchema

/-! ### Recursions -/

/-- A recursion: what a call gives, in terms of what the calls give that it makes. -/
structure Recursion (σ ρ : Type) where
  /-- What a call gives if the calls that it makes give what a function does. -/
  step : (σ → ρ) → σ → ρ
  /-- From a call to those that it makes. -/
  calls : σ → σ → Prop
  /-- Nothing else is asked for. -/
  congr : ∀ {f g : σ → ρ} {s : σ}, (∀ t, calls s t → f t = g t) → step f s = step g s

namespace Recursion

variable {σ ρ : Type}

/-- What a call gives if at a depth anything at all is taken for what the calls give. -/
def cutAt (R : Recursion σ ρ) (anything : σ → ρ) : Nat → σ → ρ
  | 0 => anything
  | depth + 1 => R.step (R.cutAt anything depth)

/-- The calls that are made inside stay inside and lower a measure. -/
structure Descends (R : Recursion σ ρ) (inside : σ → Prop) (measure : σ → Nat) : Prop where
  stays : ∀ s t, inside s → R.calls s t → inside t
  lowers : ∀ s t, inside s → R.calls s t → measure t < measure s

/-- A function gives what the recursion asks for. -/
def Solves (R : Recursion σ ρ) (f : σ → ρ) : Prop :=
  ∀ s, R.step f s = f s

/-- **A recursion that descends ends above the depth that the measure allows**: what is taken
for the calls there does not matter. -/
theorem Descends.cutAt_eq {R : Recursion σ ρ} {inside : σ → Prop} {measure : σ → Nat}
    (descends : R.Descends inside measure) {f : σ → ρ} (solves : R.Solves f) {depth : Nat}
    {s : σ} (hs : inside s) (h : measure s < depth) (anything : σ → ρ) :
    R.cutAt anything depth s = f s := by
  induction depth generalizing s with
  | zero => exact absurd h (Nat.not_lt_zero _)
  | succ depth ih =>
    rw [cutAt, ← solves s]
    refine R.congr fun t ht => ih (descends.stays s t hs ht) ?_
    have := descends.lowers s t hs ht
    omega

end Recursion

/-- A lexicographic descent is one of a single number if the second component is bounded. -/
theorem linear_lt_of_lex {a b a' b' bound : Nat}
    (h : Prod.Lex (· < ·) (· < ·) (a', b') (a, b)) (le : b' ≤ bound) :
    a' * (bound + 1) + b' < a * (bound + 1) + b := by
  rw [Prod.lex_iff] at h
  rcases h with smaller | ⟨same, lower⟩
  · calc a' * (bound + 1) + b'
      _ < a' * (bound + 1) + (bound + 1) := by omega
      _ = (a' + 1) * (bound + 1) := by rw [Nat.add_mul, Nat.one_mul]
      _ ≤ a * (bound + 1) := Nat.mul_le_mul_right _ smaller
      _ ≤ a * (bound + 1) + b := Nat.le_add_right _ _
  · simp only at same lower
    rw [same]
    omega

namespace Document

variable {α : Type}

/-! ### Calls -/

/-- What work on a schema and a value calls for: work on the parts of the value, with the
parts of the schema that describe them, and work on the value with what the schema unfolds to. -/
inductive Calls (d : Document α) : Schema α → Value → Schema α → Value → Prop where
  | field {mark : α} {fields : Mapping (Field (Schema α))} {values : Mapping Value}
      {key : String} {field : Field (Schema α)} {x : Value} :
      fields.get? key = some field → values.get? key = some x →
      Calls d (.node mark (.object fields)) (.mapping values) field.type x
  | item {mark : α} {initial : List (Schema α)} {rest : Schema α} {items : List Value} {i : Nat}
      {x : Value} : items[i]? = some x →
      Calls d (.node mark (.array initial rest)) (.sequence items) (Rule.itemAt initial rest i) x
  | element {mark : α} {elements : OneOrMore (Schema α)} {items : List Value} {i : Nat}
      {part : Schema α} {x : Value} : elements.toList[i]? = some part → items[i]? = some x →
      Calls d (.node mark (.tuple elements)) (.sequence items) part x
  | entry {mark : α} {type : Schema α} {values : Mapping Value} {key : String} {x : Value} :
      values.get? key = some x → Calls d (.node mark (.dictionary type)) (.mapping values) type x
  | unfold {n m : Schema α} {v : Value} : d.Unfolds n m → Calls d n v m v

/-- From a schema to all that it has to do with: its children, theirs, and so on. -/
abbrev Involves (d : Document α) : Schema α → Schema α → Prop :=
  Relation.ReflTransGen fun n m => m ∈ d.children n

section

variable {d : Document α} {n m : Schema α} {v w : Value}

theorem Involves.mem_nodes (hn : n ∈ d.nodes) (h : d.Involves n m) : m ∈ d.nodes := by
  induction h with
  | refl => exact hn
  | tail _ child ih => exact mem_nodes_of_mem_children ih child

/-- **A call lowers the value, or keeps it and lowers the height of the schema.** -/
theorem Calls.lex (h : d.Calls n v m w) :
    Prod.Lex (· < ·) (· < ·) (w.size, d.height m) (v.size, d.height n) := by
  cases h with
  | field _ hx => exact .left _ _ (Value.size_lt_of_get? hx)
  | item hx => exact .left _ _ (Value.size_lt_of_mem (List.mem_of_getElem? hx))
  | element _ hx => exact .left _ _ (Value.size_lt_of_mem (List.mem_of_getElem? hx))
  | entry hx => exact .left _ _ (Value.size_lt_of_get? hx)
  | unfold h => exact .right _ (d.height_lt h)

/-- A call is for a child of the schema, or for what it unfolds to, which is one too. -/
theorem Calls.mem_children (h : d.Calls n v m w) : m ∈ d.children n := by
  cases h with
  | field hf _ => exact Rule.mem_parts_of_get? hf
  | item _ => exact Rule.mem_parts_itemAt _ _ _
  | element hp _ => exact Rule.mem_parts_tuple (List.mem_of_getElem? hp)
  | entry _ => exact Rule.mem_parts_dictionary _
  | unfold h => exact h.mem_children

/-- A call stays within the document. -/
theorem Calls.mem_nodes (hn : n ∈ d.nodes) (h : d.Calls n v m w) : m ∈ d.nodes :=
  mem_nodes_of_mem_children hn h.mem_children

/-- **Induction along calls**: what holds of a schema and a value if it holds of what work on
them calls for holds of all. -/
theorem calls_induction (d : Document α) {motive : Schema α → Value → Prop}
    (step : ∀ n v, (∀ m w, d.Calls n v m w → motive m w) → motive n v) (n : Schema α)
    (v : Value) : motive n v :=
  step n v fun m w _ => calls_induction d step m w
termination_by (v.size, d.height n)
decreasing_by exact Calls.lex ‹_›

/-- The greatest height of a node. -/
def maxHeight (d : Document α) : Nat :=
  (d.nodes.map d.height).foldr max 0

theorem height_le_maxHeight (hn : n ∈ d.nodes) : d.height n ≤ d.maxHeight :=
  List.le_max_of_le (List.mem_map_of_mem hn) (Nat.le_refl _)

/-- How deep calls can nest that start from a schema and a value. -/
def callDepth (d : Document α) (n : Schema α) (v : Value) : Nat :=
  v.size * (d.maxHeight + 1) + d.height n

/-- Calls nest no deeper than the value has nodes and each node of it can be unfolded. -/
theorem Calls.callDepth_lt (hn : n ∈ d.nodes) (h : d.Calls n v m w) :
    d.callDepth m w < d.callDepth n v :=
  linear_lt_of_lex h.lex (height_le_maxHeight (h.mem_nodes hn))

end

/-! ### Lookup -/

section

variable [DecidableEq α]

/-- Where a step leads from a schema, given where it leads from others. -/
def childAtStep (d : Document α) (step : Step) (call : Schema α → Lookup α) (n : Schema α) :
    Lookup α :=
  match n with
  | .node mark rule =>
    match rule with
    | .scalar _ => .absent
    | .any => .ambiguous
    | .enum _ => .absent
    | .object fields =>
      match step with
      | .key key => .ofOption ((fields.get? key).map (·.type))
      | .index _ => .absent
    | .array initial rest =>
      match step with
      | .key _ => .absent
      | .index i => .found (Rule.itemAt initial rest i)
    | .tuple elements =>
      match step with
      | .key _ => .absent
      | .index i => .ofOption elements.toList[i]?
    | .dictionary type =>
      match step with
      | .key _ => .found type
      | .index _ => .absent
    | .oneof alternatives =>
      if (d.shape (.node mark rule)).isFixed then
        .agreed d.sameType (alternatives.toList.map call)
      else .ambiguous
    | .ref label => (d.body? label).elim .ambiguous call

theorem childAtStep_congr (d : Document α) {step : Step} {call call' : Schema α → Lookup α}
    {n : Schema α} (h : ∀ m, d.Unfolds n m → call m = call' m) :
    d.childAtStep step call n = d.childAtStep step call' n := by
  obtain ⟨mark, rule⟩ := n
  cases rule with
  | oneof alternatives =>
    have same : alternatives.toList.map call = alternatives.toList.map call' :=
      List.map_congr_left fun alternative ha => h alternative (.alternative ha)
    simp only [childAtStep, same]
  | ref label =>
    cases hb : d.body? label with
    | some body => simp only [childAtStep, hb, Option.elim_some, h body (.target hb)]
    | none => simp only [childAtStep, hb, Option.elim_none]
  | _ => rfl

theorem childAtStep_childAt (d : Document α) (step : Step) (n : Schema α) :
    d.childAtStep step (d.childAt · step) n = d.childAt n step := by
  obtain ⟨mark, rule⟩ := n
  cases rule with
  | oneof alternatives =>
    rw [childAt, List.map_subtype (g := fun n => d.childAt n step) (by simp), List.unattach_attach]
    rfl
  | ref label =>
    rw [childAt, childAtStep]
    split
    · next body hb => rw [hb, Option.elim_some]
    · next hb => rw [hb, Option.elim_none]
  | _ =>
    cases step <;>
    · rw [childAt]
      rfl

/-- One step of a lookup as a recursion. -/
def lookups (d : Document α) (step : Step) : Recursion (Schema α) (Lookup α) where
  step := d.childAtStep step
  calls := d.Unfolds
  congr := d.childAtStep_congr

theorem solves_lookups (d : Document α) (step : Step) :
    (d.lookups step).Solves (d.childAt · step) :=
  d.childAtStep_childAt step

theorem descends_lookups (d : Document α) (step : Step) :
    (d.lookups step).Descends (fun _ => True) d.height :=
  ⟨fun _ _ _ _ => trivial, fun _ _ _ => d.height_lt⟩

/-- **A step of a lookup ends** above the height of the schema. -/
theorem cutAt_lookups {d : Document α} {step : Step} {n : Schema α} {depth : Nat}
    (h : d.height n < depth) (anything : Schema α → Lookup α) :
    (d.lookups step).cutAt anything depth n = d.childAt n step :=
  (d.descends_lookups step).cutAt_eq (d.solves_lookups step) (s := n) trivial h anything

end

end Document

end TreeSchema
