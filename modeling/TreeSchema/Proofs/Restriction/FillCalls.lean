import TreeSchema.Proofs.Document.Descent
import TreeSchema.Proofs.Follows
import TreeSchema.Proofs.Restriction.Descent
import TreeSchema.Proofs.Restriction.Fill

/-!
# Fill values, call by call

Making up a value calls for the values of parts, and for that of what a label stands for, with
the label among those being unfolded. An array in empty mode calls for its initial items twice,
the second time in zero mode.

* `Document.FillCalls`, `Document.FillCalls.lex` — the calls, and how they descend.
* `Document.cutAt_filling` — making up a value ends.
* `Document.Forces` — from a schema to those that its zero value is made of.
* `Document.origin_of_error` — an error is that of a label met again, or of a call.
* `Document.fillWithin_of_subset` — with fewer labels being unfolded a value stays the same.
-/

namespace TreeSchema

namespace Document

variable {α : Type}

/-! ### Calls -/

/-- What making up a value calls for: a mode, the labels being unfolded and a schema. -/
inductive FillCalls (d : Document α) :
    FillMode × List String × Schema α → FillMode × List String × Schema α → Prop where
  | field {mode : FillMode} {unfolding : List String} {mark : α}
      {fields : Mapping (Field (Schema α))} {key : String} {field : Field (Schema α)} :
      fields.get? key = some field → field.optional = false →
      FillCalls d (mode, unfolding, .node mark (.object fields)) (mode, unfolding, field.type)
  | initial {mode : FillMode} {unfolding : List String} {mark : α} {initial : List (Schema α)}
      {rest part : Schema α} : part ∈ initial →
      FillCalls d (mode, unfolding, .node mark (.array initial rest)) (mode, unfolding, part)
  /-- The second attempt at an initial item. -/
  | fallback {mode : FillMode} {unfolding : List String} {mark : α} {initial : List (Schema α)}
      {rest part : Schema α} : part ∈ initial →
      FillCalls d (mode, unfolding, .node mark (.array initial rest)) (.zero, unfolding, part)
  | element {mode : FillMode} {unfolding : List String} {mark : α}
      {elements : OneOrMore (Schema α)} {part : Schema α} : part ∈ elements.toList →
      FillCalls d (mode, unfolding, .node mark (.tuple elements)) (mode, unfolding, part)
  | alternative {mode : FillMode} {unfolding : List String} {mark : α}
      {alternatives : OneOrMore (Schema α)} {alternative : Schema α} :
      alternative ∈ alternatives.toList →
      FillCalls d (mode, unfolding, .node mark (.oneof alternatives))
        (mode, unfolding, alternative)
  | target {mode : FillMode} {unfolding : List String} {mark : α} {label : String}
      {body : Schema α} : label ∉ unfolding → d.body? label = some body →
      FillCalls d (mode, unfolding, .node mark (.ref label)) (mode, label :: unfolding, body)

section

variable {d : Document α} {s t : FillMode × List String × Schema α}

/-- **A call lowers the number of labels that can be unfolded, or keeps it and is for a part.** -/
theorem FillCalls.lex (h : d.FillCalls s t) :
    Prod.Lex (· < ·) (· < ·) (d.unfoldable t.2.1, t.2.2.size) (d.unfoldable s.2.1, s.2.2.size) := by
  cases h with
  | field hf _ => exact .right _ (Schema.size_lt_of_mem_fields (Mapping.mem_entries_iff.mpr hf))
  | initial hp => exact .right _ (Schema.size_lt_of_mem_parts (Rule.mem_parts_initial hp))
  | fallback hp => exact .right _ (Schema.size_lt_of_mem_parts (Rule.mem_parts_initial hp))
  | element hp => exact .right _ (Schema.size_lt_of_mem_parts (Rule.mem_parts_tuple hp))
  | alternative hp => exact .right _ (Schema.size_lt_of_mem_parts (Rule.mem_parts_oneof hp))
  | target hu hb => exact .left _ _ (d.unfoldable_cons_lt hb hu)

theorem FillCalls.mem_nodes (hs : s.2.2 ∈ d.nodes) (h : d.FillCalls s t) : t.2.2 ∈ d.nodes := by
  cases h with
  | field hf _ => exact mem_nodes_of_mem_parts hs (Rule.mem_parts_of_get? hf)
  | initial hp => exact mem_nodes_of_mem_parts hs (Rule.mem_parts_initial hp)
  | fallback hp => exact mem_nodes_of_mem_parts hs (Rule.mem_parts_initial hp)
  | element hp => exact mem_nodes_of_mem_parts hs (Rule.mem_parts_tuple hp)
  | alternative hp => exact mem_nodes_of_mem_parts hs (Rule.mem_parts_oneof hp)
  | target _ hb => exact mem_nodes_of_body? hb

/-- Zero mode is never left. -/
theorem FillCalls.mode_eq_zero (h : d.FillCalls s t) (zero : s.1 = .zero) : t.1 = .zero := by
  cases h with
  | fallback _ => rfl
  | _ => exact zero

/-- The labels being unfolded stay, and one may join them. -/
theorem FillCalls.unfolding (h : d.FillCalls s t) :
    t.2.1 = s.2.1 ∨ ∃ label, t.2.1 = label :: s.2.1 ∧ d.body? label = some t.2.2 := by
  cases h with
  | target _ hb => exact .inr ⟨_, rfl, hb⟩
  | _ => exact .inl rfl

/-- **Induction along the calls** of making up a value. -/
theorem fillCalls_induction (d : Document α)
    {motive : FillMode × List String × Schema α → Prop}
    (step : ∀ s, (∀ t, d.FillCalls s t → motive t) → motive s)
    (s : FillMode × List String × Schema α) : motive s :=
  step s fun t _ => fillCalls_induction d step t
termination_by (d.unfoldable s.2.1, s.2.2.size)
decreasing_by exact FillCalls.lex ‹_›

/-- The greatest size of a node. -/
def maxSize (d : Document α) : Nat :=
  (d.nodes.map Schema.size).foldr max 0

theorem size_le_maxSize {n : Schema α} (hn : n ∈ d.nodes) : n.size ≤ d.maxSize :=
  List.le_max_of_le (List.mem_map_of_mem hn) (Nat.le_refl _)

/-- How deep calls can nest that start from a schema. -/
def fillDepth (d : Document α) (unfolding : List String) (n : Schema α) : Nat :=
  d.unfoldable unfolding * (d.maxSize + 1) + n.size

/-- Calls nest no deeper than each label can be unfolded once and each node taken apart. -/
theorem FillCalls.fillDepth_lt (hs : s.2.2 ∈ d.nodes) (h : d.FillCalls s t) :
    d.fillDepth t.2.1 t.2.2 < d.fillDepth s.2.1 s.2.2 :=
  linear_lt_of_lex h.lex (size_le_maxSize (h.mem_nodes hs))

end

/-! ### Steps -/

/-- The fill value of a schema, given what is made up for others. -/
def fillStep (d : Document α)
    (call : FillMode × List String × Schema α → Except (RecursionError α) (Option Value))
    (mode : FillMode) (unfolding : List String) (n : Schema α) :
    Except (RecursionError α) (Option Value) :=
  match n with
  | .node mark rule =>
    match rule with
    | .scalar type => .ok (leaf mode type.zero)
    | .any => .ok (leaf mode .null)
    | .enum members => .ok (leaf mode members.first.toValue)
    | .dictionary _ => .ok (some (.mapping ∅))
    | .object fields => do
      let values ← fields.traverse fun e _ =>
        if e.2.optional then .ok none else call (mode, unfolding, e.2.type)
      return some (.mapping values.somes)
    | .array initial _ => do
      let items ← (traverse 0 initial fun _ part _ => OptionT.mk <|
        orElse (call (mode, unfolding, part)) fun _ => call (.zero, unfolding, part)).run
      return items.map .sequence
    | .tuple elements => do
      let items ← (traverse 0 elements.toList fun _ part _ => OptionT.mk <|
        call (mode, unfolding, part)).run
      return items.map .sequence
    | .oneof alternatives =>
      firstSome alternatives.toList fun alternative _ => call (mode, unfolding, alternative)
    | .ref label =>
      if label ∈ unfolding then .error ⟨label, mark⟩
      else (d.body? label).elim (.ok (leaf mode .null)) fun body =>
        call (mode, label :: unfolding, body)

/-- **A step depends on its calls alone.** -/
theorem fillStep_congr (d : Document α)
    {call call' : FillMode × List String × Schema α → Except (RecursionError α) (Option Value)}
    {mode : FillMode} {unfolding : List String} {n : Schema α}
    (h : ∀ t, d.FillCalls (mode, unfolding, n) t → call t = call' t) :
    d.fillStep call mode unfolding n = d.fillStep call' mode unfolding n := by
  obtain ⟨mark, rule⟩ := n
  cases rule with
  | object fields =>
    simp only [fillStep]
    refine congrArg (· >>= _) (congrArg fields.traverse ?_)
    funext e he
    cases ho : e.2.optional with
    | true => rfl
    | false => exact h _ (.field (Mapping.get?_of_mem_entries he) ho)
  | array initial rest =>
    simp only [fillStep]
    refine congrArg (fun x => OptionT.run x >>= _) (traverse_congr fun i part hp _ => ?_)
    simp only [h _ (.initial hp), h _ (.fallback hp)]
  | tuple elements =>
    simp only [fillStep]
    refine congrArg (fun x => OptionT.run x >>= _) (traverse_congr fun i part hp _ => ?_)
    rw [h _ (.element hp)]
  | oneof alternatives =>
    simp only [fillStep]
    refine congrArg (firstSome alternatives.toList) ?_
    funext alternative ha
    exact h _ (.alternative ha)
  | ref label =>
    simp only [fillStep]
    split
    · rfl
    · next hu =>
      cases hb : d.body? label with
      | some body => exact h _ (.target hu hb)
      | none => rfl
  | _ => rfl

/-- **Fill values are made of steps.** -/
theorem fillStep_fillWithin (d : Document α) (mode : FillMode) (unfolding : List String)
    (n : Schema α) :
    d.fillStep (fun s => d.fillWithin s.1 s.2.1 s.2.2) mode unfolding n =
      d.fillWithin mode unfolding n := by
  obtain ⟨mark, rule⟩ := n
  cases rule with
  | ref label =>
    rw [fillWithin, fillStep]
    split
    · rfl
    · split
      · next body hb => rw [hb, Option.elim_some]
      · next hb => rw [hb, Option.elim_none]
  | _ =>
    rw [fillWithin]
    rfl

/-- Making up a value as a recursion. -/
def filling (d : Document α) : Recursion (FillMode × List String × Schema α)
    (Except (RecursionError α) (Option Value)) where
  step call s := d.fillStep call s.1 s.2.1 s.2.2
  calls := d.FillCalls
  congr h := d.fillStep_congr h

theorem solves_filling (d : Document α) :
    d.filling.Solves fun s => d.fillWithin s.1 s.2.1 s.2.2 :=
  fun s => d.fillStep_fillWithin s.1 s.2.1 s.2.2

theorem descends_filling (d : Document α) :
    d.filling.Descends (fun s => s.2.2 ∈ d.nodes) fun s => d.fillDepth s.2.1 s.2.2 :=
  ⟨fun _ _ hs ht => ht.mem_nodes hs, fun _ _ hs ht => ht.fillDepth_lt hs⟩

/-- **Making up a value ends** above the depth of its calls. -/
theorem cutAt_filling {d : Document α} {mode : FillMode} {unfolding : List String}
    {n : Schema α} (hn : n ∈ d.nodes) {depth : Nat} (h : d.fillDepth unfolding n < depth)
    (anything : FillMode × List String × Schema α → Except (RecursionError α) (Option Value)) :
    d.filling.cutAt anything depth (mode, unfolding, n) = d.fillWithin mode unfolding n :=
  d.descends_filling.cutAt_eq d.solves_filling (s := (mode, unfolding, n)) hn h anything

/-! ### Errors -/

/-- From a schema to those without whose values it has no zero value: the types of required
fields, initial items, elements, first alternatives and what labels stand for. -/
inductive Forces (d : Document α) : Schema α → Schema α → Prop where
  | field {mark : α} {fields : Mapping (Field (Schema α))} {key : String}
      {field : Field (Schema α)} : fields.get? key = some field → field.optional = false →
      Forces d (.node mark (.object fields)) field.type
  | initial {mark : α} {initial : List (Schema α)} {rest part : Schema α} : part ∈ initial →
      Forces d (.node mark (.array initial rest)) part
  | element {mark : α} {elements : OneOrMore (Schema α)} {part : Schema α} :
      part ∈ elements.toList → Forces d (.node mark (.tuple elements)) part
  | first {mark : α} {alternatives : OneOrMore (Schema α)} :
      Forces d (.node mark (.oneof alternatives)) alternatives.first
  | target {mark : α} {label : String} {body : Schema α} : d.body? label = some body →
      Forces d (.node mark (.ref label)) body

theorem Forces.mem_children {d : Document α} {n m : Schema α} (h : d.Forces n m) :
    m ∈ d.children n := by
  cases h with
  | field hf _ => exact Rule.mem_parts_of_get? hf
  | initial hp => exact Rule.mem_parts_initial hp
  | element hp => exact Rule.mem_parts_tuple hp
  | first => exact Rule.mem_parts_oneof (OneOrMore.first_mem _)
  | target hb => exact Option.mem_toList.mpr hb

/-- The schema is a union whose first alternative has no value, so that the others are tried. -/
inductive Passes (d : Document α) (mode : FillMode) (unfolding : List String) :
    Schema α → Prop where
  | first {mark : α} {alternatives : OneOrMore (Schema α)} :
      d.fillWithin mode unfolding alternatives.first = .ok none →
      Passes d mode unfolding (.node mark (.oneof alternatives))

variable {d : Document α} {mode : FillMode} {unfolding : List String} {n : Schema α}
  {e : RecursionError α}

/-- **Where an error comes from**: a label is met that is being unfolded, or there is an error in
a call for a schema that is forced, unless alternatives were passed over. -/
theorem origin_of_error (h : d.fillWithin mode unfolding n = .error e) :
    n = .node e.mark (.ref e.label) ∧ e.label ∈ unfolding ∨
      ∃ t, d.FillCalls (mode, unfolding, n) t ∧ d.fillWithin t.1 t.2.1 t.2.2 = .error e ∧
        (d.Forces n t.2.2 ∨ d.Passes mode unfolding n) := by
  obtain ⟨mark, rule⟩ := n
  cases rule with
  | scalar type => rw [fillWithin] at h; cases h
  | any => rw [fillWithin] at h; cases h
  | enum members => rw [fillWithin] at h; cases h
  | dictionary type => rw [fillWithin] at h; cases h
  | object fields =>
    rw [fillWithin] at h
    obtain ⟨key, field, hf, h⟩ := Mapping.exists_of_traverse_eq_error
      (f := fun e : String × Field (Schema α) =>
        if e.2.optional then .ok none else d.fillWithin mode unfolding e.2.type)
      (eq_error_of_bind_ok h)
    split at h
    · cases h
    · next ho =>
      have required : field.optional = false := by simpa using ho
      exact .inr ⟨_, .field hf required, h, .inl (.field hf required)⟩
  | array initial rest =>
    rw [fillWithin] at h
    obtain ⟨i, part, hi, h⟩ := exists_of_traverse_run_eq_error
      (f := fun _ part => orElse (d.fillWithin mode unfolding part) fun _ =>
        d.fillWithin .zero unfolding part) (eq_error_of_bind_ok h)
    have hp := List.mem_of_getElem? hi
    rcases orElse_eq_error h with h | ⟨-, h⟩
    · exact .inr ⟨_, .initial hp, h, .inl (.initial hp)⟩
    · exact .inr ⟨_, .fallback hp, h, .inl (.initial hp)⟩
  | tuple elements =>
    rw [fillWithin] at h
    obtain ⟨i, part, hi, h⟩ := exists_of_traverse_run_eq_error
      (f := fun _ part => d.fillWithin mode unfolding part) (eq_error_of_bind_ok h)
    have hp := List.mem_of_getElem? hi
    exact .inr ⟨_, .element hp, h, .inl (.element hp)⟩
  | oneof alternatives =>
    rw [fillWithin] at h
    obtain ⟨before, alternative, after, split, absent, h⟩ := exists_of_firstSome_eq_error h
    have ha : alternative ∈ alternatives.toList := by simp [split]
    refine .inr ⟨_, .alternative ha, h, ?_⟩
    cases before with
    | nil =>
      obtain ⟨rfl, -⟩ := List.cons.inj split
      exact .inl .first
    | cons first before =>
      obtain ⟨rfl, -⟩ := List.cons.inj split
      exact .inr (.first (absent _ List.mem_cons_self))
  | ref label =>
    by_cases hu : label ∈ unfolding
    · rw [fillWithin, if_pos hu] at h
      cases h
      exact .inl ⟨rfl, hu⟩
    · cases hb : d.body? label with
      | some body =>
        rw [fillWithin_ref hb hu] at h
        exact .inr ⟨_, .target hu hb, h, .inl (.target hb)⟩
      | none =>
        rw [fillWithin_ref_of_none hb hu] at h
        cases h

/-! ### Fewer labels being unfolded -/

private theorem option_rel_eq_iff {β : Type} {x y : Option β} : Option.Rel Eq x y ↔ x = y := by
  constructor
  · rintro (rfl | _) <;> rfl
  · rintro rfl
    cases x with
    | none => exact .none
    | some b => exact .some rfl

private theorem follows_of_subset (unfolding : List String) (n : Schema α) :
    ∀ mode fewer, fewer ⊆ unfolding →
      Follows (Option.Rel Eq) (d.fillWithin mode unfolding n) (d.fillWithin mode fewer n) := by
  refine d.unfolding_induction (motive := fun unfolding n => ∀ mode fewer, fewer ⊆ unfolding →
    Follows (Option.Rel Eq) (d.fillWithin mode unfolding n) (d.fillWithin mode fewer n)) ?_
    unfolding n
  intro unfolding mark rule parts target mode fewer sub
  have items : ∀ {xs ys : Option (List Value)}, Option.Rel (Pointwise fun _ => Eq) xs ys →
      Option.Rel Eq (xs.map Value.sequence) (ys.map Value.sequence) := by
    rintro _ _ (h | _)
    · exact .some (congrArg Value.sequence h.eq)
    · exact .none
  cases rule with
  | scalar | any | enum | dictionary =>
    rw [fillWithin, fillWithin]
    exact .ok (option_rel_eq_iff.mpr rfl)
  | object fields =>
    rw [fillWithin, fillWithin]
    have same : Follows Eq
        (fields.traverse fun e _ =>
          if e.2.optional then .ok none else d.fillWithin mode unfolding e.2.type)
        (fields.traverse fun e _ =>
          if e.2.optional then .ok none else d.fillWithin mode fewer e.2.type) := by
      intro values hvalues
      have each := Mapping.traverse_eq_ok_iff (f := fun e : String × Field (Schema α) =>
        if e.2.optional then .ok none else d.fillWithin mode unfolding e.2.type) |>.mp hvalues
      refine ⟨values, Mapping.traverse_eq_ok_iff (f := fun e : String × Field (Schema α) =>
        if e.2.optional then .ok none else d.fillWithin mode fewer e.2.type) |>.mpr
          ⟨each.keys, fun key field z? hf hz => ?_⟩, rfl⟩
      have made := each.related key field z? hf hz
      have hp := Rule.mem_parts_of_get? hf
      split at made
      · next ho => rw [if_pos ho, ← made]
      · next ho =>
        obtain ⟨w?, hw, related⟩ := parts field.type hp mode fewer sub z? made
        rw [if_neg ho, hw, option_rel_eq_iff.mp related]
    refine same.bind fun values _ h => .ok (option_rel_eq_iff.mpr ?_)
    rw [h]
  | array initial rest =>
    rw [fillWithin, fillWithin]
    refine (follows_traverse_run (pointwise_self fun i part hp => ?_)).bind fun _ _ h =>
      .ok (items h)
    have made := fun mode => parts part (Rule.mem_parts_initial (List.mem_of_getElem? hp)) mode
      fewer sub
    exact (made mode).orElse (made .zero)
  | tuple elements =>
    rw [fillWithin, fillWithin]
    refine (follows_traverse_run (pointwise_self fun i part hp => ?_)).bind fun _ _ h =>
      .ok (items h)
    exact parts part (Rule.mem_parts_tuple (List.mem_of_getElem? hp)) mode fewer sub
  | oneof alternatives =>
    rw [fillWithin, fillWithin]
    refine follows_firstSome (pointwise_self fun i part hp => ?_)
    exact parts part (Rule.mem_parts_oneof (List.mem_of_getElem? hp)) mode fewer sub
  | ref label =>
    by_cases hu : label ∈ unfolding
    · rw [fillWithin, if_pos hu]
      exact .error
    · have hf : label ∉ fewer := fun h => hu (sub h)
      cases hb : d.body? label with
      | none =>
        rw [fillWithin_ref_of_none hb hu, fillWithin_ref_of_none hb hf]
        exact .ok (option_rel_eq_iff.mpr rfl)
      | some body =>
        rw [fillWithin_ref hb hu, fillWithin_ref hb hf]
        exact target label body rfl hu hb mode _ (List.cons_subset_cons label sub)

/-- **With fewer labels being unfolded a value stays the same.** -/
theorem fillWithin_of_subset {fewer : List String} (sub : fewer ⊆ unfolding) {r? : Option Value}
    (h : d.fillWithin mode unfolding n = .ok r?) : d.fillWithin mode fewer n = .ok r? := by
  obtain ⟨s?, hs, same⟩ := follows_of_subset unfolding n mode fewer sub r? h
  rw [hs, option_rel_eq_iff.mp same]

end Document

end TreeSchema
