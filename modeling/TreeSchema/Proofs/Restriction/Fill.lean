import TreeSchema.Proofs.Validation.Conformance
import TreeSchema.Restriction.Fill

/-!
# Fill values conform

What is made up for a schema conforms to it: strictly in zero mode, where
everything has a value, and but for absent fields in empty mode, where only
collections have one. The one value that cannot be put where it belongs is NaN,
which is not equal to itself, so no enumeration may have it for a member.

* `Document.NaNFree` — no enumeration of the document has NaN for a member.
* `Document.fillWithin_zero_ne` — in zero mode every schema has a fill value.
* `Document.conforms_of_fillWithin` — fill values conform.
-/

namespace TreeSchema

/-- What the fill values of a mode are forgiven. -/
def FillMode.leniency : FillMode → Leniency
  | .zero => .strict
  | .empty => .partly

theorem orElse_eq_ok {ε β : Type} {first : Except ε (Option β)}
    {second : Unit → Except ε (Option β)} {r? : Option β} (h : orElse first second = .ok r?) :
    first = .ok r? ∨ first = .ok none ∧ second () = .ok r? := by
  unfold orElse at h
  split at h
  · exact .inr ⟨rfl, h⟩
  · exact .inl h

theorem orElse_eq_ok_none {ε β : Type} {first : Except ε (Option β)}
    {second : Unit → Except ε (Option β)} (h : orElse first second = .ok none) :
    second () = .ok none := by
  rcases orElse_eq_ok h with rfl | ⟨-, h⟩
  · exact h
  · exact h

theorem orElse_eq_error {ε β : Type} {first : Except ε (Option β)}
    {second : Unit → Except ε (Option β)} {e : ε} (h : orElse first second = .error e) :
    first = .error e ∨ first = .ok none ∧ second () = .error e := by
  unfold orElse at h
  split at h
  · exact .inr ⟨rfl, h⟩
  · exact .inl h

/-- The rule is no enumeration with NaN for a member. -/
def Rule.isNaNFree {β : Type} : Rule β → Bool
  | .enum members => !members.toList.contains (.number .nan)
  | _ => true

/-- A literal is equal to itself unless it is NaN. -/
theorem Literal.toValue_beq_self {member : Literal} (h : member ≠ .number .nan) :
    (member.toValue == member.toValue) = true := by
  cases member with
  | number n =>
    cases n with
    | nan => exact absurd rfl h
    | infinity s => simp [toValue, Value.equal, BEq.beq, Binary64.equal]
    | finite s m p hc => simp [toValue, Value.equal, BEq.beq, Binary64.equal]
  | _ => simp [toValue, Value.beq_eq_equal, Value.equal]

namespace Document

variable {α : Type} {d : Document α}

/-- No enumeration of the document has NaN for a member. -/
def NaNFree (d : Document α) : Prop :=
  ∀ n ∈ d.nodes, n.rule.isNaNFree = true

/-- Members are of an enumeration to which they are restricted. -/
theorem NaNFree.conforms_member (nan_free : d.NaNFree) {mark : α} {members : OneOrMore Literal}
    (hn : .node mark (.enum members) ∈ d.nodes) {member : Literal} (hm : member ∈ members.toList)
    (l : Leniency) : d.Conforms l (.node mark (.enum members)) member.toValue := by
  refine .enum hm (Literal.toValue_beq_self ?_)
  rintro rfl
  have := nan_free _ hn
  simp [Schema.rule, Rule.isNaNFree, hm] at this

/-- **Induction on what is unfolded.** What holds of a schema if it holds of its parts,
and of the body of a label that is not being unfolded, holds of all. -/
theorem unfolding_induction (d : Document α) {motive : List String → Schema α → Prop}
    (step : ∀ unfolding mark rule, (∀ part ∈ rule.parts, motive unfolding part) →
      (∀ label body, rule = .ref label → label ∉ unfolding → d.body? label = some body →
        motive (label :: unfolding) body) → motive unfolding (.node mark rule))
    (unfolding : List String) (n : Schema α) : motive unfolding n :=
  match n with
  | .node mark rule =>
    step unfolding mark rule (fun part _ => unfolding_induction d step unfolding part)
      fun label body _ _ _ => unfolding_induction d step (label :: unfolding) body
termination_by (d.unfoldable unfolding, n.size)
decreasing_by
  · exact .right _ (Schema.size_lt_of_mem_parts ‹_›)
  · exact .left _ _ (d.unfoldable_cons_lt ‹_› ‹_›)

theorem fillWithin_ref {mode : FillMode} {unfolding : List String} {mark : α} {label : String}
    {body : Schema α} (hb : d.body? label = some body) (hu : label ∉ unfolding) :
    d.fillWithin mode unfolding (.node mark (.ref label)) =
      d.fillWithin mode (label :: unfolding) body := by
  rw [fillWithin, if_neg hu]
  split
  · next body' hb' => rw [Option.some.inj (hb.symm.trans hb')]
  · next hb' => simp [hb] at hb'

theorem fillWithin_ref_of_none {mode : FillMode} {unfolding : List String} {mark : α}
    {label : String} (hb : d.body? label = none) (hu : label ∉ unfolding) :
    d.fillWithin mode unfolding (.node mark (.ref label)) = .ok (leaf mode .null) := by
  rw [fillWithin, if_neg hu]
  split
  · next body hb' => simp [hb] at hb'
  · rfl

/-! ### In zero mode there is a value -/

/-- **In zero mode every schema has a fill value, unless a label is met again.** -/
theorem fillWithin_zero_ne (d : Document α) (unfolding : List String) (n : Schema α) :
    d.fillWithin .zero unfolding n ≠ .ok none := by
  refine d.unfolding_induction
    (motive := fun unfolding n => d.fillWithin .zero unfolding n ≠ .ok none) ?_ unfolding n
  intro unfolding mark rule parts target h
  cases rule with
  | scalar type => rw [fillWithin] at h; cases h
  | any => rw [fillWithin] at h; cases h
  | enum members => rw [fillWithin] at h; cases h
  | dictionary type => rw [fillWithin] at h; cases h
  | object fields =>
    rw [fillWithin] at h
    obtain ⟨values, -, h⟩ := bind_eq_ok h
    cases h
  | array initial rest =>
    rw [fillWithin] at h
    obtain ⟨items?, hitems, h⟩ := bind_eq_ok h
    cases items? with
    | some items => cases h
    | none =>
      obtain ⟨-, part, hp, hpart⟩ := exists_of_traverse_run_eq_none
        (f := fun _ part => orElse (d.fillWithin .zero unfolding part) fun _ =>
          d.fillWithin .zero unfolding part) hitems
      rcases orElse_eq_ok hpart with hpart | ⟨hpart, -⟩
      · exact parts part (Rule.mem_parts_initial hp) hpart
      · exact parts part (Rule.mem_parts_initial hp) hpart
  | tuple elements =>
    rw [fillWithin] at h
    obtain ⟨items?, hitems, h⟩ := bind_eq_ok h
    cases items? with
    | some items => cases h
    | none =>
      obtain ⟨-, part, hp, hpart⟩ := exists_of_traverse_run_eq_none
        (f := fun _ part => d.fillWithin .zero unfolding part) hitems
      exact parts part (Rule.mem_parts_tuple hp) hpart
  | oneof alternatives =>
    rw [fillWithin] at h
    have first := alternatives.first_mem
    exact parts _ (Rule.mem_parts_oneof first) (eq_none_of_firstSome h _ first)
  | ref label =>
    by_cases hu : label ∈ unfolding
    · rw [fillWithin, if_pos hu] at h
      cases h
    · cases hb : d.body? label with
      | some body =>
        rw [fillWithin_ref hb hu] at h
        exact target label body rfl hu hb h
      | none =>
        rw [fillWithin, if_neg hu] at h
        split at h
        · next body hb' => simp [hb] at hb'
        · cases h

/-! ### Fill values conform -/

/-- **Fill values conform**, strictly in zero mode. -/
theorem conforms_of_fillWithin (complete : d.Complete) (nan_free : d.NaNFree)
    (unfolding : List String) (n : Schema α) : n ∈ d.nodes → ∀ mode z,
      d.fillWithin mode unfolding n = .ok (some z) → d.Conforms mode.leniency n z := by
  refine d.unfolding_induction (motive := fun unfolding n => n ∈ d.nodes → ∀ mode z,
    d.fillWithin mode unfolding n = .ok (some z) → d.Conforms mode.leniency n z) ?_ unfolding n
  intro unfolding mark rule parts target hn mode z h
  have part : ∀ {q : Schema α}, q ∈ rule.parts → ∀ {mode z},
      d.fillWithin mode unfolding q = .ok (some z) → d.Conforms mode.leniency q z := by
    intro q hq mode z hz
    exact parts q hq (mem_nodes_of_mem_parts hn hq) mode z hz
  have leaf_eq : ∀ {v : Value}, leaf mode v = some z → z = v := by
    intro v hv
    cases mode with
    | zero => exact (Option.some.inj hv).symm
    | empty => cases hv
  cases rule with
  | scalar type =>
    rw [fillWithin] at h
    rw [leaf_eq (Except.ok.inj h)]
    exact .scalar type.accepts_zero
  | any => exact .any
  | enum members =>
    rw [fillWithin] at h
    rw [leaf_eq (Except.ok.inj h)]
    exact nan_free.conforms_member hn members.first_mem _
  | dictionary type =>
    rw [fillWithin] at h
    cases h
    refine .dictionary ?_
    intro key x hx
    cases hx
  | object fields =>
    rw [fillWithin] at h
    obtain ⟨values, hvalues, h⟩ := bind_eq_ok h
    cases h
    have hr := Mapping.traverse_eq_ok_iff (f := fun e : String × Field (Schema α) =>
      if e.2.optional then .ok none else d.fillWithin mode unfolding e.2.type) |>.mp hvalues
    refine .object ?_ ?_ ?_
    · intro key field x hf hx
      rw [Mapping.get?_somes, Option.join_eq_some_iff] at hx
      have hfield := hr.related key field _ hf hx
      split at hfield
      · cases hfield
      · exact part (Rule.mem_parts_of_get? hf) hfield
    · intro hl key field hf ho
      obtain ⟨y?, hy, hfield⟩ := hr.exists_right hf
      rw [if_neg (by simp [ho])] at hfield
      cases y? with
      | some y => exact Mapping.mem_keys_somes_iff.mpr ⟨y, hy⟩
      | none =>
        cases mode with
        | zero => exact absurd hfield (d.fillWithin_zero_ne unfolding field.type)
        | empty => cases hl
    · intro _ key hk
      obtain ⟨y, hy⟩ := Mapping.mem_keys_somes_iff.mp hk
      obtain ⟨field, hf, -⟩ := hr.exists_left hy
      exact Mapping.mem_keys_of_get? hf
  | array initial rest =>
    rw [fillWithin] at h
    obtain ⟨items?, hitems, h⟩ := bind_eq_ok h
    obtain ⟨items, rfl, rfl⟩ := Option.map_eq_some_iff.mp (Except.ok.inj h)
    have hr := traverse_run_eq_some_iff (f := fun _ part =>
      orElse (d.fillWithin mode unfolding part) fun _ =>
        d.fillWithin .zero unfolding part) |>.mp hitems
    refine .array (Nat.le_of_eq hr.length.symm) ?_ ?_
    · intro i q x hq hx
      have hm : q ∈ (Rule.array initial rest).parts :=
        Rule.mem_parts_initial (List.mem_of_getElem? hq)
      rcases orElse_eq_ok (hr.related i q x hq hx) with hz | ⟨-, hz⟩
      · exact part hm hz
      · exact Conforms.of_strict (part hm hz)
    · intro x hx
      rw [List.drop_of_length_le (Nat.le_of_eq hr.length)] at hx
      cases hx
  | tuple elements =>
    rw [fillWithin] at h
    obtain ⟨items?, hitems, h⟩ := bind_eq_ok h
    obtain ⟨items, rfl, rfl⟩ := Option.map_eq_some_iff.mp (Except.ok.inj h)
    have hr := traverse_run_eq_some_iff (f := fun _ part =>
      d.fillWithin mode unfolding part) |>.mp hitems
    refine .tuple hr.length ?_
    intro i q x hq hx
    exact part (Rule.mem_parts_tuple (List.mem_of_getElem? hq)) (hr.related i q x hq hx)
  | oneof alternatives =>
    rw [fillWithin] at h
    obtain ⟨a, ha, hz⟩ := exists_of_firstSome h
    exact .oneof ha (part (Rule.mem_parts_oneof ha) hz)
  | ref label =>
    obtain ⟨body, hb⟩ := complete mark label hn
    by_cases hu : label ∈ unfolding
    · rw [fillWithin, if_pos hu] at h
      cases h
    · rw [fillWithin_ref hb hu] at h
      exact .ref hb (target label body rfl hu hb (mem_nodes_of_body? hb) mode z h)

end Document

end TreeSchema
