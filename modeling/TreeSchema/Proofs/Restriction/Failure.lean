import TreeSchema.Proofs.Restriction.Cycles
import TreeSchema.Proofs.Restriction.Pruning

/-!
# Restriction fails for want of fill values

Restriction fails only where a value is filled and the fill value cannot be made up. The label
of the error was met again while it was being unfolded. In zero mode that label has no zero
value. In empty mode it may have one: a union whose first alternative has no empty value goes on
to others, of which an array makes up its initial items in zero mode, and these may lead back to
the label though its zero value does without them.

* `Document.failsBelow_of_restrict` — an error of restriction is that of a fill value there, or of
  a call.
* `Document.exists_fillFailsAt_of_restrict` — it is that of a fill value.
* `Document.exists_zero_eq_error_of_restrict` — its label has no zero value, unless alternatives
  are passed over.
* `Document.restrict_eq_error_though_zero` — alternatives that are passed over.
-/

namespace TreeSchema

/-- A mode of filling is asked for by an option. -/
theorem RestrictOptions.fills_of_fillMode? {o : RestrictOptions} {mode : FillMode}
    (h : o.fillMode? = some mode) :
    (o.fillEmpty = true ∨ o.fillZero = true) ∧ (o.fillZero = true → mode = .zero) := by
  unfold fillMode? at h
  split at h
  · next zero => exact ⟨.inr zero, fun _ => (Option.some.inj h).symm⟩
  · next not_zero =>
    split at h
    · next empty => exact ⟨.inl empty, fun zero => absurd zero not_zero⟩
    · cases h

namespace Document

variable {α : Type} {d : Document α} {o : RestrictOptions} {n : Schema α} {v : Value}
  {e : RecursionError α}

/-- A fill value that is asked for under the options fails with the error. -/
def FillFails (d : Document α) (o : RestrictOptions) (e : RecursionError α) : Prop :=
  ∃ asked mode n, o.fillMode? = some asked ∧ (mode = asked ∨ mode = .zero) ∧
    d.fill mode n = .error e

/-- The fill value of the schema that is asked for under the options fails with the error. -/
def FillFailsAt (d : Document α) (o : RestrictOptions) (n : Schema α) (e : RecursionError α) :
    Prop :=
  ∃ asked mode, o.fillMode? = some asked ∧ (mode = asked ∨ mode = .zero) ∧
    d.fill mode n = .error e

theorem fillFailsAt_of_fillFor (h : d.fillFor o n = .error e) : d.FillFailsAt o n e := by
  unfold fillFor at h
  cases hm : o.fillMode? with
  | none =>
    rw [hm] at h
    cases h
  | some mode =>
    rw [hm] at h
    exact ⟨mode, mode, hm, .inl rfl, h⟩

theorem fillFailsAt_of_fillInitial (h : d.fillInitial o n = .error e) : d.FillFailsAt o n e := by
  unfold fillInitial at h
  cases hm : o.fillMode? with
  | none =>
    rw [hm] at h
    cases h
  | some mode =>
    rw [hm] at h
    rcases orElse_eq_error h with h | ⟨-, h⟩
    · exact ⟨mode, mode, hm, .inl rfl, h⟩
    · exact ⟨mode, .zero, hm, .inr rfl, h⟩

theorem fillFailsAt_of_orFill {r? : Option Value} (h : d.orFill o n r? = .error e) :
    d.FillFailsAt o n e := by
  cases r? with
  | none => exact fillFailsAt_of_fillFor h
  | some r => cases h

theorem fillFailsAt_of_chooseCandidate {candidates : List Candidate}
    (h : d.chooseCandidate o n candidates = .error e) : d.FillFailsAt o n e := by
  unfold chooseCandidate at h
  split at h
  · cases h
  · split at h
    · exact fillFailsAt_of_fillFor h
    · cases h

/-- Work on a schema and a value fails: a fill value of the schema or of a child does, or
restriction where work calls for it. -/
inductive FailsBelow (d : Document α) (o : RestrictOptions) (n : Schema α) (v : Value)
    (e : RecursionError α) : Prop where
  | self : d.FillFailsAt o n e → FailsBelow d o n v e
  | child {m : Schema α} : m ∈ d.children n → d.FillFailsAt o m e → FailsBelow d o n v e
  | call {m : Schema α} {w : Value} : d.Calls n v m w → d.restrict o m w = .error e →
      FailsBelow d o n v e

/-- Items are filled where restriction makes nothing of them. -/
theorem failsBelow_of_items {parts : List (Schema α)} {items : List Value}
    {fill : Schema α → Except (RecursionError α) (Option Value)}
    (fills : ∀ m, fill m = .error e → d.FillFailsAt o m e)
    (children : ∀ part ∈ parts, part ∈ d.children n)
    (calls : ∀ (i : Nat) part x, parts[i]? = some part → items[i]? = some x → d.Calls n v part x)
    (h : d.restrictItems o fill parts items = .error e) : d.FailsBelow o n v e := by
  obtain ⟨i, part, hp, h⟩ := exists_of_traverse_run_eq_error
    (f := fun i part => d.restrictItem o fill part items[i]?) h
  rw [Nat.zero_add] at h
  have child := children part (List.mem_of_getElem? hp)
  cases hx : items[i]? with
  | none =>
    rw [hx] at h
    exact .child child (fills part h)
  | some x =>
    rw [hx, restrictItem] at h
    rcases orElse_eq_error h with h | ⟨-, h⟩
    · exact .call (calls i part x hp hx) h
    · exact .child child (fills part h)

/-- **Where an error of restriction comes from**: a fill value of the schema or of one of its
children, or a call. -/
theorem failsBelow_of_restrict (h : d.restrict o n v = .error e) : d.FailsBelow o n v e := by
  obtain ⟨mark, rule⟩ := n
  cases rule with
  | any =>
    rw [restrict_any] at h
    cases h
  | scalar type =>
    rw [restrict_scalar] at h
    split at h
    · cases h
    · exact .self (fillFailsAt_of_orFill h)
  | enum members =>
    rw [restrict_enum] at h
    split at h
    · cases h
    · exact .self (fillFailsAt_of_orFill h)
  | object fields =>
    rcases v.mapping_or_ne with ⟨values, rfl⟩ | other
    · rw [restrict_object] at h
      obtain ⟨key, field, hf, h⟩ := Mapping.exists_of_traverse_eq_error
        (f := fun e : String × Field (Schema α) => d.restrictField o e.2 (values.get? e.1))
        (eq_error_of_bind_ok h)
      cases hx : values.get? key with
      | some x =>
        rw [hx, restrictField] at h
        exact .call (.field hf hx) h
      | none =>
        rw [hx, restrictField] at h
        split at h
        · cases h
        · exact .child (Rule.mem_parts_of_get? hf) (fillFailsAt_of_fillFor h)
    · rw [restrict_object_of_ne other] at h
      exact .self (fillFailsAt_of_fillFor h)
  | array initial rest =>
    rcases v.sequence_or_ne with ⟨items, rfl⟩ | other
    · rw [restrict_array] at h
      rcases bind_eq_error h with h | ⟨first?, -, h⟩
      · refine failsBelow_of_items (fun _ => fillFailsAt_of_fillInitial)
          (fun _ => Rule.mem_parts_initial) (fun i part x hp hx => ?_) h
        exact Rule.itemAt_of_getElem? hp ▸ .item hx
      · cases first? with
        | none => exact .self (fillFailsAt_of_fillFor h)
        | some first =>
          obtain ⟨i, x, hx, h⟩ := exists_of_traverse_eq_error
            (f := fun _ x => d.restrict o rest x) (eq_error_of_bind_ok h)
          rw [List.getElem?_drop] at hx
          exact .call (.item hx) (by rwa [Rule.itemAt_length_add])
    · rw [restrict_array_of_ne other] at h
      exact .self (fillFailsAt_of_fillFor h)
  | tuple elements =>
    rcases v.sequence_or_ne with ⟨items, rfl⟩ | other
    · rw [restrict_tuple] at h
      split at h
      · cases h
      · rcases bind_eq_error h with h | ⟨results, -, h⟩
        · exact failsBelow_of_items (fun _ => fillFailsAt_of_fillFor)
            (fun _ => Rule.mem_parts_tuple) (fun i part x hp hx => .element hp hx) h
        · exact .self (fillFailsAt_of_orFill h)
    · rw [restrict_tuple_of_ne other] at h
      exact .self (fillFailsAt_of_fillFor h)
  | dictionary type =>
    rcases v.mapping_or_ne with ⟨values, rfl⟩ | other
    · rw [restrict] at h
      obtain ⟨key, x, hx, h⟩ := Mapping.exists_of_traverse_eq_error
        (f := fun e : String × Value => d.restrict o type e.2) (eq_error_of_bind_ok h)
      exact .call (.entry hx) h
    · rw [restrict_dictionary_of_ne other] at h
      exact .self (fillFailsAt_of_fillFor h)
  | oneof alternatives =>
    cases hfind : alternatives.toList.find? fun alternative => d.conforms alternative v with
    | some alternative =>
      rw [restrict_oneof_of_find? hfind] at h
      exact .call (.unfold (.alternative (List.mem_of_find?_eq_some hfind))) h
    | none =>
      have none_fits : ∀ alternative ∈ alternatives.toList, d.conforms alternative v = false := by
        simpa using hfind
      -- Attempts are made without filling, so none of them fails.
      rw [restrict_oneof_of_forall none_fits] at h
      exact .self (fillFailsAt_of_chooseCandidate h)
  | ref label =>
    cases hb : d.body? label with
    | some body =>
      rw [restrict_ref hb] at h
      exact .call (.unfold (.target hb)) h
    | none =>
      rw [restrict_ref_of_none hb] at h
      cases h

/-- **An error of restriction is that of a fill value** of something that the schema has to do
with. -/
theorem exists_fillFailsAt_of_restrict (h : d.restrict o n v = .error e) :
    ∃ m, d.Involves n m ∧ d.FillFailsAt o m e := by
  refine d.calls_induction (motive := fun n v => d.restrict o n v = .error e →
    ∃ m, d.Involves n m ∧ d.FillFailsAt o m e) ?_ n v h
  intro n v ih h
  cases failsBelow_of_restrict h with
  | self fails => exact ⟨n, .refl, fails⟩
  | child child fails => exact ⟨_, .single child, fails⟩
  | call call h =>
    obtain ⟨m, involved, fails⟩ := ih _ _ call h
    exact ⟨m, .head call.mem_children involved, fails⟩

theorem fillFails_of_restrict (h : d.restrict o n v = .error e) : d.FillFails o e := by
  obtain ⟨m, -, asked, mode, hm, hmode, fails⟩ := exists_fillFailsAt_of_restrict h
  exact ⟨asked, mode, m, hm, hmode, fails⟩

/-- **Where restriction fails, filling is asked for**, and the label of the error has no zero
value, unless its body reaches a union whose first alternative has no empty value and zero
values are not asked for. -/
theorem exists_zero_eq_error_of_restrict (h : d.restrict o n v = .error e) :
    (o.fillEmpty = true ∨ o.fillZero = true) ∧
      ∃ body, d.body? e.label = some body ∧
        (o.fillZero = true ∨ ¬ d.Skips body → ∃ e', d.zero body = .error e') := by
  obtain ⟨asked, mode, m, hm, hmode, h⟩ := fillFails_of_restrict h
  obtain ⟨fills, zero⟩ := RestrictOptions.fills_of_fillMode? hm
  rcases unfolding_of_error h with met | ⟨body, mode', unfolding', hb, inner, zero'⟩
  · cases met
  refine ⟨fills, body, hb, fun finite => exists_zero_eq_error_of_body hb inner ?_⟩
  refine finite.imp_left fun asks => zero' ?_
  rcases hmode with rfl | rfl
  · exact zero asks
  · rfl

/-- Nothing can be put in the place of a link that is missing. -/
theorem exists_zero_eq_error_of_restrict_chain :
    chain.locate.restrict ⟨false, true, false⟩ nextLink .null =
        .error ⟨"link", nextLink.mark⟩ ∧
      ∃ body, chain.locate.body? "link" = some body ∧ ∃ e, chain.locate.zero body = .error e := by
  have fails : chain.locate.restrict ⟨false, true, false⟩ nextLink .null =
      .error ⟨"link", nextLink.mark⟩ := by cbv
  obtain ⟨-, body, hb, zero⟩ := exists_zero_eq_error_of_restrict fails
  exact ⟨fails, body, hb, zero (.inl rfl)⟩

/-! ### Alternatives that are passed over -/

/-- The source of texts and lists of texts that start with a text and another. -/
def nestingSource : Value :=
  .mapping <| .ofList
    [(labelsKey, .mapping <| .ofList
      [("L", .sequence [.string "oneof", .string "string", .sequence [.string "array",
        .sequence [.string "tuple", .string "string", .sequence [.string "ref", .string "L"]],
        .string "any"]])]),
      (schemaKey, .mapping <| .ofList [("x", .sequence [.string "ref", .string "L"])])]

/-- What `L` stands for. -/
def nestingBody : Schema Unit :=
  .node () <| .oneof ⟨.node () (.scalar .string), [.node () <| .array
    [.node () (.tuple ⟨.node () (.scalar .string), [.node () (.ref "L")]⟩)] (.node () .any)]⟩

/-- An object with a text, or a list that starts with a text and another of its kind. -/
def nesting : Document Unit where
  labels := .ofList [("L", nestingBody)]
  root := .node () <| .object <| .ofList [("x", ⟨false, .node () (.ref "L")⟩)]
  guarded := of_decide_eq_true (by cbv)

theorem compile_nestingSource : compile nestingSource = .ok nesting.locate :=
  compile_eq_ok_iff.mpr
    ⟨nesting, ofSource_eq_ok_iff.mpr ⟨by cbv, _, rfl, by cbv, by cbv, _, rfl, by cbv⟩, rfl⟩

/-- **Restriction fails though the label has a zero value.** What `L` stands for has the zero
value of its first alternative, a text. In empty mode the second alternative is tried as well,
and the pair at its start is made up in zero mode while `L` is being unfolded. -/
theorem restrict_eq_error_though_zero :
    compile nestingSource = .ok nesting.locate ∧ nesting.locate.root ∈ nesting.locate.nodes ∧
      ∃ e body, nesting.locate.restrict ⟨true, false, false⟩ nesting.locate.root (.mapping ∅) =
          .error e ∧
        nesting.locate.body? e.label = some body ∧
        nesting.locate.zero body = .ok (.string "") ∧
        nesting.locate.fill .empty body =
          .ok (some (.sequence [.sequence [.string "", .string ""]])) := by
  refine ⟨compile_nestingSource, root_mem_nodes _,
    ⟨"L", ⟨3, [.key labelsKey, .key "L", .index 2, .index 1, .index 2]⟩⟩, _, by cbv, rfl,
    by cbv, by cbv⟩

end Document

end TreeSchema
