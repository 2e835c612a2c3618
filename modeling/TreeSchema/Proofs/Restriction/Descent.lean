import TreeSchema.Proofs.Document.Descent
import TreeSchema.Proofs.Restriction.Equations

/-!
# Restriction, call by call

What restriction makes of a value, in terms of what it makes of values where it calls itself.
The options of a call may be others than those given: a union tries its alternatives without
filling.

* `Document.restrictStep_restrict` — restriction is made of its steps.
* `Document.restrictStep_congr` — a step depends on its calls alone.
* `Document.cutAt_restriction` — restriction ends.
-/

namespace TreeSchema

/-- Steps that agree at each position make the same traversal. -/
theorem traverse_congr {β γ : Type} {m : Type → Type} [Monad m] {start : Nat} {xs : List β}
    {f g : (i : Nat) → (x : β) → x ∈ xs → m γ}
    (h : ∀ i x (hx : x ∈ xs), xs[i]? = some x → f (start + i) x hx = g (start + i) x hx) :
    traverse start xs f = traverse start xs g := by
  induction xs generalizing start with
  | nil => rfl
  | cons x xs ih =>
    have first : f start x List.mem_cons_self = g start x List.mem_cons_self := h 0 x _ rfl
    rw [traverse, traverse, first]
    congr 1
    funext y
    rw [ih fun i a ha hi => ?_]
    have := h (i + 1) a (List.mem_cons_of_mem _ ha) hi
    rwa [← Nat.add_assoc, Nat.add_right_comm] at this

/-- Steps that agree on each element have the same results. -/
theorem resultsUntil_congr {β γ : Type} {m : Type → Type} [Monad m] {test : γ → Bool} {xs : List β}
    {f g : (x : β) → x ∈ xs → m (Option γ)} (h : ∀ x hx, f x hx = g x hx) :
    resultsUntil test xs f = resultsUntil test xs g := by
  rw [show f = g from funext fun x => funext (h x)]

namespace Document

variable {α : Type}

/-- What restriction makes of a value, given what it makes of others. -/
def restrictStep (d : Document α)
    (call : RestrictOptions → Schema α → Value → Except (RecursionError α) (Option Value))
    (o : RestrictOptions) (n : Schema α) (v : Value) : Except (RecursionError α) (Option Value) :=
  match n with
  | .node mark rule =>
    match rule with
    | .any => .ok (some v)
    | .scalar type =>
      if type.accepts v then .ok (some v)
      else d.orFill o (.node mark rule) (type.coerceIf o.coerce v)
    | .enum members =>
      if members.hasValue v then .ok (some v)
      else
        let member? := if o.coerce then members.coerceTo? v else none
        d.orFill o (.node mark rule) (member?.map Literal.toValue)
    | .object fields =>
      match v with
      | .mapping values => do
        let results ← fields.traverse fun e _ =>
          match values.get? e.1 with
          | some x => call o e.2.type x
          | none => if e.2.optional then .ok none else d.fillFor o e.2.type
        return some (.mapping results.somes)
      | _ => d.fillFor o (.node mark rule)
    | .array initial rest =>
      match v with
      | .sequence items => do
        let first ← (traverse 0 initial fun i part _ => OptionT.mk <|
          match items[i]? with
          | some x => orElse (call o part x) fun _ => d.fillInitial o part
          | none => d.fillInitial o part).run
        match first with
        | none => d.fillFor o (.node mark rule)
        | some first =>
          let others ← traverse 0 (items.drop initial.length) fun _ x _ => call o rest x
          return some (.sequence (first ++ others.filterMap id))
      | _ => d.fillFor o (.node mark rule)
    | .tuple elements =>
      match v with
      | .sequence items =>
        if items.length ≠ elements.toList.length ∧ o.fillMode?.isNone then .ok none
        else do
          let results ← (traverse 0 elements.toList fun i part _ => OptionT.mk <|
            match items[i]? with
            | some x => orElse (call o part x) fun _ => d.fillFor o part
            | none => d.fillFor o part).run
          d.orFill o (.node mark rule) (results.map .sequence)
      | _ => d.fillFor o (.node mark rule)
    | .dictionary type =>
      match v with
      | .mapping values => do
        let results ← values.traverse fun e _ => call o type e.2
        return some (.mapping results.somes)
      | _ => d.fillFor o (.node mark rule)
    | .oneof alternatives =>
      match alternatives.toList.find? fun alternative => d.conforms alternative v with
      | some alternative => call o alternative v
      | none => do
        let candidates ← resultsUntil Candidate.conforms (o.attempts alternatives.toList)
          fun attempt _ => do
            let result ← call attempt.1 attempt.2 v
            return result.map fun w => ⟨w, d.conforms attempt.2 w⟩
        d.chooseCandidate o (.node mark rule) candidates
    | .ref label => (d.body? label).elim (.ok (some v)) fun body => call o body v

/-- **A step of restriction depends on its calls alone.** -/
theorem restrictStep_congr (d : Document α)
    {call call' : RestrictOptions → Schema α → Value → Except (RecursionError α) (Option Value)}
    {o : RestrictOptions} {n : Schema α} {v : Value}
    (h : ∀ m w, d.Calls n v m w → ∀ o, call o m w = call' o m w) :
    d.restrictStep call o n v = d.restrictStep call' o n v := by
  obtain ⟨mark, rule⟩ := n
  cases rule with
  | object fields =>
    cases v with
    | mapping values =>
      simp only [restrictStep]
      refine congrArg (· >>= _) (congrArg fields.traverse ?_)
      funext e he
      cases hx : values.get? e.1 with
      | some x => exact h _ x (.field (Mapping.get?_of_mem_entries he) hx) o
      | none => rfl
    | _ => rfl
  | array initial rest =>
    cases v with
    | sequence items =>
      simp only [restrictStep]
      refine congrArg₂ (fun x f => OptionT.run x >>= f) (traverse_congr fun i part _ hp => ?_) ?_
      · rw [Nat.zero_add]
        cases hx : items[i]? with
        | some x =>
          have item := h _ x (.item hx) o
          rw [Rule.itemAt_of_getElem? hp] at item
          simp only [item]
        | none => rfl
      · funext first?
        cases first? with
        | none => rfl
        | some first =>
          refine congrArg (· >>= _) (traverse_congr fun i x _ hx => ?_)
          rw [List.getElem?_drop] at hx
          have item := h _ x (.item hx) o
          rwa [Rule.itemAt_length_add] at item
    | _ => rfl
  | tuple elements =>
    cases v with
    | sequence items =>
      simp only [restrictStep]
      congr 1
      refine congrArg (fun x => OptionT.run x >>= _) (traverse_congr fun i part _ hp => ?_)
      rw [Nat.zero_add]
      cases hx : items[i]? with
      | some x => simp only [h _ x (.element hp hx) o]
      | none => rfl
    | _ => rfl
  | dictionary type =>
    cases v with
    | mapping values =>
      simp only [restrictStep]
      refine congrArg (· >>= _) (congrArg values.traverse ?_)
      funext e he
      exact h _ e.2 (.entry (Mapping.get?_of_mem_entries he)) o
    | _ => rfl
  | oneof alternatives =>
    simp only [restrictStep]
    split
    · next alternative ha =>
      exact h _ v (.unfold (.alternative (List.mem_of_find?_eq_some ha))) o
    · refine congrArg (· >>= _) (resultsUntil_congr fun attempt ha => ?_)
      rw [h _ v (.unfold (.alternative (RestrictOptions.mem_of_mem_attempts ha)))]
  | ref label =>
    cases hb : d.body? label with
    | some body => simp only [restrictStep, hb, Option.elim_some, h body v (.unfold (.target hb))]
    | none => simp only [restrictStep, hb, Option.elim_none]
  | _ => rfl

/-- **Restriction is made of its steps.** -/
theorem restrictStep_restrict (d : Document α) (o : RestrictOptions) (n : Schema α) (v : Value) :
    d.restrictStep d.restrict o n v = d.restrict o n v := by
  obtain ⟨mark, rule⟩ := n
  cases rule with
  | object fields =>
    cases v with
    | mapping values =>
      rw [restrict, restrictStep]
      refine congrArg (· >>= _) (congrArg fields.traverse ?_)
      funext e _
      split
      · next x hx => rw [hx]
      · next hx => rw [hx]
    | _ => rw [restrict, restrictStep] <;> simp
  | array initial rest =>
    cases v with
    | sequence items =>
      rw [restrict, restrictStep]
      refine congrArg (fun x => OptionT.run x >>= _) (congrArg (traverse 0 initial) ?_)
      funext i part _
      congr 1
      split
      · next x hx => rw [hx]
      · next hx => rw [hx]
    | _ => rw [restrict, restrictStep] <;> simp
  | tuple elements =>
    cases v with
    | sequence items =>
      rw [restrict, restrictStep]
      congr 1
      refine congrArg (fun x => OptionT.run x >>= _) (congrArg (traverse 0 elements.toList) ?_)
      funext i part _
      congr 1
      split
      · next x hx => rw [hx]
      · next hx => rw [hx]
    | _ => rw [restrict, restrictStep] <;> simp
  | dictionary type =>
    cases v with
    | mapping values => rw [restrict, restrictStep]
    | _ => rw [restrict, restrictStep] <;> simp
  | oneof alternatives =>
    cases hf : alternatives.toList.find? fun alternative => d.conforms alternative v with
    | some alternative =>
      rw [restrict_oneof_of_find? hf]
      simp only [restrictStep, hf]
    | none =>
      rw [restrict_oneof_of_find?_eq_none hf]
      simp only [restrictStep, hf]
      rfl
  | ref label =>
    rw [restrict, restrictStep]
    split
    · next body hb => rw [hb, Option.elim_some]
    · next hb => rw [hb, Option.elim_none]
  | _ =>
    rw [restrict]
    rfl

/-- Restriction as a recursion. -/
def restriction (d : Document α) : Recursion (RestrictOptions × Schema α × Value)
    (Except (RecursionError α) (Option Value)) where
  step call s := d.restrictStep (fun o n v => call (o, n, v)) s.1 s.2.1 s.2.2
  calls s t := d.Calls s.2.1 s.2.2 t.2.1 t.2.2
  congr h := d.restrictStep_congr fun m w hm o => h (o, m, w) hm

theorem solves_restriction (d : Document α) :
    d.restriction.Solves fun s => d.restrict s.1 s.2.1 s.2.2 :=
  fun s => d.restrictStep_restrict s.1 s.2.1 s.2.2

theorem descends_restriction (d : Document α) :
    d.restriction.Descends (fun s => s.2.1 ∈ d.nodes) fun s => d.callDepth s.2.1 s.2.2 :=
  ⟨fun _ _ hs ht => ht.mem_nodes hs, fun _ _ hs ht => ht.callDepth_lt hs⟩

/-- **Restriction ends** above the depth of its calls. -/
theorem cutAt_restriction {d : Document α} {o : RestrictOptions} {n : Schema α} (hn : n ∈ d.nodes)
    {v : Value} {depth : Nat} (h : d.callDepth n v < depth)
    (anything : RestrictOptions × Schema α × Value → Except (RecursionError α) (Option Value)) :
    d.restriction.cutAt anything depth (o, n, v) = d.restrict o n v :=
  d.descends_restriction.cutAt_eq d.solves_restriction (s := (o, n, v)) hn h anything

end Document

end TreeSchema
