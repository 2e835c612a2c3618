import TreeSchema.Proofs.Document.Fragment
import TreeSchema.Proofs.Document.Places
import TreeSchema.Proofs.Restriction.FillCalls

/-!
# Zero values and cycles

A schema has no zero value exactly if what it forces leads to a cycle. Where there is an error,
the label that it names was being unfolded when it was met again, so what the label stands for
leads back to the reference that met it. Where there is a value, everything forced has one, and
there is none on a cycle.

* `Document.unfolding_of_error` — the label of an error is one of those being unfolded.
* `Document.reach_of_error` — the reference of an error is forced, in zero mode.
* `Document.acc_of_fillWithin` — no cycle is forced by a schema with a zero value.
* `Document.exists_zero_eq_error_iff` — the schemas without a zero value are those that force a
  cycle.
* `Document.zero_of_compile` — zero values of the nodes of a compiled document.
-/

namespace TreeSchema

namespace Document

variable {α : Type} {d : Document α} {mode : FillMode} {unfolding : List String}
  {n : Schema α} {e : RecursionError α}

/-- Everything a schema forces is reached by steps. -/
abbrev ForcesMany (d : Document α) : Schema α → Schema α → Prop :=
  Relation.ReflTransGen d.Forces

theorem ForcesMany.involves {m : Schema α} (h : d.ForcesMany n m) : d.Involves n m :=
  h.lift id fun _ _ forced => forced.mem_children

/-- **The label of an error is one of those being unfolded**: it was so from the start, or its
body was being unfolded where the error arose. -/
theorem unfolding_of_error (h : d.fillWithin mode unfolding n = .error e) :
    e.label ∈ unfolding ∨ ∃ body mode' unfolding', d.body? e.label = some body ∧
      d.fillWithin mode' (e.label :: unfolding') body = .error e ∧
      (mode = .zero → mode' = .zero) := by
  refine d.fillCalls_induction (motive := fun s => d.fillWithin s.1 s.2.1 s.2.2 = .error e →
    e.label ∈ s.2.1 ∨ ∃ body mode' unfolding', d.body? e.label = some body ∧
      d.fillWithin mode' (e.label :: unfolding') body = .error e ∧
      (s.1 = .zero → mode' = .zero)) ?_ (mode, unfolding, n) h
  rintro s ih h
  rcases origin_of_error h with ⟨-, met⟩ | ⟨t, ht, he, -⟩
  · exact .inl met
  rcases ih t ht he with met | ⟨body, mode', unfolding', hb, inner, zero⟩
  · rcases ht.unfolding with same | ⟨label, joined, hb⟩
    · exact .inl (same ▸ met)
    · rw [joined, List.mem_cons] at met
      rcases met with rfl | met
      · rw [joined] at he
        exact .inr ⟨t.2.2, t.1, s.2.1, hb, he, ht.mode_eq_zero⟩
      · exact .inl met
  · exact .inr ⟨body, mode', unfolding', hb, inner, fun hs => zero (ht.mode_eq_zero hs)⟩

/-- What the schema forces includes a union whose first alternative has no empty value. -/
def Skips (d : Document α) (n : Schema α) : Prop :=
  ∃ mark alternatives, d.ForcesMany n (.node mark (.oneof alternatives)) ∧
    d.fill .empty alternatives.first = .ok none

theorem Skips.of_forces {m : Schema α} (h : d.Forces n m) (skips : d.Skips m) : d.Skips n := by
  obtain ⟨mark, alternatives, reached, absent⟩ := skips
  exact ⟨mark, alternatives, .head h reached, absent⟩

/-- Alternatives are passed over in empty mode alone. -/
theorem Passes.empty (h : d.Passes mode unfolding n) : mode = .empty ∧ d.Skips n := by
  cases h with
  | @first mark alternatives absent =>
    cases mode with
    | zero => exact absurd absent (d.fillWithin_zero_ne unfolding _)
    | empty =>
      exact ⟨rfl, mark, alternatives, .refl, fillWithin_of_subset (List.nil_subset _) absent⟩

/-- **The reference of an error is forced**, unless alternatives were passed over. -/
theorem reach_of_error (h : d.fillWithin mode unfolding n = .error e) :
    d.ForcesMany n (.node e.mark (.ref e.label)) ∨ mode = .empty ∧ d.Skips n := by
  refine d.fillCalls_induction (motive := fun s => d.fillWithin s.1 s.2.1 s.2.2 = .error e →
    d.ForcesMany s.2.2 (.node e.mark (.ref e.label)) ∨ s.1 = .empty ∧ d.Skips s.2.2) ?_
    (mode, unfolding, n) h
  rintro s ih h
  rcases origin_of_error h with ⟨reference, -⟩ | ⟨t, ht, he, forced | passed⟩
  · rw [reference]
    exact .inl .refl
  · rcases ih t ht he with reached | ⟨empty, skips⟩
    · exact .inl (.head forced reached)
    · refine .inr ⟨?_, skips.of_forces forced⟩
      cases hs : s.1 with
      | zero => exact nomatch (ht.mode_eq_zero hs).symm.trans empty
      | empty => rfl
  · exact .inr passed.empty

/-- **Nothing that a schema with a zero value forces goes on forever.** -/
theorem acc_of_fillWithin {r? : Option Value} (h : d.fillWithin .zero unfolding n = .ok r?) :
    Acc (fun m n => d.Forces n m) n := by
  revert h r?
  refine d.unfolding_induction (motive := fun unfolding n => ∀ {r? : Option Value},
    d.fillWithin .zero unfolding n = .ok r? → Acc (fun m n => d.Forces n m) n) ?_ unfolding n
  intro unfolding mark rule parts target r? h
  refine ⟨_, fun m forced => ?_⟩
  cases forced with
  | @field _ fields key field hf ho =>
    rw [fillWithin] at h
    obtain ⟨values, hvalues, -⟩ := bind_eq_ok h
    obtain ⟨v?, -, made⟩ := (Mapping.traverse_eq_ok_iff (f := fun e : String × Field (Schema α) =>
      if e.2.optional then .ok none else d.fillWithin .zero unfolding e.2.type)
      |>.mp hvalues).exists_right hf
    rw [if_neg (by simp [ho])] at made
    exact parts _ (Rule.mem_parts_of_get? hf) made
  | @initial _ initial rest part hp =>
    rw [fillWithin] at h
    obtain ⟨items?, hitems, -⟩ := bind_eq_ok h
    have never : ∀ q, orElse (d.fillWithin .zero unfolding q) (fun _ =>
        d.fillWithin .zero unfolding q) ≠ .ok none := by
      intro q absent
      rcases orElse_eq_ok absent with absent | ⟨absent, -⟩ <;>
        exact d.fillWithin_zero_ne unfolding q absent
    obtain ⟨_, y, made⟩ := exists_of_traverse_run_eq_ok (f := fun _ q =>
      orElse (d.fillWithin .zero unfolding q) fun _ => d.fillWithin .zero unfolding q)
      (fun _ q _ => never q) hitems hp
    rcases orElse_eq_ok made with made | ⟨-, made⟩ <;>
      exact parts _ (Rule.mem_parts_initial hp) made
  | @element _ elements part hp =>
    rw [fillWithin] at h
    obtain ⟨items?, hitems, -⟩ := bind_eq_ok h
    obtain ⟨_, y, made⟩ := exists_of_traverse_run_eq_ok
      (fun _ q _ => d.fillWithin_zero_ne unfolding q) hitems hp
    exact parts _ (Rule.mem_parts_tuple hp) made
  | @first _ alternatives =>
    rw [fillWithin, OneOrMore.toList, firstSome] at h
    obtain ⟨v?, made, -⟩ := bind_eq_ok h
    exact parts _ (Rule.mem_parts_oneof alternatives.first_mem) made
  | @target _ label body hb =>
    by_cases hu : label ∈ unfolding
    · rw [fillWithin, if_pos hu] at h
      cases h
    · rw [fillWithin_ref hb hu] at h
      exact target label _ rfl hu hb h

/-- Nothing that goes on forever is on the way of something that does not. -/
theorem not_transGen_of_acc {β : Type} {r : β → β → Prop} {x : β} (h : Acc (fun y x => r x y) x) :
    ¬ ∃ y, Relation.ReflTransGen r x y ∧ Relation.TransGen r y y := by
  induction h with
  | intro x _ ih =>
    rintro ⟨y, way, cycle⟩
    rcases way.cases_head with rfl | ⟨z, first, rest⟩
    · obtain ⟨z, first, rest⟩ := Relation.TransGen.head'_iff.mp cycle
      exact ih z first ⟨z, .refl, .tail' rest first⟩
    · exact ih z first ⟨y, rest, cycle⟩

/-! ### Zero values -/

theorem zero_eq_error_iff_fill : d.zero n = .error e ↔ d.fill .zero n = .error e := by
  rw [zero]
  cases d.fill .zero n with
  | ok r? => simp only [Except.map, reduceCtorEq]
  | error e' => simp only [Except.map, Except.error.injEq]

/-- The schema forces one that is on a cycle. -/
def ForcesCycle (d : Document α) (n : Schema α) : Prop :=
  ∃ m, d.ForcesMany n m ∧ Relation.TransGen d.Forces m m

/-- A label that is met again while its body is unfolded is on a cycle. -/
theorem forcesCycle_of_body {body : Schema α} (hb : d.body? e.label = some body)
    (reached : d.ForcesMany body (.node e.mark (.ref e.label))) : d.ForcesCycle body :=
  ⟨body, .refl, .tail' reached (.target hb)⟩

/-- **The schemas without a zero value are those that force a cycle.** -/
theorem exists_zero_eq_error_iff : (∃ e, d.zero n = .error e) ↔ d.ForcesCycle n := by
  constructor
  · rintro ⟨e, h⟩
    rw [zero_eq_error_iff_fill] at h
    have reached := (reach_of_error h).resolve_right nofun
    rcases unfolding_of_error h with met | ⟨body, mode', unfolding', hb, inner, zero⟩
    · cases met
    · rw [zero rfl] at inner
      have back := (reach_of_error inner).resolve_right nofun
      exact ⟨_, reached, .head' (.target hb) back⟩
  · intro cycle
    cases h : d.fill .zero n with
    | error e => exact ⟨e, zero_eq_error_iff_fill.mpr h⟩
    | ok r? => exact absurd cycle (not_transGen_of_acc (acc_of_fillWithin h))

/-- A label that is met again while its body is unfolded, no alternatives passed over, has no
zero value. -/
theorem exists_zero_eq_error_of_body {body : Schema α} (hb : d.body? e.label = some body)
    (h : d.fillWithin mode (e.label :: unfolding) body = .error e)
    (forced : mode = .zero ∨ ¬ d.Skips body) : ∃ e', d.zero body = .error e' := by
  refine exists_zero_eq_error_iff.mpr (forcesCycle_of_body hb ?_)
  rcases reach_of_error h with reached | ⟨rfl, skips⟩
  · exact reached
  · exact absurd skips (forced.resolve_left nofun)

/-! ### Compiled documents -/

section

variable {source : Value} {d : Document Site} {n : Node}

/-- **Zero values of the nodes of a compiled document.** Making one up ends. There is none
exactly where a cycle is forced, and then the error is at a reference to a label that has none
either. -/
theorem zero_of_compile (hd : compile source = .ok d) (hn : n ∈ d.nodes) :
    (∀ depth, d.fillDepth [] n < depth → ∀ anything,
      d.filling.cutAt anything depth (.zero, [], n) = d.fill .zero n) ∧
    ((∃ e, d.zero n = .error e) ↔
      ∃ m, Relation.ReflTransGen d.Forces n m ∧ Relation.TransGen d.Forces m m) ∧
    ∀ e, d.zero n = .error e →
      .node e.mark (.ref e.label) ∈ d.nodes ∧
      (∀ m ∈ d.nodes, m.mark.origin = e.mark.origin → m = .node e.mark (.ref e.label)) ∧
      ∃ body, d.body? e.label = some body ∧ ∃ e', d.zero body = .error e' := by
  refine ⟨fun depth h anything => cutAt_filling hn h anything, exists_zero_eq_error_iff, ?_⟩
  intro e h
  rw [zero_eq_error_iff_fill] at h
  have reached := (reach_of_error h).resolve_right nofun
  have reference := reached.involves.mem_nodes hn
  refine ⟨reference, fun m hm same => ?_, ?_⟩
  · obtain ⟨e, -, rfl⟩ := compile_eq_ok_iff.mp hd
    exact eq_of_origin_eq hm reference same
  · rcases unfolding_of_error h with met | ⟨body, mode', unfolding', hb, inner, zero⟩
    · cases met
    · exact ⟨body, hb, exists_zero_eq_error_of_body hb inner (.inl (zero rfl))⟩

end

/-- A link forces the next one, and so a cycle. -/
theorem zero_of_compile_chain :
    compile chainSource = .ok chain.locate ∧ nextLink ∈ chain.locate.nodes ∧
      chain.locate.zero nextLink = .error ⟨"link", nextLink.mark⟩ ∧
      (∃ m, Relation.ReflTransGen chain.locate.Forces nextLink m ∧
        Relation.TransGen chain.locate.Forces m m) ∧
      ∃ body, chain.locate.body? "link" = some body ∧ ∃ e, chain.locate.zero body = .error e := by
  have hnode : nextLink ∈ chain.locate.nodes := List.mem_of_getElem? (i := 1) (by cbv)
  have endless : chain.locate.zero nextLink = .error ⟨"link", nextLink.mark⟩ := by cbv
  obtain ⟨-, cycle, label⟩ := zero_of_compile compile_chainSource hnode
  obtain ⟨-, -, body⟩ := label _ endless
  exact ⟨compile_chainSource, hnode, endless, cycle.mp ⟨_, endless⟩, body⟩

end Document

end TreeSchema
