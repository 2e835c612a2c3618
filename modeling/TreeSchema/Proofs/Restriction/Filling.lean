import TreeSchema.Proofs.Document.Fragment
import TreeSchema.Proofs.Restriction.Outcome

/-!
# Filling from nothing

A value of another kind than a collection's is given up and the collection is made up in one
walk, with the labels on the way remembered. An empty collection is filled part by part, and
each part starts anew. Both come to the same: the same values, and nothing or the same error
where there are none.

* `Document.restrict_of_kind_ne` — a value of another kind is filled from nothing.
* `Document.restrict_emptyCollection` — so is the empty collection, part by part.
* `Document.restrict_eq_restrict_empty` — both are the same, and in zero mode the zero value.
-/

namespace TreeSchema

/-- The empty collection of the kind that a rule describes, if it describes collections. -/
def Rule.emptyCollection? {β : Type} : Rule β → Option Value
  | .object _ | .dictionary _ => some (.mapping ∅)
  | .array _ _ | .tuple _ => some (.sequence [])
  | _ => none

namespace RestrictOptions

variable {o : RestrictOptions}

theorem fillMode?_of_fillZero (h : o.fillZero = true) : o.fillMode? = some .zero := by
  rw [fillMode?, if_pos h]

/-- An option to fill asks for a mode. -/
theorem exists_fillMode? (h : o.fillEmpty = true ∨ o.fillZero = true) :
    ∃ mode, o.fillMode? = some mode := by
  by_cases zero : o.fillZero = true
  · exact ⟨.zero, fillMode?_of_fillZero zero⟩
  · exact ⟨.empty, by rw [fillMode?, if_neg zero, if_pos (h.resolve_right zero)]⟩

end RestrictOptions

/-- What is tried again after nothing came of it comes to what it did the first time. -/
theorem bind_eq_bind_of_retry {ε β γ : Type} {x : Except ε (Option β)}
    {f g : Option β → Except ε γ} (retry : g none = x >>= f) (same : ∀ b, g (some b) = f (some b)) :
    x >>= g = x >>= f := by
  cases x with
  | error e => rfl
  | ok b? =>
    cases b? with
    | none => exact retry
    | some b => exact same b

namespace Document

variable {α : Type} {d : Document α} {o : RestrictOptions} {mode : FillMode} {n : Schema α}

theorem fillFor_of_fillMode? (hm : o.fillMode? = some mode) : d.fillFor o n = d.fill mode n := by
  rw [fillFor, hm]

theorem fillInitial_of_fillMode? (hm : o.fillMode? = some mode) :
    d.fillInitial o n = orElse (d.fill mode n) fun _ => d.fill .zero n := by
  rw [fillInitial, hm]

/-- **A value of another kind than a collection's is filled from nothing.** -/
theorem restrict_of_kind_ne {c u : Value} (collection : n.rule.emptyCollection? = some c)
    (other : u.kind ≠ c.kind) : d.restrict o n u = d.fillFor o n := by
  obtain ⟨mark, rule⟩ := n
  cases rule with
  | object fields =>
    cases collection
    exact restrict_object_of_ne fun values same => other (same ▸ rfl)
  | array initial rest =>
    cases collection
    exact restrict_array_of_ne fun items same => other (same ▸ rfl)
  | tuple elements =>
    cases collection
    exact restrict_tuple_of_ne fun items same => other (same ▸ rfl)
  | dictionary type =>
    cases collection
    exact restrict_dictionary_of_ne fun values same => other (same ▸ rfl)
  | _ => cases collection

/-- Where there are no items, every part is filled. -/
theorem restrictItems_nil {fill : Schema α → Except (RecursionError α) (Option Value)}
    {parts : List (Schema α)} : d.restrictItems o fill parts [] =
      (traverse 0 parts fun _ part _ => OptionT.mk (fill part)).run := by
  simp only [restrictItems, List.getElem?_nil, restrictItem]

/-- **An empty collection is filled as from nothing.** -/
theorem restrict_emptyCollection {c : Value} (collection : n.rule.emptyCollection? = some c)
    (hm : o.fillMode? = some mode) : d.restrict o n c = d.fill mode n := by
  obtain ⟨mark, rule⟩ := n
  cases rule with
  | object fields =>
    cases collection
    have field : ∀ field : Field (Schema α), d.restrictField o field none =
        if field.optional then .ok none else d.fillWithin mode [] field.type := fun field => by
      rw [restrictField, fillFor_of_fillMode? hm, fill]
    simp only [restrict_object, Mapping.get?_empty, field, fill, fillWithin]
    rfl
  | array initial rest =>
    cases collection
    rw [restrict_array, restrictItems_nil, fillFor_of_fillMode? hm, fill, fillWithin]
    simp only [fillInitial_of_fillMode? hm, fill]
    refine bind_eq_bind_of_retry rfl fun first => ?_
    -- No item is left behind the initial ones.
    generalize left : List.drop initial.length ([] : List Value) = others
    obtain rfl : others = [] := left.symm.trans List.drop_nil
    rw [traverse]
    exact congrArg (fun items => Except.ok (some (Value.sequence items)))
      (List.append_nil first)
  | tuple elements =>
    cases collection
    rw [restrict_tuple, if_neg (by simp [hm]), restrictItems_nil, fill, fillWithin]
    simp only [fillFor_of_fillMode? hm, fill]
    refine bind_eq_bind_of_retry ?_ fun results => rfl
    rw [Option.map_none, orFill, fillFor_of_fillMode? hm, fill, fillWithin]
  | dictionary type =>
    cases collection
    rw [fill, fillWithin, restrict]
    rfl
  | _ => cases collection

/-- In zero mode the fill value is the zero value. -/
theorem fill_zero (d : Document α) (n : Schema α) : d.fill .zero n = (d.zero n).map some := by
  rw [zero]
  cases h : d.fill .zero n with
  | error e => rfl
  | ok r? =>
    cases r? with
    | none => exact absurd h (d.fillWithin_zero_ne [] n)
    | some r => rfl

/-- **Filling from nothing is filling an empty collection.** In the place of a value of another
kind than the collection's is put what an empty collection becomes: the same value, and nothing
or the same error where there is none. In zero mode this is the zero value. -/
theorem restrict_eq_restrict_empty {c u : Value} (collection : n.rule.emptyCollection? = some c)
    (filled : o.fillEmpty = true ∨ o.fillZero = true) (other : u.kind ≠ c.kind) :
    d.restrict o n u = d.restrict o n c ∧
      (o.fillZero = true → d.restrict o n u = (d.zero n).map some ∧
        d.restrict o n c = (d.zero n).map some) := by
  obtain ⟨mode, hm⟩ := RestrictOptions.exists_fillMode? filled
  have nothing : d.restrict o n u = d.fill mode n :=
    (restrict_of_kind_ne collection other).trans (fillFor_of_fillMode? hm)
  have parts : d.restrict o n c = d.fill mode n := restrict_emptyCollection collection hm
  refine ⟨nothing.trans parts.symm, fun zero => ?_⟩
  obtain rfl : mode = .zero :=
    Option.some.inj (hm.symm.trans (RestrictOptions.fillMode?_of_fillZero zero))
  exact ⟨nothing.trans (d.fill_zero n), parts.trans (d.fill_zero n)⟩

/-- A link of a chain. -/
def link : Node :=
  .node ⟨0, [.key labelsKey, .key "link"]⟩ (.object (.ofList [("next", ⟨false, nextLink⟩)]))

/-- A link has no end, whether there is none or it is to go on. An assembly is made up whole in
zero mode, and not at all in empty mode for want of a day. -/
theorem restrict_eq_restrict_empty_links :
    compile chainSource = .ok chain.locate ∧ link ∈ chain.locate.nodes ∧
      chain.locate.restrict ⟨false, true, false⟩ link (.string "end") =
        .error ⟨"link", nextLink.mark⟩ ∧
      chain.locate.restrict ⟨false, true, false⟩ link (.mapping ∅) =
        .error ⟨"link", nextLink.mark⟩ ∧
      compile assemblySource = .ok assembly.locate ∧
      assembly.locate.root ∈ assembly.locate.nodes ∧
      assembly.locate.restrict ⟨true, true, false⟩ assembly.locate.root .null =
        .ok (some blank) ∧
      assembly.locate.restrict ⟨true, false, false⟩ assembly.locate.root .null = .ok none := by
  have endless : chain.locate.restrict ⟨false, true, false⟩ link (.mapping ∅) =
      .error ⟨"link", nextLink.mark⟩ := by cbv
  have made : assembly.locate.zero assembly.locate.root = .ok blank := by cbv
  have lacking : assembly.locate.restrict ⟨true, false, false⟩ assembly.locate.root (.sequence []) =
      .ok none := by cbv
  have tuple : assembly.locate.root.rule.emptyCollection? = some (.sequence []) := by cbv
  obtain ⟨next, -⟩ := restrict_eq_restrict_empty (d := chain.locate) (o := ⟨false, true, false⟩)
    (n := link) (u := .string "end") rfl (.inr rfl) (by decide)
  obtain ⟨-, whole⟩ := restrict_eq_restrict_empty (d := assembly.locate) (o := ⟨true, true, false⟩)
    (u := .null) tuple (.inr rfl) (by decide)
  obtain ⟨absent, -⟩ := restrict_eq_restrict_empty (d := assembly.locate)
    (o := ⟨true, false, false⟩) (u := .null) tuple (.inl rfl) (by decide)
  refine ⟨compile_chainSource, List.mem_of_getElem? (i := 0) (by cbv), next.trans endless, endless,
    compile_assemblySource, root_mem_nodes _, (whole rfl).1.trans ?_, absent.trans lacking⟩
  rw [made]
  rfl

end Document

end TreeSchema
