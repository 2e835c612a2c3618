import TreeSchema.Proofs.Restriction.Equations
import TreeSchema.Proofs.Validation.Conformance

/-!
# Restriction without filling

Without filling nothing is unfolded that the value does not ask for, so
restriction cannot fail: it is a function, `Document.prune`. A union that the value
does not fit as it is is settled by its candidates, which are prunings.

* `Document.restrict_plain` — restriction without filling is pruning.
* `Document.restrict_oneof_of_forall` — a union chooses among its candidates.
* `Document.exists_candidates_eq_append` — those without conversion come first.
-/

namespace TreeSchema

theorem orElse_none {ε β : Type} (x : Except ε (Option β)) :
    orElse x (fun _ => .ok none) = x := by
  rcases x with e | _ | y <;> rfl

namespace Document

variable {α : Type} {d : Document α} {coerce : Bool}

@[simp] theorem fillFor_plain (n : Schema α) : d.fillFor (.plain coerce) n = .ok none := rfl

@[simp] theorem fillInitial_plain (n : Schema α) :
    d.fillInitial (.plain coerce) n = .ok none := rfl

@[simp] theorem orFill_plain (n : Schema α) (result : Option Value) :
    d.orFill (.plain coerce) n result = .ok result := by
  cases result <;> rfl

theorem restrictItem_plain {fill : Schema α → Except (RecursionError α) (Option Value)}
    {part : Schema α} (h : fill part = .ok none) (x : Value) :
    d.restrictItem (.plain coerce) fill part (some x) = d.restrict (.plain coerce) part x := by
  rw [restrictItem, h]
  exact orElse_none _

/-! ### Restriction without filling does not fail -/

/-- Restriction without filling has a result, if only that there is none. -/
def Prunes (d : Document α) (n : Schema α) (v : Value) : Prop :=
  ∀ coerce, ∃ r?, d.restrict (.plain coerce) n v = .ok r?

section

variable {mark : α} {v : Value}

theorem prunes_object {fields : Mapping (Field (Schema α))}
    (ih : ∀ values, v = .mapping values → ∀ key field x, fields.get? key = some field →
      values.get? key = some x → d.Prunes field.type x) :
    d.Prunes (.node mark (.object fields)) v := by
  intro coerce
  rcases v.mapping_or_ne with ⟨values, rfl⟩ | hv
  · have parts : ∀ key field, fields.get? key = some field →
        ∃ y?, d.restrictField (.plain coerce) field (values.get? key) = .ok y? := by
      intro key field hf
      cases hx : values.get? key with
      | some x => exact ih values rfl key field x hf hx coerce
      | none =>
        rw [restrictField]
        split
        · exact ⟨none, rfl⟩
        · exact ⟨none, fillFor_plain _⟩
    obtain ⟨results, hr⟩ := Mapping.exists_pointwise parts
    exact ⟨_, restrict_object_eq_ok_iff.mpr ⟨results, hr, rfl⟩⟩
  · rw [restrict_object_of_ne hv]
    exact ⟨none, fillFor_plain _⟩

theorem prunes_dictionary {type : Schema α}
    (ih : ∀ values, v = .mapping values → ∀ key x, values.get? key = some x →
      d.Prunes type x) : d.Prunes (.node mark (.dictionary type)) v := by
  intro coerce
  rcases v.mapping_or_ne with ⟨values, rfl⟩ | hv
  · obtain ⟨results, hr⟩ := Mapping.exists_pointwise fun key x hx => ih values rfl key x hx coerce
    exact ⟨_, restrict_dictionary_eq_ok_iff.mpr ⟨results, hr, rfl⟩⟩
  · rw [restrict_dictionary_of_ne hv]
    exact ⟨none, fillFor_plain _⟩

theorem prunes_array {initial : List (Schema α)} {rest : Schema α}
    (ih : ∀ items, v = .sequence items → ∀ part ∈ (Rule.array initial rest).parts,
      ∀ x ∈ items, d.Prunes part x) : d.Prunes (.node mark (.array initial rest)) v := by
  intro coerce
  rcases v.sequence_or_ne with ⟨items, rfl⟩ | hv
  · have parts : ∀ (i : Nat) part, initial[i]? = some part →
        ∃ y?, d.restrictItem (.plain coerce) (d.fillInitial (.plain coerce)) part items[i]? =
          .ok y? := by
      intro i part hp
      cases hx : items[i]? with
      | some x =>
        rw [restrictItem_plain (fillInitial_plain part)]
        exact ih items rfl part (Rule.mem_parts_initial (List.mem_of_getElem? hp)) x
          (List.mem_of_getElem? hx) coerce
      | none => exact ⟨none, rfl⟩
    obtain ⟨first?, hfirst⟩ := exists_restrictItems parts
    cases first? with
    | none => exact ⟨none, restrict_array_eq_ok_iff.mpr (.inr ⟨hfirst, fillFor_plain _⟩)⟩
    | some first =>
      have others : ∀ (i : Nat) x, (items.drop initial.length)[i]? = some x →
          ∃ y?, d.restrict (.plain coerce) rest x = .ok y? := by
        intro i x hx
        exact ih items rfl rest (Rule.mem_parts_rest initial rest) x
          (List.mem_of_mem_drop (List.mem_of_getElem? hx)) coerce
      obtain ⟨results, hr⟩ := exists_pointwise others
      exact ⟨_, restrict_array_eq_ok_iff.mpr
        (.inl ⟨first, results, restrictItems_eq_ok_some_iff.mp hfirst, hr, rfl⟩)⟩
  · rw [restrict_array_of_ne hv]
    exact ⟨none, fillFor_plain _⟩

theorem prunes_tuple {elements : OneOrMore (Schema α)}
    (ih : ∀ items, v = .sequence items → ∀ part ∈ elements.toList, ∀ x ∈ items,
      d.Prunes part x) : d.Prunes (.node mark (.tuple elements)) v := by
  intro coerce
  rcases v.sequence_or_ne with ⟨items, rfl⟩ | hv
  · by_cases hl : items.length = elements.toList.length
    · have parts : ∀ (i : Nat) part, elements.toList[i]? = some part →
          ∃ y?, d.restrictItem (.plain coerce) (d.fillFor (.plain coerce)) part items[i]? =
            .ok y? := by
        intro i part hp
        cases hx : items[i]? with
        | some x =>
          rw [restrictItem_plain (fillFor_plain part)]
          exact ih items rfl part (List.mem_of_getElem? hp) x (List.mem_of_getElem? hx) coerce
        | none => exact ⟨none, rfl⟩
      obtain ⟨results?, hresults⟩ := exists_restrictItems parts
      cases results? with
      | none =>
        exact ⟨none, restrict_tuple_eq_ok_iff.mpr
          (.inr ⟨.inl hl, .inr ⟨hresults, fillFor_plain _⟩⟩)⟩
      | some results =>
        exact ⟨_, restrict_tuple_eq_ok_iff.mpr
          (.inr ⟨.inl hl, .inl ⟨results, restrictItems_eq_ok_some_iff.mp hresults, rfl⟩⟩)⟩
    · exact ⟨none, restrict_tuple_eq_ok_iff.mpr (.inl ⟨⟨hl, rfl⟩, rfl⟩)⟩
  · rw [restrict_tuple_of_ne hv]
    exact ⟨none, fillFor_plain _⟩

theorem prunes_ref {label : String}
    (ih : ∀ body, d.body? label = some body → d.Prunes body v) :
    d.Prunes (.node mark (.ref label)) v := by
  intro coerce
  cases hb : d.body? label with
  | some body =>
    rw [restrict_ref hb]
    exact ih body hb coerce
  | none =>
    rw [restrict_ref_of_none hb]
    exact ⟨_, rfl⟩

/-- What a union chooses from is determined where the attempts do not fail. -/
theorem exists_restrict_oneof {o : RestrictOptions} {alternatives : OneOrMore (Schema α)}
    {candidate : RestrictOptions × Schema α → Option Candidate}
    (none_fits : (alternatives.toList.find? fun a => d.conforms a v) = none)
    (total : ∀ attempt ∈ o.attempts alternatives.toList,
      d.attempt v attempt = .ok (candidate attempt)) :
    d.restrict o (.node mark (.oneof alternatives)) v =
      d.chooseCandidate o (.node mark (.oneof alternatives))
        ((o.attempts alternatives.toList).filterMap candidate) := by
  obtain ⟨candidates, hc, hfind, hhead⟩ := exists_resultsUntil Candidate.conforms total
  rw [restrict_oneof_of_find?_eq_none none_fits, hc]
  show d.chooseCandidate o _ candidates = _
  rw [chooseCandidate, chooseCandidate, hfind, hhead]

theorem prunes_oneof {alternatives : OneOrMore (Schema α)}
    (ih : ∀ alternative ∈ alternatives.toList, d.Prunes alternative v) :
    d.Prunes (.node mark (.oneof alternatives)) v := by
  intro coerce
  cases hfind : alternatives.toList.find? fun a => d.conforms a v with
  | some alternative =>
    rw [restrict_oneof_of_find? hfind]
    exact ih alternative (List.mem_of_find?_eq_some hfind) coerce
  | none =>
    have attempts : ∀ attempt ∈ (RestrictOptions.plain coerce).attempts alternatives.toList,
        ∃ c?, d.attempt v attempt = .ok c? := by
      intro attempt ha
      have plain := RestrictOptions.eq_plain_of_mem_attempts ha
      obtain ⟨r?, hr⟩ := ih attempt.2 (RestrictOptions.mem_of_mem_attempts ha) attempt.1.coerce
      rw [← plain] at hr
      exact ⟨_, bind_eq_ok_iff.mpr ⟨r?, hr, rfl⟩⟩
    choose! candidate hcandidate using attempts
    rw [exists_restrict_oneof hfind hcandidate, chooseCandidate]
    split
    · exact ⟨_, rfl⟩
    · exact ⟨_, rfl⟩

end

/-- **Restriction without filling does not fail.** -/
theorem prunes (d : Document α) (n : Schema α) (v : Value) : d.Prunes n v := by
  refine d.descent (motive := fun n v => d.Prunes n v) ?_ n v
  intro n v smaller unfolded
  obtain ⟨mark, rule⟩ := n
  cases rule with
  | any => exact fun coerce => ⟨_, restrict_any⟩
  | scalar type =>
    intro coerce
    rw [restrict_scalar, orFill_plain]
    split
    · exact ⟨_, rfl⟩
    · exact ⟨_, rfl⟩
  | enum members =>
    intro coerce
    rw [restrict_enum, orFill_plain]
    split
    · exact ⟨_, rfl⟩
    · exact ⟨_, rfl⟩
  | object fields =>
    refine prunes_object ?_
    rintro values rfl key field x - hx
    exact smaller field.type x (Value.size_lt_of_get? hx)
  | array initial rest =>
    refine prunes_array ?_
    rintro items rfl part - x hx
    exact smaller part x (Value.size_lt_of_mem hx)
  | tuple elements =>
    refine prunes_tuple ?_
    rintro items rfl part - x hx
    exact smaller part x (Value.size_lt_of_mem hx)
  | dictionary type =>
    refine prunes_dictionary ?_
    rintro values rfl key x hx
    exact smaller type x (Value.size_lt_of_get? hx)
  | oneof alternatives =>
    refine prunes_oneof ?_
    intro alternative ha
    exact unfolded alternative (.alternative ha)
  | ref label =>
    refine prunes_ref ?_
    intro body hb
    exact unfolded body (.target hb)

/-- Restriction without filling. -/
def prune (d : Document α) (coerce : Bool) (n : Schema α) (v : Value) : Option Value :=
  (d.restrict (.plain coerce) n v).toOption.join

theorem restrict_plain (d : Document α) (coerce : Bool) (n : Schema α) (v : Value) :
    d.restrict (.plain coerce) n v = .ok (d.prune coerce n v) := by
  obtain ⟨r?, hr⟩ := d.prunes n v coerce
  rw [prune, hr]
  rfl

theorem restrict_plain_eq_ok_iff {n : Schema α} {v : Value} {r? : Option Value} :
    d.restrict (.plain coerce) n v = .ok r? ↔ d.prune coerce n v = r? := by
  rw [restrict_plain]
  exact ⟨Except.ok.inj, congrArg Except.ok⟩

/-! ### The candidates of a union -/

/-- What an attempt of a union makes of a value. -/
def candidate? (d : Document α) (v : Value) (attempt : RestrictOptions × Schema α) :
    Option Candidate :=
  (d.prune attempt.1.coerce attempt.2 v).map fun w => ⟨w, d.conforms attempt.2 w⟩

/-- What all attempts of a union make of a value. -/
def candidates (d : Document α) (o : RestrictOptions) (alternatives : List (Schema α))
    (v : Value) : List Candidate :=
  (o.attempts alternatives).filterMap (d.candidate? v)

/-- **A union that the value does not fit as it is chooses among its candidates.** -/
theorem restrict_oneof_of_forall {o : RestrictOptions} {mark : α}
    {alternatives : OneOrMore (Schema α)} {v : Value}
    (none_fits : ∀ alternative ∈ alternatives.toList, d.conforms alternative v = false) :
    d.restrict o (.node mark (.oneof alternatives)) v =
      d.chooseCandidate o (.node mark (.oneof alternatives))
        (d.candidates o alternatives.toList v) := by
  refine exists_restrict_oneof ?_ ?_
  · rw [List.find?_eq_none]
    intro alternative ha
    rw [none_fits alternative ha]
    exact Bool.false_ne_true
  · intro attempt ha
    rw [Document.attempt, RestrictOptions.eq_plain_of_mem_attempts ha, restrict_plain]
    rfl

/-- What a union makes of a value: what an alternative that it fits as it is makes of it,
or a choice among the candidates. -/
theorem restrict_oneof_cases {o : RestrictOptions} {mark : α}
    {alternatives : OneOrMore (Schema α)} {v : Value} {r? : Option Value}
    (h : d.restrict o (.node mark (.oneof alternatives)) v = .ok r?) :
    (∃ alternative ∈ alternatives.toList, d.conforms alternative v = true ∧
      d.restrict o alternative v = .ok r?) ∨
    (∀ alternative ∈ alternatives.toList, d.conforms alternative v = false) ∧
      d.chooseCandidate o (.node mark (.oneof alternatives))
        (d.candidates o alternatives.toList v) = .ok r? := by
  cases hfind : alternatives.toList.find? fun a => d.conforms a v with
  | some alternative =>
    rw [restrict_oneof_of_find? hfind] at h
    exact .inl ⟨alternative, List.mem_of_find?_eq_some hfind,
      List.find?_some (p := fun a => d.conforms a v) hfind, h⟩
  | none =>
    have none_fits : ∀ a ∈ alternatives.toList, d.conforms a v = false := by
      intro a ha
      exact Bool.eq_false_iff.mpr (List.find?_eq_none.mp hfind a ha)
    rw [restrict_oneof_of_forall none_fits] at h
    exact .inr ⟨none_fits, h⟩

/-- A candidate is a pruning to an alternative. -/
theorem exists_prune_of_mem_candidates {o : RestrictOptions} {alternatives : List (Schema α)}
    {v : Value} {c : Candidate} (h : c ∈ d.candidates o alternatives v) :
    ∃ coerce, ∃ alternative ∈ alternatives, d.prune coerce alternative v = some c.value ∧
      c.conforms = d.conforms alternative c.value := by
  obtain ⟨attempt, ha, hc⟩ := List.mem_filterMap.mp h
  obtain ⟨w, hw, rfl⟩ := Option.map_eq_some_iff.mp hc
  exact ⟨attempt.1.coerce, attempt.2, RestrictOptions.mem_of_mem_attempts ha, hw, rfl⟩

/-- A candidate that is taken because it conforms does conform to an alternative. -/
theorem conforms_of_find?_candidates (complete : d.Complete) {o : RestrictOptions}
    {alternatives : List (Schema α)} (hn : ∀ a ∈ alternatives, a ∈ d.nodes) {v : Value}
    {c : Candidate} (h : (d.candidates o alternatives v).find? Candidate.conforms = some c) :
    ∃ a ∈ alternatives, d.Conforms .strict a c.value := by
  obtain ⟨coerce, a, ha, -, hconforms⟩ :=
    exists_prune_of_mem_candidates (List.mem_of_find?_eq_some h)
  have fits := List.find?_some (p := Candidate.conforms) h
  rw [hconforms, conforms_iff complete (hn a ha)] at fits
  exact ⟨a, ha, fits⟩

/-- The candidates without conversion, in the order of the alternatives. -/
def plainCandidates (d : Document α) (alternatives : List (Schema α)) (v : Value) :
    List Candidate :=
  alternatives.filterMap fun a => d.candidate? v (.plain false, a)

theorem mem_plainCandidates {alternatives : List (Schema α)} {alternative : Schema α} {v w : Value}
    (ha : alternative ∈ alternatives) (h : d.prune false alternative v = some w) :
    ⟨w, d.conforms alternative w⟩ ∈ d.plainCandidates alternatives v := by
  refine List.mem_filterMap.mpr ⟨alternative, ha, ?_⟩
  show (d.prune false alternative v).map _ = _
  rw [h]
  rfl

theorem exists_of_mem_plainCandidates {alternatives : List (Schema α)} {v : Value}
    {c : Candidate} (h : c ∈ d.plainCandidates alternatives v) :
    ∃ alternative ∈ alternatives, d.prune false alternative v = some c.value ∧
      c.conforms = d.conforms alternative c.value := by
  obtain ⟨alternative, ha, hc⟩ := List.mem_filterMap.mp h
  obtain ⟨w, hw, rfl⟩ := Option.map_eq_some_iff.mp hc
  exact ⟨alternative, ha, hw, rfl⟩

/-- The first candidate without conversion is the first pruning there is. -/
theorem head?_plainCandidates (alternatives : List (Schema α)) (v : Value) :
    (d.plainCandidates alternatives v).head?.map Candidate.value =
      alternatives.findSome? fun a => d.prune false a v := by
  have value (a : Schema α) :
      (d.candidate? v (.plain false, a)).map Candidate.value = d.prune false a v := by
    show ((d.prune false a v).map _).map _ = _
    cases d.prune false a v <;> rfl
  rw [plainCandidates, List.head?_filterMap, List.map_findSome?]
  simp only [Function.comp_def, value]

/-- The candidates without conversion come first. -/
theorem exists_candidates_eq_append (o : RestrictOptions) (alternatives : List (Schema α))
    (v : Value) : ∃ others,
      d.candidates o alternatives v = d.plainCandidates alternatives v ++ others := by
  obtain ⟨others, h⟩ := o.attempts_eq_append alternatives
  refine ⟨others.filterMap (d.candidate? v), ?_⟩
  rw [candidates, h, List.filterMap_append, List.filterMap_map]
  rfl

theorem candidates_plain (alternatives : List (Schema α)) (v : Value) :
    d.candidates (.plain false) alternatives v = d.plainCandidates alternatives v := by
  have attempts : (RestrictOptions.plain false).attempts alternatives =
      alternatives.map (RestrictOptions.plain false, ·) := List.append_nil _
  rw [candidates, attempts, List.filterMap_map]
  rfl

end Document

end TreeSchema
