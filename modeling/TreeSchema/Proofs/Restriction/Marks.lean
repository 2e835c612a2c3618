import TreeSchema.Proofs.Restriction.Descent
import TreeSchema.Proofs.Restriction.Fill
import TreeSchema.Proofs.Validation.Relocation

/-!
# Restriction with other marks

The only mark that restriction and fill values hand on is that of a reference which meets a
label again while it is being unfolded. Such a reference is below the label, not below the
schema that the work started from. So the marks of that schema change nothing, and neither
does the root of the document.

* `Document.fill_mapMarks`, `Document.zero_eq_of_unmarked_eq` — fill values.
* `Document.restrict_mapMarks`, `Document.restrict_eq_of_unmarked_eq` — restriction.
-/

namespace TreeSchema

/-- Steps that agree on each element have the same first result. -/
theorem firstSome_congr {β γ : Type} {m : Type → Type} [Monad m] {xs : List β}
    {f g : (x : β) → x ∈ xs → m (Option γ)} (h : ∀ x hx, f x hx = g x hx) :
    firstSome xs f = firstSome xs g := by
  rw [show f = g from funext fun x => funext (h x)]

theorem RestrictOptions.attempts_map {β γ : Type} (o : RestrictOptions) (f : β → γ)
    (alternatives : List β) :
    o.attempts (alternatives.map f) =
      (o.attempts alternatives).map fun attempt => (attempt.1, f attempt.2) := by
  simp [attempts, List.map_flatMap, Function.comp_def]

namespace Document

variable {α : Type} {d d' : Document α}

/-! ### Fill values -/

/-- At the start no label is being unfolded, and the marks do not matter; nor does the root,
once labels are. -/
theorem fillWithin_mapMarks (labels : d'.labels = d.labels) (unfolding : List String)
    (n : Schema α) : ∀ f : α → α, unfolding = [] ∨ f = id → ∀ mode,
      d'.fillWithin mode unfolding (n.mapMarks f) = d.fillWithin mode unfolding n := by
  refine d.unfolding_induction (motive := fun unfolding n => ∀ f : α → α,
    unfolding = [] ∨ f = id → ∀ mode,
      d'.fillWithin mode unfolding (n.mapMarks f) = d.fillWithin mode unfolding n) ?_ unfolding n
  intro unfolding mark rule parts target f start mode
  have part : ∀ q ∈ rule.parts, ∀ mode,
      d'.fillWithin mode unfolding (q.mapMarks f) = d.fillWithin mode unfolding q :=
    fun q hq => parts q hq f start
  rw [Schema.mapMarks_node]
  cases rule with
  | object fields =>
    rw [Rule.map, fillWithin, fillWithin, Mapping.traverse_map
      (f := fun e : String × Field (Schema α) =>
        if e.2.optional then .ok none else d'.fillWithin mode unfolding e.2.type)]
    refine congrArg (· >>= _) (congrArg fields.traverse ?_)
    funext e he
    rw [part e.2.type (Rule.mem_parts_object he)]
  | array initial rest =>
    rw [Rule.map, fillWithin, fillWithin, traverse_map (f := fun _ q => OptionT.mk <|
      orElse (d'.fillWithin mode unfolding q) fun _ => d'.fillWithin .zero unfolding q)]
    refine congrArg (fun x => OptionT.run x >>= _) (congrArg (traverse 0 initial) ?_)
    funext _ q hq
    rw [part q (Rule.mem_parts_initial hq), part q (Rule.mem_parts_initial hq)]
  | tuple elements =>
    rw [Rule.map, fillWithin, fillWithin, OneOrMore.toList_map,
      traverse_map (f := fun _ q => OptionT.mk <| d'.fillWithin mode unfolding q)]
    refine congrArg (fun x => OptionT.run x >>= _) (congrArg (traverse 0 elements.toList) ?_)
    funext _ q hq
    rw [part q (Rule.mem_parts_tuple hq)]
  | oneof alternatives =>
    rw [Rule.map, fillWithin, fillWithin, OneOrMore.toList_map,
      firstSome_map (f := fun q => d'.fillWithin mode unfolding q)]
    exact firstSome_congr fun q hq => part q (Rule.mem_parts_oneof hq) mode
  | ref label =>
    rw [Rule.map]
    by_cases hu : label ∈ unfolding
    · have same : f = id := start.resolve_left (List.ne_nil_of_mem hu)
      rw [fillWithin, fillWithin, if_pos hu, if_pos hu, same, id_eq]
    · cases hb : d.body? label with
      | some body =>
        have hb' : d'.body? label = some body := (body?_eq_of_labels labels label).trans hb
        have inner := target label body rfl hu hb id (.inr rfl) mode
        rw [fillWithin_ref hb' hu, fillWithin_ref hb hu, ← inner, Schema.mapMarks_id]
      | none =>
        have hb' : d'.body? label = none := (body?_eq_of_labels labels label).trans hb
        rw [fillWithin_ref_of_none hb' hu, fillWithin_ref_of_none hb hu]
  | _ =>
    rw [Rule.map, fillWithin, fillWithin]

variable (labels : d'.labels = d.labels) (f : α → α) (n : Schema α)

include labels

/-- **The fill value depends on the labels and the rules alone**, and so does the error where
there is none. -/
theorem fill_mapMarks (mode : FillMode) : d'.fill mode (n.mapMarks f) = d.fill mode n :=
  fillWithin_mapMarks labels [] n f (.inl rfl) mode

theorem fillFor_mapMarks (o : RestrictOptions) : d'.fillFor o (n.mapMarks f) = d.fillFor o n := by
  unfold fillFor
  cases o.fillMode? with
  | some mode => exact fill_mapMarks labels f n mode
  | none => rfl

theorem fillInitial_mapMarks (o : RestrictOptions) :
    d'.fillInitial o (n.mapMarks f) = d.fillInitial o n := by
  unfold fillInitial
  cases o.fillMode? with
  | some mode => simp only [fill_mapMarks labels f n]
  | none => rfl

theorem orFill_mapMarks (o : RestrictOptions) (result : Option Value) :
    d'.orFill o (n.mapMarks f) result = d.orFill o n result := by
  cases result with
  | some v => rfl
  | none => exact fillFor_mapMarks labels f n o

theorem chooseCandidate_mapMarks (o : RestrictOptions) (candidates : List Candidate) :
    d'.chooseCandidate o (n.mapMarks f) candidates = d.chooseCandidate o n candidates := by
  unfold chooseCandidate
  rw [fillFor_mapMarks labels f n]

theorem conforms_mapMarks (v : Value) : d'.conforms (n.mapMarks f) v = d.conforms n v :=
  conforms_eq_of_unmarked_eq labels (Schema.unmarked_mapMarks f n) v

/-! ### Restriction -/

variable {o : RestrictOptions} {v : Value}

/-- The node with other marks, as the node that it is. -/
theorem fillFor_node (mark : α) (rule : Rule (Schema α)) :
    d'.fillFor o (.node (f mark) (rule.map (Schema.mapMarks f))) =
      d.fillFor o (.node mark rule) := by
  rw [← Schema.mapMarks_node]
  exact fillFor_mapMarks labels f _ o

theorem orFill_node (mark : α) (rule : Rule (Schema α)) (result : Option Value) :
    d'.orFill o (.node (f mark) (rule.map (Schema.mapMarks f))) result =
      d.orFill o (.node mark rule) result := by
  rw [← Schema.mapMarks_node]
  exact orFill_mapMarks labels f _ o result

/-- **A step of restriction with other marks** gives the same, if its calls do. -/
theorem restrictStep_mapMarks
    {call call' : RestrictOptions → Schema α → Value → Except (RecursionError α) (Option Value)}
    (agree : ∀ m w, d.Calls n v m w → ∀ f o, call' o (Schema.mapMarks f m) w = call o m w) :
    d'.restrictStep call' o (n.mapMarks f) v = d.restrictStep call o n v := by
  obtain ⟨mark, rule⟩ := n
  have node := fun o => fillFor_node labels f (o := o) mark rule
  have node_or := fun o result => orFill_node labels f (o := o) mark rule result
  rw [Schema.mapMarks_node]
  cases rule with
  | any => rfl
  | scalar type =>
    simp only [Rule.map, restrictStep]
    rw [← node_or, Rule.map]
  | enum members =>
    simp only [Rule.map, restrictStep]
    rw [← node_or, Rule.map]
  | object fields =>
    cases v with
    | mapping values =>
      simp only [Rule.map, restrictStep]
      refine congrArg (· >>= _) (Mapping.traverse_map.trans (congrArg fields.traverse ?_))
      funext e he
      cases hx : values.get? e.1 with
      | some x => exact agree _ x (.field (Mapping.get?_of_mem_entries he) hx) f o
      | none => simp only [fillFor_mapMarks labels f]
    | _ => exact node o
  | array initial rest =>
    cases v with
    | sequence items =>
      simp only [Rule.map, restrictStep]
      rw [List.length_map]
      refine congrArg₂ (fun x g => OptionT.run x >>= g)
        (traverse_map.trans (traverse_congr fun i part _ hp => ?_)) ?_
      · rw [Nat.zero_add]
        cases hx : items[i]? with
        | some x =>
          have item := agree _ x (.item hx) f o
          rw [Rule.itemAt_of_getElem? hp] at item
          simp only [item, fillInitial_mapMarks labels f]
        | none => simp only [fillInitial_mapMarks labels f]
      · funext first?
        cases first? with
        | none => exact node o
        | some first =>
          refine congrArg (· >>= _) (traverse_congr fun i x _ hx => ?_)
          rw [List.getElem?_drop] at hx
          have item := agree _ x (.item hx) f o
          rwa [Rule.itemAt_length_add] at item
    | _ => exact node o
  | tuple elements =>
    cases v with
    | sequence items =>
      simp only [Rule.map, restrictStep, OneOrMore.toList_map, List.length_map]
      congr 1
      refine congrArg₂ (fun x g => OptionT.run x >>= g)
        (traverse_map.trans (traverse_congr fun i part _ hp => ?_)) ?_
      · rw [Nat.zero_add]
        cases hx : items[i]? with
        | some x => simp only [agree _ x (.element hp hx) f o, fillFor_mapMarks labels f]
        | none => simp only [fillFor_mapMarks labels f]
      · funext results
        exact node_or o _
    | _ => exact node o
  | dictionary type =>
    cases v with
    | mapping values =>
      simp only [Rule.map, restrictStep]
      refine congrArg (· >>= _) (congrArg values.traverse ?_)
      funext e he
      exact agree _ e.2 (.entry (Mapping.get?_of_mem_entries he)) f o
    | _ => exact node o
  | oneof alternatives =>
    simp only [Rule.map, restrictStep, OneOrMore.toList_map, List.find?_map, Function.comp_def,
      conforms_mapMarks labels f]
    cases hf : alternatives.toList.find? fun alternative => d.conforms alternative v with
    | some alternative =>
      exact agree _ v (.unfold (.alternative (List.mem_of_find?_eq_some hf))) f o
    | none =>
      simp only [Option.map_none]
      refine congrArg₂ (· >>= ·) ?_ ?_
      · rw [RestrictOptions.attempts_map]
        refine resultsUntil_map.trans (resultsUntil_congr fun attempt ha => ?_)
        have alternative := RestrictOptions.mem_of_mem_attempts ha
        simp only [agree _ v (.unfold (.alternative alternative)) f, conforms_mapMarks labels f]
      · funext candidates
        rw [← chooseCandidate_mapMarks labels f, Schema.mapMarks_node, Rule.map]
  | ref label =>
    simp only [Rule.map, restrictStep, body?_eq_of_labels labels]
    cases hb : d.body? label with
    | some body =>
      have same := agree body v (.unfold (.target hb)) id o
      rw [Schema.mapMarks_id] at same
      exact same
    | none => rfl

/-- **Restriction depends on the labels and the rules alone**, by induction along the calls. -/
theorem restrict_mapMarks (o : RestrictOptions) (v : Value) :
    d'.restrict o (n.mapMarks f) v = d.restrict o n v := by
  induction n, v using d.calls_induction generalizing f o with
  | step n v ih =>
    rw [← restrictStep_restrict, ← restrictStep_restrict]
    exact restrictStep_mapMarks labels f n ih

omit f n

/-! ### Schemas that differ in their marks only -/

variable {n n' : Schema α} (same : n'.unmarked = n.unmarked)

include same

theorem restrict_eq_of_unmarked_eq (o : RestrictOptions) (v : Value) :
    d'.restrict o n' v = d.restrict o n v := by
  rw [← restrict_mapMarks labels (fun _ => n.mark) n, ← restrict_mapMarks rfl (fun _ => n.mark) n',
    Schema.mapMarks_const_of_unmarked_eq same]

theorem zero_eq_of_unmarked_eq : d'.zero n' = d.zero n := by
  rw [zero, zero, ← fill_mapMarks labels (fun _ => n.mark) n,
    ← fill_mapMarks rfl (fun _ => n.mark) n', Schema.mapMarks_const_of_unmarked_eq same]

end Document

end TreeSchema
