import TreeSchema.Proofs.Restriction.Descent
import TreeSchema.Proofs.Restriction.Fill
import TreeSchema.Proofs.Validation.Reordering

/-!
# The order of entries is irrelevant

Fill values take the required fields of an object in the order in which they are declared, and
restriction takes the entries of a value in the order in which they stand. An error at one of
them ends the work, so which error there is depends on the order; that there is one does not,
and neither does what is made where there is none, up to the order of its entries.

* `Document.Reordered.follows_fill`, `Document.Reordered.follows_zero`,
  `Document.Reordered.follows_restrict` — fill values and restriction in another order.
* `Document.order_irrelevant` — sources and values that differ in the order of entries only.
-/

namespace TreeSchema

/-- Both values are absent, or they differ in the order of entries only. -/
abbrev ReorderedOption : Option Value → Option Value → Prop :=
  Option.Rel Value.Reordered

theorem reorderedOption_refl (v? : Option Value) : ReorderedOption v? v? := by
  cases v? with
  | none => exact .none
  | some v => exact .some (.refl v)

theorem reorderedOption_sequence {items? others? : Option (List Value)}
    (h : Option.Rel (Pointwise fun _ => Value.Reordered) items? others?) :
    ReorderedOption (items?.map .sequence) (others?.map .sequence) := by
  cases h with
  | none => exact .none
  | some h => exact .some (Value.reordered_sequence_iff.mpr h)

theorem reorderedOption_somes {results others : Mapping (Option Value)}
    (h : results.Matching ReorderedOption others) :
    ReorderedOption (some (.mapping results.somes)) (some (.mapping others.somes)) :=
  .some (Value.reordered_mapping_iff.mpr h.somes)

/-- The candidates differ in the order of entries only, and conform alike. -/
abbrev Candidate.Reordered (c c' : Candidate) : Prop :=
  c.value.Reordered c'.value ∧ c'.conforms = c.conforms

/-! ### Scalars -/

/-- Values other than scalars do not convert. -/
theorem ScalarType.coerce?_of_not_isScalar {type : ScalarType} {v : Value}
    (h : v.isScalar = false) : type.coerce? v = none := by
  cases v with
  | sequence items => cases type <;> rfl
  | mapping fields => cases type <;> rfl
  | _ => cases h

theorem ScalarType.accepts_of_not_isScalar {type : ScalarType} {v : Value}
    (h : v.isScalar = false) : type.accepts v = false := by
  cases ha : type.accepts v with
  | false => rfl
  | true => cases h.symm.trans (isScalar_of_accepts ha)

namespace OneOrMore

variable {members : OneOrMore Literal} {v : Value}

theorem hasValue_of_not_isScalar (h : v.isScalar = false) : members.hasValue v = false := by
  cases hm : members.hasValue v with
  | false => rfl
  | true =>
    obtain ⟨member, -, he⟩ := hasValue_iff.mp hm
    cases h.symm.trans (Literal.isScalar_of_beq he)

theorem coerceTo?_of_not_isScalar (h : v.isScalar = false) : members.coerceTo? v = none := by
  refine List.find?_eq_none.mpr fun member _ => ?_
  rw [ScalarType.coerce?_of_not_isScalar h]
  exact Bool.false_ne_true

end OneOrMore

/-- What a union tries, where its alternatives are related. -/
theorem RestrictOptions.pointwise_attempts {β γ : Type} {R : β → γ → Prop} (o : RestrictOptions)
    {xs : List β} {ys : List γ} (h : Pointwise (fun _ => R) xs ys) :
    Pointwise (fun _ a b => a.1 = b.1 ∧ R a.2 b.2) (o.attempts xs) (o.attempts ys) := by
  have pass : ∀ p : RestrictOptions,
      Pointwise (fun _ a b => a.1 = b.1 ∧ R a.2 b.2) (xs.map (p, ·)) (ys.map (p, ·)) :=
    fun p => pointwise_map_iff.mpr (h.mono fun _ _ _ hab => ⟨rfl, hab⟩)
  unfold attempts passes
  cases o.coerce with
  | false => simpa using pass _
  | true => simpa using (pass _).append (pass _)

namespace Document

variable {α β : Type} {d : Document α} {d' : Document β}

/-- Items that are held against initial parts of an array or parts of a tuple, with what is
made up for them. -/
theorem follows_items (o : RestrictOptions) {parts : List (Schema α)} {parts' : List (Schema β)}
    {items items' : List Value}
    {call : RestrictOptions → Schema α → Value → Except (RecursionError α) (Option Value)}
    {call' : RestrictOptions → Schema β → Value → Except (RecursionError β) (Option Value)}
    {fill : Schema α → Except (RecursionError α) (Option Value)}
    {fill' : Schema β → Except (RecursionError β) (Option Value)}
    (hparts : Pointwise (fun _ => Schema.Reordered) parts parts')
    (hitems : Pointwise (fun _ => Value.Reordered) items items')
    (calls : ∀ (i : Nat) part x, parts[i]? = some part → items[i]? = some x →
      ∀ part' y, part.Reordered part' → x.Reordered y →
        Follows ReorderedOption (call o part x) (call' o part' y))
    (hfill : ∀ {part part'}, part.Reordered part' →
      Follows ReorderedOption (fill part) (fill' part')) :
    Follows (Option.Rel (Pointwise fun _ => Value.Reordered))
      (traverse 0 parts fun i part _ => OptionT.mk <|
        match items[i]? with
        | some x => orElse (call o part x) fun _ => fill part
        | none => fill part).run
      (traverse 0 parts' fun i part _ => OptionT.mk <|
        match items'[i]? with
        | some x => orElse (call' o part x) fun _ => fill' part
        | none => fill' part).run := by
  refine follows_traverse_run (f := fun i part =>
      match items[i]? with
      | some x => orElse (call o part x) fun _ => fill part
      | none => fill part)
    (g := fun i part =>
      match items'[i]? with
      | some x => orElse (call' o part x) fun _ => fill' part
      | none => fill' part) ⟨hparts.length, fun i part part' hp hp' => ?_⟩
  have related := hparts.related i part part' hp hp'
  rw [Nat.zero_add]
  rcases hitems.getElem? i with ⟨hx, hy⟩ | ⟨x, y, hx, hy, hxy⟩
  · rw [hx, hy]
    exact hfill related
  · rw [hx, hy]
    exact (calls i part x hp hx part' y related hxy).orElse (hfill related)

namespace Reordered

variable (hd : d.Reordered d')

include hd

/-! ### Fill values -/

/-- **Fill values follow a reordering**, whatever is being unfolded. -/
theorem follows_fillWithin (mode : FillMode) (unfolding : List String) {n : Schema α}
    {n' : Schema β} (hn : n.Reordered n') :
    Follows ReorderedOption (d.fillWithin mode unfolding n)
      (d'.fillWithin mode unfolding n') := by
  revert n' mode
  refine d.unfolding_induction (motive := fun unfolding n => ∀ mode {n' : Schema β},
    n.Reordered n' → Follows ReorderedOption (d.fillWithin mode unfolding n)
      (d'.fillWithin mode unfolding n')) ?_ unfolding n
  intro unfolding mark rule parts target mode n' hn
  cases hn with
  | scalar | any | enum | dictionary =>
    rw [fillWithin, fillWithin]
    exact .ok (reorderedOption_refl _)
  | @object _ _ fields fields' keys optional types =>
    rw [fillWithin, fillWithin]
    have each : ∀ key f f', fields.get? key = some f → fields'.get? key = some f' →
        Follows ReorderedOption
          (if f.optional then .ok none else d.fillWithin mode unfolding f.type)
          (if f'.optional then .ok none else d'.fillWithin mode unfolding f'.type) := by
      intro key f f' hf hf'
      rw [optional key f f' hf hf']
      split
      · exact .ok .none
      · exact parts f.type (Rule.mem_parts_of_get? hf) mode
          (types key f f' hf hf')
    exact (Mapping.follows_traverse keys each).bind fun _ _ h => .ok (reorderedOption_somes h)
  | array length initial rest =>
    rw [fillWithin, fillWithin]
    refine (follows_traverse_run ⟨length, fun i part part' hp hp' => ?_⟩).bind fun _ _ h =>
      .ok (reorderedOption_sequence h)
    have made := fun mode => parts part (Rule.mem_parts_initial (List.mem_of_getElem? hp)) mode
      (initial i part part' hp hp')
    exact (made mode).orElse (made .zero)
  | tuple length elements =>
    rw [fillWithin, fillWithin]
    refine (follows_traverse_run ⟨length, fun i part part' hp hp' => ?_⟩).bind fun _ _ h =>
      .ok (reorderedOption_sequence h)
    exact parts part (Rule.mem_parts_tuple (List.mem_of_getElem? hp)) mode
      (elements i part part' hp hp')
  | oneof length alternatives =>
    rw [fillWithin, fillWithin]
    refine follows_firstSome ⟨length, fun i part part' hp hp' => ?_⟩
    exact parts part (Rule.mem_parts_oneof (List.mem_of_getElem? hp)) mode
      (alternatives i part part' hp hp')
  | @ref _ _ label =>
    by_cases hu : label ∈ unfolding
    · rw [fillWithin, if_pos hu]
      exact .error
    · rcases hd.body? label with ⟨hb, hb'⟩ | ⟨body, body', hb, hb', related⟩
      · rw [fillWithin_ref_of_none hb hu, fillWithin_ref_of_none hb' hu]
        exact .ok (reorderedOption_refl _)
      · rw [fillWithin_ref hb hu, fillWithin_ref hb' hu]
        exact target label body rfl hu hb mode related

variable {n : Schema α} {n' : Schema β} (hn : n.Reordered n') (o : RestrictOptions)

include hn

theorem follows_fill (mode : FillMode) :
    Follows ReorderedOption (d.fill mode n) (d'.fill mode n') :=
  hd.follows_fillWithin mode [] hn

theorem follows_zero : Follows Value.Reordered (d.zero n) (d'.zero n') := by
  intro v hv
  unfold zero at hv
  cases hf : d.fill .zero n with
  | error e =>
    rw [hf] at hv
    cases hv
  | ok v? =>
    rw [hf] at hv
    cases hv
    obtain ⟨w?, hw, related⟩ := hd.follows_fill hn .zero v? hf
    refine ⟨w?.getD .null, by rw [zero, hw]; rfl, ?_⟩
    cases related with
    | none => exact .refl _
    | some h => exact h

theorem follows_fillFor : Follows ReorderedOption (d.fillFor o n) (d'.fillFor o n') := by
  unfold fillFor
  cases o.fillMode? with
  | none => exact .ok .none
  | some mode => exact hd.follows_fill hn mode

theorem follows_fillInitial :
    Follows ReorderedOption (d.fillInitial o n) (d'.fillInitial o n') := by
  unfold fillInitial
  cases o.fillMode? with
  | none => exact .ok .none
  | some mode => exact (hd.follows_fill hn mode).orElse (hd.follows_fill hn .zero)

theorem follows_orFill {v? w? : Option Value} (h : ReorderedOption v? w?) :
    Follows ReorderedOption (d.orFill o n v?) (d'.orFill o n' w?) := by
  cases h with
  | none => exact hd.follows_fillFor hn o
  | some h => exact .ok (.some h)

/-! ### Restriction -/

theorem follows_chooseCandidate {cs cs' : List Candidate}
    (h : Pointwise (fun _ => Candidate.Reordered) cs cs') :
    Follows ReorderedOption (d.chooseCandidate o n cs) (d'.chooseCandidate o n' cs') := by
  unfold chooseCandidate
  have found : Option.Rel Candidate.Reordered (cs.find? (·.conforms)) (cs'.find? (·.conforms)) :=
    h.find? fun _ _ h => h.2
  generalize cs.find? (·.conforms) = c?, cs'.find? (·.conforms) = c'? at found
  cases found with
  | some h => exact .ok (.some h.1)
  | none =>
    dsimp only
    split
    · exact hd.follows_fillFor hn o
    · refine .ok ?_
      have first := h.head?
      generalize cs.head? = c?, cs'.head? = c'? at first
      cases first with
      | none => exact .none
      | some h => exact .some h.1

omit hn

/-- The results of what is called for follow those of what is related to it. -/
def CallsFollow (d : Document α) (n : Schema α) (v : Value)
    (call : RestrictOptions → Schema α → Value → Except (RecursionError α) (Option Value))
    (call' : RestrictOptions → Schema β → Value → Except (RecursionError β) (Option Value)) :
    Prop :=
  ∀ m w, d.Calls n v m w → ∀ m' w', m.Reordered m' → w.Reordered w' → ∀ o,
    Follows ReorderedOption (call o m w) (call' o m' w')

section Rules

variable {mark : α} {v v' : Value}
  {call : RestrictOptions → Schema α → Value → Except (RecursionError α) (Option Value)}
  {call' : RestrictOptions → Schema β → Value → Except (RecursionError β) (Option Value)}

theorem follows_scalar {type : ScalarType} (hn : (Schema.node mark (.scalar type)).Reordered n')
    (hv : v.Reordered v') :
    Follows ReorderedOption (d.restrictStep call o (.node mark (.scalar type)) v)
      (d'.restrictStep call' o n' v') := by
  have orFill := hd.follows_orFill hn o (reorderedOption_refl (type.coerceIf o.coerce v))
  cases hn with
  | scalar =>
    have coerced : type.coerceIf o.coerce v' = type.coerceIf o.coerce v := by
      unfold ScalarType.coerceIf
      rw [hv.apply_eq fun _ => ScalarType.coerce?_of_not_isScalar]
    simp only [restrictStep]
    rw [hv.apply_eq fun _ => ScalarType.accepts_of_not_isScalar, coerced]
    split
    · exact .ok (.some hv)
    · exact orFill

theorem follows_enum {members : OneOrMore Literal}
    (hn : (Schema.node mark (.enum members)).Reordered n') (hv : v.Reordered v') :
    Follows ReorderedOption (d.restrictStep call o (.node mark (.enum members)) v)
      (d'.restrictStep call' o n' v') := by
  have orFill := hd.follows_orFill hn o (reorderedOption_refl
    ((if o.coerce then members.coerceTo? v else none).map Literal.toValue))
  cases hn with
  | enum =>
    simp only [restrictStep]
    rw [hv.apply_eq (f := members.hasValue) fun _ => OneOrMore.hasValue_of_not_isScalar,
      hv.apply_eq (f := members.coerceTo?) fun _ => OneOrMore.coerceTo?_of_not_isScalar]
    split
    · exact .ok (.some hv)
    · exact orFill

theorem follows_object {fields : Mapping (Field (Schema α))}
    (hn : (Schema.node mark (.object fields)).Reordered n') (hv : v.Reordered v')
    (calls : CallsFollow d (.node mark (.object fields)) v call call') :
    Follows ReorderedOption (d.restrictStep call o (.node mark (.object fields)) v)
      (d'.restrictStep call' o n' v') := by
  have fill := hd.follows_fillFor hn o
  cases hn with
  | @object _ _ _ fields' keys optional types =>
  cases v with
  | mapping values =>
    obtain ⟨values', rfl, -⟩ := hv.of_mapping
    have entries := Value.reordered_mapping_iff.mp hv
    simp only [restrictStep]
    refine (Mapping.follows_traverse keys fun key f f' hf hf' => ?_).bind fun _ _ h =>
      .ok (reorderedOption_somes h)
    have type := types key f f' hf hf'
    dsimp only
    rcases entries.get? key with ⟨hx, hy⟩ | ⟨x, y, hx, hy, hxy⟩
    · rw [hx, hy, optional key f f' hf hf']
      dsimp only
      split
      · exact .ok .none
      · exact hd.follows_fillFor type o
    · rw [hx, hy]
      exact calls _ x (.field hf hx) _ y type hxy o
  | sequence items =>
    obtain ⟨others, rfl, -⟩ := hv.of_sequence
    exact fill
  | _ =>
    rw [hv.eq_of_isScalar rfl]
    exact fill

theorem follows_array {initial : List (Schema α)} {rest : Schema α}
    (hn : (Schema.node mark (.array initial rest)).Reordered n') (hv : v.Reordered v')
    (calls : CallsFollow d (.node mark (.array initial rest)) v call call') :
    Follows ReorderedOption (d.restrictStep call o (.node mark (.array initial rest)) v)
      (d'.restrictStep call' o n' v') := by
  have fill := hd.follows_fillFor hn o
  cases hn with
  | @array _ _ _ initial' _ rest' length parts hrest =>
  cases v with
  | sequence items =>
    obtain ⟨items', rfl, -⟩ := hv.of_sequence
    have hitems := Value.reordered_sequence_iff.mp hv
    have first := follows_items o ⟨length, parts⟩ hitems
      (fun i part x hp hx part' y hpart hxy =>
        calls part x (Rule.itemAt_of_getElem? hp ▸ .item hx) part' y hpart hxy o)
      (fun related => hd.follows_fillInitial related o)
    have others : Follows (Pointwise fun _ => ReorderedOption)
        (traverse 0 (items.drop initial.length) fun _ x _ => call o rest x)
        (traverse 0 (items'.drop initial'.length) fun _ x _ => call' o rest' x) := by
      refine follows_traverse ⟨by simp only [List.length_drop, hitems.length, length], ?_⟩
      intro i x y hx hy
      rw [List.getElem?_drop] at hx hy
      rw [length] at hy
      have called : d.Calls (.node mark (.array initial rest)) (.sequence items)
          (Rule.itemAt initial rest (initial.length + i)) x := .item hx
      rw [Rule.itemAt_length_add] at called
      exact calls rest x called rest' y hrest (hitems.related _ x y hx hy) o
    simp only [restrictStep]
    refine first.bind fun first first' related => ?_
    cases related with
    | none => exact fill
    | some h =>
      refine others.bind fun _ _ h' => .ok (.some ?_)
      exact Value.reordered_sequence_iff.mpr (h.append h'.somes)
  | mapping values =>
    obtain ⟨others, rfl, -⟩ := hv.of_mapping
    exact fill
  | _ =>
    rw [hv.eq_of_isScalar rfl]
    exact fill

theorem follows_tuple {elements : OneOrMore (Schema α)}
    (hn : (Schema.node mark (.tuple elements)).Reordered n') (hv : v.Reordered v')
    (calls : CallsFollow d (.node mark (.tuple elements)) v call call') :
    Follows ReorderedOption (d.restrictStep call o (.node mark (.tuple elements)) v)
      (d'.restrictStep call' o n' v') := by
  have fill := hd.follows_fillFor hn o
  have orFill : ∀ {v? w?}, ReorderedOption v? w? → Follows ReorderedOption
      (d.orFill o (.node mark (.tuple elements)) v?) (d'.orFill o n' w?) :=
    hd.follows_orFill hn o
  cases hn with
  | @tuple _ _ _ elements' length parts =>
  cases v with
  | sequence items =>
    obtain ⟨items', rfl, -⟩ := hv.of_sequence
    have hitems := Value.reordered_sequence_iff.mp hv
    have results := follows_items o ⟨length, parts⟩ hitems
      (fun i part x hp hx part' y hpart hxy =>
        calls part x (.element hp hx) part' y hpart hxy o)
      (fun related => hd.follows_fillFor related o)
    simp only [restrictStep]
    rw [length, hitems.length]
    split
    · exact .ok .none
    · exact results.bind fun _ _ h => orFill (reorderedOption_sequence h)
  | mapping values =>
    obtain ⟨others, rfl, -⟩ := hv.of_mapping
    exact fill
  | _ =>
    rw [hv.eq_of_isScalar rfl]
    exact fill

theorem follows_dictionary {type : Schema α}
    (hn : (Schema.node mark (.dictionary type)).Reordered n') (hv : v.Reordered v')
    (calls : CallsFollow d (.node mark (.dictionary type)) v call call') :
    Follows ReorderedOption (d.restrictStep call o (.node mark (.dictionary type)) v)
      (d'.restrictStep call' o n' v') := by
  have fill := hd.follows_fillFor hn o
  cases hn with
  | dictionary htype =>
  cases v with
  | mapping values =>
    obtain ⟨values', rfl, -⟩ := hv.of_mapping
    have entries := Value.reordered_mapping_iff.mp hv
    simp only [restrictStep]
    refine (Mapping.follows_traverse entries.keys fun key x y hx hy => ?_).bind fun _ _ h =>
      .ok (reorderedOption_somes h)
    exact calls type x (.entry hx) _ y htype (entries.related key x y hx hy) o
  | sequence items =>
    obtain ⟨others, rfl, -⟩ := hv.of_sequence
    exact fill
  | _ =>
    rw [hv.eq_of_isScalar rfl]
    exact fill

theorem follows_oneof {alternatives : OneOrMore (Schema α)}
    (hn : (Schema.node mark (.oneof alternatives)).Reordered n') (hv : v.Reordered v')
    (calls : CallsFollow d (.node mark (.oneof alternatives)) v call call') :
    Follows ReorderedOption (d.restrictStep call o (.node mark (.oneof alternatives)) v)
      (d'.restrictStep call' o n' v') := by
  have choose : ∀ cs cs', Pointwise (fun _ => Candidate.Reordered) cs cs' →
      Follows ReorderedOption (d.chooseCandidate o (.node mark (.oneof alternatives)) cs)
        (d'.chooseCandidate o n' cs') := fun _ _ => hd.follows_chooseCandidate hn o
  cases hn with
  | @oneof _ _ _ alternatives' length parts =>
  have related : Pointwise (fun _ => Schema.Reordered) alternatives.toList alternatives'.toList :=
    ⟨length, parts⟩
  have found : Option.Rel Schema.Reordered
      (alternatives.toList.find? fun n => d.conforms n v)
      (alternatives'.toList.find? fun n => d'.conforms n v') :=
    related.find? fun _ _ h => hd.conforms_eq h hv
  cases hf : alternatives.toList.find? fun n => d.conforms n v with
  | some n =>
    rw [hf] at found
    generalize hf' : alternatives'.toList.find? (fun n => d'.conforms n v') = n'? at found
    cases found with
    | some h =>
      simp only [restrictStep, hf, hf']
      exact calls n v (.unfold (.alternative (List.mem_of_find?_eq_some hf))) _ v' h hv o
  | none =>
    rw [hf] at found
    generalize hf' : alternatives'.toList.find? (fun n => d'.conforms n v') = n'? at found
    cases found with
    | none =>
      simp only [restrictStep, hf, hf']
      refine (follows_resultsUntil (fun _ _ h => h.2) ⟨?_, ?_⟩).bind choose
      · exact (o.pointwise_attempts related).length
      · intro i attempt attempt' ha ha'
        obtain ⟨same, h⟩ := (o.pointwise_attempts related).related i attempt attempt' ha ha'
        have alternative := RestrictOptions.mem_of_mem_attempts (List.mem_of_getElem? ha)
        rw [← same]
        refine (calls _ v (.unfold (.alternative alternative)) _ v' h hv _).bind fun _ _ hw =>
          .ok ?_
        cases hw with
        | none => exact .none
        | some hw => exact .some ⟨hw, hd.conforms_eq h hw⟩

theorem follows_ref {label : String} (hn : (Schema.node mark (.ref label)).Reordered n')
    (hv : v.Reordered v') (calls : CallsFollow d (.node mark (.ref label)) v call call') :
    Follows ReorderedOption (d.restrictStep call o (.node mark (.ref label)) v)
      (d'.restrictStep call' o n' v') := by
  cases hn with
  | ref =>
  simp only [restrictStep]
  rcases hd.body? label with ⟨hb, hb'⟩ | ⟨body, body', hb, hb', related⟩
  · rw [hb, hb']
    exact .ok (.some hv)
  · rw [hb, hb']
    exact calls body v (.unfold (.target hb)) body' v' related hv o

end Rules

/-- **A step of restriction follows a reordering**, if its calls do. -/
theorem follows_restrictStep {v v' : Value}
    {call : RestrictOptions → Schema α → Value → Except (RecursionError α) (Option Value)}
    {call' : RestrictOptions → Schema β → Value → Except (RecursionError β) (Option Value)}
    (hn : n.Reordered n') (hv : v.Reordered v') (calls : CallsFollow d n v call call') :
    Follows ReorderedOption (d.restrictStep call o n v) (d'.restrictStep call' o n' v') := by
  obtain ⟨mark, rule⟩ := n
  cases rule with
  | any =>
    cases hn
    exact .ok (.some hv)
  | scalar type => exact hd.follows_scalar o hn hv
  | enum members => exact hd.follows_enum o hn hv
  | object fields => exact hd.follows_object o hn hv calls
  | array initial rest => exact hd.follows_array o hn hv calls
  | tuple elements => exact hd.follows_tuple o hn hv calls
  | dictionary type => exact hd.follows_dictionary o hn hv calls
  | oneof alternatives => exact hd.follows_oneof o hn hv calls
  | ref label => exact hd.follows_ref o hn hv calls

/-- **Restriction follows a reordering** of the document and of the value. -/
theorem follows_restrict (hn : n.Reordered n') {v v' : Value} (hv : v.Reordered v') :
    Follows ReorderedOption (d.restrict o n v) (d'.restrict o n' v') := by
  induction n, v using d.calls_induction generalizing n' v' o with
  | step n v ih =>
    rw [← restrictStep_restrict, ← restrictStep_restrict]
    exact hd.follows_restrictStep o hn hv fun m w called m' w' hm hw o =>
      ih m w called o hm hw

end Reordered

/-- **The order of entries is irrelevant.** Of sources that differ in the order of entries only
both compile or neither does. If they do, values that differ in the order of entries only fit
alike; what is made of them are errors, or nothing, or values that again differ in the order of
entries only; and so are the zero values. -/
theorem order_irrelevant {source source' : Value} (h : source.Reordered source') :
    ((∃ d, compile source = .ok d) ↔ ∃ d', compile source' = .ok d') ∧
      ∀ d d', compile source = .ok d → compile source' = .ok d' → ∀ v v', v.Reordered v' →
        (∀ strict path path', d.validate strict d.root v path = [] ↔
          d'.validate strict d'.root v' path' = []) ∧
        (∀ o, Concur ReorderedOption (d.restrict o d.root v) (d'.restrict o d'.root v')) ∧
        Concur Value.Reordered (d.zero d.root) (d'.zero d'.root) := by
  have compiles := follows_compile h
  have compiles' := follows_compile h.symm
  refine ⟨⟨?_, ?_⟩, ?_⟩
  · rintro ⟨d, hd⟩
    obtain ⟨d', hd', -⟩ := compiles d hd
    exact ⟨d', hd'⟩
  · rintro ⟨d', hd'⟩
    obtain ⟨d, hd, -⟩ := compiles' d' hd'
    exact ⟨d, hd⟩
  · intro d d' hd hd' v v' hv
    obtain ⟨e, he, related⟩ := compiles d hd
    obtain rfl := Except.ok.inj (he.symm.trans hd')
    have root := related.root
    refine ⟨fun strict => related.validate_eq_nil_iff root hv, fun o => ?_, ?_⟩
    · exact (related.follows_restrict o root hv).concur
        (related.symm.follows_restrict o root.symm hv.symm)
    · exact (related.follows_zero root).concur (related.symm.follows_zero root.symm)

/-- The source of herbs, each with a name and tags. -/
def herbSource : Value :=
  .mapping <| .ofList
    [(labelsKey, .mapping <| .ofList
      [("name", .string "string"), ("tags", .sequence [.string "dictionary", .string "string"])]),
      (schemaKey, .mapping <| .ofList
        [("name", .sequence [.string "ref", .string "name"]),
          ("tags", .sequence [.string "ref", .string "tags"])])]

/-- The same source from back to front. -/
def herbSourceReversed : Value :=
  .mapping <| .ofList
    [(schemaKey, .mapping <| .ofList
      [("tags", .sequence [.string "ref", .string "tags"]),
        ("name", .sequence [.string "ref", .string "name"])]),
      (labelsKey, .mapping <| .ofList
        [("tags", .sequence [.string "dictionary", .string "string"]),
          ("name", .string "string")])]

/-- Herbs, each with a name and tags. -/
def herb : Document Unit where
  labels := .ofList
    [("name", .node () (.scalar .string)),
      ("tags", .node () (.dictionary (.node () (.scalar .string))))]
  root := .node () <| .object <| .ofList
    [("name", ⟨false, .node () (.ref "name")⟩), ("tags", ⟨false, .node () (.ref "tags")⟩)]
  guarded := of_decide_eq_true (by cbv)

theorem compile_herbSource : compile herbSource = .ok herb.locate :=
  compile_eq_ok_iff.mpr
    ⟨herb, ofSource_eq_ok_iff.mpr ⟨by cbv, _, rfl, by cbv, by cbv, _, rfl, by cbv⟩, rfl⟩

/-- A herb. -/
def sage : Value :=
  .mapping <| .ofList
    [("name", .string "sage"),
      ("tags", .mapping <| .ofList [("leaf", .string "grey"), ("taste", .string "bitter")])]

/-- The same herb from back to front. -/
def sageReversed : Value :=
  .mapping <| .ofList
    [("tags", .mapping <| .ofList [("taste", .string "bitter"), ("leaf", .string "grey")]),
      ("name", .string "sage")]

/-- No herb in particular. -/
def noHerb : Value :=
  .mapping <| .ofList [("name", .string ""), ("tags", .mapping ∅)]

/-- From back to front the herb fits the reversed schema, and the zero value is the same but for
its order. -/
theorem order_irrelevant_herb :
    herbSource.Reordered herbSourceReversed ∧ compile herbSource = .ok herb.locate ∧
      sage.Reordered sageReversed ∧
      ∃ d', compile herbSourceReversed = .ok d' ∧
        d'.validate true d'.root sageReversed [] = [] ∧
        ∃ w, d'.zero d'.root = .ok w ∧ noHerb.Reordered w := by
  have sources : herbSource.Reordered herbSourceReversed :=
    .swap (by decide) (.swap (by decide) (.refl _) (.refl _))
      (.swap (by decide) (.refl _) (.refl _))
  have values : sage.Reordered sageReversed :=
    .swap (by decide) (.refl _) (.swap (by decide) (.refl _) (.refl _))
  obtain ⟨compiles, alike⟩ := order_irrelevant sources
  obtain ⟨d', hd'⟩ := compiles.mp ⟨_, compile_herbSource⟩
  obtain ⟨fits, -, zeros⟩ := alike _ d' compile_herbSource hd' _ _ values
  have sage_fits : herb.locate.validate true herb.locate.root sage [] = [] := by cbv
  have zero : herb.locate.zero herb.locate.root = .ok noHerb := by cbv
  refine ⟨sources, compile_herbSource, values, d', hd', (fits true [] []).mp sage_fits, ?_⟩
  rw [zero] at zeros
  generalize d'.zero d'.root = made at zeros ⊢
  cases zeros with
  | succeed h => exact ⟨_, rfl, h⟩

end Document

end TreeSchema
