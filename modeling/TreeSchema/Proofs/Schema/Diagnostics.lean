import TreeSchema.Proofs.Schema.Layer
import TreeSchema.Proofs.Traversal

/-!
# All errors and the first

Reading a source stops at the first error on its way, checking goes on behind it. Both
go the same way, so what reading stops at is the first of the errors that checking lists.

`Leads` is that relation between a list of errors and a result. It composes as results
do (`Leads.bind`), so it passes from the fragments of a source to the source.

* `Schema.leads_diagnostics` — reading a source fails with the first of its errors, and
  does not fail if it has none.
* `Schema.isWellFormed_eq_isEmpty` — a source is well-formed if it has no errors.
* `Schema.allLocal_diagnostics` — the errors of a source of a schema are none of
  those that only a document can have.
-/

namespace TreeSchema

variable {α β : Type}

/-- The first of the errors is the error of the result; there is none if there is no result
to have it. -/
def Leads (errors : List SchemaError) (result : Except SchemaError α) : Prop :=
  errors.head? = failure? result

namespace Leads

variable {errors later : List SchemaError} {result : Except SchemaError α}

theorem ok {a : α} : Leads [] (.ok a) := rfl

theorem error {e : SchemaError} : Leads (α := α) (e :: later) (.error e) := rfl

/-- **What comes later counts where nothing has failed before.** -/
theorem bind {next : α → Except SchemaError β} (h : Leads errors result)
    (hlater : ∀ a, Leads later (next a)) : Leads (errors ++ later) (result >>= next) := by
  cases result with
  | error e =>
    obtain ⟨others, rfl⟩ := List.head?_eq_some_iff.mp h
    exact error
  | ok a =>
    rw [List.head?_eq_none_iff.mp h, List.nil_append]
    exact hlater a

theorem map (h : Leads errors result) (f : α → β) :
    Leads errors (result >>= fun a => .ok (f a)) := by
  rw [← List.append_nil errors]
  exact h.bind fun _ => ok

theorem within (h : Leads errors result) (path : Path) :
    Leads (Schema.errorsWithin path errors) (Schema.within path result) := by
  rw [Leads, Schema.errorsWithin, List.head?_map, h]
  cases result <;> rfl

end Leads

/-! ### Traversals -/

theorem leads_traverse {start : Nat} {xs : List α} {f : Nat → α → Except SchemaError β}
    {errors : Nat → α → List SchemaError}
    (h : ∀ i, ∀ x ∈ xs, Leads (errors i x) (f (start + i) x)) :
    Leads (xs.mapIdx errors).flatten (traverse start xs fun i x _ => f i x) := by
  induction xs generalizing start errors with
  | nil => exact .ok
  | cons x xs ih =>
    have later : Leads (xs.mapIdx fun i => errors (i + 1)).flatten
        (traverse (start + 1) xs fun i x _ => f i x) := by
      refine ih fun i a ha => ?_
      rw [Nat.add_assoc, Nat.add_comm 1]
      exact h (i + 1) a (List.mem_cons_of_mem _ ha)
    rw [List.mapIdx_cons, List.flatten_cons]
    exact (h 0 x List.mem_cons_self).bind fun y => later.map (y :: ·)

theorem OneOrMore.leads_traverse {xs : OneOrMore α} {f : Nat → α → Except SchemaError β}
    {errors : Nat → α → List SchemaError} (h : ∀ i, ∀ x ∈ xs.toList, Leads (errors i x) (f i x)) :
    Leads (xs.toList.mapIdx errors).flatten (xs.traverse 0 fun i x _ => f i x) := by
  have later : Leads (xs.others.mapIdx fun i => errors (i + 1)).flatten
      (TreeSchema.traverse 1 xs.others fun i x _ => f i x) := by
    refine TreeSchema.leads_traverse fun i x hx => ?_
    rw [Nat.add_comm 1]
    exact h (i + 1) x (xs.other_mem hx)
  show Leads ((xs.first :: xs.others).mapIdx errors).flatten _
  rw [List.mapIdx_cons, List.flatten_cons]
  exact (h 0 xs.first xs.first_mem).bind fun y => later.map (OneOrMore.mk y)

theorem Mapping.leads_traverse {fields : Mapping α} {f : String × α → Except SchemaError β}
    {errors : String × α → List SchemaError} (h : ∀ e ∈ fields.entries, Leads (errors e) (f e)) :
    Leads (fields.entries.flatMap errors) (fields.traverse fun e _ => f e) := by
  have entries : Leads (fields.entries.mapIdx fun _ => errors).flatten
      (TreeSchema.traverse 0 fields.entries fun _ e _ => f e) :=
    TreeSchema.leads_traverse fun _ e he => h e he
  rw [List.flatMap_def, ← mapIdx_eq_map]
  exact entries.map _

/-! ### Sources -/

namespace Schema

theorem leads_memberErrors (i : Nat) (v : Value) : Leads (memberErrors i v) (memberOfSource i v) := by
  rw [memberErrors, memberOfSource]
  cases Literal.ofValue? v with
  | none => exact .error
  | some literal => exact .ok

end Schema

namespace FieldForm

theorem leads {readType : Value → Except SchemaError (Schema Unit)}
    {typeErrors : Value → List SchemaError} {key : String} {v : Value}
    (h : ∀ x, x.size ≤ v.size → Leads (typeErrors x) (readType x)) :
    Leads (diagnostics typeErrors key v) (read readType key v) := by
  rw [diagnostics, read]
  cases hf : ofValue v with
  | error e => exact Leads.error.within _
  | ok field => exact ((h field.type (size_le_of_ofValue hf)).within _).map (Field.mk field.optional)

end FieldForm

namespace Form

variable {readFragment : Value → Except SchemaError (Schema Unit)}
  {fragmentErrors : Value → List SchemaError}

theorem leads_arguments {arguments : OneOrMore Value}
    (h : ∀ x ∈ arguments.toList, Leads (fragmentErrors x) (readFragment x)) :
    Leads (argumentErrors fragmentErrors arguments) (readArguments readFragment arguments) :=
  OneOrMore.leads_traverse fun i x hx => (h x hx).within (Rule.argumentPath i)

/-- If reading a fragment fails with the first of its errors, so does reading the form. -/
theorem leads (defined : String → Bool) {form : Form}
    (h : ∀ x ∈ form.fragments, ∀ y, y.size ≤ x.size → Leads (fragmentErrors y) (readFragment y)) :
    Leads (form.diagnostics defined fragmentErrors) (form.read defined readFragment) := by
  have fragment : ∀ x ∈ form.fragments, Leads (fragmentErrors x) (readFragment x) :=
    fun x hx => h x hx x (Nat.le_refl _)
  cases form with
  | scalar type => exact .ok
  | any => exact .ok
  | enum members =>
    exact (OneOrMore.leads_traverse fun i x _ => Schema.leads_memberErrors i x).map _
  | tuple elements => exact (leads_arguments fragment).map _
  | array items =>
    exact (leads_arguments fragment).map fun items =>
      Schema.node () (.array items.initial items.last)
  | dictionary values => exact ((fragment values List.mem_cons_self).within _).map _
  | oneof alternatives => exact (leads_arguments fragment).map _
  | ref label =>
    rw [diagnostics, read, Schema.refOfSource]
    cases defined label with
    | true => exact .ok
    | false => exact .error
  | object fields =>
    refine (Mapping.leads_traverse fun e he => FieldForm.leads ?_).map _
    exact h e.2 (List.mem_map_of_mem he)

end Form

namespace Schema

/-- **Reading a source fails with the first of its errors**, and does not fail if it has none. -/
theorem leads_diagnostics (defined : String → Bool) (v : Value) :
    Leads (diagnostics defined v) (ofSource defined v) := by
  induction v using Form.induction with
  | step v inside =>
  rw [diagnostics_eq, ofSource_eq]
  cases hf : Form.ofValue v with
  | error e => exact .error
  | ok form => exact Form.leads defined (inside form hf)

end Schema

/-! ### Sources without errors -/

theorem isEmpty_append (xs ys : List α) : (xs ++ ys).isEmpty = (xs.isEmpty && ys.isEmpty) := by
  cases xs <;> rfl

private theorem all_eq_isEmpty {xs : List α} {p : α → Bool} {errors : Nat → α → List β}
    (h : ∀ i, ∀ x ∈ xs, p x = (errors i x).isEmpty) :
    xs.all p = (xs.mapIdx errors).flatten.isEmpty := by
  induction xs generalizing errors with
  | nil => rfl
  | cons x xs ih =>
    rw [List.mapIdx_cons, List.flatten_cons, List.all_cons, h 0 x List.mem_cons_self,
      ih fun i a ha => h (i + 1) a (List.mem_cons_of_mem _ ha), isEmpty_append]

@[simp] theorem Schema.isEmpty_errorsWithin (path : Path) (errors : List SchemaError) :
    (errorsWithin path errors).isEmpty = errors.isEmpty :=
  List.isEmpty_map

theorem FieldForm.isWellFormed_eq_isEmpty {typeIsWellFormed : Value → Bool}
    {typeErrors : Value → List SchemaError} (key : String) {v : Value}
    (h : ∀ x, x.size ≤ v.size → typeIsWellFormed x = (typeErrors x).isEmpty) :
    isWellFormed typeIsWellFormed v = (diagnostics typeErrors key v).isEmpty := by
  rw [isWellFormed, diagnostics]
  cases hf : ofValue v with
  | error e => rfl
  | ok field =>
    rw [Schema.isEmpty_errorsWithin]
    exact h field.type (size_le_of_ofValue hf)

/-- If fragments are well-formed that have no errors, so are forms. -/
theorem Form.isWellFormed_eq_isEmpty (defined : String → Bool) {form : Form}
    {fragmentIsWellFormed : Value → Bool} {fragmentErrors : Value → List SchemaError}
    (h : ∀ x ∈ form.fragments, ∀ y, y.size ≤ x.size →
      fragmentIsWellFormed y = (fragmentErrors y).isEmpty) :
    form.isWellFormed defined fragmentIsWellFormed =
      (form.diagnostics defined fragmentErrors).isEmpty := by
  have fragment : ∀ i, ∀ x ∈ form.fragments, fragmentIsWellFormed x =
      (Schema.errorsWithin (Rule.argumentPath i) (fragmentErrors x)).isEmpty := by
    intro i x hx
    rw [Schema.isEmpty_errorsWithin]
    exact h x hx x (Nat.le_refl _)
  cases form with
  | scalar type => rfl
  | any => rfl
  | enum members =>
    refine all_eq_isEmpty fun i x _ => ?_
    rw [Schema.memberErrors]
    cases Literal.ofValue? x <;> rfl
  | tuple elements => exact all_eq_isEmpty fragment
  | array items => exact all_eq_isEmpty fragment
  | dictionary values => exact fragment 0 values List.mem_cons_self
  | oneof alternatives => exact all_eq_isEmpty fragment
  | ref label =>
    rw [isWellFormed, diagnostics]
    cases defined label <;> rfl
  | object fields =>
    rw [isWellFormed, diagnostics, Bool.eq_iff_iff, List.isEmpty_iff, List.flatMap_eq_nil_iff,
      List.all_eq_true]
    refine forall₂_congr fun e he => ?_
    rw [FieldForm.isWellFormed_eq_isEmpty e.1 (h e.2 (List.mem_map_of_mem he)), List.isEmpty_iff]

/-- **A source is well-formed exactly if it has no errors.** -/
theorem Schema.isWellFormed_eq_isEmpty (defined : String → Bool) (v : Value) :
    isWellFormed defined v = (diagnostics defined v).isEmpty := by
  induction v using Form.induction with
  | step v inside =>
  rw [diagnostics_eq, isWellFormed_eq]
  cases hf : Form.ofValue v with
  | error e => rfl
  | ok form => exact Form.isWellFormed_eq_isEmpty defined (inside form hf)

/-! ### What can be wrong with a schema -/

/-- The fault is one of a schema, not of the document it belongs to. -/
def Fault.isLocal : Fault → Bool
  | invalidRoot _ | missingSchema | invalidVersion | invalidLetBlock _ | unguardedRecursion _ =>
    false
  | _ => true

/-- All errors are of a schema. -/
def AllLocal (errors : List SchemaError) : Prop :=
  ∀ e ∈ errors, e.fault.isLocal = true

namespace AllLocal

theorem nil : AllLocal [] := nofun

theorem singleton {e : SchemaError} (h : e.fault.isLocal = true) : AllLocal [e] := by
  intro e' he
  rwa [List.mem_singleton.mp he]

theorem within {errors : List SchemaError} (h : AllLocal errors) (path : Path) :
    AllLocal (Schema.errorsWithin path errors) := by
  intro e he
  obtain ⟨inner, hinner, rfl⟩ := List.mem_map.mp he
  exact h inner hinner

theorem flatten_mapIdx {xs : List α} {errors : Nat → α → List SchemaError}
    (h : ∀ i, ∀ x ∈ xs, AllLocal (errors i x)) : AllLocal (xs.mapIdx errors).flatten := by
  intro e he
  obtain ⟨i, x, hx, he⟩ := mem_flatten_mapIdx_iff.mp he
  exact h i x (List.mem_of_getElem? hx) e he

end AllLocal

namespace Form

theorem isLocal_of_ofDirective {directive : Directive} {arguments : List Value} {e : SchemaError}
    (h : ofDirective directive arguments = .error e) : e.fault.isLocal = true := by
  cases directive with
  | dictionary | ref =>
    simp only [ofDirective] at h
    split at h <;> cases h <;> rfl
  | optional => cases h; rfl
  | _ =>
    cases arguments with
    | nil => cases h; rfl
    | cons first others => cases h

theorem isLocal_of_ofValue {v : Value} {e : SchemaError} (h : ofValue v = .error e) :
    e.fault.isLocal = true := by
  cases v with
  | string name =>
    simp only [ofValue, ofName] at h
    repeat' split at h
    all_goals cases h
    rfl
  | sequence items =>
    rw [ofValue] at h
    unfold ofItems at h
    split at h
    · cases h; rfl
    · split at h
      · exact isLocal_of_ofDirective h
      · cases h; rfl
    · cases h; rfl
  | null => cases h
  | mapping fields => cases h
  | _ => cases h; rfl

end Form

theorem FieldForm.isLocal_of_ofValue {v : Value} {e : SchemaError} (h : ofValue v = .error e) :
    e.fault.isLocal = true := by
  unfold ofValue at h
  repeat' split at h
  all_goals cases h
  rfl

theorem FieldForm.allLocal {typeErrors : Value → List SchemaError} {key : String} {v : Value}
    (h : ∀ x, x.size ≤ v.size → AllLocal (typeErrors x)) :
    AllLocal (diagnostics typeErrors key v) := by
  rw [diagnostics]
  cases hf : ofValue v with
  | error e => exact (AllLocal.singleton (isLocal_of_ofValue hf)).within _
  | ok field => exact (h field.type (size_le_of_ofValue hf)).within _

theorem Form.allLocal (defined : String → Bool) {form : Form}
    {fragmentErrors : Value → List SchemaError}
    (h : ∀ x ∈ form.fragments, ∀ y, y.size ≤ x.size → AllLocal (fragmentErrors y)) :
    AllLocal (form.diagnostics defined fragmentErrors) := by
  have fragment : ∀ i, ∀ x ∈ form.fragments,
      AllLocal (Schema.errorsWithin (Rule.argumentPath i) (fragmentErrors x)) :=
    fun i x hx => (h x hx x (Nat.le_refl _)).within _
  cases form with
  | scalar type => exact .nil
  | any => exact .nil
  | enum members =>
    refine .flatten_mapIdx fun i x _ => ?_
    rw [Schema.memberErrors]
    split
    · exact .nil
    · exact .singleton rfl
  | tuple elements => exact .flatten_mapIdx fragment
  | array items => exact .flatten_mapIdx fragment
  | dictionary values => exact fragment 0 values List.mem_cons_self
  | oneof alternatives => exact .flatten_mapIdx fragment
  | ref label =>
    rw [diagnostics]
    split
    · exact .nil
    · exact .singleton rfl
  | object fields =>
    intro e he
    obtain ⟨entry, hentry, he⟩ := List.mem_flatMap.mp he
    exact FieldForm.allLocal (h entry.2 (List.mem_map_of_mem hentry)) e he

/-- **The errors of a source of a schema are of the schema**, not of a document. -/
theorem Schema.allLocal_diagnostics (defined : String → Bool) (v : Value) :
    AllLocal (diagnostics defined v) := by
  induction v using Form.induction with
  | step v inside =>
  rw [diagnostics_eq]
  cases hf : Form.ofValue v with
  | error e => exact .singleton (Form.isLocal_of_ofValue hf)
  | ok form => exact Form.allLocal defined (inside form hf)

end TreeSchema
