import TreeSchema.Proofs.Document.Diagnostics
import TreeSchema.Proofs.Document.Grammar
import TreeSchema.Proofs.Number.Integers

/-!
# Diagnostics are faults

What checking lists for a source are the faults of its fragments: every error is a fault that the
fragment at its path shows in the role that it has there, and every fault of every fragment is
listed.

`errorsAt` is what checking does in each role, and `Arises` the layer that roles have in common:
an error is one of the fragment itself or of a part of it. The two agree for each role, so by
induction the errors are those of all fragments that the source contains.

* `Document.mem_errorsAt_iff` — **one layer**: the errors in a role arise from the fragment
  itself and from its parts.
* `Document.mem_errorsAt_iff_shows` — **all layers**: the errors are the faults of fragments.
* `Document.diagnostics_are_faults` — **diagnostics are the faults of a source.**
-/

namespace TreeSchema

/-! ### Lists of errors -/

namespace Schema

theorem mem_errorsWithin_iff {path : Path} {errors : List SchemaError} {e : SchemaError} :
    e ∈ errorsWithin path errors ↔ ∃ inner ∈ errors, inner.under path = e :=
  List.mem_map

theorem errorsWithin_errorsWithin (outer inner : Path) (errors : List SchemaError) :
    errorsWithin outer (errorsWithin inner errors) = errorsWithin (outer ++ inner) errors := by
  simp [errorsWithin, SchemaError.under, Function.comp_def]

@[simp] theorem errorsWithin_root (errors : List SchemaError) :
    errorsWithin [] errors = errors := by
  simp [errorsWithin, SchemaError.under]

end Schema

/-! ### Fields -/

namespace FieldForm

theorem ofValue_optional (arguments : List Value) :
    ofValue (Directive.optional.source arguments) =
      match arguments with
      | [type] => .ok ⟨true, type⟩
      | _ => .error ⟨.invalidArity .optional arguments.length, []⟩ := rfl

theorem ofValue_required {v : Value}
    (always : ∀ arguments, v ≠ Directive.optional.source arguments) :
    ofValue v = .ok ⟨false, v⟩ := by
  unfold ofValue
  split
  · next word arguments =>
    rw [if_neg]
    rintro rfl
    exact always arguments rfl
  · rfl

end FieldForm

open Schema (errorsWithin)

namespace Document

/-! ### Errors by role -/

/-- The errors of a field of an object. -/
def fieldErrors (labels : Mapping Value) (v : Value) : List SchemaError :=
  match FieldForm.ofValue v with
  | .error e => [e]
  | .ok field =>
    errorsWithin (if field.optional then Rule.argumentPath 0 else [])
      (Schema.diagnostics labels.contains field.type)

/-- The errors of the word that heads a directive. -/
def headErrors : Value → List SchemaError
  | .string word =>
    if (Directive.ofName? word).isSome then [] else [⟨.unknownDirective word, []⟩]
  | other => [⟨.invalidDirective other.kind, []⟩]

/-- The errors of the argument of a reference. -/
def labelErrors (labels : Mapping Value) : Value → List SchemaError
  | .string label => if labels.contains label then [] else [⟨.undefinedLabel label, []⟩]
  | other => [⟨.invalidReference other.kind, []⟩]

/-- The errors of the source of a label. -/
def bodyErrors (labels : Mapping Value) (label : String) (v : Value) : List SchemaError :=
  (if isUnguarded labels label then [⟨.unguardedRecursion label, []⟩] else []) ++
    Schema.diagnostics labels.contains v

/-- The errors of what should be a mapping of labels. -/
def labelsErrors (labels : Mapping Value) : Value → List SchemaError
  | .mapping sources =>
    sources.entries.flatMap fun e => errorsWithin [.key e.1] (bodyErrors labels e.1 e.2)
  | other => [⟨.invalidLetBlock other.kind, []⟩]

/-- The errors of a version. -/
def versionErrors (v : Value) : List SchemaError :=
  if isCurrentVersion v then [] else [⟨.invalidVersion, []⟩]

/-- The errors of the source of a document. -/
def documentErrors (labels : Mapping Value) : Value → List SchemaError
  | .mapping fields =>
    ((fields.get? versionKey).elim [] fun v => errorsWithin versionPath (versionErrors v)) ++
      ((fields.get? labelsKey).elim [] fun v =>
        errorsWithin labelsPath (labelsErrors labels v)) ++
      (fields.get? schemaKey).elim [⟨.missingSchema, []⟩] fun v =>
        errorsWithin schemaPath (Schema.diagnostics labels.contains v)
  | other => [⟨.invalidRoot other.kind, []⟩]

/-- The errors of a fragment in its role, where the given labels are defined. -/
def errorsAt (labels : Mapping Value) : Role → Value → List SchemaError
  | .document, v => documentErrors labels v
  | .version, v => versionErrors v
  | .labels, v => labelsErrors labels v
  | .body label, v => bodyErrors labels label v
  | .type, v => Schema.diagnostics labels.contains v
  | .field, v => fieldErrors labels v
  | .head, v => headErrors v
  | .member, v => if (Literal.ofValue? v).isSome then [] else [⟨.invalidEnumMember v.kind, []⟩]
  | .label, v => labelErrors labels v

/-- The error is of the fragment itself or of a part of it. -/
inductive Arises (labels : Mapping Value) (role : Role) (v : Value) : SchemaError → Prop
  | own {fault : Fault} (shows : Shows labels role v fault) : Arises labels role v ⟨fault, []⟩
  | part {q : Path} {role' : Role} {w : Value} {e : SchemaError} (part : Part role v q role' w)
      (mem : e ∈ errorsAt labels role' w) : Arises labels role v (e.under q)

variable {labels : Mapping Value} {role role' : Role} {v w : Value} {q : Path}
  {e : SchemaError} {fault : Fault}

theorem Arises.of_mem_singleton (shows : Shows labels role v fault)
    (h : e ∈ [(⟨fault, []⟩ : SchemaError)]) : Arises labels role v e := by
  rw [List.mem_singleton.mp h]
  exact .own shows

theorem Arises.of_mem_within (part : Part role v q role' w)
    (h : e ∈ errorsWithin q (errorsAt labels role' w)) : Arises labels role v e := by
  obtain ⟨inner, mem, rfl⟩ := Schema.mem_errorsWithin_iff.mp h
  exact .part part mem

/-! ### Conditions that checking decides -/

theorem isCurrentVersion_iff : isCurrentVersion v = true ↔ v = .number 1 := by
  cases v with
  | number n =>
    rw [Value.number.injEq]
    exact Binary64.beq_ofInt_iff (n := 1) (by decide) (by decide)
  | _ => simp [isCurrentVersion]

theorem isSome_ofTypeName?_iff {name : String} :
    name = "any" ∨ (ScalarType.ofName? name).isSome = true ↔ name ∈ typeNames := by
  constructor
  · rintro (rfl | known)
    · simp [typeNames]
    · obtain ⟨type, known⟩ := Option.isSome_iff_exists.mp known
      rcases ScalarType.name_of_ofName? known with rfl | ⟨rfl, -⟩
      · cases type <;> simp [typeNames, ScalarType.name]
      · simp [typeNames]
  · intro h
    simp only [typeNames, List.mem_cons, List.not_mem_nil, or_false] at h
    rcases h with rfl | rfl | rfl | rfl | rfl | rfl | rfl | rfl | rfl
    · exact .inl rfl
    all_goals exact .inr rfl

theorem isSome_ofName?_iff {word : String} :
    (Directive.ofName? word).isSome = true ↔ ∃ directive : Directive, word = directive.name := by
  rw [Option.isSome_iff_exists]
  apply exists_congr
  intro directive
  constructor
  · exact Directive.eq_name_of_ofName?
  · rintro rfl
    exact directive.ofName?_name

theorem isSome_ofValue?_iff :
    (Literal.ofValue? v).isSome = true ↔ v.kind ∈ [.null, .bool, .number, .string] := by
  cases v <;> simp [Literal.ofValue?, Value.kind]

/-! ### Types, by their outermost form -/

theorem diagnostics_string (name : String) :
    Schema.diagnostics labels.contains (.string name) =
      if name ∈ typeNames then [] else [⟨.unknownType name, []⟩] := by
  rw [Schema.diagnostics_eq, Form.ofValue, Form.ofName]
  simp only [← isSome_ofTypeName?_iff]
  by_cases any : name = "any"
  · simp [any, Form.diagnostics]
  · cases known : ScalarType.ofName? name with
    | some type => simp [any, Form.diagnostics]
    | none =>
      simp [any]
      rfl

theorem diagnostics_unheaded {first : Value} {arguments : List Value}
    (unheaded : ∀ directive : Directive, first ≠ .string directive.name) :
    Schema.diagnostics labels.contains (.sequence (first :: arguments)) =
      errorsWithin [.index 0] (errorsAt labels .head first) := by
  rw [Schema.diagnostics_eq]
  cases first with
  | string word =>
    have unknown : Directive.ofName? word = none := by
      rw [← Option.isNone_iff_eq_none, ← Option.not_isSome, Bool.not_eq_true',
        ← Bool.not_eq_true, isSome_ofName?_iff]
      rintro ⟨directive, rfl⟩
      exact unheaded directive rfl
    simp only [Form.ofValue, Form.ofItems, unknown, errorsAt, headErrors]
    rfl
  | _ => rfl

theorem diagnostics_optional (arguments : List Value) :
    Schema.diagnostics labels.contains (Directive.optional.source arguments) =
      [⟨.misplacedOptional, []⟩] := by
  rw [Schema.diagnostics_eq]
  rfl

/-- **The errors of a directive** are those of its arguments in their role, if it takes so many. -/
theorem diagnostics_directive {directive : Directive} (placed : directive ≠ .optional)
    (arguments : List Value) :
    Schema.diagnostics labels.contains (directive.source arguments) =
      if directive.takes arguments.length then
        (arguments.mapIdx fun i x => errorsWithin (Rule.argumentPath i)
          (errorsAt labels directive.argumentRole x)).flatten
      else [⟨.invalidArity directive arguments.length, []⟩] := by
  rw [Schema.diagnostics_eq]
  cases directive with
  | optional => exact absurd rfl placed
  | tuple | array | oneof =>
    cases arguments with
    | nil => rfl
    | cons first others =>
      rw [if_pos (by simp [Directive.takes])]
      rfl
  | enum =>
    cases arguments with
    | nil => rfl
    | cons first others =>
      have member : Schema.memberErrors = fun i x =>
          errorsWithin (Rule.argumentPath i) (errorsAt labels .member x) := by
        funext i x
        rw [Schema.memberErrors, errorsAt]
        split <;> rfl
      rw [if_pos (by simp [Directive.takes])]
      exact congrArg (fun f => ((first :: others).mapIdx f).flatten) member
  | dictionary =>
    rcases arguments with _ | ⟨x, _ | ⟨y, rest⟩⟩
    · rfl
    · exact (List.append_nil _).symm
    · rw [if_neg (by simp [Directive.takes])]
      rfl
  | ref =>
    rcases arguments with _ | ⟨x, _ | ⟨y, rest⟩⟩
    · rfl
    · cases x with
      | string label =>
        show (if labels.contains label then []
            else [⟨.undefinedLabel label, Rule.argumentPath 0⟩]) =
          errorsWithin (Rule.argumentPath 0)
            (if labels.contains label then [] else [⟨.undefinedLabel label, []⟩]) ++ []
        split <;> rfl
      | _ => rfl
    · rw [if_neg (by simp [Directive.takes])]
      cases x <;> rfl

theorem diagnostics_object (fields : Mapping Value) :
    Schema.diagnostics labels.contains (.mapping fields) =
      fields.entries.flatMap fun e => errorsWithin [.key e.1] (errorsAt labels .field e.2) := by
  rw [Schema.diagnostics_eq]
  show fields.entries.flatMap _ = _
  congr 1
  funext e
  rw [FieldForm.diagnostics, errorsAt, fieldErrors]
  cases FieldForm.ofValue e.2 with
  | error error => rfl
  | ok field =>
    simp only [Schema.errorsWithin_errorsWithin]
    rfl

/-! ### One layer: every error arises -/

theorem arises_of_mem_diagnostics (h : e ∈ Schema.diagnostics labels.contains v) :
    Arises labels .type v e := by
  cases v with
  | null => simp [Schema.diagnostics_eq, Form.ofValue, Form.diagnostics] at h
  | string name =>
    rw [diagnostics_string] at h
    split at h
    · cases h
    · next unknown => exact .of_mem_singleton (.unknownType unknown) h
  | mapping fields =>
    rw [diagnostics_object] at h
    obtain ⟨entry, mem, h⟩ := List.mem_flatMap.mp h
    exact .of_mem_within (.field (Mapping.get?_of_mem_entries mem)) h
  | sequence items =>
    cases items with
    | nil => exact .of_mem_singleton .emptyDirective (by rwa [Schema.diagnostics_eq] at h)
    | cons first arguments =>
      by_cases headed : ∃ directive : Directive, first = .string directive.name
      · obtain ⟨directive, rfl⟩ := headed
        change e ∈ Schema.diagnostics labels.contains (directive.source arguments) at h
        by_cases placed : directive = .optional
        · subst placed
          rw [diagnostics_optional] at h
          exact .of_mem_singleton .misplacedOptional h
        · rw [diagnostics_directive placed] at h
          split at h
          · next arity =>
            obtain ⟨i, x, found, h⟩ := mem_flatten_mapIdx_iff.mp h
            exact .of_mem_within (.argument placed arity found) h
          · next arity =>
            exact .of_mem_singleton (.invalidArity placed (by simpa using arity)) h
      · rw [diagnostics_unheaded (not_exists.mp headed)] at h
        exact .of_mem_within .head h
  | _ =>
    rw [Schema.diagnostics_eq] at h
    exact .of_mem_singleton (.invalidShape (by simp [Value.kind])) h

theorem arises_of_mem_fieldErrors (h : e ∈ fieldErrors labels v) : Arises labels .field v e := by
  rw [fieldErrors] at h
  by_cases optional : ∃ arguments, v = Directive.optional.source arguments
  · obtain ⟨arguments, rfl⟩ := optional
    rw [FieldForm.ofValue_optional] at h
    rcases arguments with _ | ⟨x, _ | ⟨y, rest⟩⟩
    · exact .of_mem_singleton (.optionalArity rfl) h
    · exact .of_mem_within .optional h
    · exact .of_mem_singleton (.optionalArity (by simp [Directive.takes])) h
  · have always := not_exists.mp optional
    rw [FieldForm.ofValue_required always] at h
    exact .of_mem_within (.required always) h

theorem arises_of_mem_headErrors (h : e ∈ headErrors v) : Arises labels .head v e := by
  cases v with
  | string word =>
    rw [headErrors] at h
    split at h
    · cases h
    · next unknown =>
      rw [isSome_ofName?_iff, not_exists] at unknown
      exact .of_mem_singleton (.unknownDirective unknown) h
  | _ => exact .of_mem_singleton (.invalidDirective (by simp [Value.kind])) h

theorem arises_of_mem_labelErrors (h : e ∈ labelErrors labels v) : Arises labels .label v e := by
  cases v with
  | string label =>
    rw [labelErrors] at h
    split at h
    · cases h
    · next undefined =>
      exact .of_mem_singleton (.undefinedLabel (mt Mapping.contains_iff.mpr undefined)) h
  | _ => exact .of_mem_singleton (.invalidReference (by simp [Value.kind])) h

theorem arises_of_mem_bodyErrors {label : String} (h : e ∈ bodyErrors labels label v) :
    Arises labels (.body label) v e := by
  rcases List.mem_append.mp h with h | h
  · split at h
    · next unguarded =>
      exact .of_mem_singleton (.unguardedRecursion (isUnguarded_iff.mp unguarded)) h
    · cases h
  · apply Arises.of_mem_within .definition
    rwa [Schema.errorsWithin_root]

theorem arises_of_mem_labelsErrors (h : e ∈ labelsErrors labels v) :
    Arises labels .labels v e := by
  cases v with
  | mapping sources =>
    obtain ⟨entry, mem, h⟩ := List.mem_flatMap.mp h
    exact .of_mem_within (.body (Mapping.get?_of_mem_entries mem)) h
  | _ => exact .of_mem_singleton (.invalidLetBlock (by simp [Value.kind])) h

theorem arises_of_mem_documentErrors (h : e ∈ documentErrors labels v) :
    Arises labels .document v e := by
  cases v with
  | mapping fields =>
    rw [documentErrors, List.mem_append, List.mem_append] at h
    rcases h with (h | h) | h
    · cases found : fields.get? versionKey with
      | none => simp [found] at h
      | some version => exact .of_mem_within (.version found) (by simpa [found, errorsAt] using h)
    · cases found : fields.get? labelsKey with
      | none => simp [found] at h
      | some sources => exact .of_mem_within (.labels found) (by simpa [found, errorsAt] using h)
    · cases found : fields.get? schemaKey with
      | none => exact .of_mem_singleton (.missingSchema found) (by simpa [found] using h)
      | some root => exact .of_mem_within (.root found) (by simpa [found, errorsAt] using h)
  | _ => exact .of_mem_singleton (.invalidRoot (by simp [Value.kind])) h

theorem arises_of_mem_errorsAt (h : e ∈ errorsAt labels role v) : Arises labels role v e := by
  cases role with
  | document => exact arises_of_mem_documentErrors h
  | version =>
    rw [errorsAt, versionErrors] at h
    split at h
    · cases h
    · next other => exact .of_mem_singleton (.invalidVersion (mt isCurrentVersion_iff.mpr other)) h
  | labels => exact arises_of_mem_labelsErrors h
  | body label => exact arises_of_mem_bodyErrors h
  | type => exact arises_of_mem_diagnostics h
  | field => exact arises_of_mem_fieldErrors h
  | head => exact arises_of_mem_headErrors h
  | member =>
    rw [errorsAt] at h
    split at h
    · cases h
    · next other =>
      exact .of_mem_singleton (.invalidEnumMember (mt isSome_ofValue?_iff.mpr other)) h
  | label => exact arises_of_mem_labelErrors h

/-! ### One layer: nothing is left out -/

theorem mem_errorsAt_of_shows (h : Shows labels role v fault) :
    (⟨fault, []⟩ : SchemaError) ∈ errorsAt labels role v := by
  cases h with
  | invalidRoot kind | invalidLetBlock kind =>
    cases v with
    | mapping => exact absurd rfl kind
    | _ => exact List.mem_singleton_self _
  | invalidDirective kind | invalidReference kind =>
    cases v with
    | string => exact absurd rfl kind
    | _ => exact List.mem_singleton_self _
  | missingSchema missing => simp [errorsAt, documentErrors, missing]
  | invalidVersion other =>
    rw [errorsAt, versionErrors, if_neg (mt isCurrentVersion_iff.mp other)]
    exact List.mem_singleton_self _
  | unguardedRecursion cycle =>
    rw [errorsAt, bodyErrors, if_pos (isUnguarded_iff.mpr cycle)]
    exact List.mem_cons_self
  | unknownType unknown =>
    rw [errorsAt, diagnostics_string, if_neg unknown]
    exact List.mem_singleton_self _
  | invalidShape kind =>
    rw [errorsAt, Schema.diagnostics_eq]
    cases v with
    | null | string | sequence | mapping => exact absurd (by simp [Value.kind]) kind
    | _ => exact List.mem_singleton_self _
  | emptyDirective =>
    rw [errorsAt, Schema.diagnostics_eq]
    exact List.mem_singleton_self _
  | unknownDirective unknown =>
    rw [errorsAt, headErrors, if_neg]
    · exact List.mem_singleton_self _
    · rw [isSome_ofName?_iff, not_exists]
      exact unknown
  | invalidArity placed arity =>
    rw [errorsAt, diagnostics_directive placed, arity]
    exact List.mem_singleton_self _
  | @optionalArity arguments arity =>
    rw [errorsAt, fieldErrors, FieldForm.ofValue_optional]
    rcases arguments with _ | ⟨x, _ | ⟨y, rest⟩⟩
    · exact List.mem_singleton_self _
    · cases arity
    · exact List.mem_singleton_self _
  | misplacedOptional =>
    rw [errorsAt, diagnostics_optional]
    exact List.mem_singleton_self _
  | invalidEnumMember kind =>
    rw [errorsAt, if_neg (mt isSome_ofValue?_iff.mp kind)]
    exact List.mem_singleton_self _
  | undefinedLabel undefined =>
    rw [errorsAt, labelErrors, if_neg (mt Mapping.contains_iff.mp undefined)]
    exact List.mem_singleton_self _

theorem errorsWithin_subset_of_part (h : Part role v q role' w) :
    errorsWithin q (errorsAt labels role' w) ⊆ errorsAt labels role v := by
  intro e he
  cases h with
  | version found | labels found | root found =>
    rw [errorsAt, documentErrors, List.mem_append, List.mem_append, found]
    tauto
  | body found =>
    exact List.mem_flatMap.mpr ⟨_, Mapping.mem_entries_iff.mpr found, he⟩
  | definition =>
    rw [Schema.errorsWithin_root] at he
    exact List.mem_append_right _ he
  | @head arguments =>
    rw [errorsAt, diagnostics_unheaded]
    · exact he
    · rintro directive rfl
      simp [errorsAt, headErrors, Directive.ofName?_name, errorsWithin] at he
  | argument placed arity found =>
    rw [errorsAt, diagnostics_directive placed, if_pos arity]
    exact mem_flatten_mapIdx_iff.mpr ⟨_, _, found, he⟩
  | field found =>
    rw [errorsAt, diagnostics_object]
    exact List.mem_flatMap.mpr ⟨_, Mapping.mem_entries_iff.mpr found, he⟩
  | required always =>
    rw [errorsAt, fieldErrors, FieldForm.ofValue_required always]
    exact he
  | optional => exact he

/-- **The errors in a role arise from the fragment itself and from its parts.** -/
theorem mem_errorsAt_iff : e ∈ errorsAt labels role v ↔ Arises labels role v e := by
  constructor
  · exact arises_of_mem_errorsAt
  · intro h
    cases h with
    | own shows => exact mem_errorsAt_of_shows shows
    | part part mem =>
      exact errorsWithin_subset_of_part part (Schema.mem_errorsWithin_iff.mpr ⟨_, mem, rfl⟩)

/-! ### All layers -/

theorem exists_shows_of_mem_errorsAt (h : e ∈ errorsAt labels role v) :
    ∃ role' w, Contains role v e.path role' w ∧ Shows labels role' w e.fault := by
  induction size : weight role v using Nat.strongRecOn generalizing role v e with
  | ind _ ih =>
  subst size
  cases mem_errorsAt_iff.mp h with
  | own shows => exact ⟨role, v, .here, shows⟩
  | part part mem =>
    obtain ⟨role', w, rest, shows⟩ := ih _ part.weight_lt mem rfl
    exact ⟨role', w, .step part rest, shows⟩

theorem mem_errorsAt_of_contains {p : Path} (h : Contains role v p role' w)
    (shows : Shows labels role' w fault) :
    (⟨fault, p⟩ : SchemaError) ∈ errorsAt labels role v := by
  induction h with
  | here => exact mem_errorsAt_of_shows shows
  | step part _ ih => exact mem_errorsAt_iff.mpr (.part part (ih shows))

/-- **The errors in a role are the faults of the fragments that are contained.** -/
theorem mem_errorsAt_iff_shows : e ∈ errorsAt labels role v ↔
    ∃ role' w, Contains role v e.path role' w ∧ Shows labels role' w e.fault := by
  constructor
  · exact exists_shows_of_mem_errorsAt
  · rintro ⟨role', w, contains, shows⟩
    exact mem_errorsAt_of_contains contains shows

/-! ### Documents -/

theorem partDiagnostics_eq_append (sources fields : Mapping Value) :
    partDiagnostics sources (rootSource fields) =
      errorsWithin labelsPath (labelsErrors sources (.mapping sources)) ++
        (fields.get? schemaKey).elim [⟨.missingSchema, []⟩] fun v =>
          errorsWithin schemaPath (Schema.diagnostics sources.contains v) := by
  rw [partDiagnostics_eq]
  congr 1
  · simp only [labelsErrors, errorsWithin, List.map_flatMap]
    congr 1
    funext entry
    rw [labelDiagnostics, bodyErrors, List.map_append, List.map_append]
    congr 1
    · split <;> rfl
    · simp [errorsWithin, SchemaError.under, labelPath, labelsPath, Function.comp_def]
  · unfold rootDiagnostics rootSource
    cases fields.get? schemaKey <;> rfl

/-- **Checking a source** lists the errors that it has as a document. -/
theorem diagnostics_eq_errorsAt (source : Value) :
    diagnostics source = errorsAt (definedLabels source) .document source := by
  cases source with
  | mapping fields =>
    have version : errorsOf (checkVersion fields) =
        (fields.get? versionKey).elim [] fun v => errorsWithin versionPath (versionErrors v) := by
      rw [checkVersion]
      cases fields.get? versionKey with
      | none => rfl
      | some v =>
        simp only [Option.all_some, Option.elim_some, versionErrors]
        split <;> rfl
    rw [diagnostics, errorsAt, documentErrors, definedLabels, version, List.append_assoc]
    congr 1
    unfold labelSources
    cases fields.get? labelsKey with
    | none => exact partDiagnostics_eq_append ∅ fields
    | some v =>
      cases v with
      | mapping sources => exact partDiagnostics_eq_append sources fields
      | _ => exact congrArg (_ :: ·) (partDiagnostics_eq_append ∅ fields)
  | _ => rfl

/-- What compiling stops at is one of the errors that checking lists. -/
theorem mem_diagnostics_of_compile {source : Value} (h : compile source = .error e) :
    e ∈ diagnostics source := by
  apply mem_of_decisive?
  rw [decisive?_diagnostics]
  rw [compile] at h
  cases read : ofSource source with
  | error e' =>
    rw [read] at h
    cases h
    rfl
  | ok d =>
    rw [read] at h
    cases h

/-- Following the path of the error in the source leads to a fragment that shows the fault in
the role that it has there. -/
def IsFault (source : Value) (e : SchemaError) : Prop :=
  ∃ role v, Contains .document source e.path role v ∧ source.atPath? e.path = some v ∧
    Shows (definedLabels source) role v e.fault

/-- **Diagnostics are the faults of a source**, each located at the fragment that shows it, and
what compiling stops at is one of them. -/
theorem diagnostics_are_faults (source : Value) :
    (∀ e, e ∈ diagnostics source ↔ IsFault source e) ∧
      ∀ e, compile source = .error e → IsFault source e := by
  have listed : ∀ e, e ∈ diagnostics source ↔ IsFault source e := by
    intro e
    rw [diagnostics_eq_errorsAt, mem_errorsAt_iff_shows]
    constructor
    · rintro ⟨role, v, contains, shows⟩
      exact ⟨role, v, contains, contains.atPath?_eq, shows⟩
    · rintro ⟨role, v, contains, -, shows⟩
      exact ⟨role, v, contains, shows⟩
  apply And.intro listed
  intro e h
  exact (listed e).mp (mem_diagnostics_of_compile h)

/-- A source with faults of seven kinds. Its version is a text. -/
def untidySource : Value :=
  .mapping <| .ofList
    [(versionKey, .string "1"),
      (labelsKey, .mapping <| .ofList
        [("knot", .sequence
          [.string "oneof", .string "null", .sequence [.string "ref", .string "knot"]]),
          ("leaf", .mapping <| .ofList
            [("note", .sequence [.string "optional"]),
              ("kind", .sequence [.string "enum", .string "oak", .sequence []])])]),
      (schemaKey, .sequence
        [.string "tuple",
          .sequence [.string "array", .sequence [.string "ref", .string "twig"]],
          .mapping <| .ofList [("age", .sequence [.string "optional", .string "int"])],
          .sequence []])]

/-- Its errors, in the order of the source. -/
def untidyErrors : List SchemaError :=
  [⟨.invalidVersion, versionPath⟩,
    ⟨.unguardedRecursion "knot", labelPath "knot"⟩,
    ⟨.invalidArity .optional 0, [.key labelsKey, .key "leaf", .key "note"]⟩,
    ⟨.invalidEnumMember .sequence, [.key labelsKey, .key "leaf", .key "kind", .index 2]⟩,
    ⟨.undefinedLabel "twig", [.key schemaKey, .index 1, .index 1, .index 1]⟩,
    ⟨.unknownType "int", [.key schemaKey, .index 2, .key "age", .index 1]⟩,
    ⟨.emptyDirective, [.key schemaKey, .index 3]⟩]

theorem faults_untidySource :
    diagnostics untidySource = untidyErrors ∧
      (∀ e ∈ diagnostics untidySource, IsFault untidySource e) ∧
      compile untidySource = .error ⟨.invalidVersion, versionPath⟩ ∧
      IsFault untidySource ⟨.invalidVersion, versionPath⟩ := by
  obtain ⟨listed, stopped⟩ := diagnostics_are_faults untidySource
  have stops : compile untidySource = .error ⟨.invalidVersion, versionPath⟩ := by cbv
  exact ⟨by cbv, fun e h => (listed e).mp h, stops, stopped _ stops⟩

end Document

end TreeSchema
