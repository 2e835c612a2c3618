import TreeSchema.Document.Recursion
import TreeSchema.Schema.Diagnostics
import TreeSchema.Schema.Source

/-!
# Documents and their sources

The source of a document is a mapping with the keys `spartan` (the version of
the format, 1, which may be left out), `let` (the labels, which may be left out)
and `schema` (the root). Other keys are ignored.

* `Document.ofSource` — reading, up to the first error. Labels that reach
  themselves by references and alternatives alone are looked for before any label
  is read.
* `Document.diagnostics`, `Document.isSchema` — all errors, and whether there is one.
* `Document.toSource` — the canonical source.
-/

namespace TreeSchema.Document

/-! ### The layout of a source -/

def versionKey : String := "spartan"
def labelsKey : String := "let"
def schemaKey : String := "schema"

/-- The place of the version in a source. -/
def versionPath : Path := [.key versionKey]

/-- The place of the labels in a source. -/
def labelsPath : Path := [.key labelsKey]

/-- The place of a label in a source. -/
def labelPath (label : String) : Path := [.key labelsKey, .key label]

/-- The place of the root schema in a source. -/
def schemaPath : Path := [.key schemaKey]

/-- The version is the number 1. -/
def isCurrentVersion : Value → Bool
  | .number n => n == 1
  | _ => false

/-- The version of a source, if it is given, is current. -/
def checkVersion (fields : Mapping Value) : Except SchemaError Unit :=
  if (fields.get? versionKey).all isCurrentVersion then .ok ()
  else .error ⟨.invalidVersion, versionPath⟩

/-- The sources of the labels. -/
def labelSources (fields : Mapping Value) : Except SchemaError (Mapping Value) :=
  match fields.get? labelsKey with
  | none => .ok ∅
  | some (.mapping sources) => .ok sources
  | some other => .error ⟨.invalidLetBlock other.kind, labelsPath⟩

/-- The source of the root schema. -/
def rootSource (fields : Mapping Value) : Except SchemaError Value :=
  match fields.get? schemaKey with
  | some v => .ok v
  | none => .error ⟨.missingSchema, []⟩

/-! ### Labels without a guard -/

/-- The error of a label that reaches itself by references and alternatives alone. -/
def unguardedError (label : String) : SchemaError :=
  ⟨.unguardedRecursion label, labelPath label⟩

theorem guarded_of_find?_eq_none {sources : Mapping Value}
    (h : sources.keys.find? (isUnguarded sources) = none) :
    Search.Guarded (sourceLabelHeads sources) sources.keys := by
  intro label hl hr
  have := List.find?_eq_none.mp h label hl
  exact this (isUnguarded_iff_mem_reach.mpr hr)

/-! ### Reading -/

/-- Reads the labels. -/
def readLabels (sources : Mapping Value) : Except SchemaError (Mapping (Schema Unit)) :=
  sources.traverse fun e _ =>
    Schema.within (labelPath e.1) (Schema.ofSource sources.contains e.2)

theorem labelHeads_of_readLabels {sources : Mapping Value} {labels : Mapping (Schema Unit)}
    (h : readLabels sources = .ok labels) (label : String) :
    labelHeads labels label = sourceLabelHeads sources label := by
  unfold labelHeads sourceLabelHeads
  cases hs : sources.get? label with
  | none =>
    have : labels.get? label = none := by
      rw [Mapping.get?_eq_none_iff, Mapping.keys_of_traverse h]
      exact Mapping.get?_eq_none_iff.mp hs
    rw [this]
    rfl
  | some v =>
    obtain ⟨n, hn, hg⟩ := Mapping.get?_of_traverse h (Mapping.mem_entries_iff.mpr hs)
    rw [hg]
    exact Schema.heads_of_ofSource (Schema.within_eq_ok hn)

/-- What is read from guarded labels is guarded. -/
theorem guarded_of_readLabels {sources : Mapping Value} {labels : Mapping (Schema Unit)}
    (hs : Search.Guarded (sourceLabelHeads sources) sources.keys)
    (h : readLabels sources = .ok labels) :
    Search.Guarded (labelHeads labels) labels.keys := by
  rw [Mapping.keys_of_traverse h]
  exact hs.congr fun label _ => (labelHeads_of_readLabels h label).symm

/-- Reads the document with the given labels, which are guarded, and root. -/
def readParts (sources : Mapping Value)
    (guarded : Search.Guarded (sourceLabelHeads sources) sources.keys)
    (root : Except SchemaError Value) : Except SchemaError (Document Unit) :=
  match h : readLabels sources with
  | .error e => .error e
  | .ok labels => do
    let root ← Schema.within schemaPath (Schema.ofSource sources.contains (← root))
    return ⟨labels, root, guarded_of_readLabels guarded h⟩

/-- Reads a document from its source. -/
def ofSource (source : Value) : Except SchemaError (Document Unit) :=
  match source with
  | .mapping fields => do
    checkVersion fields
    let sources ← labelSources fields
    match h : sources.keys.find? (isUnguarded sources) with
    | some label => throw (unguardedError label)
    | none => readParts sources (guarded_of_find?_eq_none h) (rootSource fields)
  | other => .error ⟨.invalidRoot other.kind, []⟩

/-! ### Checking -/

/-- The errors of a step that is not repeated. -/
def errorsOf {β : Type} : Except SchemaError β → List SchemaError
  | .ok _ => []
  | .error e => [e]

/-- The errors of a label: that it has no guard, and those of its source. -/
def labelDiagnostics (sources : Mapping Value) (label : String) (v : Value) :
    List SchemaError :=
  (if isUnguarded sources label then [unguardedError label] else []) ++
    Schema.errorsWithin (labelPath label) (Schema.diagnostics sources.contains v)

/-- The errors of the labels and of the root, in this order. -/
def partDiagnostics (sources : Mapping Value) (root : Except SchemaError Value) :
    List SchemaError :=
  (sources.entries.flatMap fun e => labelDiagnostics sources e.1 e.2) ++
    match root with
    | .error e => [e]
    | .ok v => Schema.errorsWithin schemaPath (Schema.diagnostics sources.contains v)

/-- Every error of a source. A source whose labels are no mapping has none defined. -/
def diagnostics (source : Value) : List SchemaError :=
  match source with
  | .mapping fields =>
    errorsOf (checkVersion fields) ++
      match labelSources fields with
      | .ok sources => partDiagnostics sources (rootSource fields)
      | .error e => e :: partDiagnostics ∅ (rootSource fields)
  | other => [⟨.invalidRoot other.kind, []⟩]

/-- The source is free of errors. -/
def isSchema (source : Value) : Bool :=
  match source with
  | .mapping fields =>
    (checkVersion fields).isOk &&
      match labelSources fields, rootSource fields with
      | .ok sources, .ok root =>
        (sources.entries.all fun e =>
          !isUnguarded sources e.1 && Schema.isWellFormed sources.contains e.2) &&
        Schema.isWellFormed sources.contains root
      | _, _ => false
  | _ => false

/-! ### Writing -/

/-- The canonical source of a document; the labels are left out if there are none. -/
def toSource {α : Type} (d : Document α) : Value :=
  let labels := d.labels.map Schema.toSource
  .mapping <| .ofList <|
    (versionKey, .number 1) ::
      ((if labels.isEmpty then [] else [(labelsKey, .mapping labels)]) ++
        [(schemaKey, d.root.toSource)])

end TreeSchema.Document
