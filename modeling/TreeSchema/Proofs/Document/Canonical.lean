import TreeSchema.Proofs.Document.Places
import TreeSchema.Proofs.Document.RoundTrip
import TreeSchema.Proofs.Schema.Canonical

/-!
# Compilation loses nothing

Every node of a compiled document is written as the fragment of the source at its place, with
the canonical names of types, and the document as the whole source without the keys that mean
nothing.

* `Document.canonicalSource` — the source of a document in its canonical form.
* `Document.atPath?_label`, `Document.atPath?_root` — the fragments of labels and of the root.
* `Document.toSource_of_compile` — **nodes and documents are written as what they were read
  from.**
-/

namespace TreeSchema.Document

/-! ### Canonical sources -/

/-- The labels of a source in its canonical form, if there are any. -/
def canonicalLabels (fields : Mapping Value) : List (String × Value) :=
  match fields.get? labelsKey with
  | some (.mapping sources) =>
    if sources.isEmpty then [] else [(labelsKey, .mapping (sources.map Value.canonical))]
  | _ => []

/-- The source of a document in its canonical form: the version, the labels if there are any,
and the root, with the canonical names of types. -/
def canonicalSource : Value → Value
  | .mapping fields =>
    .mapping <| .ofList <|
      (versionKey, .number 1) ::
        (canonicalLabels fields ++
          (fields.get? schemaKey).toList.map fun root => (schemaKey, root.canonical))
  | v => v

variable {fields sources : Mapping Value}

theorem rootSource_eq_ok_iff {v : Value} :
    rootSource fields = .ok v ↔ fields.get? schemaKey = some v := by
  unfold rootSource
  cases fields.get? schemaKey <;> simp

/-- The sources of labels stand under their key, unless there are none. -/
theorem labelSources_eq_ok {sources : Mapping Value} (h : labelSources fields = .ok sources) :
    fields.get? labelsKey = some (.mapping sources) ∨
      fields.get? labelsKey = none ∧ sources = ∅ := by
  unfold labelSources at h
  split at h
  · next absent =>
    cases h
    exact .inr ⟨absent, rfl⟩
  · next found =>
    cases h
    exact .inl found
  · cases h

theorem canonicalLabels_of_labelSources (h : labelSources fields = .ok sources) :
    canonicalLabels fields =
      if sources.isEmpty then [] else [(labelsKey, .mapping (sources.map Value.canonical))] := by
  rcases labelSources_eq_ok h with found | ⟨absent, rfl⟩
  · rw [canonicalLabels, found]
  · rw [canonicalLabels, absent]
    rfl

/-! ### Fragments -/

theorem atPath?_root {v : Value} (h : rootSource fields = .ok v) :
    (Value.mapping fields).atPath? schemaPath = some v := by
  simp [schemaPath, Value.atPath?, Value.child?, rootSource_eq_ok_iff.mp h]

theorem atPath?_label (h : labelSources fields = .ok sources) {label : String} {v : Value}
    (hv : sources.get? label = some v) :
    (Value.mapping fields).atPath? (labelPath label) = some v := by
  rcases labelSources_eq_ok h with found | ⟨-, rfl⟩
  · simp [labelPath, Value.atPath?, Value.child?, found, hv]
  · cases hv

/-- A node below a fragment is written as the fragment at its place. -/
theorem exists_fragment {source v : Value} {defined : String → Bool} {n : Schema Unit}
    {site : Site} {start : Nat} (found : source.atPath? site.origin = some v)
    (read : Schema.ofSource defined v = .ok n) {m : Node}
    (hm : m ∈ (n.locate site start).descendants ++ [n.locate site start]) :
    ∃ fragment, source.atPath? m.mark.origin = some fragment ∧
      m.toSource = fragment.canonical := by
  obtain ⟨path, fragment, origin, inner, read⟩ := Schema.exists_fragment_of_mem_locate read hm
  refine ⟨fragment, ?_, ?_⟩
  · rw [origin, Value.atPath?_append, found, Option.bind_some, inner]
  · rw [← m.toSource_unmarked, Schema.toSource_of_ofSource read]

/-! ### Writing -/

theorem toSource_unmarked {α : Type} (d : Document α) : d.unmarked.toSource = d.toSource := by
  have labels : d.unmarked.labels.map Schema.toSource = d.labels.map Schema.toSource := by
    rw [unmarked, Mapping.map_map]
    simp only [Schema.toSource_unmarked]
  rw [toSource, toSource, labels, unmarked, Schema.toSource_unmarked]

theorem toSource_locate (e : Document Unit) : e.locate.toSource = e.toSource := by
  rw [← toSource_unmarked, unmarked_locate]

/-- Labels are written as the canonical forms of their sources. -/
theorem toSource_of_readLabels {labels : Mapping (Schema Unit)}
    (h : readLabels sources = .ok labels) :
    labels.map Schema.toSource = sources.map Value.canonical := by
  have each := Mapping.traverse_eq_ok_iff.mp h
  refine (Mapping.Pointwise.eq_map ⟨?_, fun label v n hv hn => ?_⟩).symm
  · rw [each.keys, Mapping.keys_map]
  · obtain ⟨x, hx, read⟩ := each.exists_left hn
    rw [Mapping.get?_map, hx] at hv
    rw [Schema.toSource_of_ofSource (Schema.within_eq_ok read)]
    exact (Option.some.inj hv).symm

theorem toSource_of_ofSource {source : Value} {e : Document Unit} (h : ofSource source = .ok e) :
    e.toSource = canonicalSource source := by
  obtain ⟨fields, rfl⟩ := exists_mapping_of_ofSource h
  obtain ⟨-, sources, hs, -, hlabels, v, hv, hroot⟩ := ofSource_eq_ok_iff.mp h
  have root := Schema.toSource_of_ofSource (Schema.within_eq_ok hroot)
  rw [toSource, toSource_of_readLabels hlabels, root, canonicalSource,
    canonicalLabels_of_labelSources hs, rootSource_eq_ok_iff.mp hv]
  simp only [Mapping.isEmpty, Mapping.keys_map]
  rfl

/-- **Compilation loses nothing.** Every node is written as the fragment of the source at its
place, where no other node stands, and the document as the source in its canonical form. -/
theorem toSource_of_compile {source : Value} {d : Document Site} (h : compile source = .ok d) :
    (∀ n ∈ d.nodes, ∃ fragment, source.atPath? n.mark.origin = some fragment ∧
      n.toSource = fragment.canonical) ∧
    (d.nodes.map (·.mark.origin)).Nodup ∧
    d.toSource = canonicalSource source := by
  obtain ⟨e, he, rfl⟩ := compile_eq_ok_iff.mp h
  refine ⟨fun n hn => ?_, nodup_origins e, by rw [toSource_locate, toSource_of_ofSource he]⟩
  obtain ⟨fields, rfl⟩ := exists_mapping_of_ofSource he
  obtain ⟨-, sources, hs, -, hlabels, v, hv, hroot⟩ := ofSource_eq_ok_iff.mp he
  rcases List.mem_append.mp (e.locate.nodes_perm.mem_iff.mp hn) with hm | hm
  · obtain ⟨body, hb, hm⟩ := List.mem_flatMap.mp hm
    obtain ⟨label, i, n, hl, rfl⟩ := exists_of_mem_values hb
    obtain ⟨x, hx, read⟩ := (Mapping.traverse_eq_ok_iff.mp hlabels).exists_left hl
    exact exists_fragment (atPath?_label hs hx) (Schema.within_eq_ok read) hm
  · exact exists_fragment (atPath?_root hv) (Schema.within_eq_ok hroot) hm

/-- Folders are written with the version first, the labels next, and a type by its canonical
name; the members of an enumeration stay, one of which is null. -/
theorem toSource_of_compile_folders : compile (.mapping folderFields) = .ok folders.locate ∧
    (∀ n ∈ folders.locate.nodes, ∃ fragment,
      (Value.mapping folderFields).atPath? n.mark.origin = some fragment ∧
        n.toSource = fragment.canonical) ∧
    folders.locate.toSource = canonicalSource (.mapping folderFields) := by
  obtain ⟨fragments, -, whole⟩ := toSource_of_compile compile_folderFields
  exact ⟨compile_folderFields, fragments, whole⟩

end TreeSchema.Document
