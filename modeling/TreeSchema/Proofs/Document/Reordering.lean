import TreeSchema.Proofs.Document.RoundTrip
import TreeSchema.Proofs.Schema.Reordering

/-!
# Documents that differ in the order of labels and fields only

The labels of a source may be declared in any order, as each is read by itself, given only
which labels there are. Whether they are guarded is a matter of which label meets which.

* `Document.Reordered` — documents that are the same up to marks and the order of labels
  and fields.
* `Document.follows_ofSource`, `Document.follows_compile` — reading follows a reordering of
  the source, and so does compiling.
-/

namespace TreeSchema

namespace Document

variable {α β : Type}

/-- The documents are the same up to their marks and the order of labels and fields. -/
structure Reordered (d : Document α) (d' : Document β) : Prop where
  labels : d.labels.Matching Schema.Reordered d'.labels
  root : d.root.Reordered d'.root

namespace Reordered

variable {d : Document α} {d' : Document β}

theorem symm (h : d.Reordered d') : d'.Reordered d :=
  ⟨h.labels.swap.mono fun _ _ => Schema.Reordered.symm, h.root.symm⟩

/-- A label is in neither document or stands for related schemas. -/
theorem body? (h : d.Reordered d') (label : String) :
    (d.body? label = none ∧ d'.body? label = none) ∨
      ∃ n n', d.body? label = some n ∧ d'.body? label = some n' ∧ n.Reordered n' :=
  h.labels.get? label

theorem of_unmarked (h : d.unmarked.Reordered d'.unmarked) : d.Reordered d' := by
  refine ⟨⟨?_, ?_⟩, h.root.of_unmarked⟩
  · simpa [unmarked] using h.labels.keys
  · intro label n n' hn hn'
    refine .of_unmarked (h.labels.related label _ _ ?_ ?_)
    · rw [unmarked, Mapping.get?_map, hn, Option.map_some]
    · rw [unmarked, Mapping.get?_map, hn', Option.map_some]

end Reordered

/-! ### Reading -/

section

variable {fields others : Mapping Value}

theorem isCurrentVersion_eq_of_reordered {v w : Value} (h : v.Reordered w) :
    isCurrentVersion w = isCurrentVersion v := by
  cases h <;> rfl

theorem checkVersion_eq_of_matching (h : fields.Matching Value.Reordered others) :
    checkVersion others = checkVersion fields := by
  unfold checkVersion
  rcases h.get? versionKey with ⟨hv, hw⟩ | ⟨v, w, hv, hw, hvw⟩
  · rw [hv, hw]
  · rw [hv, hw, Option.all_some, Option.all_some, isCurrentVersion_eq_of_reordered hvw]

theorem follows_labelSources (h : fields.Matching Value.Reordered others) :
    Follows (Mapping.Matching Value.Reordered) (labelSources fields) (labelSources others) := by
  unfold labelSources
  rcases h.get? labelsKey with ⟨hv, hw⟩ | ⟨v, w, hv, hw, hvw⟩
  · rw [hv, hw]
    exact .ok ⟨fun _ => Iff.rfl, nofun⟩
  · rw [hv, hw]
    cases hvw with
    | @scalar v hs =>
      cases v with
      | mapping fields => cases hs
      | _ => exact .error
    | sequence => exact .error
    | mapping keys related => exact .ok ⟨keys, related⟩

theorem follows_rootSource (h : fields.Matching Value.Reordered others) :
    Follows Value.Reordered (rootSource fields) (rootSource others) := by
  unfold rootSource
  rcases h.get? schemaKey with ⟨hv, hw⟩ | ⟨v, w, hv, hw, hvw⟩
  · rw [hv]
    exact .error
  · rw [hv, hw]
    exact .ok hvw

end

section

variable {sources others : Mapping Value}

theorem sourceLabelHeads_eq_of_matching (h : sources.Matching Value.Reordered others) :
    sourceLabelHeads others = sourceLabelHeads sources := by
  funext label
  unfold sourceLabelHeads
  rcases h.get? label with ⟨hv, hw⟩ | ⟨v, w, hv, hw, hvw⟩
  · rw [hv, hw]
  · rw [hv, hw]
    exact (Schema.sourceHeads_eq_of_reordered hvw).symm

/-- Whether labels are guarded does not depend on their order. -/
theorem find?_isUnguarded_of_matching (h : sources.Matching Value.Reordered others)
    (guarded : sources.keys.find? (isUnguarded sources) = none) :
    others.keys.find? (isUnguarded others) = none := by
  refine List.find?_eq_none.mpr fun label hl hu => ?_
  obtain ⟨head, hh, walk⟩ := Search.mem_visit_iff.mp (isUnguarded_iff_mem_reach.mp hu)
  rw [sourceLabelHeads_eq_of_matching h] at hh walk
  refine guarded_of_find?_eq_none guarded label ((h.keys label).mpr hl) ?_
  exact Search.mem_visit_iff.mpr ⟨head, hh, walk.mono fun key => (h.keys key).mpr⟩

theorem contains_eq_of_matching (h : sources.Matching Value.Reordered others) :
    sources.contains = others.contains := by
  funext label
  rw [Bool.eq_iff_iff, Mapping.contains_iff, Mapping.contains_iff]
  exact h.keys label

theorem follows_readLabels (h : sources.Matching Value.Reordered others) :
    Follows (Mapping.Matching Schema.Reordered) (readLabels sources) (readLabels others) := by
  refine Mapping.follows_traverse h.keys fun label v w hv hw => ?_
  exact Schema.follows_within
    (Schema.follows_ofSource (contains_eq_of_matching h) (h.related label v w hv hw))

end

/-- **Reading a document follows a reordering of its source.** -/
theorem follows_ofSource {source source' : Value} (h : source.Reordered source') :
    Follows Reordered (ofSource source) (ofSource source') := by
  intro d hd
  obtain ⟨fields, rfl⟩ := exists_mapping_of_ofSource hd
  obtain ⟨fields', rfl, -, -⟩ := h.of_mapping
  have entries := Value.reordered_mapping_iff.mp h
  obtain ⟨version, sources, hs, guarded, labels, v, hv, root⟩ := ofSource_eq_ok_iff.mp hd
  obtain ⟨sources', hs', matching⟩ := follows_labelSources entries sources hs
  have guarded' := find?_isUnguarded_of_matching matching guarded
  obtain ⟨labels', hl', related⟩ := follows_readLabels matching d.labels labels
  obtain ⟨v', hv', hvv'⟩ := follows_rootSource entries v hv
  have reads : Follows Schema.Reordered
      (Schema.within schemaPath (Schema.ofSource sources.contains v))
      (Schema.within schemaPath (Schema.ofSource sources'.contains v')) :=
    Schema.follows_within (Schema.follows_ofSource (contains_eq_of_matching matching) hvv')
  obtain ⟨root', hr', rootRelated⟩ := reads d.root root
  refine ⟨⟨labels', root', guarded_of_readLabels (guarded_of_find?_eq_none guarded') hl'⟩,
    ofSource_eq_ok_iff.mpr ?_, related, rootRelated⟩
  exact ⟨(checkVersion_eq_of_matching entries).trans version, sources', hs', guarded', hl',
    v', hv', hr'⟩

/-- **Compiling follows a reordering of the source.** -/
theorem follows_compile {source source' : Value} (h : source.Reordered source') :
    Follows Reordered (compile source) (compile source') := by
  intro d hd
  obtain ⟨e, he, rfl⟩ := compile_eq_ok_iff.mp hd
  obtain ⟨e', he', related⟩ := follows_ofSource h e he
  refine ⟨e'.locate, compile_eq_ok_iff.mpr ⟨e', he', rfl⟩, .of_unmarked ?_⟩
  rwa [unmarked_locate, unmarked_locate]

end Document

end TreeSchema
