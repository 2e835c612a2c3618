import TreeSchema.Document.Equality
import TreeSchema.Proofs.Number.Integers
import TreeSchema.Proofs.Restriction.Fill
import TreeSchema.Proofs.Schema.RoundTrip

/-!
# Writing and reading documents

The canonical source of a compiled document compiles, and to that very document: numbers
and places of nodes are no part of the source, but the same schema is marked in the same way.

* `Document.unmarked`, `Document.unmarked_locate` — the document without its marks.
* `Document.ofSource_toSource` — the source of a document in which every reference has a
  target is read as the document without its marks.
* `Document.compile_toSource` — compiling what a compiled document is written as.
-/

namespace TreeSchema

/-! ### Documents without marks -/

namespace Document

variable {α : Type}

theorem labelHeads_map_unmarked (labels : Mapping (Schema α)) (label : String) :
    labelHeads (labels.map Schema.unmarked) label = labelHeads labels label := by
  unfold labelHeads
  rw [Mapping.get?_map]
  cases labels.get? label with
  | none => rfl
  | some body => exact Schema.heads_unmarked body

/-- The document without its marks. -/
def unmarked (d : Document α) : Document Unit where
  labels := d.labels.map Schema.unmarked
  root := d.root.unmarked
  guarded := by
    rw [Mapping.keys_map]
    exact d.guarded.congr fun label _ => (labelHeads_map_unmarked d.labels label).symm

theorem map_unmarked_locateLabels (labels : Mapping (Schema Unit)) :
    (locateLabels labels).map Schema.unmarked = labels := by
  apply Mapping.ext_entries
  rw [Mapping.entries_map, locateLabels, Mapping.entries_ofEntries, map_mapIdx]
  simp only [locateLabel, Schema.unmarked_locate]
  exact (mapIdx_eq_map labels.entries id).trans (List.map_id _)

/-- **Marking a document and forgetting the marks gives the document back.** -/
theorem unmarked_locate (d : Document Unit) : d.locate.unmarked = d := by
  obtain ⟨labels, root, guarded⟩ := d
  simp only [unmarked, locate, mk.injEq]
  exact ⟨map_unmarked_locateLabels labels, Schema.unmarked_locate _ _ root⟩

/-! ### The source of a document -/

/-- Nodes of a document whose references have targets refer to its labels. -/
theorem Complete.closed {d : Document α} (complete : d.Complete) {n : Schema α}
    (hn : n ∈ d.nodes) : n.Closed d.labels.keys := by
  induction n using Schema.parts_induction with
  | node mark rule ih =>
  refine .node ?_ ?_
  · rintro label rfl
    obtain ⟨body, hb⟩ := complete mark label hn
    exact Mapping.mem_keys_of_get? hb
  · intro part hp
    exact ih part hp (mem_nodes_of_mem_parts hn hp)

/-- The fields of the source of a document: the version, the labels if there are any, and
the root. -/
def sourceFields (d : Document α) : List (String × Value) :=
  (versionKey, .number 1) ::
    ((if d.labels.isEmpty then [] else [(labelsKey, .mapping (d.labels.map Schema.toSource))]) ++
      [(schemaKey, d.root.toSource)])

theorem toSource_eq (d : Document α) : d.toSource = .mapping (.ofList d.sourceFields) := by
  rw [toSource, sourceFields, Mapping.isEmpty, Mapping.keys_map]
  rfl

theorem nodup_sourceFields (d : Document α) : (d.sourceFields.map (·.1)).Nodup := by
  unfold sourceFields
  split <;> simp [versionKey, labelsKey, schemaKey]

theorem get?_sourceFields {d : Document α} {key : String} {v : Value}
    (h : (key, v) ∈ d.sourceFields) : (Mapping.ofList d.sourceFields).get? key = some v := by
  rwa [← Mapping.mem_entries_iff, Mapping.entries_ofList d.nodup_sourceFields]

theorem checkVersion_sourceFields (d : Document α) :
    checkVersion (.ofList d.sourceFields) = .ok () := by
  have current : isCurrentVersion (.number 1) = true := Binary64.beq_self (Binary64.ofInt_ne_nan 1)
  rw [checkVersion, get?_sourceFields (v := .number 1) List.mem_cons_self, Option.all_some,
    if_pos current]

theorem rootSource_sourceFields (d : Document α) :
    rootSource (.ofList d.sourceFields) = .ok d.root.toSource := by
  rw [rootSource, get?_sourceFields (v := d.root.toSource) (by simp [sourceFields])]

/-- Where the labels are left out, there are none. -/
theorem labelSources_sourceFields (d : Document α) :
    labelSources (.ofList d.sourceFields) = .ok (d.labels.map Schema.toSource) := by
  unfold labelSources
  by_cases h : d.labels.isEmpty = true
  · have absent : (Mapping.ofList d.sourceFields).get? labelsKey = none := by
      rw [Mapping.get?_eq_none_iff, ← Mapping.entries_map_fst,
        Mapping.entries_ofList d.nodup_sourceFields]
      simp [sourceFields, h, versionKey, labelsKey, schemaKey]
    have keys : (d.labels.map Schema.toSource).keys = [] := by
      rw [Mapping.keys_map]
      exact List.isEmpty_iff.mp h
    rw [absent]
    refine congrArg Except.ok (Mapping.ext_get? keys.symm fun key => ?_)
    rw [Mapping.get?_empty, eq_comm, Mapping.get?_eq_none_iff, keys]
    exact List.not_mem_nil
  · have present : (labelsKey, .mapping (d.labels.map Schema.toSource)) ∈ d.sourceFields := by
      simp [sourceFields, h]
    rw [get?_sourceFields present]

theorem readLabels_toSource {d : Document α} (complete : d.Complete) :
    readLabels (d.labels.map Schema.toSource) = .ok d.unmarked.labels := by
  refine Mapping.traverse_eq_ok_iff.mpr (Mapping.pointwise_map fun label body hb => ?_)
  have closed := complete.closed (mem_nodes_of_body? hb)
  rw [Schema.ofSource_toSource (fun label hl => ?_) closed]
  · rfl
  · rw [Mapping.contains_iff, Mapping.keys_map]
    exact hl

/-- **The source of a document is read back**, if every reference has a target. -/
theorem ofSource_toSource {d : Document α} (complete : d.Complete) :
    ofSource d.toSource = .ok d.unmarked := by
  have read := readLabels_toSource complete
  have unguarded : (d.labels.map Schema.toSource).keys.find?
      (isUnguarded (d.labels.map Schema.toSource)) = none := by
    have guarded : Search.Guarded (sourceLabelHeads (d.labels.map Schema.toSource))
        (d.labels.map Schema.toSource).keys := by
      rw [← Mapping.keys_of_traverse read]
      exact d.unmarked.guarded.congr fun label _ => labelHeads_of_readLabels read label
    refine List.find?_eq_none.mpr fun label hl h => ?_
    exact Bool.eq_false_iff.mp (isUnguarded_eq_false_of_guarded guarded hl) h
  rw [toSource_eq]
  refine ofSource_eq_ok_iff.mpr ⟨d.checkVersion_sourceFields, _, d.labelSources_sourceFields,
    unguarded, read, _, d.rootSource_sourceFields, ?_⟩
  rw [Schema.ofSource_toSource (fun label hl => ?_) (complete.closed d.root_mem_nodes)]
  · rfl
  · rw [Mapping.contains_iff, Mapping.keys_map]
    exact hl

end Document

/-! ### Documents are equal to themselves -/

theorem listsAgree_self {β : Type} {same : β → β → Bool} {xs : List β}
    (h : ∀ x ∈ xs, same x x = true) : listsAgree same xs xs = true := by
  rw [listsAgree, List.zip_eq_zipWith, List.zipWith_self]
  simpa using h

namespace Rule

variable {β γ : Type}

theorem isNaNFree_mapParts (rule : Rule β) (f : Nat → Path → (part : β) → part ∈ rule.parts → γ) :
    (rule.mapParts f).isNaNFree = rule.isNaNFree := by
  cases rule <;> rfl

/-- A rule is equal to itself, unless it is an enumeration with NaN for a member. -/
theorem equal_self [BEq β] [ReflBEq β] {rule : Rule β} (nan_free : rule.isNaNFree = true) :
    rule.equal rule = true := by
  cases rule with
  | enum members =>
    refine listsAgree_self fun member hm => Literal.toValue_beq_self ?_
    rintro rfl
    simp [isNaNFree, hm] at nan_free
  | object fields =>
    rw [equal]
    exact listsAgree_self fun e _ => by simp [Field.equal]
  | _ => simp [equal]

end Rule

namespace Document

theorem equal_self {d : Document Site} (nan_free : d.NaNFree) : d.equal d = true := by
  have nodes : listsAgree Schema.agrees d.nodes d.nodes = true := by
    refine listsAgree_self fun n hn => ?_
    have layer : n.layer.isNaNFree = true := (Rule.isNaNFree_mapParts _ _).trans (nan_free n hn)
    simp [Schema.agrees, Rule.equal_self layer]
  simp [equal, nodes]

/-- **Compiling what a compiled document is written as** gives the document, with the same
nodes at the same numbers and places, which is equal to itself as no enumeration has NaN for
a member. -/
theorem compile_toSource {source : Value} {d : Document Site} (h : compile source = .ok d)
    (nan_free : d.NaNFree) : compile d.toSource = .ok d ∧ d.equal d = true := by
  refine ⟨?_, equal_self nan_free⟩
  obtain ⟨e, -, rfl⟩ := compile_eq_ok_iff.mp h
  refine compile_eq_ok_iff.mpr ⟨e, ?_, rfl⟩
  rw [ofSource_toSource (complete_of_compile h), unmarked_locate]

/-- The fields of a source of folders of entries, which are folders themselves or files. -/
def folderFields : Mapping Value :=
  .ofList
    [(schemaKey,
        .sequence [.string "array", .string "string", .sequence [.string "ref", .string "entry"]]),
      (labelsKey, .mapping <| .ofList
        [("folder", .mapping <| .ofList
          [("kind", .sequence [.string "enum", .string "folder", .null]),
            ("entries",
              .sequence [.string "dictionary", .sequence [.string "ref", .string "entry"]])]),
          ("entry", .sequence [.string "oneof", .sequence [.string "ref", .string "folder"],
            .mapping <| .ofList [("size", .sequence [.string "optional", .string "number"])]])])]

/-- A name followed by entries. -/
def folders : Document Unit where
  labels := .ofList
    [("folder", .node () <| .object <| .ofList
      [("kind", ⟨false, .node () (.enum ⟨.string "folder", [.null]⟩)⟩),
        ("entries", ⟨false, .node () (.dictionary (.node () (.ref "entry")))⟩)]),
      ("entry", .node () <| .oneof ⟨.node () (.ref "folder"),
        [.node () <| .object <| .ofList [("size", ⟨true, .node () (.scalar .float)⟩)]]⟩)]
  root := .node () (.array [.node () (.scalar .string)] (.node () (.ref "entry")))
  guarded := of_decide_eq_true (by cbv)

theorem compile_folderFields : compile (.mapping folderFields) = .ok folders.locate :=
  compile_eq_ok_iff.mpr
    ⟨folders, ofSource_eq_ok_iff.mpr ⟨by cbv, _, rfl, by cbv, by cbv, _, rfl, by cbv⟩, rfl⟩

/-- A source that is not the canonical one: the version is left out, the root comes first,
and a type has its second name. Folders and entries refer to each other. -/
theorem compile_toSource_folders : compile (.mapping folderFields) = .ok folders.locate ∧
    folders.locate.NaNFree ∧ folders.locate.toSource ≠ .mapping folderFields ∧
    compile folders.locate.toSource = .ok folders.locate ∧
    folders.locate.equal folders.locate = true := by
  have nan_free : folders.locate.NaNFree := List.all_eq_true.mp (by cbv)
  refine ⟨compile_folderFields, nan_free, ?_, compile_toSource compile_folderFields nan_free⟩
  intro same
  have absent : folderFields.get? versionKey = none := by cbv
  rw [toSource_eq] at same
  rw [← Value.mapping.inj same, get?_sourceFields (v := .number 1) List.mem_cons_self] at absent
  cases absent

end Document

end TreeSchema
