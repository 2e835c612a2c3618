import TreeSchema.Proofs.Document.Arena
import TreeSchema.Proofs.Schema.Places

/-!
# The places of nodes

The labels of a document stand at places of their own in its source, and the root at another.
So a node of a compiled document is known by its place.

* `Document.nodup_origins` — **no two nodes of a document have one place.**
* `Document.eq_of_origin_eq` — nodes at one place are one node.
-/

namespace TreeSchema.Document

theorem apart_labelPath {label label' : String} (h : label ≠ label') :
    Path.Apart (labelPath label) (labelPath label') :=
  (Path.apart_cons_of_ne (by simpa using h) [] []).append_left [.key labelsKey]

theorem apart_labelPath_schemaPath (label : String) : Path.Apart (labelPath label) schemaPath :=
  Path.apart_cons_of_ne (by simp [labelsKey, schemaKey]) _ _

/-- The labels stand at their places. -/
theorem origins_labels (labels : Mapping (Schema Unit)) :
    (locateLabels labels).values.map (·.mark.origin) = labels.keys.map labelPath := by
  rw [values_locateLabels, map_mapIdx, ← Mapping.entries_map_fst, List.map_map]
  simp only [locateLabel, Schema.mark_locate]
  exact mapIdx_eq_map labels.entries fun e => labelPath e.1

/-- A label of a document is a schema located at its place. -/
theorem exists_of_mem_values {labels : Mapping (Schema Unit)} {body : Node}
    (h : body ∈ (locateLabels labels).values) :
    ∃ label i n, labels.get? label = some n ∧
      body = locateLabel (sizesBelow labels) i label n := by
  obtain ⟨label, hb⟩ := Mapping.mem_values_iff.mp h
  obtain ⟨i, n, hn, rfl⟩ := get?_locateLabels hb
  exact ⟨label, i, n, hn, rfl⟩

/-- **No two nodes of a document have one place.** -/
theorem nodup_origins (e : Document Unit) : (e.locate.nodes.map (·.mark.origin)).Nodup := by
  have labels : ∀ body ∈ e.locate.labels.values,
      (Schema.origins body).Nodup ∧ ∃ label, body.mark.origin = labelPath label ∧
        ∀ o ∈ Schema.origins body, labelPath label <+: o := by
    intro body hb
    obtain ⟨label, i, n, -, rfl⟩ := exists_of_mem_values hb
    exact ⟨Schema.nodup_origins_locate _ _ n, label, congrArg Site.origin (Schema.mark_locate _ _ n),
      fun o ho => Schema.prefix_of_mem_origins ho⟩
  rw [(e.locate.nodes_perm.map _).nodup_iff, List.map_append, List.map_flatMap, List.nodup_append]
  refine ⟨List.nodup_flatMap.mpr ⟨fun body hb => (labels body hb).1, ?_⟩,
    Schema.nodup_origins_locate _ _ e.root, ?_⟩
  · have apart : (e.locate.labels.values.map (·.mark.origin)).Pairwise Path.Apart := by
      refine (origins_labels e.labels).symm ▸ ?_
      rw [List.pairwise_map]
      exact e.labels.nodup.imp apart_labelPath
    rw [List.pairwise_map] at apart
    refine apart.imp_of_mem fun {b c} hb hc apart o ho ho' => ?_
    obtain ⟨-, label, origin, leads⟩ := labels b hb
    obtain ⟨-, label', origin', leads'⟩ := labels c hc
    rw [origin, origin'] at apart
    exact apart.not_both (leads o ho) (leads' o ho')
  · rintro o ho _ ho' rfl
    obtain ⟨body, hb, ho⟩ := List.mem_flatMap.mp ho
    obtain ⟨-, label, -, leads⟩ := labels body hb
    exact (apart_labelPath_schemaPath label).not_both (leads o ho)
      (Schema.prefix_of_mem_origins ho')

/-- Nodes at one place are one node. -/
theorem eq_of_origin_eq {e : Document Unit} {n m : Node} (hn : n ∈ e.locate.nodes)
    (hm : m ∈ e.locate.nodes) (same : n.mark.origin = m.mark.origin) : n = m :=
  List.inj_on_of_nodup_map (nodup_origins e) hn hm same

end TreeSchema.Document
