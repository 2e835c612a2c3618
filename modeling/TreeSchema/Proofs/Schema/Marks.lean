import TreeSchema.Proofs.Schema.RoundTrip

/-!
# Other marks

A schema with other marks is the same tree of rules. A function of the marks gives such a
schema, and any two schemas that are the same without their marks are the same with one mark
everywhere.

* `Schema.mapMarks` — a function applied to every mark.
* `Schema.mapMarks_const_of_unmarked_eq` — schemas that differ in their marks only.
-/

namespace TreeSchema

variable {α β γ : Type}

namespace Rule

theorem map_map (rule : Rule α) (f : α → β) (g : β → γ) :
    (rule.map f).map g = rule.map fun part => g (f part) := by
  rw [← mapParts_eq_map rule f]
  exact map_mapParts rule _ fun _ _ _ _ => rfl

theorem map_congr {rule : Rule α} {f g : α → β} (h : ∀ part ∈ rule.parts, f part = g part) :
    rule.map f = rule.map g := by
  cases rule with
  | object fields =>
    rw [map, map]
    congr 1
    apply Mapping.ext_entries
    rw [Mapping.entries_map, Mapping.entries_map]
    refine List.map_congr_left fun e he => ?_
    rw [h e.2.type (mem_parts_object he)]
  | array initial rest =>
    have same : initial.map f = initial.map g :=
      List.map_congr_left fun part hp => h part (mem_parts_initial hp)
    rw [map, map, same, h rest (mem_parts_rest initial rest)]
  | tuple elements =>
    have others : elements.others.map f = elements.others.map g :=
      List.map_congr_left fun part hp => h part (mem_parts_tuple (elements.other_mem hp))
    rw [map, map, OneOrMore.map, OneOrMore.map, others,
      h elements.first (mem_parts_tuple elements.first_mem)]
  | dictionary values => rw [map, map, h values (mem_parts_dictionary values)]
  | oneof alternatives =>
    have others : alternatives.others.map f = alternatives.others.map g :=
      List.map_congr_left fun part hp => h part (mem_parts_oneof (alternatives.other_mem hp))
    rw [map, map, OneOrMore.map, OneOrMore.map, others,
      h alternatives.first (mem_parts_oneof alternatives.first_mem)]
  | _ => rfl

theorem itemAt_map (f : α → β) (initial : List α) (rest : α) (i : Nat) :
    itemAt (initial.map f) (f rest) i = f (itemAt initial rest i) := by
  rw [itemAt, itemAt, List.getElem?_map, Option.getD_map]

end Rule

namespace Schema

/-- The schema with a function applied to every mark. -/
def mapMarks (f : α → β) : Schema α → Schema β
  | node mark rule => node (f mark) (rule.mapParts fun _ _ part _ => part.mapMarks f)
termination_by n => n.size
decreasing_by exact size_lt_of_mem_parts ‹_›

theorem mapMarks_node (f : α → β) (mark : α) (rule : Rule (Schema α)) :
    (node mark rule).mapMarks f = node (f mark) (rule.map (mapMarks f)) := by
  rw [mapMarks, Rule.mapParts_eq_map]

@[simp] theorem mark_mapMarks (f : α → β) (n : Schema α) : (n.mapMarks f).mark = f n.mark := by
  obtain ⟨mark, rule⟩ := n
  rw [mapMarks_node]
  rfl

theorem mapMarks_id (n : Schema α) : n.mapMarks id = n := by
  induction n using parts_induction with
  | node mark rule ih =>
  have parts : rule.map (mapMarks id) = rule.map id :=
    Rule.map_congr ih
  rw [mapMarks_node, parts, Rule.map_id, id_eq]

theorem unmarked_mapMarks (f : α → β) (n : Schema α) : (n.mapMarks f).unmarked = n.unmarked := by
  induction n using parts_induction with
  | node mark rule ih =>
  rw [mapMarks_node, unmarked_node, unmarked_node, Rule.map_map]
  congr 1
  exact Rule.map_congr ih

theorem mapMarks_unmarked (b : β) (n : Schema α) :
    n.unmarked.mapMarks (fun _ => b) = n.mapMarks fun _ => b := by
  induction n using parts_induction with
  | node mark rule ih =>
  rw [unmarked_node, mapMarks_node, mapMarks_node, Rule.map_map]
  congr 1
  exact Rule.map_congr ih

/-- **Schemas that differ in their marks only are the same with one mark everywhere.** -/
theorem mapMarks_const_of_unmarked_eq {n : Schema α} {m : Schema γ} (h : n.unmarked = m.unmarked)
    (b : β) : n.mapMarks (fun _ => b) = m.mapMarks fun _ => b := by
  rw [← mapMarks_unmarked, h, mapMarks_unmarked]

theorem mapMarks_unit (n : Schema α) : n.mapMarks (fun _ => ()) = n.unmarked := by
  rw [← mapMarks_unmarked]
  exact mapMarks_id n.unmarked

end Schema

end TreeSchema
