import TreeSchema.Proofs.Document.RoundTrip
import TreeSchema.Proofs.Schema.Marks
import TreeSchema.Proofs.Validation.Descent

/-!
# Mismatches elsewhere

Validation looks neither at the marks of the nodes nor at the path that led to the value: it
hands them on. With other marks, and behind a prefix of the path, it finds the same
mismatches with those marks and that prefix, those inside alternatives included.

* `Mismatch.relocate` — the mismatch with other marks behind a prefix of its path.
* `Document.validate_relocate` — what is found with other marks behind a prefix;
  `Document.validate_behind` — behind a prefix alone.
* `Document.validate_eq_of_unmarked_eq` — schemas that differ in their marks only.
-/

namespace TreeSchema

variable {α β : Type}

namespace Mismatch

mutual
/-- The mismatch with a function applied to every mark, and every path behind a prefix. -/
def relocate (f : α → β) (pre : Path) : Mismatch α → Mismatch β
  | ⟨disagreement, mark, actual, path, alternatives⟩ =>
    ⟨disagreement, f mark, actual, pre ++ path, relocateLists f pre alternatives⟩

def relocateLists (f : α → β) (pre : Path) : List (List (Mismatch α)) → List (List (Mismatch β))
  | [] => []
  | ms :: rest => relocateList f pre ms :: relocateLists f pre rest

def relocateList (f : α → β) (pre : Path) : List (Mismatch α) → List (Mismatch β)
  | [] => []
  | m :: ms => m.relocate f pre :: relocateList f pre ms
end

theorem relocateList_eq_map (f : α → β) (pre : Path) (ms : List (Mismatch α)) :
    relocateList f pre ms = ms.map (relocate f pre) := by
  induction ms with
  | nil => rfl
  | cons m ms ih => rw [relocateList, ih, List.map_cons]

theorem relocateLists_eq_map (f : α → β) (pre : Path) (alternatives : List (List (Mismatch α))) :
    relocateLists f pre alternatives = alternatives.map (List.map (relocate f pre)) := by
  induction alternatives with
  | nil => rfl
  | cons ms rest ih => rw [relocateLists, relocateList_eq_map, ih, List.map_cons]

theorem relocate_mk (f : α → β) (pre : Path) (disagreement : Disagreement) (mark : α)
    (actual : Value) (path : Path) (alternatives : List (List (Mismatch α))) :
    relocate f pre ⟨disagreement, mark, actual, path, alternatives⟩ =
      ⟨disagreement, f mark, actual, pre ++ path,
        alternatives.map (List.map (relocate f pre))⟩ := by
  rw [relocate, relocateLists_eq_map]

/-- The mismatch without the marks. -/
def unmarked (m : Mismatch α) : Mismatch Unit :=
  m.relocate (fun _ => ()) []

end Mismatch

theorem someMismatches?_map (g : Mismatch α → Mismatch β) (ms : List (Mismatch α)) :
    someMismatches? (ms.map g) = (someMismatches? ms).map (List.map g) := by
  cases ms <;> rfl

namespace Document

open Mismatch (relocate relocate_mk)

variable {d : Document α} {d' : Document β} {f : α → β} {pre : Path}

/-- **A step of validation elsewhere** finds the same elsewhere, if its calls do. -/
theorem validateStep_relocate {strict : Bool}
    (same : ∀ label, d'.body? label = (d.body? label).map (Schema.mapMarks f))
    {call : Schema α → Value → Path → List (Mismatch α)}
    {call' : Schema β → Value → Path → List (Mismatch β)} {n : Schema α} {v : Value}
    (agree : ∀ m w, d.Calls n v m w → ∀ path,
      call' (m.mapMarks f) w (pre ++ path) = (call m w path).map (relocate f pre))
    (path : Path) :
    d'.validateStep strict call' (n.mapMarks f) v (pre ++ path) =
      (d.validateStep strict call n v path).map (relocate f pre) := by
  obtain ⟨mark, rule⟩ := n
  rw [Schema.mapMarks_node]
  cases rule with
  | any => rfl
  | scalar type =>
    simp only [Rule.map, validateStep]
    cases type.accepts v <;> simp [relocate_mk]
  | enum members =>
    simp only [Rule.map, validateStep]
    cases members.hasValue v <;> simp [relocate_mk]
  | object fields =>
    cases v with
    | mapping values =>
      simp only [Rule.map, validateStep, Mapping.entries_map, List.flatMap_map, List.map_append,
        List.map_flatMap]
      congr 1
      · refine List.flatMap_congr fun e he => ?_
        cases hx : values.get? e.1 with
        | some x =>
          simp only [List.append_assoc]
          exact agree _ x (.field (Mapping.get?_of_mem_entries he) hx) _
        | none => cases e.2.optional <;> simp [relocate_mk]
      · cases strict <;> simp [relocate_mk, Mapping.contains, Function.comp_def]
    | _ => simp [Rule.map, validateStep, relocate_mk]
  | array initial rest =>
    cases v with
    | sequence items =>
      simp only [Rule.map, validateStep, List.map_append, List.length_map, List.map_flatten,
        map_mapIdx, Rule.itemAt_map]
      congr 1
      · split <;> simp [relocate_mk]
      · refine congrArg List.flatten (mapIdx_congr fun i x hx => ?_)
        rw [List.append_assoc]
        exact agree _ x (.item hx) _
    | _ => simp [Rule.map, validateStep, relocate_mk]
  | tuple elements =>
    cases v with
    | sequence items =>
      simp only [Rule.map, validateStep, List.map_append, OneOrMore.toList_map, List.length_map,
        List.map_flatten, map_mapIdx, List.zip_map_right, mapIdx_map]
      congr 1
      · split <;> simp [relocate_mk]
      · refine congrArg List.flatten (mapIdx_congr fun i p hp => ?_)
        obtain ⟨hx, hp⟩ := List.getElem?_zip_eq_some.mp hp
        rw [List.append_assoc]
        exact agree _ _ (.element hp hx) _
    | _ => simp [Rule.map, validateStep, relocate_mk]
  | dictionary type =>
    cases v with
    | mapping values =>
      simp only [Rule.map, validateStep, List.map_flatMap]
      refine List.flatMap_congr fun e he => ?_
      rw [List.append_assoc]
      exact agree _ _ (.entry (Mapping.get?_of_mem_entries he)) _
    | _ => simp [Rule.map, validateStep, relocate_mk]
  | oneof alternatives =>
    have found : (traverse 0 (alternatives.map (Schema.mapMarks f)).toList fun _ alternative _ =>
        someMismatches? (call' alternative v (pre ++ path))) =
        (traverse 0 alternatives.toList fun _ alternative _ =>
          someMismatches? (call alternative v path)).map
            (List.map (List.map (relocate f pre))) := by
      rw [OneOrMore.toList_map, traverse_map (f := fun _ alternative =>
        someMismatches? (call' alternative v (pre ++ path))), ← traverse_option_map]
      congr 1
      funext _ alternative ha
      rw [agree alternative v (.unfold (.alternative ha)), someMismatches?_map]
    simp only [Rule.map, validateStep, found]
    cases traverse 0 alternatives.toList fun _ alternative _ =>
        someMismatches? (call alternative v path) <;> simp [relocate_mk]
  | ref label =>
    simp only [Rule.map, validateStep, same]
    cases hb : d.body? label with
    | some body => exact agree body v (.unfold (.target hb)) path
    | none => rfl

/-- **Validation with other marks and behind a prefix** finds the same mismatches, with those
marks and behind that prefix. -/
theorem validate_relocate
    (same : ∀ label, d'.body? label = (d.body? label).map (Schema.mapMarks f)) (strict : Bool)
    (n : Schema α) (v : Value) (path : Path) :
    d'.validate strict (n.mapMarks f) v (pre ++ path) =
      (d.validate strict n v path).map (relocate f pre) := by
  induction n, v using d.calls_induction generalizing path with
  | step n v ih =>
    rw [← validateStep_validate, ← validateStep_validate]
    exact validateStep_relocate same ih path

/-- The path that leads to a value is a prefix of what validation finds, and no more. -/
theorem validate_behind (d : Document α) (strict : Bool) (n : Schema α) (v : Value)
    (path : Path) :
    d.validate strict n v path = (d.validate strict n v []).map (relocate id path) := by
  have same : ∀ label, d.body? label = (d.body? label).map (Schema.mapMarks id) := by
    intro label
    rw [funext Schema.mapMarks_id, Option.map_id']
  have found : d.validate strict (n.mapMarks id) v (path ++ []) =
      (d.validate strict n v []).map (relocate id path) := validate_relocate same strict n v []
  rw [Schema.mapMarks_id, List.append_nil] at found
  exact found

/-- The labels decide what references stand for. -/
theorem body?_eq_of_labels {d d' : Document α} (labels : d'.labels = d.labels) (label : String) :
    d'.body? label = d.body? label :=
  congrArg (Mapping.get? · label) labels

/-- Without marks validation finds the same mismatches without marks. -/
theorem validate_unmarked {e : Document Unit}
    (same : ∀ label, e.body? label = (d.body? label).map Schema.unmarked) (strict : Bool)
    (n : Schema α) (v : Value) (path : Path) :
    e.validate strict n.unmarked v path =
      (d.validate strict n v path).map Mismatch.unmarked := by
  have found : e.validate strict (n.mapMarks fun _ => ()) v ([] ++ path) =
      (d.validate strict n v path).map Mismatch.unmarked :=
    validate_relocate (by rwa [funext Schema.mapMarks_unit]) strict n v path
  rw [Schema.mapMarks_unit] at found
  exact found

/-- **Validation depends on the labels and the rules alone**: schemas that differ in their marks
only, in documents with the same labels, find the same mismatches, but for their marks. -/
theorem validate_eq_of_unmarked_eq {d d' : Document α} (labels : d'.labels = d.labels)
    {n n' : Schema α} (h : n'.unmarked = n.unmarked) (strict : Bool) (v : Value) (path : Path) :
    (d'.validate strict n' v path).map Mismatch.unmarked =
      (d.validate strict n v path).map Mismatch.unmarked := by
  have same : ∀ label, d.unmarked.body? label = (d.body? label).map Schema.unmarked :=
    fun label => Mapping.get?_map _ _ label
  have same' : ∀ label, d.unmarked.body? label = (d'.body? label).map Schema.unmarked := by
    intro label
    rw [body?_eq_of_labels labels]
    exact same label
  rw [← validate_unmarked same, ← validate_unmarked same', h]

theorem conforms_eq_of_unmarked_eq {d d' : Document α} (labels : d'.labels = d.labels)
    {n n' : Schema α} (h : n'.unmarked = n.unmarked) (v : Value) :
    d'.conforms n' v = d.conforms n v := by
  have found := congrArg List.isEmpty (validate_eq_of_unmarked_eq labels h true v [])
  rw [List.isEmpty_map, List.isEmpty_map] at found
  exact found

end Document

end TreeSchema
