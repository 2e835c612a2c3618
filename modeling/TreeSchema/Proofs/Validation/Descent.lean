import TreeSchema.Proofs.Document.Descent
import TreeSchema.Validation.Basic

/-!
# Validation, call by call

What validation finds at a schema and a value, in terms of what it finds where it calls
itself.

* `Document.validateStep_validate` — validation is made of its steps.
* `Document.validateStep_congr` — a step depends on its calls alone.
* `Document.cutAt_validation` — validation ends.
-/

namespace TreeSchema

namespace Document

variable {α : Type}

/-- What validation finds, given what it finds elsewhere. -/
def validateStep (d : Document α) (strict : Bool)
    (call : Schema α → Value → Path → List (Mismatch α)) (n : Schema α) (v : Value) (path : Path) :
    List (Mismatch α) :=
  match n with
  | .node mark rule =>
    let fail (disagreement : Disagreement) : List (Mismatch α) :=
      [⟨disagreement, mark, v, path, []⟩]
    match rule with
    | .any => []
    | .scalar type => if type.accepts v then [] else fail (type.disagreement v)
    | .enum members => if members.hasValue v then [] else fail (.notInEnum members)
    | .object fields =>
      match v with
      | .mapping values =>
        (fields.entries.flatMap fun e =>
          match values.get? e.1 with
          | some x => call e.2.type x (path ++ [.key e.1])
          | none =>
            if e.2.optional then []
            else [⟨.missingRequiredField e.1, e.2.type.mark, .mapping values, path, []⟩]) ++
        if strict then
          (values.entries.filter fun e => !fields.contains e.1).map fun e =>
            ⟨.unknownField e.1, mark, e.2, path ++ [.key e.1], []⟩
        else []
      | _ => fail (.typeMismatch .object v.kind)
    | .array initial rest =>
      match v with
      | .sequence items =>
        (if items.length < initial.length then
          fail (.arrayTooShort initial.length items.length) else []) ++
        (items.mapIdx fun i x => call (Rule.itemAt initial rest i) x (path ++ [.index i])).flatten
      | _ => fail (.typeMismatch .array v.kind)
    | .tuple elements =>
      match v with
      | .sequence items =>
        (if items.length ≠ elements.toList.length then
          fail (.tupleLengthMismatch elements.toList.length items.length) else []) ++
        ((items.zip elements.toList).mapIdx fun i p => call p.2 p.1 (path ++ [.index i])).flatten
      | _ => fail (.typeMismatch .array v.kind)
    | .dictionary type =>
      match v with
      | .mapping values => values.entries.flatMap fun e => call type e.2 (path ++ [.key e.1])
      | _ => fail (.typeMismatch .object v.kind)
    | .oneof alternatives =>
      match traverse 0 alternatives.toList fun _ alternative _ =>
          someMismatches? (call alternative v path) with
      | some failures => [⟨.noAlternativeMatched failures.length, mark, v, path, failures⟩]
      | none => []
    | .ref label => (d.body? label).elim [] fun body => call body v path

/-- **A step of validation depends on its calls alone.** -/
theorem validateStep_congr (d : Document α) {strict : Bool}
    {call call' : Schema α → Value → Path → List (Mismatch α)} {n : Schema α} {v : Value}
    {path : Path} (h : ∀ m w, d.Calls n v m w → ∀ path, call m w path = call' m w path) :
    d.validateStep strict call n v path = d.validateStep strict call' n v path := by
  obtain ⟨mark, rule⟩ := n
  cases rule with
  | object fields =>
    cases v with
    | mapping values =>
      simp only [validateStep]
      congr 1
      refine List.flatMap_congr fun e he => ?_
      cases hx : values.get? e.1 with
      | some x => exact h _ x (.field (Mapping.get?_of_mem_entries he) hx) _
      | none => rfl
    | _ => rfl
  | array initial rest =>
    cases v with
    | sequence items =>
      simp only [validateStep]
      exact congrArg _ (congrArg List.flatten (mapIdx_congr fun i x hx => h _ x (.item hx) _))
    | _ => rfl
  | tuple elements =>
    cases v with
    | sequence items =>
      simp only [validateStep]
      refine congrArg _ (congrArg List.flatten (mapIdx_congr fun i p hp => ?_))
      obtain ⟨hx, hp⟩ := List.getElem?_zip_eq_some.mp hp
      exact h _ _ (.element hp hx) _
    | _ => rfl
  | dictionary type =>
    cases v with
    | mapping values =>
      simp only [validateStep]
      exact List.flatMap_congr fun e he => h _ e.2 (.entry (Mapping.get?_of_mem_entries he)) _
    | _ => rfl
  | oneof alternatives =>
    have same : (traverse 0 alternatives.toList fun _ alternative _ =>
        someMismatches? (call alternative v path)) =
        traverse 0 alternatives.toList fun _ alternative _ =>
          someMismatches? (call' alternative v path) := by
      congr 1
      funext _ alternative ha
      rw [h alternative v (.unfold (.alternative ha))]
    simp only [validateStep, same]
  | ref label =>
    cases hb : d.body? label with
    | some body => simp only [validateStep, hb, Option.elim_some, h body v (.unfold (.target hb))]
    | none => simp only [validateStep, hb, Option.elim_none]
  | _ => rfl

/-- **Validation is made of its steps.** -/
theorem validateStep_validate (d : Document α) (strict : Bool) (n : Schema α) (v : Value)
    (path : Path) : d.validateStep strict (d.validate strict) n v path =
      d.validate strict n v path := by
  obtain ⟨mark, rule⟩ := n
  cases rule with
  | object fields =>
    cases v with
    | mapping values =>
      rw [validate, validateStep]
      congr 1
      refine List.flatMap_congr fun e _ => ?_
      split
      · next x hx => rw [hx]
      · next hx => rw [hx]
    | _ => rw [validate, validateStep] <;> simp
  | array initial rest =>
    cases v with
    | sequence items =>
      rw [validate, validateStep]
      exact congrArg _ (congrArg List.flatten (mapIdx_attach fun _ _ => rfl).symm)
    | _ => rw [validate, validateStep] <;> simp
  | tuple elements =>
    cases v with
    | sequence items =>
      rw [validate, validateStep]
      have parts : items.zip elements.toList =
          (items.attach.zip elements.toList).map (Prod.map Subtype.val id) := by
        rw [← List.zip_map_left, List.attach_map_subtype_val]
      rw [parts, mapIdx_map]
      rfl
    | _ => rw [validate, validateStep] <;> simp
  | dictionary type =>
    cases v with
    | mapping values =>
      rw [validate, validateStep]
      rw [List.flatMap_subtype
        (g := fun e => d.validate strict type e.2 (path ++ [.key e.1])) (by simp),
        List.unattach_attach]
    | _ => rw [validate, validateStep] <;> simp
  | ref label =>
    rw [validate, validateStep]
    split
    · next body hb => rw [hb, Option.elim_some]
    · next hb => rw [hb, Option.elim_none]
  | _ =>
    rw [validate]
    rfl

/-- Validation as a recursion. -/
def validation (d : Document α) (strict : Bool) :
    Recursion (Schema α × Value × Path) (List (Mismatch α)) where
  step call s := d.validateStep strict (fun n v path => call (n, v, path)) s.1 s.2.1 s.2.2
  calls s t := d.Calls s.1 s.2.1 t.1 t.2.1
  congr h := d.validateStep_congr fun m w hm path => h (m, w, path) hm

theorem solves_validation (d : Document α) (strict : Bool) :
    (d.validation strict).Solves fun s => d.validate strict s.1 s.2.1 s.2.2 :=
  fun s => d.validateStep_validate strict s.1 s.2.1 s.2.2

theorem descends_validation (d : Document α) (strict : Bool) :
    (d.validation strict).Descends (fun s => s.1 ∈ d.nodes) fun s => d.callDepth s.1 s.2.1 :=
  ⟨fun _ _ hs ht => ht.mem_nodes hs, fun _ _ hs ht => ht.callDepth_lt hs⟩

/-- **Validation ends** above the depth of its calls. -/
theorem cutAt_validation {d : Document α} {strict : Bool} {n : Schema α} (hn : n ∈ d.nodes)
    {v : Value} {path : Path} {depth : Nat} (h : d.callDepth n v < depth)
    (anything : Schema α × Value × Path → List (Mismatch α)) :
    (d.validation strict).cutAt anything depth (n, v, path) = d.validate strict n v path :=
  (d.descends_validation strict).cutAt_eq (d.solves_validation strict) (s := (n, v, path)) hn h
    anything

end Document

end TreeSchema
