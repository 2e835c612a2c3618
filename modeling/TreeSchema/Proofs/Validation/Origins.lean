import TreeSchema.Proofs.Document.Lookup
import TreeSchema.Proofs.Document.Reachable
import TreeSchema.Proofs.Validation.Relocation

/-!
# Where mismatches come from

A mismatch names a part of the value and a node of the schema. Validation makes it where it
has come to both, so the path leads from the value to the part, and the node is one that the
schema leads to. Mismatches of the alternatives of a union are those of validating the same
part again, and so the same holds of them, at any depth.

* `Document.mem_validateStep` — a mismatch is made by a step or handed on from a call.
* `Mismatch.Listed` — the mismatches of a list, those inside alternatives included.
* `Document.Traces` — what a mismatch tells of its origin.
* `Document.traces_validate` — what validation finds is traced to its origin, and the path that
  leads to the value is a prefix that changes nothing else.
-/

namespace TreeSchema

/-! ### Mismatches of a list -/

/-- The mismatch is in the list, or in one of the lists inside its mismatches. -/
inductive Mismatch.Listed {α : Type} : List (Mismatch α) → Mismatch α → Prop where
  | here {ms : List (Mismatch α)} {m : Mismatch α} : m ∈ ms → Listed ms m
  | inside {ms fs : List (Mismatch α)} {m x : Mismatch α} :
      m ∈ ms → fs ∈ m.alternatives → Listed fs x → Listed ms x

theorem failures_of_traverse {α β : Type} {start : Nat} {xs : List β} {g : β → List (Mismatch α)}
    {failures : List (List (Mismatch α))}
    (h : traverse start xs (fun _ x _ => someMismatches? (g x)) = some failures) :
    failures = xs.map g ∧ ∀ x ∈ xs, g x ≠ [] := by
  induction xs generalizing start failures with
  | nil =>
    cases h
    exact ⟨rfl, fun _ hx => by cases hx⟩
  | cons x xs ih =>
    rw [traverse] at h
    cases hx : g x with
    | nil => rw [hx] at h; cases h
    | cons m ms =>
      cases ht : traverse (start + 1) xs fun _ a _ => someMismatches? (g a) with
      | none => rw [hx, ht] at h; cases h
      | some rest =>
        rw [hx, ht] at h
        cases h
        obtain ⟨rfl, nonempty⟩ := ih ht
        refine ⟨by rw [List.map_cons, hx], List.forall_mem_cons.mpr ⟨?_, nonempty⟩⟩
        rw [hx]
        exact List.cons_ne_nil _ _

namespace Disagreement

/-- The disagreement is about the value and the rule alone, not about a key or alternatives. -/
def IsPlain : Disagreement → Prop
  | missingRequiredField _ | unknownField _ | noAlternativeMatched _ => False
  | _ => True

end Disagreement

theorem ScalarType.isPlain_disagreement (type : ScalarType) (v : Value) :
    (type.disagreement v).IsPlain := by
  unfold disagreement
  split <;> trivial

namespace Document

/-! ### Steps -/

section

variable {α : Type} {d : Document α}

/-- A mismatch that a step of validation makes, given what is found at alternatives. -/
inductive Makes (call : Schema α → Value → Path → List (Mismatch α)) :
    Schema α → Value → Path → Mismatch α → Prop where
  | plain {mark : α} {rule : Rule (Schema α)} {v : Value} {path : Path}
      {disagreement : Disagreement} : disagreement.IsPlain →
      Makes call (.node mark rule) v path ⟨disagreement, mark, v, path, []⟩
  | missing {mark : α} {fields : Mapping (Field (Schema α))} {values : Mapping Value}
      {path : Path} {key : String} {field : Field (Schema α)} :
      fields.get? key = some field → values.get? key = none →
      Makes call (.node mark (.object fields)) (.mapping values) path
        ⟨.missingRequiredField key, field.type.mark, .mapping values, path, []⟩
  | unknown {mark : α} {fields : Mapping (Field (Schema α))} {values : Mapping Value}
      {path : Path} {key : String} {x : Value} : values.get? key = some x →
      Makes call (.node mark (.object fields)) (.mapping values) path
        ⟨.unknownField key, mark, x, path ++ [.key key], []⟩
  | union {mark : α} {alternatives : OneOrMore (Schema α)} {v : Value} {path : Path} :
      (∀ alternative ∈ alternatives.toList, call alternative v path ≠ []) →
      Makes call (.node mark (.oneof alternatives)) v path
        ⟨.noAlternativeMatched alternatives.toList.length, mark, v, path,
          alternatives.toList.map fun alternative => call alternative v path⟩

/-- A mismatch that a step of validation hands on from a part of the value, found with a
direct part of the schema. -/
def HandsOn (d : Document α) (call : Schema α → Value → Path → List (Mismatch α)) (n : Schema α)
    (v : Value) (path : Path) (x : Mismatch α) : Prop :=
  ∃ m w q, d.Calls n v m w ∧ m ∈ d.children n ∧ v.atPath? q = some w ∧ x ∈ call m w (path ++ q)

theorem HandsOn.of_call {call : Schema α → Value → Path → List (Mismatch α)} {n m : Schema α}
    {v w : Value} {path q : Path} {x : Mismatch α} (called : d.Calls n v m w)
    (part : v.atPath? q = some w) (h : x ∈ call m w (path ++ q)) : d.HandsOn call n v path x :=
  ⟨m, w, q, called, called.mem_children, part, h⟩

/-- **A mismatch of a step is made there or handed on from a call.** -/
theorem mem_validateStep {strict : Bool} {call : Schema α → Value → Path → List (Mismatch α)}
    {n : Schema α} {v : Value} {path : Path} {x : Mismatch α}
    (h : x ∈ d.validateStep strict call n v path) :
    Makes call n v path x ∨ d.HandsOn call n v path x := by
  obtain ⟨mark, rule⟩ := n
  cases rule with
  | any => cases h
  | scalar type =>
    simp only [validateStep] at h
    split at h
    · cases h
    · rw [List.mem_singleton.mp h]
      exact .inl (.plain (type.isPlain_disagreement v))
  | enum members =>
    simp only [validateStep] at h
    split at h
    · cases h
    · rw [List.mem_singleton.mp h]
      exact .inl (.plain trivial)
  | object fields =>
    cases v with
    | mapping values =>
      rcases List.mem_append.mp h with h | h
      · obtain ⟨e, he, h⟩ := List.mem_flatMap.mp h
        have hf := Mapping.get?_of_mem_entries he
        cases hx : values.get? e.1 with
        | some w =>
          rw [hx] at h
          have part : (Value.mapping values).atPath? [.key e.1] = some w := by
            simp [Value.atPath?, Value.child?, hx]
          exact .inr (.of_call (.field hf hx) part h)
        | none =>
          rw [hx] at h
          dsimp only at h
          split at h
          · cases h
          · rw [List.mem_singleton.mp h]
            exact .inl (.missing hf hx)
      · split at h
        · obtain ⟨e, he, rfl⟩ := List.mem_map.mp h
          exact .inl (.unknown (Mapping.get?_of_mem_entries (List.mem_of_mem_filter he)))
        · cases h
    | _ =>
      rw [List.mem_singleton.mp h]
      exact .inl (.plain trivial)
  | array initial rest =>
    cases v with
    | sequence items =>
      rcases List.mem_append.mp h with h | h
      · split at h
        · rw [List.mem_singleton.mp h]
          exact .inl (.plain trivial)
        · cases h
      · obtain ⟨i, w, hw, h⟩ := mem_flatten_mapIdx_iff.mp h
        have part : (Value.sequence items).atPath? [.index i] = some w := by
          simp [Value.atPath?, Value.child?, hw]
        exact .inr (.of_call (.item hw) part h)
    | _ =>
      rw [List.mem_singleton.mp h]
      exact .inl (.plain trivial)
  | tuple elements =>
    cases v with
    | sequence items =>
      rcases List.mem_append.mp h with h | h
      · split at h
        · rw [List.mem_singleton.mp h]
          exact .inl (.plain trivial)
        · cases h
      · obtain ⟨i, p, hp, h⟩ := mem_flatten_mapIdx_iff.mp h
        obtain ⟨hw, hp⟩ := List.getElem?_zip_eq_some.mp hp
        have part : (Value.sequence items).atPath? [.index i] = some p.1 := by
          simp [Value.atPath?, Value.child?, hw]
        exact .inr (.of_call (.element hp hw) part h)
    | _ =>
      rw [List.mem_singleton.mp h]
      exact .inl (.plain trivial)
  | dictionary type =>
    cases v with
    | mapping values =>
      obtain ⟨e, he, h⟩ := List.mem_flatMap.mp h
      have hw := Mapping.get?_of_mem_entries he
      have part : (Value.mapping values).atPath? [.key e.1] = some e.2 := by
        simp [Value.atPath?, Value.child?, hw]
      exact .inr (.of_call (.entry hw) part h)
    | _ =>
      rw [List.mem_singleton.mp h]
      exact .inl (.plain trivial)
  | oneof alternatives =>
    simp only [validateStep] at h
    split at h
    · next failures hf =>
      obtain ⟨rfl, nonempty⟩ := failures_of_traverse hf
      rw [List.mem_singleton.mp h, List.length_map]
      exact .inl (.union nonempty)
    · cases h
  | ref label =>
    simp only [validateStep] at h
    cases hb : d.body? label with
    | some body =>
      rw [hb, Option.elim_some] at h
      refine .inr (.of_call (q := []) (.unfold (.target hb)) rfl ?_)
      rwa [List.append_nil]
    | none => rw [hb] at h; cases h

end

/-! ### Origins -/

/-- What a mismatch that validation finds at a node and a value, reached by a path, tells of its
origin. -/
structure Traces (d : Document Site) (strict : Bool) (n : Node) (v : Value) (path : Path)
    (x : Mismatch Site) : Prop where
  /-- The path leads on to the part of the value that failed; that of an undeclared key
  ends in the key. -/
  place : ∃ q, x.path = path ++ q ∧ v.atPath? q = some x.actual ∧
    ∀ key, x.disagreement = .unknownField key → q.getLast? = some (.key key)
  /-- The mark is that of the node with its number, which the schema leads to. -/
  node : ∃ m ∈ d.reachableNodes n, d.node? x.mark.id = some m ∧ m.mark = x.mark
  /-- A required field is missing where a mapping does not have it. -/
  missing : ∀ key, x.disagreement = .missingRequiredField key →
    ∃ values, x.actual = .mapping values ∧ key ∉ values.keys
  /-- There are mismatches of alternatives where none fits. -/
  alternatives_iff : x.alternatives ≠ [] ↔ ∃ count, x.disagreement = .noAlternativeMatched count
  /-- They are found by validating the part against every alternative of the node. -/
  union : ∀ count, x.disagreement = .noAlternativeMatched count →
    ∃ alternatives, d.node? x.mark.id = some (.node x.mark (.oneof alternatives)) ∧
      count = alternatives.toList.length ∧
      x.alternatives =
        alternatives.toList.map (fun alternative => d.validate strict alternative x.actual x.path) ∧
      ∀ ms ∈ x.alternatives, ms ≠ []

variable {e : Document Unit} {strict : Bool} {n m : Node} {v w : Value} {path q : Path}
  {x : Mismatch Site}

theorem node_of_mem (hn : n ∈ e.locate.nodes) :
    ∃ m ∈ e.locate.reachableNodes n, e.locate.node? n.mark.id = some m ∧ m.mark = n.mark :=
  ⟨n, mem_reachableNodes_self hn, node?_eq_some_of_mem hn, rfl⟩

/-- What is traced from a part that the schema and the value lead to is traced from them. -/
theorem Traces.lift (h : e.locate.Traces strict m w (path ++ q) x)
    (sub : e.locate.reachableNodes m ⊆ e.locate.reachableNodes n)
    (part : v.atPath? q = some w) : e.locate.Traces strict n v path x := by
  obtain ⟨r, hpath, hactual, unknown⟩ := h.place
  obtain ⟨node, reached, found⟩ := h.node
  refine ⟨⟨q ++ r, ?_, ?_, ?_⟩, ⟨node, sub reached, found⟩, h.missing, h.alternatives_iff, h.union⟩
  · rw [hpath, List.append_assoc]
  · rw [Value.atPath?_append, part, Option.bind_some, hactual]
  · intro key hk
    rw [List.getLast?_append, unknown key hk, Option.some_or]

/-- What a step makes is traced to where it is made. -/
theorem traces_of_makes (hn : n ∈ e.locate.nodes)
    (h : Makes (e.locate.validate strict) n v path x) : e.locate.Traces strict n v path x := by
  cases h with
  | @plain mark rule v path disagreement plain =>
    have not_special : ∀ {special}, ¬ special.IsPlain → disagreement ≠ special := by
      rintro special h rfl
      exact h plain
    refine ⟨⟨[], (List.append_nil _).symm, rfl, ?_⟩, node_of_mem hn, ?_, ?_, ?_⟩
    · intro key hk
      exact absurd hk (not_special id)
    · intro key hk
      exact absurd hk (not_special id)
    · constructor
      · intro h
        exact absurd rfl h
      · rintro ⟨count, hc⟩
        exact absurd hc (not_special id)
    · intro count hc
      exact absurd hc (not_special id)
  | @missing mark fields values path key field hf hx =>
    have child : field.type ∈ e.locate.children (.node mark (.object fields)) :=
      Rule.mem_parts_of_get? hf
    obtain ⟨node, reached, found⟩ := node_of_mem (mem_nodes_of_mem_children hn child)
    refine ⟨⟨[], (List.append_nil _).symm, rfl, ?_⟩,
      ⟨node, reachableNodes_subset hn child reached, found⟩, ?_, ?_, ?_⟩
    · rintro _ ⟨⟩
    · rintro _ ⟨⟩
      exact ⟨values, rfl, Mapping.get?_eq_none_iff.mp hx⟩
    · constructor
      · intro h
        exact absurd rfl h
      · rintro ⟨_, ⟨⟩⟩
    · rintro _ ⟨⟩
  | @unknown mark fields values path key w hw =>
    have part : (Value.mapping values).atPath? [.key key] = some w := by
      simp [Value.atPath?, Value.child?, hw]
    refine ⟨⟨[.key key], rfl, part, ?_⟩, node_of_mem hn, ?_, ?_, ?_⟩
    · rintro _ ⟨⟩
      rfl
    · rintro _ ⟨⟩
    · constructor
      · intro h
        exact absurd rfl h
      · rintro ⟨_, ⟨⟩⟩
    · rintro _ ⟨⟩
  | @union mark alternatives v path nonempty =>
    refine ⟨⟨[], (List.append_nil _).symm, rfl, ?_⟩, node_of_mem hn, ?_, ?_, ?_⟩
    · rintro _ ⟨⟩
    · rintro _ ⟨⟩
    · constructor
      · intro _
        exact ⟨_, rfl⟩
      · intro _
        simpa using alternatives.toList_ne_nil
    · rintro _ ⟨⟩
      refine ⟨alternatives, node?_eq_some_of_mem hn, rfl, rfl, ?_⟩
      intro ms hms
      obtain ⟨alternative, ha, rfl⟩ := List.mem_map.mp hms
      exact nonempty alternative ha

/-- **What validation finds is traced**, by induction along the calls. -/
theorem traces_of_mem (hn : n ∈ e.locate.nodes) (h : x ∈ e.locate.validate strict n v path) :
    e.locate.Traces strict n v path x := by
  induction n, v using e.locate.calls_induction generalizing path with
  | step n v ih =>
    rw [← validateStep_validate] at h
    rcases mem_validateStep h with made | ⟨m, w, q, call, child, part, h⟩
    · exact traces_of_makes hn made
    · have traced := ih m w call (call.mem_nodes hn) h
      exact traced.lift (reachableNodes_subset hn child) part

/-- **So is what it finds inside alternatives**, by induction on the depth. -/
theorem traces_of_listed {ms : List (Mismatch Site)} (h : Mismatch.Listed ms x)
    (hn : n ∈ e.locate.nodes) (found : ms = e.locate.validate strict n v path) :
    e.locate.Traces strict n v path x := by
  induction h generalizing n v path with
  | here hm =>
    rw [found] at hm
    exact traces_of_mem hn hm
  | @inside ms fs m x hm hfs _ ih =>
    rw [found] at hm
    have outer := traces_of_mem hn hm
    obtain ⟨count, hc⟩ := outer.alternatives_iff.mp (List.ne_nil_of_mem hfs)
    obtain ⟨alternatives, hnode, -, halternatives, -⟩ := outer.union count hc
    rw [halternatives] at hfs
    obtain ⟨alternative, ha, rfl⟩ := List.mem_map.mp hfs
    obtain ⟨q, hpath, hactual, -⟩ := outer.place
    obtain ⟨node, reached, hfound, -⟩ := outer.node
    obtain rfl := Option.some.inj (hnode.symm.trans hfound)
    have hunion : .node m.mark (.oneof alternatives) ∈ e.locate.nodes := List.mem_of_getElem? hnode
    have child : alternative ∈ e.locate.children (.node m.mark (.oneof alternatives)) :=
      Rule.mem_parts_oneof ha
    have inner := ih (mem_nodes_of_mem_children hunion child) rfl
    rw [hpath] at inner
    refine inner.lift ?_ hactual
    exact fun _ h => reachableNodes_trans reached (reachableNodes_subset hunion child h)

/-- **Every mismatch that validation finds, also inside alternatives, is traced to its origin**;
and the path that leads to the value is a prefix of the paths found, and no more. -/
theorem traces_validate {source : Value} {d : Document Site} (hd : compile source = .ok d)
    {n : Node} (hn : n ∈ d.nodes) (strict : Bool) (v : Value) (path : Path) :
    (∀ x, Mismatch.Listed (d.validate strict n v path) x → d.Traces strict n v path x) ∧
      d.validate strict n v path = (d.validate strict n v []).map (Mismatch.relocate id path) := by
  obtain ⟨e, -, rfl⟩ := compile_eq_ok_iff.mp hd
  exact ⟨fun x hx => traces_of_listed hx hn rfl, validate_behind _ strict n v path⟩

/-- A tree with a branch that has no children. -/
def barren : Value :=
  .mapping <| .ofList
    [("text", .string "stem"),
      ("children", .sequence [.mapping <| .ofList [("text", .string "leaf")]])]

/-- A tree is not nothing, and the children of its branch are missing. -/
theorem traces_barren :
    compile treeSource = .ok tree.locate ∧ tree.locate.root ∈ tree.locate.nodes ∧
      ∃ x, Mismatch.Listed (tree.locate.validate true tree.locate.root barren [.key "a"]) x ∧
        x.path = [.key "a", .key "children", .index 0] ∧
        tree.locate.Traces true tree.locate.root barren [.key "a"] x := by
  have hroot : tree.locate.root ∈ tree.locate.nodes := root_mem_nodes _
  have found : ∃ m fs x, tree.locate.validate true tree.locate.root barren [.key "a"] = [m] ∧
      fs ∈ m.alternatives ∧ x ∈ fs ∧ x.path = [.key "a", .key "children", .index 0] := by
    refine ⟨_, _, _, by cbv, .tail _ (.head _), .head _, rfl⟩
  obtain ⟨m, fs, x, hm, hfs, hx, hpath⟩ := found
  have listed :
      Mismatch.Listed (tree.locate.validate true tree.locate.root barren [.key "a"]) x := by
    rw [hm]
    exact .inside (List.mem_singleton_self m) hfs (.here hx)
  have traced := (traces_validate compile_treeSource hroot true barren [.key "a"]).1 x listed
  exact ⟨compile_treeSource, hroot, x, listed, hpath, traced⟩

end Document

end TreeSchema
