import TreeSchema.Lookup
import TreeSchema.Proofs.Document.Numbering
import TreeSchema.Proofs.Schema.Source
import TreeSchema.Proofs.Validation.Conformance

/-!
# Schemas of one type

Two schemas are of one type if they are one node, if their references end in one node, or
if their sources are equal. They accept the same values then. For sources that is by
induction on what conforms to one of the schemas: equal sources tell rules alike, with
parts that have equal sources again, and a reference tells its label, so recursion through
labels needs no more.

* `Document.Conforms.of_beq_toSource` — schemas with equal sources accept the same values.
* `Document.conforms_resolve_iff` — so do a schema and the end of its references.
* `Document.Conforms.of_sameType` — so do schemas of one type.
-/

namespace TreeSchema.Document

variable {α : Type}

/-! ### Equal sources -/

/-- **A schema accepts what a schema with an equal source accepts.** -/
theorem Conforms.of_beq_toSource {d : Document α} {l : Leniency} {n m : Schema α} {v : Value}
    (h : d.Conforms l m v) (same : (n.toSource == m.toSource) = true) : d.Conforms l n v := by
  induction h generalizing n with
  | any =>
    obtain ⟨mark, rule⟩ := n
    cases Schema.alike_of_beq_toSource same with
    | any => exact .any
  | scalar ha =>
    obtain ⟨mark, rule⟩ := n
    cases Schema.alike_of_beq_toSource same with
    | scalar => exact .scalar ha
  | enum hm he =>
    obtain ⟨mark, rule⟩ := n
    cases Schema.alike_of_beq_toSource same with
    | enum members =>
      obtain ⟨i, hi⟩ := List.mem_iff_getElem?.mp hm
      obtain ⟨member, hmember, hl⟩ := members.exists_left hi
      exact .enum (List.mem_of_getElem? hmember) (Value.beq_trans hl he)
  | object _ required known ih =>
    obtain ⟨mark, rule⟩ := n
    cases Schema.alike_of_beq_toSource same with
    | object fields =>
      refine .object ?_ ?_ ?_
      · intro key field x hf hx
        obtain ⟨field', hf', -, types⟩ := fields.exists_right hf
        exact ih key field' x hf' hx types
      · intro hl key field hf ho
        obtain ⟨field', hf', optional, -⟩ := fields.exists_right hf
        exact required hl key field' hf' (optional ▸ ho)
      · intro hl key hk
        exact (fields.keys key).mpr (known hl key hk)
  | @array mark initial rest items hl _ _ ihInitial ihRest =>
    obtain ⟨mark, rule⟩ := n
    cases Schema.alike_of_beq_toSource same with
    | array initials rests =>
      refine .array (initials.length ▸ hl) ?_ ?_
      · intro i part x hp hx
        obtain ⟨part', hp', hpart⟩ := initials.exists_right hp
        exact ihInitial i part' x hp' hx hpart
      · intro x hx
        exact ihRest x (initials.length ▸ hx) rests
  | tuple hl _ ih =>
    obtain ⟨mark, rule⟩ := n
    cases Schema.alike_of_beq_toSource same with
    | tuple elements =>
      refine .tuple (hl.trans elements.length) ?_
      intro i part x hp hx
      obtain ⟨part', hp', hpart⟩ := elements.exists_right hp
      exact ih i part' x hp' hx hpart
  | dictionary _ ih =>
    obtain ⟨mark, rule⟩ := n
    cases Schema.alike_of_beq_toSource same with
    | dictionary values => exact .dictionary fun key x hx => ih key x hx values
  | oneof ha _ ih =>
    obtain ⟨mark, rule⟩ := n
    cases Schema.alike_of_beq_toSource same with
    | oneof alternatives =>
      obtain ⟨i, hi⟩ := List.mem_iff_getElem?.mp ha
      obtain ⟨alternative, halternative, hsame⟩ := alternatives.exists_left hi
      exact .oneof (List.mem_of_getElem? halternative) (ih hsame)
  | ref hb h =>
    obtain ⟨mark, rule⟩ := n
    cases Schema.alike_of_beq_toSource same with
    | ref => exact .ref hb h

/-! ### One node -/

/-- A schema accepts what the schema at the end of its references accepts. -/
theorem conforms_resolve_iff {d : Document α} {l : Leniency} {n : Schema α} {v : Value} :
    d.Conforms l (d.resolve n) v ↔ d.Conforms l n v := by
  apply iff_of_eq
  apply d.apply_resolve (f := fun n => d.Conforms l n v)
  intro mark label body hb
  apply propext
  constructor
  · intro h
    cases h with
    | ref hb' h => exact Option.some.inj (hb.symm.trans hb') ▸ h
  · exact .ref hb

theorem resolve_mem_nodes {d : Document α} {n : Schema α} (hn : n ∈ d.nodes) :
    d.resolve n ∈ d.nodes := by
  fun_induction d.resolve n with
  | case1 mark label body hb ih => exact ih (mem_nodes_of_body? hb)
  | case2 => exact hn
  | case3 => exact hn

variable [DecidableEq α]

/-- **A schema accepts what a schema of its type accepts.** -/
theorem Conforms.of_sameType {d : Document α} (identified : d.Identified) {l : Leniency}
    {n m : Schema α} (hn : n ∈ d.nodes) (hm : m ∈ d.nodes) {v : Value} (h : d.Conforms l m v)
    (same : d.sameType n m = true) : d.Conforms l n v := by
  rw [sameType, Bool.or_eq_true, Bool.or_eq_true, decide_eq_true_eq, decide_eq_true_eq] at same
  rcases same with (mark | mark) | source
  · exact identified n hn m hm mark ▸ h
  · have one := identified _ (resolve_mem_nodes hn) _ (resolve_mem_nodes hm) mark
    rwa [← conforms_resolve_iff, one, conforms_resolve_iff]
  · exact h.of_beq_toSource source

end TreeSchema.Document
