import TreeSchema.Proofs.Document.Descent
import TreeSchema.Proofs.Follows
import TreeSchema.Proofs.Restriction.Pruning

/-!
# Restriction without options only removes

Without filling and conversion, what restriction leaves of a value are parts of it, each where
it was: entries of mappings under their keys and items of sequences in their order, the same of
what is inside of them, and scalars as they are. Nothing is made up, moved or repeated,
whichever candidate of a union is taken.

* `Value.PrunedFrom` — what is left of a value when parts of it are removed.
* `Document.onlyRemoves` — what restriction leaves is pruned from the value.
* `Document.restrict_only_removes` — and restriction does not fail.
-/

namespace TreeSchema

namespace Value

/-- The value is what is left of another when entries of mappings and items of sequences are
removed, at any depth. The items that are left of a sequence come from positions that increase. -/
inductive PrunedFrom : Value → Value → Prop where
  | scalar {v : Value} : v.isScalar = true → PrunedFrom v v
  | mapping {kept values : Mapping Value} : (∀ key ∈ kept.keys, key ∈ values.keys) →
      (∀ key y x, kept.get? key = some y → values.get? key = some x → PrunedFrom y x) →
      PrunedFrom (.mapping kept) (.mapping values)
  | sequence {kept items : List Value} {position : Nat → Nat} : StrictMono position →
      (∀ i < kept.length, position i < items.length) →
      (∀ (i : Nat) y x, kept[i]? = some y → items[position i]? = some x → PrunedFrom y x) →
      PrunedFrom (.sequence kept) (.sequence items)

/-- A value is left of itself when nothing is removed. -/
theorem PrunedFrom.refl (v : Value) : v.PrunedFrom v := by
  induction v with
  | sequence items ih =>
    refine .sequence strictMono_id (fun i hi => hi) fun i y x hy hx => ?_
    obtain rfl := Option.some.inj (hy.symm.trans hx)
    exact ih y (List.mem_of_getElem? hy)
  | mapping fields ih =>
    refine .mapping (fun _ hk => hk) fun key y x hy hx => ?_
    obtain rfl := Option.some.inj (hy.symm.trans hx)
    exact ih key y hy
  | _ => exact .scalar rfl

/-- What is left of the entries of a mapping, some of them absent. -/
theorem PrunedFrom.of_somes {results : Mapping (Option Value)} {values : Mapping Value}
    (h : ∀ key y, results.get? key = some (some y) →
      ∃ x, values.get? key = some x ∧ y.PrunedFrom x) :
    (Value.mapping results.somes).PrunedFrom (.mapping values) := by
  refine .mapping ?_ ?_
  · intro key hk
    obtain ⟨y, hy⟩ := Mapping.mem_keys_somes_iff.mp hk
    obtain ⟨x, hx, -⟩ := h key y hy
    exact Mapping.mem_keys_of_get? hx
  · intro key y x hy hx
    rw [Mapping.get?_somes, Option.join_eq_some_iff] at hy
    obtain ⟨x', hx', pruned⟩ := h key y hy
    exact Option.some.inj (hx'.symm.trans hx) ▸ pruned

/-- What is left of the items of a sublist. -/
theorem PrunedFrom.of_sublist {chosen items kept : List Value} (sub : chosen.Sublist items)
    (h : Pointwise (fun _ x y => PrunedFrom y x) chosen kept) :
    (Value.sequence kept).PrunedFrom (.sequence items) := by
  obtain ⟨position, same⟩ := List.sublist_iff_exists_orderEmbedding_getElem?_eq.mp sub
  refine .sequence position.strictMono ?_ ?_
  · intro i hi
    rw [h.length] at hi
    have found := (same i).symm.trans (List.getElem?_eq_getElem hi)
    exact (List.getElem?_eq_some_iff.mp found).1
  · intro i y x hy hx
    exact h.related i x y ((same i).trans hx) hy

end Value

namespace Document

variable {α : Type} {d : Document α} {mark : α} {v r : Value}

/-- What is left of items that are described one by one: each of them is there, and it is pruned
from the item at its position. -/
theorem pointwise_prunedFrom_of_items
    {fill : Schema α → Except (RecursionError α) (Option Value)}
    (nothing : ∀ part, fill part = .ok none) {parts : List (Schema α)} {items results : List Value}
    (ih : ∀ (i : Nat) part x y, parts[i]? = some part → items[i]? = some x →
      d.restrict (.plain false) part x = .ok (some y) → y.PrunedFrom x)
    (h : Pointwise (fun i part y => d.restrictItem (.plain false) fill part items[i]? =
      .ok (some y)) parts results) :
    Pointwise (fun _ x y => Value.PrunedFrom y x) (items.take results.length) results := by
  refine pointwise_take fun i y hy => ?_
  obtain ⟨part, hp, made⟩ := h.exists_left hy
  cases hx : items[i]? with
  | none =>
    rw [hx, restrictItem, nothing] at made
    cases made
  | some x =>
    rw [hx, restrictItem_plain (nothing part)] at made
    exact ⟨x, rfl, ih i part x y hp hx made⟩

/-- What a union chooses without filling is a candidate. -/
theorem exists_of_chooseCandidate_plain {coerce : Bool} {n : Schema α}
    {candidates : List Candidate}
    (h : d.chooseCandidate (.plain coerce) n candidates = .ok (some r)) :
    ∃ c ∈ candidates, c.value = r := by
  rw [chooseCandidate] at h
  split at h
  · next c hc =>
    cases h
    exact ⟨c, List.mem_of_find?_eq_some hc, rfl⟩
  · rw [if_neg (by simp)] at h
    obtain ⟨c, hc, rfl⟩ := Option.map_eq_some_iff.mp (Except.ok.inj h)
    exact ⟨c, List.mem_of_head? hc, rfl⟩

/-! ### Rule by rule -/

/-- What restriction without options leaves of a value is pruned from it. -/
def OnlyRemoves (d : Document α) (n : Schema α) (v : Value) : Prop :=
  ∀ r, d.restrict (.plain false) n v = .ok (some r) → r.PrunedFrom v

theorem onlyRemoves_object {fields : Mapping (Field (Schema α))}
    (ih : ∀ m w, d.Calls (.node mark (.object fields)) v m w → d.OnlyRemoves m w) :
    d.OnlyRemoves (.node mark (.object fields)) v := by
  intro r h
  rcases v.mapping_or_ne with ⟨values, rfl⟩ | other
  · obtain ⟨results, hr, hres⟩ := restrict_object_eq_ok_iff.mp h
    cases hres
    refine .of_somes fun key y hy => ?_
    obtain ⟨field, hf, made⟩ := hr.exists_left hy
    cases hx : values.get? key with
    | some x =>
      rw [hx] at made
      exact ⟨x, rfl, ih _ x (.field hf hx) y made⟩
    | none =>
      rw [hx, restrictField, fillFor_plain, ite_self] at made
      cases made
  · rw [restrict_object_of_ne other, fillFor_plain] at h
    cases h

theorem onlyRemoves_dictionary {type : Schema α}
    (ih : ∀ m w, d.Calls (.node mark (.dictionary type)) v m w → d.OnlyRemoves m w) :
    d.OnlyRemoves (.node mark (.dictionary type)) v := by
  intro r h
  rcases v.mapping_or_ne with ⟨values, rfl⟩ | other
  · obtain ⟨results, hr, hres⟩ := restrict_dictionary_eq_ok_iff.mp h
    cases hres
    refine .of_somes fun key y hy => ?_
    obtain ⟨x, hx, made⟩ := hr.exists_left hy
    exact ⟨x, hx, ih type x (.entry hx) y made⟩
  · rw [restrict_dictionary_of_ne other, fillFor_plain] at h
    cases h

/-- The initial items stay at the start, and behind them those that are of the rest. -/
theorem onlyRemoves_array {initial : List (Schema α)} {rest : Schema α}
    (ih : ∀ m w, d.Calls (.node mark (.array initial rest)) v m w → d.OnlyRemoves m w) :
    d.OnlyRemoves (.node mark (.array initial rest)) v := by
  intro r h
  rcases v.sequence_or_ne with ⟨items, rfl⟩ | other
  · rcases restrict_array_eq_ok_iff.mp h with ⟨first, others, hfirst, hothers, hres⟩ | ⟨-, h⟩
    · cases hres
      have made : ∀ i x y, items[i]? = some x →
          d.restrict (.plain false) (Rule.itemAt initial rest i) x = .ok (some y) →
          y.PrunedFrom x := fun i x y hx => ih _ x (.item hx) y
      have before := pointwise_prunedFrom_of_items fillInitial_plain (fun i part x y hp hx =>
        Rule.itemAt_of_getElem? hp ▸ made i x y hx) hfirst
      have behind : Pointwise (fun _ x y? => ∀ y, y? = some y → y.PrunedFrom x)
          (items.drop first.length) others := by
        rw [hfirst.length]
        refine ⟨hothers.length, fun i x y? hx hy y some_y => ?_⟩
        have left := hothers.related i x y? hx hy
        rw [List.getElem?_drop] at hx
        refine made _ x y hx ?_
        rw [Rule.itemAt_length_add, left, some_y]
      obtain ⟨chosen, sub, pruned⟩ := exists_sublist_pointwise behind
      refine .of_sublist ?_ (before.append pruned)
      have sub' := sub.append_left (items.take first.length)
      rwa [List.take_append_drop] at sub'
    · cases h
  · rw [restrict_array_of_ne other, fillFor_plain] at h
    cases h

theorem onlyRemoves_tuple {elements : OneOrMore (Schema α)}
    (ih : ∀ m w, d.Calls (.node mark (.tuple elements)) v m w → d.OnlyRemoves m w) :
    d.OnlyRemoves (.node mark (.tuple elements)) v := by
  intro r h
  rcases v.sequence_or_ne with ⟨items, rfl⟩ | other
  · rcases restrict_tuple_eq_ok_iff.mp h with ⟨-, hres⟩ | ⟨-, ⟨results, hr, hres⟩ | ⟨-, h⟩⟩
    · cases hres
    · cases hres
      exact .of_sublist (List.take_sublist _ _) (pointwise_prunedFrom_of_items fillFor_plain
        (fun i part x y hp hx => ih part x (.element hp hx) y) hr)
    · cases h
  · rw [restrict_tuple_of_ne other, fillFor_plain] at h
    cases h

/-- Every candidate of a union is what an alternative leaves. -/
theorem onlyRemoves_oneof {alternatives : OneOrMore (Schema α)}
    (ih : ∀ m w, d.Calls (.node mark (.oneof alternatives)) v m w → d.OnlyRemoves m w) :
    d.OnlyRemoves (.node mark (.oneof alternatives)) v := by
  intro r h
  rcases restrict_oneof_cases h with ⟨a, ha, -, h⟩ | ⟨-, h⟩
  · exact ih a v (.unfold (.alternative ha)) r h
  · rw [candidates_plain] at h
    obtain ⟨c, hc, rfl⟩ := exists_of_chooseCandidate_plain h
    obtain ⟨a, ha, made, -⟩ := exists_of_mem_plainCandidates hc
    exact ih a v (.unfold (.alternative ha)) _ (restrict_plain_eq_ok_iff.mpr made)

/-- **What restriction leaves of a value without options is pruned from it.** -/
theorem onlyRemoves (d : Document α) (n : Schema α) (v : Value) : d.OnlyRemoves n v := by
  refine d.calls_induction (motive := d.OnlyRemoves) ?_ n v
  rintro ⟨mark, rule⟩ v ih
  cases rule with
  | any =>
    intro r h
    rw [restrict_any] at h
    cases h
    exact .refl v
  | scalar type =>
    intro r h
    rw [restrict_scalar, orFill_plain] at h
    split at h
    · cases h
      exact .refl v
    · cases h
  | enum members =>
    intro r h
    rw [restrict_enum, orFill_plain] at h
    split at h
    · cases h
      exact .refl v
    · cases h
  | object fields => exact onlyRemoves_object ih
  | array initial rest => exact onlyRemoves_array ih
  | tuple elements => exact onlyRemoves_tuple ih
  | dictionary type => exact onlyRemoves_dictionary ih
  | oneof alternatives => exact onlyRemoves_oneof ih
  | ref label =>
    intro r h
    cases hb : d.body? label with
    | some body =>
      rw [restrict_ref hb] at h
      exact ih body v (.unfold (.target hb)) r h
    | none =>
      rw [restrict_ref_of_none hb] at h
      cases h
      exact .refl v

/-- **Restriction without options only removes**: it does not fail, and what it leaves of a
value, if anything, is pruned from the value. -/
theorem restrict_only_removes (d : Document α) (n : Schema α) (v : Value) :
    ∃ r?, d.restrict ⟨false, false, false⟩ n v = .ok r? ∧ ∀ r ∈ r?, r.PrunedFrom v :=
  ⟨d.prune false n v, d.restrict_plain false n v, fun _ hr =>
    d.onlyRemoves n v _ (restrict_plain_eq_ok_iff.mpr hr)⟩

/-- A tree with something among its children that is none, and with a tag on the other. -/
def overgrown : Value :=
  .mapping <| .ofList
    [("children", .sequence
      [.number 5,
        .mapping <| .ofList
          [("tag", .bool true), ("text", .string "leaf"), ("children", .sequence [])]]),
      ("text", .string "stem")]

/-- The tree with the other child, which has no tag. -/
def trimmed : Value :=
  .mapping <| .ofList
    [("text", .string "stem"),
      ("children", .sequence
        [.mapping <| .ofList [("text", .string "leaf"), ("children", .sequence [])]])]

theorem restrict_overgrown :
    compile treeSource = .ok tree.locate ∧
      tree.locate.restrict ⟨false, false, false⟩ tree.locate.root overgrown = .ok (some trimmed) ∧
      trimmed.PrunedFrom overgrown := by
  have left : tree.locate.restrict ⟨false, false, false⟩ tree.locate.root overgrown =
      .ok (some trimmed) := by cbv
  obtain ⟨r?, hr, pruned⟩ := restrict_only_removes tree.locate tree.locate.root overgrown
  rw [left] at hr
  cases hr
  exact ⟨compile_treeSource, left, pruned trimmed rfl⟩

end Document

end TreeSchema
