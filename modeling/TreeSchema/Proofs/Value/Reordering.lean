import TreeSchema.Proofs.Value.Equality

/-!
# Values that differ in the order of entries only

`Reordered` is stricter than equality of values: scalars are the same, so NaN is
related to itself and the zeros of either sign are not related, and only the order
of the entries of mappings, at any depth, may differ.

* `Reordered.refl`, `Reordered.symm` — every value is itself reordered, both ways.
* `reordered_sequence_iff`, `reordered_mapping_iff` — sequences are reordered item by item,
  mappings key by key.
* `Reordered.of_sequence`, `Reordered.of_mapping` — what a sequence or a mapping can
  be reordered to, and where the parts come from.
* `Reordered.apply_eq` — what sees only scalars sees no difference.
-/

namespace TreeSchema.Value

/-- The values are the same up to the order of the entries of mappings. -/
inductive Reordered : Value → Value → Prop where
  | scalar {v : Value} : v.isScalar = true → Reordered v v
  | sequence {as bs : List Value} : as.length = bs.length →
      (∀ (i : Nat) a b, as[i]? = some a → bs[i]? = some b → Reordered a b) →
      Reordered (.sequence as) (.sequence bs)
  | mapping {as bs : Mapping Value} : (∀ key, key ∈ as.keys ↔ key ∈ bs.keys) →
      (∀ key a b, as.get? key = some a → bs.get? key = some b → Reordered a b) →
      Reordered (.mapping as) (.mapping bs)

theorem Reordered.refl (v : Value) : v.Reordered v := by
  induction v with
  | sequence items ih =>
    refine .sequence rfl ?_
    intro i a b ha hb
    obtain rfl := Option.some.inj (ha.symm.trans hb)
    exact ih a (List.mem_of_getElem? ha)
  | mapping fields ih =>
    refine .mapping (fun _ => Iff.rfl) ?_
    intro key a b ha hb
    obtain rfl := Option.some.inj (ha.symm.trans hb)
    exact ih key a ha
  | _ => exact .scalar rfl

theorem Reordered.symm {v w : Value} (h : v.Reordered w) : w.Reordered v := by
  induction h with
  | scalar hs => exact .scalar hs
  | sequence hl _ ih => exact .sequence hl.symm fun i b a hb ha => ih i a b ha hb
  | mapping hk _ ih =>
    exact .mapping (fun key => (hk key).symm) fun key b a hb ha => ih key a b ha hb

/-- A scalar is reordered to itself only. -/
theorem Reordered.eq_of_isScalar {v w : Value} (h : v.Reordered w) (hv : v.isScalar = true) :
    w = v := by
  cases h with
  | scalar _ => rfl
  | sequence _ _ => cases hv
  | mapping _ _ => cases hv

/-- What sees only scalars sees no difference. -/
theorem Reordered.apply_eq {α : Type} {f : Value → α} {blind : α}
    (only : ∀ v : Value, v.isScalar = false → f v = blind) {v w : Value} (h : v.Reordered w) :
    f w = f v := by
  cases h with
  | scalar _ => rfl
  | sequence _ _ => rw [only _ rfl, only _ rfl]
  | mapping _ _ => rw [only _ rfl, only _ rfl]

theorem reordered_sequence_iff {items others : List Value} :
    (sequence items).Reordered (sequence others) ↔
      Pointwise (fun _ => Reordered) items others := by
  constructor
  · intro h
    cases h with
    | scalar hs => cases hs
    | sequence length related => exact ⟨length.symm, related⟩
  · intro h
    exact .sequence h.length.symm h.related

theorem reordered_mapping_iff {fields others : Mapping Value} :
    (mapping fields).Reordered (mapping others) ↔ fields.Matching Reordered others := by
  constructor
  · intro h
    cases h with
    | scalar hs => cases hs
    | mapping keys related => exact ⟨keys, related⟩
  · intro h
    exact .mapping h.keys h.related

/-- Two entries the other way round. -/
theorem Reordered.swap {key other : String} (ne : key ≠ other) {v v' w w' : Value}
    (hv : v.Reordered v') (hw : w.Reordered w') :
    (Value.mapping (.ofList [(key, v), (other, w)])).Reordered
      (.mapping (.ofList [(other, w'), (key, v')])) := by
  have nd : ([(key, v), (other, w)].map (·.1)).Nodup := by simpa using ne
  have nd' : ([(other, w'), (key, v')].map (·.1)).Nodup := by simpa using ne.symm
  refine reordered_mapping_iff.mpr ⟨?_, ?_⟩
  · intro k
    rw [Mapping.ofList_eq_ofEntries nd, Mapping.ofList_eq_ofEntries nd']
    simp [or_comm]
  · intro k a b ha hb
    rw [← Mapping.mem_entries_iff, Mapping.entries_ofList nd] at ha
    rw [← Mapping.mem_entries_iff, Mapping.entries_ofList nd'] at hb
    grind

theorem Reordered.of_sequence {items : List Value} {w : Value}
    (h : (Value.sequence items).Reordered w) :
    ∃ others, w = .sequence others ∧ others.length = items.length ∧
      ∀ (i : Nat) y, others[i]? = some y → ∃ x, items[i]? = some x ∧ x.Reordered y := by
  cases h with
  | scalar hs => cases hs
  | @sequence _ others hl hv =>
    refine ⟨others, rfl, hl.symm, ?_⟩
    intro i y hy
    obtain ⟨hi, -⟩ := List.getElem?_eq_some_iff.mp hy
    rw [← hl] at hi
    have hx := List.getElem?_eq_getElem hi
    exact ⟨_, hx, hv i _ y hx hy⟩

theorem Reordered.of_mapping {values : Mapping Value} {w : Value}
    (h : (Value.mapping values).Reordered w) :
    ∃ others, w = .mapping others ∧ (∀ key, key ∈ values.keys ↔ key ∈ others.keys) ∧
      ∀ key y, others.get? key = some y → ∃ x, values.get? key = some x ∧ x.Reordered y := by
  cases h with
  | scalar hs => cases hs
  | @mapping _ others hk hv =>
    refine ⟨others, rfl, hk, ?_⟩
    intro key y hy
    obtain ⟨x, hx⟩ := Option.isSome_iff_exists.mp
      (Mapping.get?_isSome_iff.mpr ((hk key).mpr (Mapping.mem_keys_of_get? hy)))
    exact ⟨x, hx, hv key x y hx hy⟩

/-- A mapping of results, those that are absent left out, and the mapping they are
results of. -/
theorem Reordered.of_somes {results : Mapping (Option Value)} {values : Mapping Value}
    (present : ∀ key y, results.get? key = some (some y) → key ∈ values.keys)
    (kept : ∀ key x, values.get? key = some x →
      ∃ y, results.get? key = some (some y) ∧ y.Reordered x) :
    (Value.mapping results.somes).Reordered (.mapping values) := by
  obtain ⟨keys, related⟩ := Mapping.matching_somes present kept
  exact .mapping keys related

end TreeSchema.Value
