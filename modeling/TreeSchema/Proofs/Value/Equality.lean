import Mathlib.Data.List.Perm.Subperm
import TreeSchema.Proofs.Traversal
import TreeSchema.Value.Equality

/-!
# Equal values

What is equal to a value is of its kind and has equal parts, items by position and fields
by key. Equality is symmetric and transitive; it is not reflexive, as NaN equals nothing.

* `Mapping.Matching` — mappings related key by key, whatever the orders of their keys;
  `Mapping.matching_somes` — results and what they are results of.
* `Value.beq_sequence_iff`, `Value.beq_mapping_iff` — equality from its parts.
* `Value.beq_symm`, `Value.beq_trans`.
-/

namespace TreeSchema

variable {α β : Type}

/-! ### Numbers -/

namespace Binary64

theorem beq_eq_equal (a b : Binary64) : (a == b) = a.equal b := rfl

theorem beq_symm {a b : Binary64} (h : (a == b) = true) : (b == a) = true := by
  cases a <;> cases b <;> simp_all [beq_eq_equal, equal]
  grind

theorem beq_trans {a b c : Binary64} (hab : (a == b) = true) (hbc : (b == c) = true) :
    (a == c) = true := by
  cases a <;> cases b <;> cases c <;> simp_all [beq_eq_equal, equal]
  grind

theorem isIntegral_of_beq {a b : Binary64} (h : (a == b) = true) (hb : b.isIntegral = true) :
    a.isIntegral = true := by
  cases a <;> cases b <;> simp_all [beq_eq_equal, equal, isIntegral]

end Binary64

/-! ### Mappings -/

namespace Mapping

/-- The mappings have the same keys, in whatever order, and values of one key are related. -/
structure Matching (R : α → β → Prop) (m : Mapping α) (n : Mapping β) : Prop where
  keys : ∀ key, key ∈ m.keys ↔ key ∈ n.keys
  related : ∀ key a b, m.get? key = some a → n.get? key = some b → R a b

namespace Matching

variable {R : α → β → Prop} {m : Mapping α} {n : Mapping β}

theorem exists_right (h : m.Matching R n) {key : String} {a : α} (ha : m.get? key = some a) :
    ∃ b, n.get? key = some b ∧ R a b := by
  have hb := n.get?_eq_some_value ((h.keys key).mp (mem_keys_of_get? ha))
  exact ⟨_, hb, h.related key a _ ha hb⟩

theorem swap (h : m.Matching R n) : n.Matching (fun b a => R a b) m :=
  ⟨fun key => (h.keys key).symm, fun key b a hb ha => h.related key a b ha hb⟩

theorem mono {S : α → β → Prop} (h : m.Matching R n) (sub : ∀ a b, R a b → S a b) :
    m.Matching S n :=
  ⟨h.keys, fun key a b ha hb => sub a b (h.related key a b ha hb)⟩

/-- A key is in neither mapping or in both, with related values. -/
theorem get? (h : m.Matching R n) (key : String) :
    (m.get? key = none ∧ n.get? key = none) ∨
      ∃ a b, m.get? key = some a ∧ n.get? key = some b ∧ R a b := by
  cases ha : m.get? key with
  | none =>
    refine .inl ⟨rfl, ?_⟩
    rw [get?_eq_none_iff] at ha ⊢
    exact (h.keys key).not.mp ha
  | some a =>
    obtain ⟨b, hb, hab⟩ := h.exists_right ha
    exact .inr ⟨a, b, rfl, hb, hab⟩

theorem sorted (h : m.Matching R n) : m.Matching R n.sorted := by
  refine ⟨?_, ?_⟩
  · intro key
    rw [h.keys, ← get?_isSome_iff, ← get?_isSome_iff, get?_sorted]
  · intro key a b ha hb
    rw [get?_sorted] at hb
    exact h.related key a b ha hb

theorem size_eq (h : m.Matching R n) : m.size = n.size :=
  ((List.perm_ext_iff_of_nodup m.nodup n.nodup).mpr h.keys).length_eq

end Matching

theorem Pointwise.matching {R : α → β → Prop} {m : Mapping α} {n : Mapping β}
    (h : m.Pointwise (fun _ => R) n) : m.Matching R n :=
  ⟨fun key => by rw [h.keys], h.related⟩

/-- A mapping of results, those that are absent left out, and the mapping they are
results of. -/
theorem matching_somes {R : α → β → Prop} {results : Mapping (Option α)} {values : Mapping β}
    (present : ∀ key a, results.get? key = some (some a) → key ∈ values.keys)
    (kept : ∀ key b, values.get? key = some b → ∃ a, results.get? key = some (some a) ∧ R a b) :
    results.somes.Matching R values := by
  refine ⟨?_, ?_⟩
  · intro key
    rw [mem_keys_somes_iff]
    constructor
    · rintro ⟨a, ha⟩
      exact present key a ha
    · intro hk
      obtain ⟨a, ha, -⟩ := kept key _ (values.get?_eq_some_value hk)
      exact ⟨a, ha⟩
  · intro key a b ha hb
    obtain ⟨a', ha', h⟩ := kept key b hb
    rw [get?_somes, ha', Option.join_some] at ha
    exact Option.some.inj ha ▸ h

/-- Of mappings of one size, the one has the keys of the other if the other has its keys. -/
theorem mem_keys_iff_of_size_eq {m : Mapping α} {n : Mapping β} (size : m.size = n.size)
    (h : m.keys ⊆ n.keys) (key : String) : key ∈ m.keys ↔ key ∈ n.keys := by
  have perm : m.keys.Perm n.keys :=
    (List.subperm_of_subset m.nodup h).perm_of_length_le (Nat.le_of_eq size.symm)
  exact perm.mem_iff

theorem equalBy_iff {same : α → β → Bool} {m : Mapping α} {n : Mapping β} :
    m.equalBy same n = true ↔ m.Matching (fun a b => same a b = true) n := by
  rw [equalBy, Bool.and_eq_true, beq_iff_eq, List.all_eq_true]
  constructor
  · rintro ⟨size, h⟩
    have sub : m.keys ⊆ n.keys := by
      intro key hk
      have := h _ (mem_entries_iff.mpr (m.get?_eq_some_value hk))
      exact get?_isSome_iff.mp (Option.isSome_of_any this)
    refine ⟨mem_keys_iff_of_size_eq size sub, ?_⟩
    intro key a b ha hb
    have := h _ (mem_entries_iff.mpr ha)
    rwa [hb, Option.any_some] at this
  · intro h
    refine ⟨h.size_eq, ?_⟩
    intro e he
    obtain ⟨b, hb, hab⟩ := h.exists_right (get?_of_mem_entries he)
    rw [hb, Option.any_some]
    exact hab

end Mapping

/-! ### Values -/

namespace Value

theorem kind_eq_of_beq {v w : Value} (h : (v == w) = true) : v.kind = w.kind := by
  cases v <;> cases w <;> first | rfl | simp [beq_eq_equal, equal] at h

theorem beq_string_iff {s t : String} : (string s == string t) = true ↔ s = t := by
  rw [beq_eq_equal, equal, beq_iff_eq]

theorem beq_number_iff {a : Binary64} {w : Value} :
    (number a == w) = true ↔ ∃ b, w = number b ∧ (a == b) = true := by
  cases w <;> simp [beq_eq_equal, equal]

theorem beq_sequence_iff {items : List Value} {w : Value} :
    (sequence items == w) = true ↔
      ∃ others, w = sequence others ∧ Pointwise (fun _ a b => (a == b) = true) items others := by
  cases w with
  | sequence others =>
    rw [beq_eq_equal, equal_sequence, Bool.and_eq_true, beq_iff_eq, List.all_eq_true]
    simp only [sequence.injEq, exists_eq_left']
    constructor
    · rintro ⟨length, h⟩
      refine ⟨length.symm, fun i a b ha hb => ?_⟩
      exact h (a, b) (List.mem_of_getElem? (List.getElem?_zip_eq_some.mpr ⟨ha, hb⟩))
    · rintro ⟨length, h⟩
      refine ⟨length.symm, fun p hp => ?_⟩
      obtain ⟨i, hi⟩ := List.mem_iff_getElem?.mp hp
      obtain ⟨ha, hb⟩ := List.getElem?_zip_eq_some.mp hi
      exact h i p.1 p.2 ha hb
  | _ => simp [beq_eq_equal, equal]

theorem beq_mapping_iff {fields : Mapping Value} {w : Value} :
    (mapping fields == w) = true ↔
      ∃ others, w = mapping others ∧ fields.Matching (fun a b => (a == b) = true) others := by
  cases w with
  | mapping others =>
    rw [beq_eq_equal, equal_mapping, Mapping.equalBy_iff]
    simp only [mapping.injEq, exists_eq_left']
    rfl
  | _ => simp [beq_eq_equal, equal]

theorem beq_symm {v w : Value} (h : (v == w) = true) : (w == v) = true := by
  induction v generalizing w with
  | sequence items ih =>
    obtain ⟨others, rfl, length, related⟩ := beq_sequence_iff.mp h
    refine beq_sequence_iff.mpr ⟨items, rfl, length.symm, fun i b a hb ha => ?_⟩
    exact ih a (List.mem_of_getElem? ha) (related i a b ha hb)
  | mapping fields ih =>
    obtain ⟨others, rfl, keys, related⟩ := beq_mapping_iff.mp h
    refine beq_mapping_iff.mpr ⟨fields, rfl, fun key => (keys key).symm, fun key b a hb ha => ?_⟩
    exact ih key a ha (related key a b ha hb)
  | number a =>
    obtain ⟨b, rfl, hab⟩ := beq_number_iff.mp h
    exact beq_number_iff.mpr ⟨a, rfl, Binary64.beq_symm hab⟩
  | _ => cases w <;> simp_all [beq_eq_equal, equal]

theorem beq_trans {u v w : Value} (huv : (u == v) = true) (hvw : (v == w) = true) :
    (u == w) = true := by
  induction u generalizing v w with
  | sequence items ih =>
    obtain ⟨others, rfl, hitems⟩ := beq_sequence_iff.mp huv
    obtain ⟨thirds, rfl, hothers⟩ := beq_sequence_iff.mp hvw
    refine beq_sequence_iff.mpr ⟨thirds, rfl, hothers.length.trans hitems.length, ?_⟩
    intro i a c ha hc
    obtain ⟨b, hb, hab⟩ := hitems.exists_right ha
    exact ih a (List.mem_of_getElem? ha) hab (hothers.related i b c hb hc)
  | mapping fields ih =>
    obtain ⟨others, rfl, hfields⟩ := beq_mapping_iff.mp huv
    obtain ⟨thirds, rfl, hothers⟩ := beq_mapping_iff.mp hvw
    refine beq_mapping_iff.mpr
      ⟨thirds, rfl, fun key => (hfields.keys key).trans (hothers.keys key), ?_⟩
    intro key a c ha hc
    obtain ⟨b, hb, hab⟩ := hfields.exists_right ha
    exact ih key a ha hab (hothers.related key b c hb hc)
  | number a =>
    obtain ⟨b, rfl, hab⟩ := beq_number_iff.mp huv
    obtain ⟨c, rfl, hbc⟩ := beq_number_iff.mp hvw
    exact beq_number_iff.mpr ⟨c, rfl, Binary64.beq_trans hab hbc⟩
  | _ => cases v <;> cases w <;> simp_all [beq_eq_equal, equal]

end Value

end TreeSchema
