/-
# Insertion-ordered mappings with distinct string keys

A `Mapping` binds each of its keys to one value and remembers the order in which
the keys came in. Distinctness of the keys is part of the type, so no operation
has to re-establish it and no theorem has to assume it.

The values are a function on the keys, not a list of pairs: the proof of
distinctness then never speaks of the values, and a type may contain mappings
of itself. `entries` is the list view, `get?` the lookup view; `ofEntries`
goes back from a list, and keeps it, so a mapping built by any operation of this
module reads its values off a list.

* `Mapping.ext_get?` — two mappings with the same key order and the same lookups
  are equal.
* `Mapping.entries_ofEntries`, `Mapping.ofEntries_entries` — the list view and
  the mapping determine each other.
* `Mapping.get?_insert`, `Mapping.keys_insert`, `Mapping.get?_erase`,
  `Mapping.keys_erase` — what insertion and removal do to both views.
* `Mapping.mem_entries_iff` — an entry is a successful lookup.
-/

namespace TreeSchema

/-- A finite map from distinct string keys, listed in insertion order. -/
structure Mapping (α : Type) where
  /-- The keys, in insertion order. -/
  keys : List String
  nodup : keys.Nodup
  /-- The value bound to each key. -/
  value : { key : String // key ∈ keys } → α

namespace Mapping

variable {α β γ : Type}

/-! ### The two views -/

/-- The value bound to a key, if the key is present. -/
def get? (m : Mapping α) (key : String) : Option α :=
  if h : key ∈ m.keys then some (m.value ⟨key, h⟩) else none

/-- The bindings, in insertion order. -/
def entries (m : Mapping α) : List (String × α) :=
  m.keys.attach.map fun key => (key.1, m.value key)

/-- The values, in insertion order. -/
def values (m : Mapping α) : List α :=
  m.entries.map (·.2)

/-- The number of bindings. -/
def size (m : Mapping α) : Nat :=
  m.keys.length

def isEmpty (m : Mapping α) : Bool :=
  m.keys.isEmpty

def contains (m : Mapping α) (key : String) : Bool :=
  m.keys.contains key

theorem get?_eq_some_value (m : Mapping α) {key : String} (h : key ∈ m.keys) :
    m.get? key = some (m.value ⟨key, h⟩) :=
  dif_pos h

theorem get?_eq_none_iff {m : Mapping α} {key : String} :
    m.get? key = none ↔ key ∉ m.keys := by
  unfold get?
  split <;> simp [*]

theorem get?_isSome_iff {m : Mapping α} {key : String} :
    (m.get? key).isSome = true ↔ key ∈ m.keys := by
  unfold get?
  split <;> simp [*]

theorem contains_iff {m : Mapping α} {key : String} :
    m.contains key = true ↔ key ∈ m.keys := by
  simp [contains]

theorem mem_keys_of_get? {m : Mapping α} {key : String} {a : α}
    (h : m.get? key = some a) : key ∈ m.keys :=
  get?_isSome_iff.mp (by simp [h])

@[simp] theorem entries_map_fst (m : Mapping α) : m.entries.map (·.1) = m.keys := by
  simp [entries, Function.comp_def]

@[simp] theorem length_entries (m : Mapping α) : m.entries.length = m.size := by
  simp [entries, size]

/-- **An entry is a successful lookup.** -/
theorem mem_entries_iff {m : Mapping α} {key : String} {a : α} :
    (key, a) ∈ m.entries ↔ m.get? key = some a := by
  unfold entries get?
  rw [List.mem_map]
  constructor
  · rintro ⟨⟨k, hk⟩, -, h⟩
    obtain ⟨rfl, rfl⟩ := Prod.mk.inj h
    exact dif_pos hk
  · intro h
    split at h
    · next hk => exact ⟨⟨key, hk⟩, List.mem_attach _ _, by rw [Option.some.inj h]⟩
    · exact absurd h (by simp)

theorem get?_of_mem_entries {m : Mapping α} {e : String × α} (h : e ∈ m.entries) :
    m.get? e.1 = some e.2 :=
  mem_entries_iff.mp h

theorem mem_values_iff {m : Mapping α} {a : α} :
    a ∈ m.values ↔ ∃ key, m.get? key = some a := by
  simp [values, ← mem_entries_iff]

/-- **The key order and the lookups determine a mapping.** -/
theorem ext_get? {m n : Mapping α} (hk : m.keys = n.keys)
    (hg : ∀ key, m.get? key = n.get? key) : m = n := by
  obtain ⟨ks, nd, f⟩ := m
  obtain ⟨ks', nd', g⟩ := n
  obtain rfl : ks = ks' := hk
  have hfg : f = g := by
    funext ⟨key, h⟩
    have := hg key
    rw [get?_eq_some_value ⟨ks, nd, f⟩ h, get?_eq_some_value ⟨ks, nd', g⟩ h] at this
    exact Option.some.inj this
  subst hfg
  rfl

/-! ### Building from a list -/

/-- The second component of the first pair with the given key. -/
private def find? (es : List (String × α)) (key : String) : Option α :=
  (es.find? (·.1 == key)).map (·.2)

private theorem find?_isSome {es : List (String × α)} {key : String}
    (h : key ∈ es.map (·.1)) : (find? es key).isSome = true := by
  obtain ⟨e, he, rfl⟩ := List.mem_map.mp h
  simp only [find?, Option.isSome_map, List.find?_isSome]
  exact ⟨e, he, by simp⟩

private theorem find?_eq_none {es : List (String × α)} {key : String}
    (h : key ∉ es.map (·.1)) : find? es key = none := by
  simp only [find?, Option.map_eq_none_iff, List.find?_eq_none, beq_iff_eq]
  rintro e he rfl
  exact h (List.mem_map_of_mem he)

private theorem find?_of_mem {es : List (String × α)} (nd : (es.map (·.1)).Nodup)
    {e : String × α} (he : e ∈ es) : find? es e.1 = some e.2 := by
  induction es with
  | nil => cases he
  | cons d ds ih =>
    rw [List.map_cons, List.nodup_cons] at nd
    simp only [find?, List.find?_cons]
    rcases List.mem_cons.mp he with rfl | he
    · simp
    · have : (d.1 == e.1) = false := by
        rw [beq_eq_false_iff_ne]
        rintro heq
        exact nd.1 (heq ▸ List.mem_map_of_mem he)
      rw [this]
      exact ih nd.2 he

/-- The mapping with the given entries, whose keys are distinct. -/
def ofEntries (es : List (String × α)) (nodup : (es.map (·.1)).Nodup) : Mapping α where
  keys := es.map (·.1)
  nodup := nodup
  value key := (find? es key.1).get (find?_isSome key.2)

@[simp] theorem keys_ofEntries (es : List (String × α)) (nd) :
    (ofEntries es nd).keys = es.map (·.1) := rfl

private theorem get?_ofEntries_eq_find? (es : List (String × α)) (nd) (key : String) :
    (ofEntries es nd).get? key = find? es key := by
  by_cases h : key ∈ es.map (·.1)
  · rw [get?_eq_some_value (ofEntries es nd) h]
    simp [ofEntries]
  · rw [find?_eq_none h]
    exact get?_eq_none_iff.mpr h

theorem get?_ofEntries_of_mem {es : List (String × α)} {nd} {e : String × α} (he : e ∈ es) :
    (ofEntries es nd).get? e.1 = some e.2 := by
  rw [get?_ofEntries_eq_find?, find?_of_mem nd he]

theorem get?_ofEntries_eq_none {es : List (String × α)} {nd} {key : String}
    (h : key ∉ es.map (·.1)) : (ofEntries es nd).get? key = none :=
  get?_eq_none_iff.mpr h

/-- **The entries of a mapping built from a list are that list.** -/
@[simp] theorem entries_ofEntries (es : List (String × α)) (nd) :
    (ofEntries es nd).entries = es := by
  apply List.ext_getElem?
  intro i
  simp only [entries, List.getElem?_map, keys_ofEntries]
  by_cases h : i < es.length
  · rw [List.getElem?_eq_getElem (by simpa using h), List.getElem?_eq_getElem h]
    simp only [Option.map_some, Option.some.injEq, List.getElem_attach, List.getElem_map]
    have hm : es[i] ∈ es := List.getElem_mem h
    have hv : (ofEntries es nd).get? es[i].1 = some es[i].2 := get?_ofEntries_of_mem hm
    rw [get?_eq_some_value (ofEntries es nd) (List.mem_map_of_mem hm)] at hv
    exact Prod.ext rfl (Option.some.inj hv)
  · rw [List.getElem?_eq_none (by simpa using h), List.getElem?_eq_none (by omega)]
    rfl

theorem nodup_entries (m : Mapping α) : (m.entries.map (·.1)).Nodup := by
  simpa using m.nodup

/-- **A mapping is rebuilt from its entries.** -/
@[simp] theorem ofEntries_entries (m : Mapping α) (nd) : ofEntries m.entries nd = m := by
  apply ext_get?
  · simp
  · intro key
    by_cases h : key ∈ m.keys
    · rw [get?_eq_some_value m h]
      exact get?_ofEntries_of_mem (mem_entries_iff.mpr (get?_eq_some_value m h))
    · rw [get?_eq_none_iff.mpr h, get?_eq_none_iff.mpr (by simpa using h)]

theorem ext_entries {m n : Mapping α} (h : m.entries = n.entries) : m = n := by
  rw [← ofEntries_entries m m.nodup_entries, ← ofEntries_entries n n.nodup_entries]
  congr 1

/-- The same mapping with its entries listed once and kept. -/
def refresh (m : Mapping α) : Mapping α :=
  ofEntries m.entries m.nodup_entries

@[simp] theorem refresh_eq (m : Mapping α) : m.refresh = m :=
  ofEntries_entries m m.nodup_entries

/-! ### Insertion and removal -/

/-- The mapping without bindings. -/
def empty : Mapping α := ofEntries [] List.nodup_nil

instance : EmptyCollection (Mapping α) := ⟨empty⟩
instance : Inhabited (Mapping α) := ⟨empty⟩

@[simp] theorem keys_empty : (∅ : Mapping α).keys = [] := rfl
@[simp] theorem get?_empty (key : String) : (∅ : Mapping α).get? key = none := rfl

/-- Binds a key in a list of entries: in its place if it has one, else at the end. -/
private def bound (es : List (String × α)) (key : String) (a : α) : List (String × α) :=
  if key ∈ es.map (·.1) then es.map fun e => if e.1 = key then (key, a) else e
  else es ++ [(key, a)]

private theorem map_fst_bound (es : List (String × α)) (key : String) (a : α) :
    (bound es key a).map (·.1) =
      if key ∈ es.map (·.1) then es.map (·.1) else es.map (·.1) ++ [key] := by
  unfold bound
  split
  · rw [List.map_map]
    apply List.map_congr_left
    intro e _
    simp only [Function.comp_apply]
    split <;> simp_all
  · simp

private theorem nodup_bound {es : List (String × α)} (nd : (es.map (·.1)).Nodup) (key : String)
    (a : α) : ((bound es key a).map (·.1)).Nodup := by
  rw [map_fst_bound]
  split
  · exact nd
  · next h =>
    rw [List.nodup_append]
    refine ⟨nd, by simp, ?_⟩
    rintro k hk _ hk'
    rw [List.mem_singleton.mp hk']
    rintro rfl
    exact h hk

private theorem bound_of_not_mem {es : List (String × α)} {key : String}
    (h : key ∉ es.map (·.1)) (a : α) : bound es key a = es ++ [(key, a)] :=
  if_neg h

/-- Binds a key. A key already present keeps its place, a new one goes last. -/
def insert (m : Mapping α) (key : String) (a : α) : Mapping α :=
  ofEntries (bound m.entries key a) (nodup_bound m.nodup_entries key a)

theorem keys_insert (m : Mapping α) (key : String) (a : α) :
    (m.insert key a).keys = if key ∈ m.keys then m.keys else m.keys ++ [key] := by
  rw [insert, keys_ofEntries, map_fst_bound, entries_map_fst]

theorem get?_insert (m : Mapping α) (key : String) (a : α) (query : String) :
    (m.insert key a).get? query = if query = key then some a else m.get? query := by
  by_cases hq : query = key
  · subst hq
    rw [if_pos rfl]
    apply get?_ofEntries_of_mem (e := (query, a))
    unfold bound
    split
    · next h =>
      obtain ⟨e, he, rfl⟩ := List.mem_map.mp h
      exact List.mem_map.mpr ⟨e, he, by simp⟩
    · simp
  · rw [if_neg hq]
    cases hm : m.get? query with
    | none =>
      apply get?_ofEntries_eq_none
      rw [map_fst_bound, entries_map_fst]
      have := get?_eq_none_iff.mp hm
      split <;> simp [*]
    | some b =>
      apply get?_ofEntries_of_mem (e := (query, b))
      have hmem := mem_entries_iff.mpr hm
      unfold bound
      split
      · exact List.mem_map.mpr ⟨_, hmem, by simp [hq]⟩
      · simp [hmem]

private theorem nodup_filter_fst (m : Mapping α) (p : String × α → Bool) :
    ((m.entries.filter p).map (·.1)).Nodup :=
  m.nodup_entries.sublist (List.filter_sublist.map _)

/-- The entries that satisfy a test, in their order. -/
def filter (m : Mapping α) (p : String × α → Bool) : Mapping α :=
  ofEntries (m.entries.filter p) (nodup_filter_fst m p)

@[simp] theorem entries_filter (m : Mapping α) (p : String × α → Bool) :
    (m.filter p).entries = m.entries.filter p :=
  entries_ofEntries _ _

/-- Removes a key; the other entries keep their order. -/
def erase (m : Mapping α) (key : String) : Mapping α :=
  m.filter (·.1 != key)

theorem entries_erase (m : Mapping α) (key : String) :
    (m.erase key).entries = m.entries.filter (·.1 != key) :=
  entries_filter _ _

theorem keys_erase (m : Mapping α) (key : String) :
    (m.erase key).keys = m.keys.filter (· != key) := by
  rw [← entries_map_fst, entries_erase, ← entries_map_fst, List.filter_map]
  rfl

theorem get?_erase (m : Mapping α) (key query : String) :
    (m.erase key).get? query = if query = key then none else m.get? query := by
  apply Option.ext
  intro a
  rw [← mem_entries_iff, entries_erase, List.mem_filter, mem_entries_iff]
  by_cases h : query = key <;> simp [h]

/-- Binds a key, and tells what it was bound to before. -/
def getThenInsert (m : Mapping α) (key : String) (a : α) : Option α × Mapping α :=
  (m.get? key, m.insert key a)

/-- Removes a key, and tells what it was bound to. -/
def getThenErase (m : Mapping α) (key : String) : Option α × Mapping α :=
  (m.get? key, m.erase key)

private theorem nodup_foldl_bound (es ds : List (String × α)) (nd : (ds.map (·.1)).Nodup) :
    ((es.foldl (fun ds e => bound ds e.1 e.2) ds).map (·.1)).Nodup := by
  induction es generalizing ds with
  | nil => exact nd
  | cons e es ih => exact ih _ (nodup_bound nd e.1 e.2)

/-- Binds the given pairs one after the other. -/
def ofList (es : List (String × α)) : Mapping α :=
  ofEntries (es.foldl (fun ds e => bound ds e.1 e.2) []) (nodup_foldl_bound es [] List.nodup_nil)

private theorem ofEntries_foldl_bound (es ds : List (String × α)) (nd : (ds.map (·.1)).Nodup) :
    ofEntries (es.foldl (fun ds e => bound ds e.1 e.2) ds) (nodup_foldl_bound es ds nd) =
      es.foldl (fun m e => m.insert e.1 e.2) (ofEntries ds nd) := by
  induction es generalizing ds with
  | nil => rfl
  | cons e es ih =>
    have first : ofEntries (bound ds e.1 e.2) (nodup_bound nd e.1 e.2) =
        (ofEntries ds nd).insert e.1 e.2 :=
      ext_entries (by rw [insert, entries_ofEntries, entries_ofEntries, entries_ofEntries])
    refine (ih (bound ds e.1 e.2) (nodup_bound nd e.1 e.2)).trans ?_
    rw [List.foldl_cons, first]

/-- A mapping from a list comes about by insertions. -/
theorem ofList_eq_foldl_insert (es : List (String × α)) :
    ofList es = es.foldl (fun m e => m.insert e.1 e.2) ∅ :=
  ofEntries_foldl_bound es [] List.nodup_nil

private theorem foldl_bound_of_nodup (es ds : List (String × α))
    (nd : ((ds ++ es).map (·.1)).Nodup) :
    es.foldl (fun ds e => bound ds e.1 e.2) ds = ds ++ es := by
  induction es generalizing ds with
  | nil => rw [List.foldl_nil, List.append_nil]
  | cons e es ih =>
    have hn : e.1 ∉ ds.map (·.1) := fun h => by
      rw [List.map_append, List.nodup_append] at nd
      exact nd.2.2 _ h _ (by simp) rfl
    rw [List.append_cons] at nd ⊢
    rw [List.foldl_cons, bound_of_not_mem hn]
    exact ih _ nd

/-- **Distinct keys are bound in the order given.** -/
theorem entries_ofList {es : List (String × α)} (nd : (es.map (·.1)).Nodup) :
    (ofList es).entries = es := by
  rw [ofList, entries_ofEntries]
  exact foldl_bound_of_nodup es [] nd

theorem ofList_eq_ofEntries {es : List (String × α)} (nd : (es.map (·.1)).Nodup) :
    ofList es = ofEntries es nd :=
  ext_entries (by rw [entries_ofList nd, entries_ofEntries])

@[simp] theorem ofList_entries (m : Mapping α) : ofList m.entries = m :=
  ext_entries (entries_ofList m.nodup_entries)

/-! ### Entry by entry -/

private theorem nodup_map_entries (m : Mapping α) (f : String × α → β) :
    ((m.entries.map fun e => (e.1, f e)).map (·.1)).Nodup := by
  simpa [Function.comp_def] using m.nodup

/-- Applies a function to every value. -/
def map (f : α → β) (m : Mapping α) : Mapping β :=
  ofEntries (m.entries.map fun e => (e.1, f e.2)) (nodup_map_entries m (f ·.2))

@[simp] theorem entries_map (f : α → β) (m : Mapping α) :
    (m.map f).entries = m.entries.map fun e => (e.1, f e.2) :=
  entries_ofEntries _ _

@[simp] theorem keys_map (f : α → β) (m : Mapping α) : (m.map f).keys = m.keys := by
  rw [← entries_map_fst, entries_map, List.map_map, ← entries_map_fst m]
  rfl

@[simp] theorem get?_map (f : α → β) (m : Mapping α) (key : String) :
    (m.map f).get? key = (m.get? key).map f := by
  apply Option.ext
  intro b
  rw [← mem_entries_iff, entries_map, List.mem_map, Option.map_eq_some_iff]
  constructor
  · rintro ⟨⟨k, a⟩, he, h⟩
    obtain ⟨rfl, rfl⟩ := Prod.mk.inj h
    exact ⟨a, mem_entries_iff.mp he, rfl⟩
  · rintro ⟨a, ha, rfl⟩
    exact ⟨(key, a), mem_entries_iff.mpr ha, rfl⟩

@[simp] theorem map_map (f : α → β) (g : β → γ) (m : Mapping α) :
    (m.map f).map g = m.map fun a => g (f a) :=
  ext_entries (by simp [Function.comp_def])

private theorem nodup_sorted (m : Mapping α) :
    ((m.entries.mergeSort (fun d e => d.1 ≤ e.1)).map (·.1)).Nodup :=
  ((List.mergeSort_perm _ _).map _).nodup_iff.mpr m.nodup_entries

/-- The same bindings in ascending order of their keys. -/
def sorted (m : Mapping α) : Mapping α :=
  ofEntries (m.entries.mergeSort (fun d e => d.1 ≤ e.1)) (nodup_sorted m)

@[simp] theorem entries_sorted (m : Mapping α) :
    m.sorted.entries = m.entries.mergeSort (fun d e => d.1 ≤ e.1) :=
  entries_ofEntries _ _

theorem get?_sorted (m : Mapping α) (key : String) : m.sorted.get? key = m.get? key := by
  apply Option.ext
  intro a
  rw [← mem_entries_iff, ← mem_entries_iff, entries_sorted]
  exact List.mem_mergeSort

@[simp] theorem sorted_sorted (m : Mapping α) : m.sorted.sorted = m.sorted := by
  apply ext_entries
  rw [entries_sorted m.sorted]
  apply List.mergeSort_of_pairwise
  rw [entries_sorted]
  refine List.pairwise_mergeSort ?_ ?_ m.entries
  · intro a b c hab hbc
    exact decide_eq_true (String.le_trans (of_decide_eq_true hab) (of_decide_eq_true hbc))
  · intro a b
    simpa using String.le_total a.1 b.1

/-- Two mappings hold the same keys, bound to values that `same` relates; their
orders do not matter. -/
def equalBy (same : α → β → Bool) (m : Mapping α) (n : Mapping β) : Bool :=
  m.size == n.size && m.entries.all fun e => (n.get? e.1).any fun b => same e.2 b

end Mapping

end TreeSchema
