import TreeSchema.Mapping
import TreeSchema.OneOrMore

/-!
# Traversals

Running a fallible step on every element from left to right and keeping the
results. Each step is told the position of its element and that the element
belongs to the collection, so that it may recurse on it.

* `traverse` — lists; `OneOrMore.traverse`, `Mapping.traverse` — the same for the
  other collections, shape and keys kept.
* `firstSome` — the first result there is; `resultsUntil` — the results up to one that
  passes a test.
* `map_eq_of_traverse`, `OneOrMore.map_eq_of_traverse`, `Mapping.get?_of_traverse` — what
  holds between each element and its result holds between the collections.
-/

namespace TreeSchema

variable {α β : Type} {m : Type → Type} [Monad m]

/-- Runs a step on every element; `start` is the position of the first. -/
def traverse (start : Nat) :
    (xs : List α) → ((i : Nat) → (x : α) → x ∈ xs → m β) → m (List β)
  | [], _ => return []
  | x :: xs, f => do
    let y ← f start x List.mem_cons_self
    let ys ← traverse (start + 1) xs fun i x h => f i x (List.mem_cons_of_mem _ h)
    return y :: ys

/-- Runs a step on every element, the first of which has the position `start`. -/
def OneOrMore.traverse (start : Nat) (xs : OneOrMore α)
    (f : (i : Nat) → (x : α) → x ∈ xs.toList → m β) : m (OneOrMore β) := do
  let y ← f start xs.first xs.first_mem
  let ys ← TreeSchema.traverse (start + 1) xs.others fun i x h =>
    f i x (List.mem_cons_of_mem _ h)
  return ⟨y, ys⟩

private theorem nodup_zip_keys (fields : Mapping α) (bs : List β) :
    ((fields.keys.zip bs).map (·.1)).Nodup := by
  have h : ∀ (keys : List String) (bs : List β), ((keys.zip bs).map (·.1)).Sublist keys := by
    intro keys
    induction keys with
    | nil => intro _; exact .slnil
    | cons key keys ih =>
      intro bs
      cases bs with
      | nil => exact List.nil_sublist _
      | cons b bs => exact (ih bs).cons_cons _
  exact fields.nodup.sublist (h _ _)

/-- Runs a step on every binding. -/
def Mapping.traverse (fields : Mapping α)
    (f : (e : String × α) → e ∈ fields.entries → m β) : m (Mapping β) := do
  let bs ← TreeSchema.traverse 0 fields.entries fun _ e h => f e h
  return .ofEntries (fields.keys.zip bs) (nodup_zip_keys fields bs)

private theorem nodup_somes (fields : Mapping (Option α)) :
    ((fields.entries.filterMap fun e => e.2.map (e.1, ·)).map (·.1)).Nodup := by
  have h : ∀ es : List (String × Option α),
      ((es.filterMap fun e => e.2.map (e.1, ·)).map (·.1)).Sublist (es.map (·.1)) := by
    intro es
    induction es with
    | nil => exact .slnil
    | cons e es ih =>
      obtain ⟨key, a⟩ := e
      cases a with
      | none => exact ih.cons _
      | some a => exact ih.cons_cons _
  exact fields.nodup_entries.sublist (h _)

/-- The bindings to a value that is there. -/
def Mapping.somes (fields : Mapping (Option α)) : Mapping α :=
  .ofEntries (fields.entries.filterMap fun e => e.2.map (e.1, ·)) (nodup_somes fields)

/-- The first result that a step gives on a list of elements. -/
def firstSome : (xs : List α) → ((x : α) → x ∈ xs → m (Option β)) → m (Option β)
  | [], _ => return none
  | x :: xs, f => do
    match ← f x List.mem_cons_self with
    | some y => return some y
    | none => firstSome xs fun x h => f x (List.mem_cons_of_mem _ h)

/-- The results that a step gives on a list of elements, up to the first that
passes a test; the elements behind it are left alone. -/
def resultsUntil (test : β → Bool) :
    (xs : List α) → ((x : α) → x ∈ xs → m (Option β)) → m (List β)
  | [], _ => return []
  | x :: xs, f => do
    match ← f x List.mem_cons_self with
    | none => resultsUntil test xs fun x h => f x (List.mem_cons_of_mem _ h)
    | some y =>
      if test y then return [y]
      else
        let ys ← resultsUntil test xs fun x h => f x (List.mem_cons_of_mem _ h)
        return y :: ys

/-! ### Successful traversals -/

section

variable {ε : Type}

theorem bind_eq_ok {x : Except ε α} {f : α → Except ε β} {b : β} (h : (x >>= f) = .ok b) :
    ∃ a, x = .ok a ∧ f a = .ok b := by
  cases x with
  | error e => cases h
  | ok a => exact ⟨a, rfl, h⟩

theorem traverse_cons_eq_ok {start : Nat} {x : α} {xs : List α}
    {f : (i : Nat) → (a : α) → a ∈ x :: xs → Except ε β} {zs : List β}
    (h : traverse start (x :: xs) f = .ok zs) :
    ∃ y ys, f start x List.mem_cons_self = .ok y ∧
      traverse (start + 1) xs (fun i a m => f i a (List.mem_cons_of_mem _ m)) = .ok ys ∧
      zs = y :: ys := by
  rw [traverse] at h
  obtain ⟨y, hy, h⟩ := bind_eq_ok h
  obtain ⟨ys, hys, h⟩ := bind_eq_ok h
  cases h
  exact ⟨y, ys, hy, hys, rfl⟩

theorem map_eq_of_traverse {γ : Type} {start : Nat} {xs : List α}
    {f : (i : Nat) → (x : α) → x ∈ xs → Except ε β} {ys : List β} {g : β → γ} {k : α → γ}
    (same : ∀ i x h y, f i x h = .ok y → g y = k x) (h : traverse start xs f = .ok ys) :
    ys.map g = xs.map k := by
  induction xs generalizing start ys with
  | nil => cases h; rfl
  | cons x xs ih =>
    obtain ⟨y, ys, hy, hys, rfl⟩ := traverse_cons_eq_ok h
    rw [List.map_cons, List.map_cons, same _ _ _ _ hy, ih (fun i a m => same i a _) hys]

theorem OneOrMore.map_eq_of_traverse {γ : Type} {start : Nat} {xs : OneOrMore α}
    {f : (i : Nat) → (x : α) → x ∈ xs.toList → Except ε β} {ys : OneOrMore β} {g : β → γ}
    {k : α → γ} (same : ∀ i x h y, f i x h = .ok y → g y = k x)
    (h : xs.traverse start f = .ok ys) : ys.toList.map g = xs.toList.map k := by
  rw [OneOrMore.traverse] at h
  obtain ⟨y, hy, h⟩ := bind_eq_ok h
  obtain ⟨ys, hys, h⟩ := bind_eq_ok h
  cases h
  rw [toList, toList, List.map_cons, List.map_cons, same _ _ _ _ hy,
    TreeSchema.map_eq_of_traverse (fun i a m => same i a _) hys]

theorem length_of_traverse {start : Nat} {xs : List α}
    {f : (i : Nat) → (x : α) → x ∈ xs → Except ε β} {ys : List β}
    (h : traverse start xs f = .ok ys) : ys.length = xs.length := by
  simpa using congrArg List.length
    (map_eq_of_traverse (g := fun _ => ()) (k := fun _ => ()) (fun _ _ _ _ _ => rfl) h)

theorem Mapping.keys_of_traverse {fields : Mapping α}
    {f : (e : String × α) → e ∈ fields.entries → Except ε β} {results : Mapping β}
    (h : fields.traverse f = .ok results) : results.keys = fields.keys := by
  rw [Mapping.traverse] at h
  obtain ⟨bs, hbs, h⟩ := bind_eq_ok h
  cases h
  rw [keys_ofEntries]
  apply List.map_fst_zip
  rw [length_of_traverse hbs, length_entries]
  exact Nat.le_refl _

private theorem mem_zip_of_traverse {start : Nat} {es : List (String × α)}
    {f : Nat → (e : String × α) → e ∈ es → Except ε β} {bs : List β}
    (h : TreeSchema.traverse start es f = .ok bs) {e : String × α} (he : e ∈ es) :
    ∃ i m b, f i e m = .ok b ∧ (e.1, b) ∈ (es.map (·.1)).zip bs := by
  induction es generalizing start bs with
  | nil => cases he
  | cons d es ih =>
    obtain ⟨b, bs, hb, hbs, rfl⟩ := traverse_cons_eq_ok h
    rcases List.mem_cons.mp he with rfl | he
    · exact ⟨start, _, b, hb, by simp⟩
    · obtain ⟨i, m, b', hb', hm⟩ := ih hbs he
      exact ⟨i, _, b', hb', by simp [hm]⟩

/-- Every binding has its result under the same key. -/
theorem Mapping.get?_of_traverse {fields : Mapping α}
    {f : (e : String × α) → e ∈ fields.entries → Except ε β} {results : Mapping β}
    (h : fields.traverse f = .ok results) {e : String × α} (he : e ∈ fields.entries) :
    ∃ b, f e he = .ok b ∧ results.get? e.1 = some b := by
  rw [Mapping.traverse] at h
  obtain ⟨bs, hbs, h⟩ := bind_eq_ok h
  cases h
  obtain ⟨_, _, b, hb, hm⟩ := mem_zip_of_traverse hbs he
  rw [entries_map_fst] at hm
  exact ⟨b, hb, mem_entries_iff.mp (by rwa [entries_ofEntries])⟩

end

end TreeSchema
