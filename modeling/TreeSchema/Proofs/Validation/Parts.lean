import TreeSchema.Proofs.Document.Paths
import TreeSchema.Proofs.Document.References
import TreeSchema.Proofs.Restriction.Outcome
import TreeSchema.Proofs.Validation.Relocation

/-!
# Validating a part

What validation finds at a part of a value and below it is what it finds when it is given the
part alone, with the schema that a lookup finds there. A collection is taken apart, and what is
found at one of its parts is placed below the step to that part. The collection's own mismatches
and those of the other parts are placed elsewhere, so none of them is mixed in.

A union is different: what its alternatives find at a part is inside one mismatch, placed at the
union. The way to the part must therefore lead through collections alone.

* `Mismatch.isWithin` — the mismatch is placed at a path or below it.
* `Document.filter_validate_beside` — what is found at one part is not placed at another.
* `Document.filter_validate_child` — **one step**: what is found below a step is what is found at
  the part it leads to.
* `Document.filter_validate_atPath` — **a path**: validating a part by itself.
-/

namespace TreeSchema

/-! ### One block of many -/

section

variable {β γ : Type} {keep : β → Bool}

/-- What is kept of one block is all that is kept, if nothing is kept of the others. -/
theorem filter_flatten_of_getElem? {blocks : List (List β)} {i : Nat} {block : List β}
    (h : blocks[i]? = some block)
    (others : ∀ j other, blocks[j]? = some other → j ≠ i → other.filter keep = []) :
    blocks.flatten.filter keep = block.filter keep := by
  induction blocks generalizing i with
  | nil => simp at h
  | cons first rest ih =>
    rw [List.flatten_cons, List.filter_append]
    cases i with
    | zero =>
      obtain rfl : first = block := by simpa using h
      have nothing : rest.flatten.filter keep = [] := by
        rw [List.filter_flatten, List.flatten_eq_nil_iff]
        intro kept hkept
        obtain ⟨other, hother, rfl⟩ := List.mem_map.mp hkept
        obtain ⟨j, hj⟩ := List.mem_iff_getElem?.mp hother
        exact others (j + 1) other (by simpa using hj) (by simp)
      rw [nothing, List.append_nil]
    | succ i =>
      have nothing : first.filter keep = [] := others 0 first (by simp) (by simp)
      rw [nothing, List.nil_append]
      apply ih (i := i) (by simpa using h)
      intro j other hj hne
      exact others (j + 1) other (by simpa using hj) (by simpa using hne)

theorem filter_flatten_mapIdx_of_getElem? {xs : List γ} {f : Nat → γ → List β} {i : Nat} {x : γ}
    (h : xs[i]? = some x)
    (others : ∀ j y, xs[j]? = some y → j ≠ i → (f j y).filter keep = []) :
    (xs.mapIdx f).flatten.filter keep = (f i x).filter keep := by
  apply filter_flatten_of_getElem? (i := i)
  · simp [h]
  · intro j other hj hne
    rw [List.getElem?_mapIdx, Option.map_eq_some_iff] at hj
    obtain ⟨y, hy, rfl⟩ := hj
    exact others j y hy hne

theorem Mapping.filter_flatMap_entries_of_get? {m : Mapping γ} {f : String × γ → List β}
    {key : String} {x : γ} (h : m.get? key = some x)
    (others : ∀ e ∈ m.entries, e.1 ≠ key → (f e).filter keep = []) :
    (m.entries.flatMap f).filter keep = (f (key, x)).filter keep := by
  obtain ⟨i, hi⟩ := List.mem_iff_getElem?.mp (mem_entries_iff.mpr h)
  rw [List.flatMap_def, ← mapIdx_eq_map]
  apply filter_flatten_mapIdx_of_getElem? (f := fun _ => f) hi
  intro j e he hne
  apply others e (List.mem_of_getElem? he)
  intro same
  -- No key occurs twice.
  have bound : j < m.keys.length := by
    obtain ⟨hj, -⟩ := List.getElem?_eq_some_iff.mp he
    simpa [← entries_map_fst] using hj
  have positions : m.keys[j]? = m.keys[i]? := by
    rw [← entries_map_fst, List.getElem?_map, List.getElem?_map, he, hi]
    simp [same]
  exact hne ((List.getElem?_inj bound m.nodup).mp positions)

end

/-- The rule takes a value apart. -/
def Rule.isCollection {β : Type} : Rule β → Bool
  | object _ | array _ _ | tuple _ | dictionary _ => true
  | _ => false

/-! ### Places of mismatches -/

namespace Mismatch

variable {α : Type} {m : Mismatch α} {path p : Path} {step other : Step}

/-- The mismatch is placed at the path or below it. -/
def isWithin (path : Path) (m : Mismatch α) : Bool :=
  path.isPrefixOf m.path

theorem isWithin_iff : m.isWithin path = true ↔ path <+: m.path :=
  List.isPrefixOf_iff_prefix

theorem path_relocate (f : α → α) (path : Path) (m : Mismatch α) :
    (m.relocate f path).path = path ++ m.path := by
  cases m
  rw [relocate_mk]

/-- What is placed somewhere is not placed below it. -/
theorem not_isWithin_below (h : m.path = path) : ¬ m.isWithin (path ++ step :: p) = true := by
  rw [isWithin_iff, h]
  intro below
  have := below.length_le
  simp at this

/-- What is placed below one step is not placed below another. -/
theorem not_isWithin_beside (h : m.isWithin (path ++ [other]) = true) (ne : other ≠ step) :
    ¬ m.isWithin (path ++ step :: p) = true := by
  rw [isWithin_iff] at *
  obtain ⟨q, hq⟩ := h
  rw [← hq, List.append_assoc, List.prefix_append_right_inj, List.singleton_append,
    List.cons_prefix_cons]
  rintro ⟨rfl, -⟩
  exact ne rfl

end Mismatch

namespace Document

variable {α : Type} {d : Document α} {strict : Bool} {path p : Path} {step other : Step}
  {n c : Schema α} {v x : Value}

/-- All that validation finds is placed at the path that leads to the value, or below it. -/
theorem isWithin_of_mem_validate {m : Mismatch α} (h : m ∈ d.validate strict n v path) :
    m.isWithin path = true := by
  rw [validate_behind] at h
  obtain ⟨found, -, rfl⟩ := List.mem_map.mp h
  rw [Mismatch.isWithin_iff, Mismatch.path_relocate]
  exact List.prefix_append path found.path

theorem filter_validate_self :
    (d.validate strict n v path).filter (Mismatch.isWithin path) = d.validate strict n v path :=
  List.filter_eq_self.mpr fun _ => isWithin_of_mem_validate

/-- **What is found at one part is not placed at another.** -/
theorem filter_validate_beside (ne : other ≠ step) :
    (d.validate strict n v (path ++ [other])).filter (Mismatch.isWithin (path ++ step :: p)) =
      [] :=
  List.filter_eq_nil_iff.mpr fun _ hm =>
    Mismatch.not_isWithin_beside (isWithin_of_mem_validate hm) ne

/-! ### One step -/

section Steps

variable {mark : α}

/-- Mismatches of the collection itself are not placed below a step. -/
private theorem filter_own {own : List (Mismatch α)} (h : ∀ m ∈ own, m.path = path) :
    own.filter (Mismatch.isWithin (path ++ step :: p)) = [] :=
  List.filter_eq_nil_iff.mpr fun m hm => Mismatch.not_isWithin_below (h m hm)

theorem filter_validate_field {fields : Mapping (Field (Schema α))} {values : Mapping Value}
    {key : String} {field : Field (Schema α)} (hf : fields.get? key = some field)
    (hx : values.get? key = some x) :
    (d.validate strict (.node mark (.object fields)) (.mapping values) path).filter
        (Mismatch.isWithin (path ++ .key key :: p)) =
      (d.validate strict field.type x (path ++ [.key key])).filter
        (Mismatch.isWithin (path ++ .key key :: p)) := by
  rw [← validateStep_validate]
  simp only [validateStep]
  have unknown : (if strict then
      (values.entries.filter fun e => !fields.contains e.1).map fun e =>
        (⟨.unknownField e.1, mark, e.2, path ++ [.key e.1], []⟩ : Mismatch α)
      else []).filter (Mismatch.isWithin (path ++ .key key :: p)) = [] := by
    rw [List.filter_eq_nil_iff]
    intro m hm
    split at hm
    · obtain ⟨e, he, rfl⟩ := List.mem_map.mp hm
      obtain ⟨-, undeclared⟩ := List.mem_filter.mp he
      have apart : Step.key e.1 ≠ .key key := by
        rintro ⟨⟩
        have declared := Mapping.contains_iff.mpr (Mapping.mem_keys_of_get? hf)
        simp [declared] at undeclared
      apply Mismatch.not_isWithin_beside _ apart
      simp [Mismatch.isWithin_iff]
    · cases hm
  rw [List.filter_append, unknown, List.append_nil,
    Mapping.filter_flatMap_entries_of_get? hf]
  · rw [hx]
  · intro e _ ne
    have apart : Step.key e.1 ≠ .key key := fun same => ne (Step.key.inj same)
    cases values.get? e.1 with
    | some y => exact filter_validate_beside apart
    | none =>
      apply filter_own
      intro m hm
      cases ho : e.2.optional <;> simp [ho] at hm
      rw [hm]

theorem filter_validate_item {initial : List (Schema α)} {rest : Schema α} {items : List Value}
    {i : Nat} (hx : items[i]? = some x) :
    (d.validate strict (.node mark (.array initial rest)) (.sequence items) path).filter
        (Mismatch.isWithin (path ++ .index i :: p)) =
      (d.validate strict (Rule.itemAt initial rest i) x (path ++ [.index i])).filter
        (Mismatch.isWithin (path ++ .index i :: p)) := by
  rw [← validateStep_validate]
  simp only [validateStep]
  rw [List.filter_append, filter_own, List.nil_append, filter_flatten_mapIdx_of_getElem? hx]
  · intro j y _ ne
    exact filter_validate_beside fun same => ne (Step.index.inj same)
  · intro m hm
    split at hm <;> simp at hm
    rw [hm]

theorem filter_validate_element {elements : OneOrMore (Schema α)} {items : List Value} {i : Nat}
    (hc : elements.toList[i]? = some c) (hx : items[i]? = some x) :
    (d.validate strict (.node mark (.tuple elements)) (.sequence items) path).filter
        (Mismatch.isWithin (path ++ .index i :: p)) =
      (d.validate strict c x (path ++ [.index i])).filter
        (Mismatch.isWithin (path ++ .index i :: p)) := by
  have pair : (items.zip elements.toList)[i]? = some (x, c) :=
    List.getElem?_zip_eq_some.mpr ⟨hx, hc⟩
  rw [← validateStep_validate]
  simp only [validateStep]
  rw [List.filter_append, filter_own, List.nil_append, filter_flatten_mapIdx_of_getElem? pair]
  · intro j y _ ne
    exact filter_validate_beside fun same => ne (Step.index.inj same)
  · intro m hm
    split at hm <;> simp at hm
    rw [hm]

theorem filter_validate_entry {type : Schema α} {values : Mapping Value} {key : String}
    (hx : values.get? key = some x) :
    (d.validate strict (.node mark (.dictionary type)) (.mapping values) path).filter
        (Mismatch.isWithin (path ++ .key key :: p)) =
      (d.validate strict type x (path ++ [.key key])).filter
        (Mismatch.isWithin (path ++ .key key :: p)) := by
  rw [← validateStep_validate]
  simp only [validateStep]
  apply Mapping.filter_flatMap_entries_of_get? hx
  intro e _ ne
  exact filter_validate_beside fun same => ne (Step.key.inj same)

end Steps

variable [DecidableEq α]

/-- **What is found below a step** from a collection is what is found at the part that the step
leads to. -/
theorem filter_validate_child (collection : n.rule.isCollection = true)
    (found : d.childAt n step = .found c) (part : v.child? step = some x) :
    (d.validate strict n v path).filter (Mismatch.isWithin (path ++ step :: p)) =
      (d.validate strict c x (path ++ [step])).filter (Mismatch.isWithin (path ++ step :: p)) := by
  obtain ⟨mark, rule⟩ := n
  cases v with
  | mapping values =>
    cases step with
    | index i => cases part
    | key key =>
      cases rule with
      | object fields =>
        simp only [childAt, Lookup.ofOption_eq_found_iff, Option.map_eq_some_iff] at found
        obtain ⟨field, hf, rfl⟩ := found
        exact filter_validate_field hf part
      | dictionary type =>
        simp only [childAt, Lookup.found.injEq] at found
        subst found
        exact filter_validate_entry part
      | array | tuple => simp [childAt] at found
      | _ => cases collection
  | sequence items =>
    cases step with
    | key key => cases part
    | index i =>
      cases rule with
      | array initial rest =>
        simp only [childAt, Lookup.found.injEq] at found
        subst found
        exact filter_validate_item part
      | tuple elements =>
        simp only [childAt, Lookup.ofOption_eq_found_iff] at found
        exact filter_validate_element found part
      | object | dictionary => simp [childAt] at found
      | _ => cases collection
  | _ => rw [Value.child?_of_isScalar rfl] at part; cases part

/-! ### A path -/

/-- **Validating a part by itself.** Where a lookup finds a schema, on a way through collections
and references to them, and the value has a part, the mismatches placed at the part or below it
are those of the part alone with that schema, in their order. -/
theorem filter_validate_atPath {u : Value} (found : d.atPath n p = .ok (some c))
    (part : v.atPath? p = some u)
    (collections : ∀ q m, q <+: p → q ≠ p → d.atPath n q = .ok (some m) →
      (d.resolve m).rule.isCollection = true) (strict : Bool) (path : Path) :
    (d.validate strict n v path).filter (Mismatch.isWithin (path ++ p)) =
      d.validate strict c u (path ++ p) := by
  induction p generalizing n v path with
  | nil =>
    cases found
    cases part
    rw [List.append_nil]
    exact filter_validate_self
  | cons step p ih =>
    obtain ⟨m, first, rest⟩ := exists_atPath_of_append (p := [step]) found
    have child : d.childAt n step = .found m := by
      cases h : d.childAt n step with
      | found k =>
        rw [atPath_cons_of_found h] at first
        cases first
        rfl
      | absent => simp [atPath_cons_of_absent h] at first
      | ambiguous => simp [atPath_cons_of_ambiguous h] at first
    obtain ⟨x, hx, part⟩ := Option.bind_eq_some_iff.mp part
    have collection := collections [] n List.nil_prefix (List.cons_ne_nil _ _).symm rfl
    have below : (d.validate strict n v path).filter (Mismatch.isWithin (path ++ step :: p)) =
        (d.validate strict m x (path ++ [step])).filter
          (Mismatch.isWithin (path ++ step :: p)) := by
      rw [← validate_resolve]
      exact filter_validate_child collection ((d.childAt_resolve n step).trans child) hx
    have whole : path ++ step :: p = path ++ [step] ++ p := by simp
    rw [below, whole]
    apply ih rest part
    intro q k hq ne reached
    apply collections (step :: q) k
    · exact List.cons_prefix_cons.mpr ⟨rfl, hq⟩
    · simpa using ne
    · rw [atPath_cons_of_found child, reached]
      rfl

/-- The way to a part of a part of an assembly, and the reference that stands there. -/
def toHead : Path :=
  [.index 0, .key "parts", .index 0]

def partOfPart : Node :=
  .node ⟨6, [.key labelsKey, .key "part", .key "parts", .index 1]⟩ (.ref "part")

/-- The head of an unfinished assembly lacks three fields. The other five mismatches are of the
part that it belongs to and of the assembly, and are placed elsewhere. -/
theorem filter_validate_head :
    compile assemblySource = .ok assembly.locate ∧
      assembly.locate.atPath assembly.locate.root toHead = .ok (some partOfPart) ∧
      unfinished.atPath? toHead = some (.mapping <| .ofList [("name", .string "head")]) ∧
      (assembly.locate.validate true assembly.locate.root unfinished [.key "order"]).filter
          (Mismatch.isWithin (.key "order" :: toHead)) =
        assembly.locate.validate true partOfPart (.mapping <| .ofList [("name", .string "head")])
          (.key "order" :: toHead) ∧
      (assembly.locate.validate true assembly.locate.root unfinished [.key "order"]).length = 8 ∧
      (assembly.locate.validate true partOfPart (.mapping <| .ofList [("name", .string "head")])
        (.key "order" :: toHead)).length = 3 := by
  have found : assembly.locate.atPath assembly.locate.root toHead = .ok (some partOfPart) := by cbv
  have part : unfinished.atPath? toHead = some (.mapping <| .ofList [("name", .string "head")]) :=
    by cbv
  have collections : (toHead.inits.all fun q => q == toHead ||
      (assembly.locate.atPath assembly.locate.root q).toOption.all fun k =>
        k.all fun m => (assembly.locate.resolve m).rule.isCollection) = true := by cbv
  have alone := filter_validate_atPath found part
    (fun q m hq ne reached => by
      have := List.all_eq_true.mp collections q ((List.mem_inits _ _).mpr hq)
      simpa [reached, ne, Except.toOption] using this)
    true [.key "order"]
  exact ⟨compile_assemblySource, found, part, alone, by cbv, by cbv⟩

end Document

end TreeSchema
