import Mathlib.Data.List.Nodup
import TreeSchema.Proofs.Document.Numbering
import TreeSchema.Proofs.Schema.Marks

/-!
# The places of parts

Every part of a rule has its path in the source of the rule, and the paths of two parts differ
in their first steps. So what is read at one place of a source is marked with places that tell
its nodes apart.

* `Path.Apart` — paths neither of which leads on from the other.
* `Rule.places` — the parts of a rule with their paths; `Rule.apart_places` — they are apart.
* `Rule.exists_place` — a part of a rule over images is the image of a part at its place.
* `Schema.nodup_origins_locate` — **no two nodes of a located schema have one place.**
-/

namespace TreeSchema

namespace Path

/-- Neither path leads on from the other. -/
def Apart (p q : Path) : Prop :=
  ¬ p <+: q ∧ ¬ q <+: p

theorem apart_cons_of_ne {s t : Step} (h : s ≠ t) (p q : Path) : Apart (s :: p) (t :: q) :=
  ⟨fun hp => h (List.cons_prefix_cons.mp hp).1, fun hp => h (List.cons_prefix_cons.mp hp).1.symm⟩

theorem Apart.append_left {p q : Path} (h : Apart p q) (o : Path) : Apart (o ++ p) (o ++ q) :=
  ⟨fun hp => h.1 ((List.prefix_append_right_inj o).mp hp),
    fun hp => h.2 ((List.prefix_append_right_inj o).mp hp)⟩

/-- No path leads on from both of two that are apart. -/
theorem Apart.not_both {p q o : Path} (h : Apart p q) (hp : p <+: o) : ¬ q <+: o := fun hq =>
  (List.prefix_or_prefix_of_prefix hp hq).elim h.1 h.2

end Path

/-! ### Parts -/

namespace Rule

variable {β γ δ : Type}

/-- The parts of a rule in order, with their paths in its source. -/
def places : Rule β → List (Path × β)
  | object fields => fields.entries.map fun e => (fieldPath e.1 e.2.optional, e.2.type)
  | rule => rule.parts.mapIdx fun i part => (argumentPath i, part)

theorem places_eq_mapIdx {rule : Rule β} (h : ∀ fields, rule ≠ object fields) :
    rule.places = rule.parts.mapIdx fun i part => (argumentPath i, part) := by
  cases rule with
  | object fields => exact absurd rfl (h fields)
  | _ => rfl

/-- What holds between each part at its place and its image holds between the places and the
images. -/
theorem map_parts_mapParts_eq_map_places (rule : Rule β)
    (f : Nat → Path → (part : β) → part ∈ rule.parts → γ) {g : γ → δ} {k : Path × β → δ}
    (same : ∀ i path part h, g (f i path part h) = k (path, part)) :
    (rule.mapParts f).parts.map g = rule.places.map k := by
  cases rule with
  | object fields =>
    simp only [mapParts, parts, places, Mapping.values, Mapping.entries_ofEntries, List.map_map,
      map_mapIdx, same]
    rw [← mapIdx_eq_map]
    exact mapIdx_attach fun i e => rfl
  | array initial rest =>
    simp only [mapParts, parts, places, List.map_append, List.map_cons, List.map_nil, map_mapIdx,
      same, List.mapIdx_append, List.mapIdx_cons, List.mapIdx_nil, Nat.zero_add]
    rw [mapIdx_attach (k := fun i part => k (argumentPath i, part)) fun i x => rfl]
  | tuple elements =>
    simp only [mapParts, parts, places, OneOrMore.toList, List.map_cons, List.mapIdx_cons,
      map_mapIdx, same]
    rw [mapIdx_attach (k := fun i part => k (argumentPath (i + 1), part)) fun i x => rfl]
  | dictionary values =>
    simp only [mapParts, parts, places, List.map_cons, List.map_nil, List.mapIdx_cons,
      List.mapIdx_nil, same]
  | oneof alternatives =>
    simp only [mapParts, parts, places, OneOrMore.toList, List.map_cons, List.mapIdx_cons,
      map_mapIdx, same]
    rw [mapIdx_attach (k := fun i part => k (argumentPath (i + 1), part)) fun i x => rfl]
  | _ => rfl

theorem parts_map (rule : Rule β) (f : β → γ) : (rule.map f).parts = rule.parts.map f := by
  rw [← mapParts_eq_map]
  simpa using map_parts_mapParts rule (fun _ _ part _ => f part) (g := id) (k := f)
    fun _ _ _ _ => rfl

/-- **A part of a rule over images is the image of a part at its place.** -/
theorem exists_place {rule : Rule β} {f : Nat → Path → (part : β) → part ∈ rule.parts → γ}
    {q : γ} (hq : q ∈ (rule.mapParts f).parts) :
    ∃ i path part hp, (path, part) ∈ rule.places ∧ q = f i path part hp := by
  -- The images are made once more, each with the place that it comes from.
  let both := rule.mapParts fun i path part hp => (f i path part hp, (path, part))
  have images : both.map Prod.fst = rule.mapParts f := map_mapParts_eq rule _ _
  have origins : both.parts.map Prod.snd = rule.places.map id :=
    map_parts_mapParts_eq_map_places rule _ fun _ _ _ _ => rfl
  have paired : ∀ b ∈ both.parts, ∃ i path part hp, b = (f i path part hp, (path, part)) :=
    forall_mem_parts_mapParts fun i path part hp => ⟨i, path, part, hp, rfl⟩
  rw [← images, parts_map] at hq
  obtain ⟨b, hb, rfl⟩ := List.mem_map.mp hq
  obtain ⟨i, path, part, hp, rfl⟩ := paired b hb
  rw [List.map_id] at origins
  exact ⟨i, path, part, hp, origins ▸ List.mem_map_of_mem (f := Prod.snd) hb, rfl⟩

theorem ne_nil_of_mem_places {rule : Rule β} {p : Path × β} (h : p ∈ rule.places) : p.1 ≠ [] := by
  cases rule with
  | object fields =>
    obtain ⟨e, -, rfl⟩ := List.mem_map.mp h
    exact List.cons_ne_nil _ _
  | _ =>
    obtain ⟨i, hi, rfl⟩ := List.mem_mapIdx.mp h
    exact List.cons_ne_nil _ _

/-- **The paths of the parts of a rule are apart.** -/
theorem apart_places (rule : Rule β) :
    rule.places.Pairwise fun p q => Path.Apart p.1 q.1 := by
  have arguments : ∀ parts : List β, (parts.mapIdx fun i part => (argumentPath i, part)).Pairwise
      fun p q => Path.Apart p.1 q.1 := by
    intro parts
    rw [List.pairwise_iff_getElem]
    intro i j hi hj lt
    simp only [List.getElem_mapIdx, argumentPath]
    exact Path.apart_cons_of_ne (by simp [Nat.ne_of_lt lt]) _ _
  cases rule with
  | object fields =>
    have keys := fields.nodup_entries
    rw [List.Nodup, List.pairwise_map] at keys
    rw [places, List.pairwise_map]
    exact keys.imp fun ne => Path.apart_cons_of_ne (by simpa using ne) _ _
  | _ => exact arguments _

end Rule

/-! ### Nodes -/

namespace Schema

/-- The places of a node and of all that is below it. -/
def origins (n : Node) : List Path :=
  (n.descendants ++ [n]).map (·.mark.origin)

theorem origins_eq (n : Node) :
    origins n = n.rule.parts.flatMap origins ++ [n.mark.origin] := by
  obtain ⟨mark, rule⟩ := n
  rw [origins, descendants_node, List.map_append, List.map_flatMap]
  rfl

/-- **A part of a located node is a part located at its place.** -/
theorem exists_place_of_mem_parts {site : Site} {start : Nat} {mark : Unit}
    {rule : Rule (Schema Unit)} {q : Node}
    (hq : q ∈ ((node mark rule).locate site start).rule.parts) :
    ∃ path part below first, part ∈ rule.parts ∧ (path, part) ∈ rule.places ∧
      below.origin = site.origin ++ path ∧ q = part.locate below first := by
  rw [locate] at hq
  obtain ⟨i, path, part, hp, place, rfl⟩ := Rule.exists_place hq
  exact ⟨path, part, _, _, hp, place, rfl, rfl⟩

/-- What is below a node is at places that its own leads to. -/
theorem prefix_of_mem_origins {site : Site} {start : Nat} {n : Schema Unit} {o : Path}
    (h : o ∈ origins (n.locate site start)) : site.origin <+: o := by
  induction n using parts_induction generalizing site start with
  | node mark rule ih =>
  rw [origins_eq, List.mem_append, List.mem_flatMap, mark_locate] at h
  rcases h with ⟨q, hq, ho⟩ | ho
  · obtain ⟨path, part, below, first, hp, -, origin, rfl⟩ := exists_place_of_mem_parts hq
    exact (origin ▸ List.prefix_append _ _).trans (ih part hp ho)
  · rw [List.mem_singleton.mp ho]

/-- The places of the parts of a located node are apart. -/
theorem apart_parts_locate (site : Site) (start : Nat) (n : Schema Unit) :
    (n.locate site start).rule.parts.Pairwise fun q r =>
      Path.Apart q.mark.origin r.mark.origin := by
  obtain ⟨mark, rule⟩ := n
  have places : (((node mark rule).locate site start).rule.parts.map fun q => q.mark.origin) =
      rule.places.map fun p => site.origin ++ p.1 := by
    rw [locate]
    refine Rule.map_parts_mapParts_eq_map_places rule _ fun i path part _ => ?_
    rw [mark_locate]
  rw [← List.pairwise_map (f := fun q : Node => q.mark.origin), places, List.pairwise_map]
  exact rule.apart_places.imp fun h => h.append_left _

/-- **No two nodes of a located schema have one place.** -/
theorem nodup_origins_locate (site : Site) (start : Nat) (n : Schema Unit) :
    (origins (n.locate site start)).Nodup := by
  induction n using parts_induction generalizing site start with
  | node mark rule ih =>
  have leads : ∀ q ∈ ((node mark rule).locate site start).rule.parts, ∀ o ∈ origins q,
      q.mark.origin <+: o := by
    intro q hq o ho
    obtain ⟨path, part, below, first, -, -, -, rfl⟩ := exists_place_of_mem_parts hq
    rw [mark_locate]
    exact prefix_of_mem_origins ho
  rw [origins_eq, List.nodup_append]
  refine ⟨List.nodup_flatMap.mpr ⟨fun q hq => ?_, ?_⟩, List.nodup_singleton _, ?_⟩
  · obtain ⟨path, part, below, first, hp, -, -, rfl⟩ := exists_place_of_mem_parts hq
    exact ih part hp _ _
  · refine (apart_parts_locate site start _).imp_of_mem fun {q r} hq hr apart o ho ho' => ?_
    exact apart.not_both (leads q hq o ho) (leads r hr o ho')
  · rintro o ho _ ho' rfl
    obtain ⟨q, hq, ho⟩ := List.mem_flatMap.mp ho
    have longer := (leads q hq o ho).length_le
    obtain ⟨path, part, below, first, -, place, origin, rfl⟩ := exists_place_of_mem_parts hq
    rw [List.mem_singleton.mp ho', mark_locate, mark_locate, origin, List.length_append] at longer
    have none : path.length = 0 := by omega
    exact Rule.ne_nil_of_mem_places place (List.eq_nil_of_length_eq_zero none)

end Schema

end TreeSchema
