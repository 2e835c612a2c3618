import TreeSchema.OneOrMore
import TreeSchema.Path.Basic
import TreeSchema.Scalar.Basic
import TreeSchema.Value.Equality

/-!
# Schemas

A schema is a tree of rules that says which values conform. A `Rule` is one layer
of it, over the schemas it is made of, its *parts*. A reference is a leaf: the
schema that its label stands for belongs to the document, so schemas are finite
trees though what they describe may be recursive.

Every node carries a mark, of which the rules know nothing: nodes are marked with
where they stand in a source, or not at all.

* `Rule.parts`, `Rule.mapParts` — the parts of a rule in order, and a function
  applied to each, knowing its position and its path in the source.
* `Schema.size_lt_of_mem_parts` — parts are smaller, so functions on schemas may recurse on them;
  `Schema.parts_induction` — and statements about schemas be proved along them.
* `Schema.heads` — the labels met by references and alternatives alone.
-/

namespace TreeSchema

/-! ### Lists by position -/

section

variable {β γ δ : Type}

theorem mapIdx_map (xs : List β) (f : β → γ) (k : Nat → γ → δ) :
    (xs.map f).mapIdx k = xs.mapIdx fun i x => k i (f x) := by
  apply List.ext_getElem?
  simp [Function.comp_def]

theorem map_mapIdx (xs : List β) (k : Nat → β → γ) (g : γ → δ) :
    (xs.mapIdx k).map g = xs.mapIdx fun i x => g (k i x) := by
  apply List.ext_getElem?
  simp [Function.comp_def]

theorem mapIdx_congr {xs : List β} {f g : Nat → β → γ}
    (h : ∀ i x, xs[i]? = some x → f i x = g i x) : xs.mapIdx f = xs.mapIdx g := by
  apply List.ext_getElem?
  intro i
  rw [List.getElem?_mapIdx, List.getElem?_mapIdx]
  cases hx : xs[i]? with
  | none => rfl
  | some x => exact congrArg some (h i x hx)

theorem zip_map_mapIdx (xs : List β) (f : β → γ) (k : Nat → β → δ) :
    (xs.map f).zip (xs.mapIdx k) = xs.mapIdx fun i x => (f x, k i x) := by
  apply List.ext_getElem
  · simp
  · simp

/-- A function of the elements alone does not need the positions. -/
theorem mapIdx_eq_map (xs : List β) (g : β → γ) : (xs.mapIdx fun _ => g) = xs.map g := by
  apply List.ext_getElem?
  simp

/-- Nor does it need that they are elements. -/
theorem mapIdx_attach {xs : List β} {f : Nat → { x : β // x ∈ xs } → γ} {k : Nat → β → γ}
    (same : ∀ i x, f i x = k i x.1) : xs.attach.mapIdx f = xs.mapIdx k := by
  apply List.ext_getElem?
  intro i
  simp only [List.getElem?_mapIdx, List.getElem?_attach, Option.map_pmap, same]
  rw [Option.pmap_eq_map]

end

/-! ### Literals -/

/-- A member of an enumeration. -/
inductive Literal where
  | null
  | bool (b : Bool)
  | number (n : Binary64)
  | string (s : String)
deriving DecidableEq

namespace Literal

def toValue : Literal → Value
  | null => .null
  | bool b => .bool b
  | number n => .number n
  | string s => .string s

def ofValue? : Value → Option Literal
  | .null => some null
  | .bool b => some (bool b)
  | .number n => some (number n)
  | .string s => some (string s)
  | _ => none

/-- The scalar type of a literal; numbers are taken as fractions. -/
def type : Literal → ScalarType
  | null => .null
  | bool _ => .boolean
  | number _ => .float
  | string _ => .string

instance : Inhabited Literal := ⟨null⟩

theorem ofValue?_eq_some_iff {v : Value} {l : Literal} : ofValue? v = some l ↔ v = l.toValue := by
  constructor
  · intro h
    cases v <;> simp only [ofValue?, Option.some.injEq, reduceCtorEq] at h <;> subst h <;> rfl
  · rintro rfl
    cases l <;> rfl

end Literal

/-! ### Rules -/

/-- A field of an object, which may be declared optional. -/
structure Field (β : Type) where
  optional : Bool
  type : β

/-- What a schema asks of a value, given its parts. -/
inductive Rule (β : Type) where
  | scalar (type : ScalarType)
  /-- Every value. -/
  | any
  /-- A value equal to a member. -/
  | enum (members : OneOrMore Literal)
  /-- A mapping with the fields that are declared. -/
  | object (fields : Mapping (Field β))
  /-- A sequence with one item for each initial part and any number for the last. -/
  | array (initial : List β) (rest : β)
  /-- A sequence with one item for each part. -/
  | tuple (elements : OneOrMore β)
  /-- A mapping from any keys to values of one part. -/
  | dictionary (values : β)
  /-- A value of at least one part. -/
  | oneof (alternatives : OneOrMore β)
  /-- A value of the schema with this label. -/
  | ref (label : String)

namespace Rule

variable {β γ : Type}

/-- The parts of a rule, in order. -/
def parts : Rule β → List β
  | object fields => fields.values.map (·.type)
  | array initial rest => initial ++ [rest]
  | tuple elements => elements.toList
  | dictionary values => [values]
  | oneof alternatives => alternatives.toList
  | _ => []

/-- The part of an array that describes the item at a position. -/
def itemAt (initial : List β) (rest : β) (position : Nat) : β :=
  initial[position]?.getD rest

/-- The path from a rule in a source to the argument of its directive at a position. -/
def argumentPath (position : Nat) : Path :=
  [.index (position + 1)]

/-- The path from an object in a source to the type of a field. -/
def fieldPath (key : String) (optional : Bool) : Path :=
  .key key :: if optional then argumentPath 0 else []

theorem mem_parts_object {fields : Mapping (Field β)} {e : String × Field β}
    (h : e ∈ fields.entries) : e.2.type ∈ (object fields).parts :=
  List.mem_map.mpr ⟨e.2, List.mem_map.mpr ⟨e, h, rfl⟩, rfl⟩

theorem mem_parts_of_get? {fields : Mapping (Field β)} {key : String} {field : Field β}
    (h : fields.get? key = some field) : field.type ∈ (object fields).parts :=
  mem_parts_object (Mapping.mem_entries_iff.mpr h)

theorem mem_parts_initial {initial : List β} {rest part : β} (h : part ∈ initial) :
    part ∈ (array initial rest).parts :=
  List.mem_append_left _ h

theorem mem_parts_rest (initial : List β) (rest : β) : rest ∈ (array initial rest).parts :=
  List.mem_append_right _ (List.mem_singleton_self rest)

theorem mem_parts_tuple {elements : OneOrMore β} {part : β} (h : part ∈ elements.toList) :
    part ∈ (tuple elements).parts := h

theorem mem_parts_dictionary (values : β) : values ∈ (dictionary values).parts :=
  List.mem_singleton_self values

theorem mem_parts_oneof {alternatives : OneOrMore β} {part : β}
    (h : part ∈ alternatives.toList) : part ∈ (oneof alternatives).parts := h

private theorem nodup_mapIdx (fields : Mapping (Field β))
    (f : Nat → { e : String × Field β // e ∈ fields.entries } → Field γ) :
    ((fields.entries.attach.mapIdx fun i e => (e.1.1, f i e)).map (·.1)).Nodup := by
  have h : (fields.entries.attach.mapIdx fun i e => (e.1.1, f i e)).map (·.1) = fields.keys := by
    rw [map_mapIdx, ← Mapping.entries_map_fst, ← mapIdx_eq_map]
    exact mapIdx_attach fun _ _ => rfl
  exact h ▸ fields.nodup

/-- Applies a function to every part. It is given the position of the part, its
path in the source of the rule, and that it is a part. -/
def mapParts (rule : Rule β) (f : Nat → Path → (part : β) → part ∈ rule.parts → γ) : Rule γ :=
  match rule with
  | scalar type => scalar type
  | any => any
  | enum members => enum members
  | object fields =>
    object <| .ofEntries
      (fields.entries.attach.mapIdx fun i e => (e.1.1,
        { optional := e.1.2.optional
          type := f i (fieldPath e.1.1 e.1.2.optional) e.1.2.type (mem_parts_object e.2) }))
      (nodup_mapIdx fields _)
  | array initial rest =>
    array
      (initial.attach.mapIdx fun i part =>
        f i (argumentPath i) part.1 (mem_parts_initial part.2))
      (f initial.length (argumentPath initial.length) rest (mem_parts_rest initial rest))
  | tuple elements =>
    tuple ⟨f 0 (argumentPath 0) elements.first (mem_parts_tuple elements.first_mem),
      elements.others.attach.mapIdx fun i part =>
        f (i + 1) (argumentPath (i + 1)) part.1 (mem_parts_tuple (elements.other_mem part.2))⟩
  | dictionary values => dictionary (f 0 (argumentPath 0) values (mem_parts_dictionary values))
  | oneof alternatives =>
    oneof ⟨f 0 (argumentPath 0) alternatives.first (mem_parts_oneof alternatives.first_mem),
      alternatives.others.attach.mapIdx fun i part =>
        f (i + 1) (argumentPath (i + 1)) part.1
          (mem_parts_oneof (alternatives.other_mem part.2))⟩
  | ref label => ref label

/-- What holds between each part, known by its position, and its image holds between the
parts and their images. -/
theorem map_parts_mapParts_eq_mapIdx {δ : Type} (rule : Rule β)
    (f : Nat → Path → (part : β) → part ∈ rule.parts → γ) {g : γ → δ} {k : Nat → β → δ}
    (same : ∀ i path part h, g (f i path part h) = k i part) :
    (rule.mapParts f).parts.map g = rule.parts.mapIdx k := by
  cases rule with
  | object fields =>
    simp only [mapParts, parts, Mapping.values, Mapping.entries_ofEntries, List.map_map,
      mapIdx_map, map_mapIdx, Function.comp_apply]
    exact mapIdx_attach fun i e => same i _ _ _
  | array initial rest =>
    simp only [mapParts, parts, List.map_append, List.map_cons, List.map_nil, map_mapIdx, same,
      List.mapIdx_append, List.mapIdx_cons, List.mapIdx_nil, Nat.zero_add]
    rw [mapIdx_attach (k := k) fun i x => rfl]
  | tuple elements =>
    simp only [mapParts, parts, OneOrMore.toList, List.map_cons, List.mapIdx_cons, map_mapIdx, same]
    rw [mapIdx_attach (k := fun i => k (i + 1)) fun i x => rfl]
  | dictionary values =>
    simp only [mapParts, parts, List.map_cons, List.map_nil, List.mapIdx_cons, List.mapIdx_nil,
      same]
  | oneof alternatives =>
    simp only [mapParts, parts, OneOrMore.toList, List.map_cons, List.mapIdx_cons, map_mapIdx, same]
    rw [mapIdx_attach (k := fun i => k (i + 1)) fun i x => rfl]
  | _ => rfl

/-- What holds between each part and its image holds between the parts and their images. -/
theorem map_parts_mapParts {δ : Type} (rule : Rule β)
    (f : Nat → Path → (part : β) → part ∈ rule.parts → γ) {g : γ → δ} {k : β → δ}
    (same : ∀ i path part h, g (f i path part h) = k part) :
    (rule.mapParts f).parts.map g = rule.parts.map k := by
  rw [map_parts_mapParts_eq_mapIdx rule f (k := fun _ => k) same, mapIdx_eq_map]

end Rule

/-! ### Schemas -/

/-- A tree of rules with a mark on every node. -/
inductive Schema (α : Type) where
  | node (mark : α) (rule : Rule (Schema α))

namespace Schema

variable {α : Type}

def mark : Schema α → α
  | node mark _ => mark

def rule : Schema α → Rule (Schema α)
  | node _ rule => rule

mutual
/-- The number of nodes of a schema. -/
def size : Schema α → Nat
  | node _ rule => 1 + sizeRule rule

def sizeRule : Rule (Schema α) → Nat
  | .object fields => sizeFields fields
  | .array initial rest => sizeList initial + rest.size
  | .tuple elements => sizeOneOrMore elements
  | .dictionary values => values.size
  | .oneof alternatives => sizeOneOrMore alternatives
  | _ => 0

def sizeOneOrMore : OneOrMore (Schema α) → Nat
  | ⟨first, others⟩ => first.size + sizeList others

def sizeList : List (Schema α) → Nat
  | [] => 0
  | part :: parts => part.size + sizeList parts

def sizeFields : Mapping (Field (Schema α)) → Nat
  | ⟨keys, _, value⟩ => total (fun key => sizeField (value key)) keys.attach

def sizeField : Field (Schema α) → Nat
  | ⟨_, type⟩ => type.size
end

theorem sizeList_eq (parts : List (Schema α)) : sizeList parts = total size parts := by
  induction parts with
  | nil => rfl
  | cons part parts ih => rw [sizeList, ih]; rfl

theorem sizeOneOrMore_eq (parts : OneOrMore (Schema α)) :
    sizeOneOrMore parts = total size parts.toList := by
  obtain ⟨first, others⟩ := parts
  rw [sizeOneOrMore, sizeList_eq]
  rfl

theorem sizeField_eq (field : Field (Schema α)) : sizeField field = field.type.size := by
  obtain ⟨optional, type⟩ := field
  rfl

theorem sizeFields_eq (fields : Mapping (Field (Schema α))) :
    sizeFields fields = total (fun field => field.type.size) fields.values := by
  obtain ⟨keys, nd, value⟩ := fields
  simp only [sizeFields, Mapping.values, Mapping.entries, total_map]
  congr 1
  funext key
  exact sizeField_eq (value key)

/-- A schema has one node more than its parts together. -/
theorem size_node (mark : α) (rule : Rule (Schema α)) :
    (node mark rule).size = 1 + total size rule.parts := by
  rw [size]
  congr 1
  cases rule with
  | object fields => simp [sizeRule, sizeFields_eq, Rule.parts]
  | array initial rest => simp [sizeRule, sizeList_eq, Rule.parts]
  | tuple elements => exact sizeOneOrMore_eq elements
  | dictionary values => simp [sizeRule, Rule.parts]
  | oneof alternatives => exact sizeOneOrMore_eq alternatives
  | _ => rfl

theorem size_pos (n : Schema α) : 0 < n.size := by
  cases n with
  | node mark rule => rw [size_node]; omega

/-- **Parts are smaller.** -/
theorem size_lt_of_mem_parts {mark : α} {rule : Rule (Schema α)} {part : Schema α}
    (h : part ∈ rule.parts) : part.size < (node mark rule).size := by
  rw [size_node]
  have := le_total size h
  omega

theorem size_lt_of_mem_fields {mark : α} {fields : Mapping (Field (Schema α))}
    {e : String × Field (Schema α)} (h : e ∈ fields.entries) :
    e.2.type.size < (node mark (.object fields)).size :=
  size_lt_of_mem_parts (Rule.mem_parts_object h)

/-- **Induction on the parts**: what holds of a node if it holds of the parts of its rule
holds of every schema. -/
theorem parts_induction {motive : Schema α → Prop}
    (node : ∀ mark rule, (∀ part ∈ rule.parts, motive part) → motive (node mark rule))
    (n : Schema α) : motive n :=
  match n with
  | .node mark rule => node mark rule fun part _ => parts_induction node part
termination_by n.size
decreasing_by exact size_lt_of_mem_parts ‹_›

/-- The labels met from a schema by references and alternatives alone. -/
def heads : Schema α → List String
  | node _ (.oneof alternatives) =>
    alternatives.toList.attach.flatMap fun ⟨alternative, _⟩ => alternative.heads
  | node _ (.ref label) => [label]
  | _ => []
termination_by n => n.size
decreasing_by exact size_lt_of_mem_parts ‹_›

theorem heads_oneof (mark : α) (alternatives : OneOrMore (Schema α)) :
    (node mark (.oneof alternatives)).heads = alternatives.toList.flatMap heads := by
  rw [heads, List.flatMap_subtype (g := heads) (by simp), List.unattach_attach]

theorem heads_ref (mark : α) (label : String) : (node mark (.ref label)).heads = [label] := by
  rw [heads]

/-- The nodes below a schema; the nodes below a part come before the part. -/
def descendants : Schema α → List (Schema α)
  | node _ rule => rule.parts.attach.flatMap fun ⟨part, _⟩ => part.descendants ++ [part]
termination_by n => n.size
decreasing_by exact size_lt_of_mem_parts ‹_›

theorem descendants_node (mark : α) (rule : Rule (Schema α)) :
    (node mark rule).descendants = rule.parts.flatMap fun part => part.descendants ++ [part] := by
  rw [descendants, List.flatMap_subtype (g := fun part => part.descendants ++ [part]) (by simp),
    List.unattach_attach]

end Schema

end TreeSchema
