import TreeSchema.Schema.Source
import TreeSchema.Shape

/-!
# Lookup

`Document.atPath` follows a path through the schemas of a document: it finds the
schema that describes what a value has at the path. There is none if no value
has anything there. Where the answer depends on the value, the path is ambiguous:
below a schema that takes every value, and below a union whose alternatives do
not share one category or lead to schemas of different types.

* `Document.childAt` — one step.
* `Document.sameType` — the test for schemas of one type: one node, one target of
  references, or one source.
* `Document.atPath` — any number of steps.
-/

namespace TreeSchema

/-- What a step leads to. -/
inductive Lookup (α : Type) where
  | found (n : Schema α)
  /-- No value has anything there. -/
  | absent
  /-- The value decides. -/
  | ambiguous

namespace Lookup

variable {α : Type}

/-- What a part that may be missing leads to. -/
def ofOption : Option (Schema α) → Lookup α
  | some n => found n
  | none => absent

def isAmbiguous : Lookup α → Bool
  | ambiguous => true
  | _ => false

def found? : Lookup α → Option (Schema α)
  | found n => some n
  | _ => none

/-- What alternatives lead to together: the first schema that one finds, provided
that none is ambiguous and that all others find the same. -/
def agreed (same : Schema α → Schema α → Bool) (results : List (Lookup α)) : Lookup α :=
  if results.any isAmbiguous then ambiguous
  else
    match results.filterMap found? with
    | [] => absent
    | first :: others => if others.all (same first) then found first else ambiguous

end Lookup

/-- A path that cannot be followed without a value. -/
structure AmbiguousPath where
  /-- The steps up to the ambiguous schema. -/
  reached : Path
  /-- The steps from there on. -/
  remaining : Path
deriving DecidableEq

namespace AmbiguousPath

def message (e : AmbiguousPath) : String :=
  "path " ++ e.remaining.text ++ " is ambiguous below " ++ e.reached.text ++
    ": the schema there has no fixed shape"

/-- The same error, the path taken from one step higher. -/
def under (step : Step) (e : AmbiguousPath) : AmbiguousPath :=
  { e with reached := step :: e.reached }

end AmbiguousPath

namespace Document

variable {α : Type} [DecidableEq α]

/-- The schemas are one node, end in one node, or have one source. -/
def sameType (d : Document α) (n m : Schema α) : Bool :=
  n.mark = m.mark || (d.resolve n).mark = (d.resolve m).mark || n.toSource == m.toSource

/-- Where a step leads from a schema. -/
def childAt (d : Document α) (n : Schema α) (step : Step) : Lookup α :=
  match n with
  | .node mark rule =>
    match rule with
    | .scalar _ => .absent
    | .any => .ambiguous
    | .enum _ => .absent
    | .object fields =>
      match step with
      | .key key => .ofOption ((fields.get? key).map (·.type))
      | .index _ => .absent
    | .array initial rest =>
      match step with
      | .key _ => .absent
      | .index i => .found (Rule.itemAt initial rest i)
    | .tuple elements =>
      match step with
      | .key _ => .absent
      | .index i => .ofOption elements.toList[i]?
    | .dictionary type =>
      match step with
      | .key _ => .found type
      | .index _ => .absent
    | .oneof alternatives =>
      if (d.shape (.node mark rule)).isFixed then
        .agreed d.sameType
          (alternatives.toList.attach.map fun ⟨alternative, _⟩ => d.childAt alternative step)
      else .ambiguous
    | .ref label =>
      match _h : d.body? label with
      | some body => d.childAt body step
      | none => .ambiguous
termination_by d.height n
decreasing_by
  · exact d.height_alternative_lt ‹_›
  · exact d.height_target_lt _h

/-- The schema at a path, if there is one. -/
def atPath (d : Document α) (n : Schema α) : Path → Except AmbiguousPath (Option (Schema α))
  | [] => .ok (some n)
  | step :: rest =>
    match d.childAt n step with
    | .found child => (d.atPath child rest).mapError (·.under step)
    | .absent => .ok none
    | .ambiguous => .error ⟨[], step :: rest⟩

end Document

end TreeSchema
