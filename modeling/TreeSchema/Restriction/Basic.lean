import TreeSchema.Restriction.Fill
import TreeSchema.Scalar.Coercion
import TreeSchema.Validation.Basic

/-!
# Restriction

`Document.restrict` fits a value to a schema: it keeps what the schema describes
and drops the rest. Undeclared keys of objects and unfitting entries of
dictionaries and items past the initial ones are left out. Options also convert
scalars, and put fill values where something is missing or unusable. The result
is absent where nothing can be kept.

A union takes the first alternative that the value fits exactly. Else it takes
the first candidate that conforms: the restrictions to each alternative without
conversion, then those with conversion. Failing that, it is filled, or without
filling the first candidate stands for it.
-/

namespace TreeSchema

/-- How a value is fitted. -/
structure RestrictOptions where
  /-- Put empty collections where one is missing or unusable. -/
  fillEmpty : Bool
  /-- Put zero values wherever something is missing or unusable. -/
  fillZero : Bool
  /-- Convert scalars. -/
  coerce : Bool
deriving DecidableEq

namespace RestrictOptions

/-- The mode of filling; zero values win. -/
def fillMode? (o : RestrictOptions) : Option FillMode :=
  if o.fillZero then some .zero else if o.fillEmpty then some .empty else none

/-- Without filling. -/
def plain (coerce : Bool) : RestrictOptions :=
  ⟨false, false, coerce⟩

/-- The options under which a union collects candidates, in order. -/
def passes (o : RestrictOptions) : List RestrictOptions :=
  plain false :: if o.coerce then [plain true] else []

/-- What a union tries for candidates, in order: every alternative in every pass. -/
def attempts {β : Type} (o : RestrictOptions) (alternatives : List β) :
    List (RestrictOptions × β) :=
  o.passes.flatMap fun pass => alternatives.map (pass, ·)

theorem mem_of_mem_attempts {β : Type} {o : RestrictOptions} {alternatives : List β}
    {attempt : RestrictOptions × β} (h : attempt ∈ o.attempts alternatives) :
    attempt.2 ∈ alternatives := by
  obtain ⟨pass, _, h⟩ := List.mem_flatMap.mp h
  obtain ⟨alternative, ha, rfl⟩ := List.mem_map.mp h
  exact ha

end RestrictOptions

/-- What a value becomes by one alternative of a union. -/
structure Candidate where
  value : Value
  /-- The value conforms to the alternative. -/
  conforms : Bool

/-- The value converted to a type, if conversion is asked for. -/
def ScalarType.coerceIf (type : ScalarType) (coerce : Bool) (v : Value) : Option Value :=
  if coerce then type.coerce? v else none

/-- The first member that the value converted to the member's own type is equal to. -/
def OneOrMore.coerceTo? (members : OneOrMore Literal) (v : Value) : Option Literal :=
  members.toList.find? fun member =>
    (member.type.coerce? v).any fun w => w == member.toValue

namespace Document

variable {α : Type}

/-- The fill value of a schema under the options. -/
def fillFor (d : Document α) (o : RestrictOptions) (n : Schema α) :
    Except (RecursionError α) (Option Value) :=
  match o.fillMode? with
  | some mode => d.fill mode n
  | none => .ok none

/-- The fill value of an initial item of an array, which exists in every mode. -/
def fillInitial (d : Document α) (o : RestrictOptions) (n : Schema α) :
    Except (RecursionError α) (Option Value) :=
  match o.fillMode? with
  | some mode => orElse (d.fill mode n) fun _ => d.fill .zero n
  | none => .ok none

/-- The result if there is one, else the fill value of the schema under the options. -/
def orFill (d : Document α) (o : RestrictOptions) (n : Schema α) (result : Option Value) :
    Except (RecursionError α) (Option Value) :=
  match result with
  | some v => .ok (some v)
  | none => d.fillFor o n

/-- The choice of a union among its candidates. -/
def chooseCandidate (d : Document α) (o : RestrictOptions) (n : Schema α)
    (candidates : List Candidate) : Except (RecursionError α) (Option Value) :=
  match candidates.find? (·.conforms) with
  | some c => .ok (some c.value)
  | none => if o.fillMode?.isSome then d.fillFor o n else .ok (candidates.head?.map (·.value))

/-- Fits a value to a schema. -/
def restrict (d : Document α) (o : RestrictOptions) (n : Schema α) (v : Value) :
    Except (RecursionError α) (Option Value) :=
  match n with
  | .node mark rule =>
    match rule with
    | .any => .ok (some v)
    | .scalar type =>
      if type.accepts v then .ok (some v)
      else d.orFill o (.node mark rule) (type.coerceIf o.coerce v)
    | .enum members =>
      if members.hasValue v then .ok (some v)
      else
        let member? := if o.coerce then members.coerceTo? v else none
        d.orFill o (.node mark rule) (member?.map Literal.toValue)
    | .object fields =>
      match v with
      | .mapping values => do
        let results ← fields.traverse fun e _ =>
          match _h : values.get? e.1 with
          | some x => d.restrict o e.2.type x
          | none => if e.2.optional then .ok none else d.fillFor o e.2.type
        return some (.mapping results.somes)
      | _ => d.fillFor o (.node mark rule)
    | .array initial rest =>
      match v with
      | .sequence items => do
        let first ← (traverse 0 initial fun i part _ => OptionT.mk <|
          match _h : items[i]? with
          | some x => orElse (d.restrict o part x) fun _ => d.fillInitial o part
          | none => d.fillInitial o part).run
        match first with
        | none => d.fillFor o (.node mark rule)
        | some first =>
          let others ← traverse 0 (items.drop initial.length) fun _ x _ => d.restrict o rest x
          return some (.sequence (first ++ others.filterMap id))
      | _ => d.fillFor o (.node mark rule)
    | .tuple elements =>
      match v with
      | .sequence items =>
        if items.length ≠ elements.toList.length ∧ o.fillMode?.isNone then .ok none
        else do
          let results ← (traverse 0 elements.toList fun i part _ => OptionT.mk <|
            match _h : items[i]? with
            | some x => orElse (d.restrict o part x) fun _ => d.fillFor o part
            | none => d.fillFor o part).run
          d.orFill o (.node mark rule) (results.map .sequence)
      | _ => d.fillFor o (.node mark rule)
    | .dictionary type =>
      match v with
      | .mapping values => do
        let results ← values.traverse fun e _ => d.restrict o type e.2
        return some (.mapping results.somes)
      | _ => d.fillFor o (.node mark rule)
    | .oneof alternatives =>
      match alternatives.toList.attach.find? fun ⟨alternative, _⟩ => d.conforms alternative v with
      | some ⟨alternative, _⟩ => d.restrict o alternative v
      | none => do
        let candidates ← resultsUntil Candidate.conforms (o.attempts alternatives.toList)
          fun attempt _ => do
            let result ← d.restrict attempt.1 attempt.2 v
            return result.map fun w => ⟨w, d.conforms attempt.2 w⟩
        d.chooseCandidate o (.node mark rule) candidates
    | .ref label =>
      match _h : d.body? label with
      | some body => d.restrict o body v
      | none => .ok (some v)
termination_by (v.size, d.height n)
decreasing_by
  · exact .left _ _ (Value.size_lt_of_get? _h)
  · exact .left _ _ (Value.size_lt_of_mem (List.mem_of_getElem? _h))
  · exact .left _ _ (Value.size_lt_of_mem (List.mem_of_mem_drop ‹_›))
  · exact .left _ _ (Value.size_lt_of_mem (List.mem_of_getElem? _h))
  · exact .left _ _ (Value.size_lt_of_mem_entries ‹_›)
  · exact .right _ (d.height_alternative_lt ‹_›)
  · exact .right _ (d.height_alternative_lt (RestrictOptions.mem_of_mem_attempts ‹_›))
  · exact .right _ (d.height_target_lt _h)

end Document

end TreeSchema
