import TreeSchema.Proofs.Document.Lookup

/-!
# Lookups in parts

A path can be followed in two parts, the second from where the first ends. What the first part
comes to decides: where it finds a schema the second goes on from there, where it finds nothing
so does the whole, and where it gives up the second part is left over as well.

* `Document.atPath_append` — **lookups compose.**
* `Document.stops_of_atPath_eq_error` — a lookup gives up at the first ambiguous step.
* `Document.exists_atPath_of_append` — where something is found there is something on the way.
* `Document.atPath_composes` — both together.
-/

namespace TreeSchema

namespace AmbiguousPath

/-- The same error, the path taken from where another path starts that leads there. -/
def below (p : Path) (e : AmbiguousPath) : AmbiguousPath :=
  { e with reached := p ++ e.reached }

/-- The same error of a path that goes on with another. -/
def before (q : Path) (e : AmbiguousPath) : AmbiguousPath :=
  { e with remaining := e.remaining ++ q }

@[simp] theorem below_nil (e : AmbiguousPath) : e.below [] = e := rfl

@[simp] theorem before_under (step : Step) (q : Path) (e : AmbiguousPath) :
    (e.under step).before q = (e.before q).under step := rfl

end AmbiguousPath

namespace Document

variable {α : Type} [DecidableEq α] {d : Document α} {n c : Schema α} {step : Step} {p q : Path}

/-! ### One step and the rest -/

theorem atPath_cons_of_found (h : d.childAt n step = .found c) :
    d.atPath n (step :: p) = (d.atPath c p).mapError (·.under step) := by
  simp [atPath, h]

theorem atPath_cons_of_absent (h : d.childAt n step = .absent) :
    d.atPath n (step :: p) = .ok none := by
  simp [atPath, h]

theorem atPath_cons_of_ambiguous (h : d.childAt n step = .ambiguous) :
    d.atPath n (step :: p) = .error ⟨[], step :: p⟩ := by
  simp [atPath, h]

/-! ### Two parts -/

/-- **Lookups compose**, by induction on the first part. -/
theorem atPath_append (d : Document α) (n : Schema α) (p q : Path) :
    d.atPath n (p ++ q) =
      match d.atPath n p with
      | .ok (some c) => (d.atPath c q).mapError (·.below p)
      | .ok none => .ok none
      | .error e => .error (e.before q) := by
  induction p generalizing n with
  | nil =>
    simp only [List.nil_append, atPath, AmbiguousPath.below_nil]
    cases d.atPath n q <;> rfl
  | cons step p ih =>
    rw [List.cons_append]
    cases h : d.childAt n step with
    | absent => rw [atPath_cons_of_absent h, atPath_cons_of_absent h]
    | ambiguous =>
      rw [atPath_cons_of_ambiguous h, atPath_cons_of_ambiguous h]
      rfl
    | found c =>
      rw [atPath_cons_of_found h, atPath_cons_of_found h, ih c]
      cases d.atPath c p with
      | error e => simp [Except.mapError]
      | ok found? =>
        cases found? with
        | none => rfl
        | some m =>
          simp only [Except.mapError]
          cases d.atPath m q <;> rfl

/-- Where a whole path finds a schema, its first part finds the one that the rest starts from. -/
theorem exists_atPath_of_append (h : d.atPath n (p ++ q) = .ok (some c)) :
    ∃ m, d.atPath n p = .ok (some m) ∧ d.atPath m q = .ok (some c) := by
  rw [atPath_append] at h
  cases first : d.atPath n p with
  | error e => simp [first] at h
  | ok found? =>
    cases found? with
    | none => simp [first] at h
    | some m =>
      simp only [first] at h
      exact ⟨m, rfl, mapError_eq_ok_iff.mp h⟩

/-! ### Giving up -/

/-- The error is of the first step that is ambiguous: what comes before it is found. -/
def StopsAt (d : Document α) (n : Schema α) (e : AmbiguousPath) : Prop :=
  ∃ c step rest, e.remaining = step :: rest ∧ d.atPath n e.reached = .ok (some c) ∧
    d.childAt c step = .ambiguous

theorem StopsAt.under {e : AmbiguousPath} (h : d.childAt n step = .found c)
    (stops : d.StopsAt c e) : d.StopsAt n (e.under step) := by
  obtain ⟨m, next, rest, remaining, found, ambiguous⟩ := stops
  have whole : d.atPath n (e.under step).reached = .ok (some m) := by
    show d.atPath n (step :: e.reached) = .ok (some m)
    rw [atPath_cons_of_found h, found]
    rfl
  exact ⟨m, next, rest, remaining, whole, ambiguous⟩

/-- **A lookup gives up at the first ambiguous step** and tells the path apart there. -/
theorem stops_of_atPath_eq_error {e : AmbiguousPath} (h : d.atPath n p = .error e) :
    e.reached ++ e.remaining = p ∧ d.StopsAt n e := by
  induction p generalizing n e with
  | nil => cases h
  | cons step p ih =>
    cases hc : d.childAt n step with
    | absent =>
      rw [atPath_cons_of_absent hc] at h
      cases h
    | ambiguous =>
      rw [atPath_cons_of_ambiguous hc] at h
      cases h
      exact ⟨rfl, n, step, p, rfl, rfl, hc⟩
    | found c =>
      rw [atPath_cons_of_found hc] at h
      cases inner : d.atPath c p with
      | ok found? => simp [inner, Except.mapError] at h
      | error e' =>
        simp only [inner, Except.mapError, Except.error.injEq] at h
        subst h
        obtain ⟨whole, stops⟩ := ih inner
        exact ⟨congrArg (step :: ·) whole, stops.under hc⟩

/-- **Lookups compose, and tell where they give up.** Where the first part of a path finds a
schema, the second goes on from there; where it finds nothing, so does the whole; where it gives
up, the second part is left over too. A lookup that gives up has found a schema, a step from
which is ambiguous, and the steps found and those left over are the path. -/
theorem atPath_composes (d : Document α) (n : Schema α) (p : Path) :
    (∀ c q, d.atPath n p = .ok (some c) →
      d.atPath n (p ++ q) = (d.atPath c q).mapError fun e => ⟨p ++ e.reached, e.remaining⟩) ∧
    (∀ q, d.atPath n p = .ok none → d.atPath n (p ++ q) = .ok none) ∧
    ∀ e, d.atPath n p = .error e →
      (∀ q, d.atPath n (p ++ q) = .error ⟨e.reached, e.remaining ++ q⟩) ∧
      e.reached ++ e.remaining = p ∧
      ∃ c step rest, e.remaining = step :: rest ∧ d.atPath n e.reached = .ok (some c) ∧
        d.childAt c step = .ambiguous := by
  refine ⟨fun c q h => ?_, fun q h => ?_, fun e h => ⟨fun q => ?_, ?_⟩⟩
  · rw [atPath_append, h]
    rfl
  · rw [atPath_append, h]
  · rw [atPath_append, h]
    rfl
  · exact stops_of_atPath_eq_error h

/-- The source of books, by a name or a person, with remarks of any kind. -/
def bookSource : Value :=
  .mapping <| .ofList
    [(labelsKey, .mapping <| .ofList
      [("book", .mapping <| .ofList
        [("author", .sequence
          [.string "oneof", .string "string", .mapping <| .ofList [("name", .string "string")]]),
          ("remarks", .sequence [.string "array", .string "any"])])]),
      (schemaKey, .sequence [.string "array", .sequence [.string "ref", .string "book"]])]

/-- Books, by a name or a person, with remarks of any kind. -/
def books : Document Unit where
  labels := .ofList
    [("book", .node () <| .object <| .ofList
      [("author", ⟨false, .node () <| .oneof
        ⟨.node () (.scalar .string),
          [.node () <| .object <| .ofList [("name", ⟨false, .node () (.scalar .string)⟩)]]⟩⟩),
        ("remarks", ⟨false, .node () (.array [] (.node () .any))⟩)])]
  root := .node () (.array [] (.node () (.ref "book")))
  guarded := of_decide_eq_true (by cbv)

theorem compile_bookSource : compile bookSource = .ok books.locate :=
  compile_eq_ok_iff.mpr
    ⟨books, ofSource_eq_ok_iff.mpr ⟨by cbv, _, rfl, by cbv, by cbv, _, rfl, by cbv⟩, rfl⟩

/-- What is in a remark is not known, taken from a book or from all books. No book has a size.
An author may have no name, and so no initial either. -/
theorem atPath_composes_books :
    compile bookSource = .ok books.locate ∧
      (∃ book, books.locate.atPath books.locate.root [.index 2] = .ok (some book) ∧
        books.locate.atPath book [.key "remarks", .index 0, .key "by"] =
          .error ⟨[.key "remarks", .index 0], [.key "by"]⟩ ∧
        books.locate.atPath books.locate.root [.index 2, .key "remarks", .index 0, .key "by"] =
          .error ⟨[.index 2, .key "remarks", .index 0], [.key "by"]⟩) ∧
      books.locate.atPath books.locate.root [.index 2, .key "size", .key "height"] = .ok none ∧
      books.locate.atPath books.locate.root
          [.index 2, .key "author", .key "name", .key "initial"] =
        .error ⟨[.index 2, .key "author"], [.key "name", .key "initial"]⟩ ∧
      ∃ author, books.locate.atPath books.locate.root [.index 2, .key "author"] =
          .ok (some author) ∧
        books.locate.childAt author (.key "name") = .ambiguous := by
  have found : books.locate.atPath books.locate.root [.index 2] =
      .ok (some (.node ⟨7, schemaPath ++ [.index 1]⟩ (.ref "book"))) := by cbv
  have inner : books.locate.atPath (.node ⟨7, schemaPath ++ [.index 1]⟩ (.ref "book"))
      [.key "remarks", .index 0, .key "by"] =
        .error ⟨[.key "remarks", .index 0], [.key "by"]⟩ := by cbv
  have absent : books.locate.atPath books.locate.root [.index 2, .key "size"] = .ok none := by cbv
  have stops : books.locate.atPath books.locate.root [.index 2, .key "author", .key "name"] =
      .error ⟨[.index 2, .key "author"], [.key "name"]⟩ := by cbv
  obtain ⟨on, -⟩ := atPath_composes books.locate books.locate.root [.index 2]
  obtain ⟨-, nowhere, -⟩ :=
    atPath_composes books.locate books.locate.root [.index 2, .key "size"]
  obtain ⟨-, -, failed⟩ :=
    atPath_composes books.locate books.locate.root [.index 2, .key "author", .key "name"]
  have whole := on _ [.key "remarks", .index 0, .key "by"] found
  rw [inner] at whole
  obtain ⟨longer, -, author, step, rest, remaining, reached, ambiguous⟩ := failed _ stops
  cases remaining
  exact ⟨compile_bookSource, ⟨_, found, inner, whole⟩, nowhere [.key "height"] absent,
    longer [.key "initial"], author, reached, ambiguous⟩

end Document

end TreeSchema
