/-
# Lists that are not empty

Enumerations, tuples and alternatives have at least one part; `OneOrMore` says so
in the type. Its view is `toList`.
-/

namespace TreeSchema

/-- A list with at least one element. -/
structure OneOrMore (α : Type) where
  first : α
  others : List α

namespace OneOrMore

variable {α β : Type}

def toList (xs : OneOrMore α) : List α :=
  xs.first :: xs.others

def map (f : α → β) (xs : OneOrMore α) : OneOrMore β :=
  ⟨f xs.first, xs.others.map f⟩

/-- The elements before the last. -/
def initial (xs : OneOrMore α) : List α :=
  xs.toList.dropLast

def last (xs : OneOrMore α) : α :=
  xs.others.getLastD xs.first

/-- The list that ends with the given element. -/
def ofLast : List α → α → OneOrMore α
  | [], last => ⟨last, []⟩
  | first :: rest, last => ⟨first, rest ++ [last]⟩

theorem toList_ne_nil (xs : OneOrMore α) : xs.toList ≠ [] :=
  List.cons_ne_nil _ _

theorem toList_inj {xs ys : OneOrMore α} : xs.toList = ys.toList ↔ xs = ys := by
  cases xs
  cases ys
  simp [toList]

@[simp] theorem toList_map (f : α → β) (xs : OneOrMore α) :
    (xs.map f).toList = xs.toList.map f := rfl

theorem first_mem (xs : OneOrMore α) : xs.first ∈ xs.toList :=
  List.mem_cons_self

theorem other_mem (xs : OneOrMore α) {x : α} (h : x ∈ xs.others) : x ∈ xs.toList :=
  List.mem_cons_of_mem _ h

theorem initial_append_last (xs : OneOrMore α) : xs.initial ++ [xs.last] = xs.toList := by
  have h : xs.toList.getLast xs.toList_ne_nil = xs.last := by
    simp [toList, last, List.getLast_eq_getLastD]
  rw [← h]
  exact List.dropLast_concat_getLast xs.toList_ne_nil

@[simp] theorem toList_ofLast (init : List α) (last : α) :
    (ofLast init last).toList = init ++ [last] := by
  cases init <;> rfl

end OneOrMore

end TreeSchema
