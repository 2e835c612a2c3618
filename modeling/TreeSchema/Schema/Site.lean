import TreeSchema.Schema.Basic

/-!
# Sites

A site marks a node of a document with its number and with the place in the
source that it was read from. Below a node, the parts are numbered one after the
other, and every part comes after all that is below it.
-/

namespace TreeSchema

/-- Where a node stands. -/
structure Site where
  /-- The number of the node in its document. -/
  id : Nat
  /-- The place in the source of the document. -/
  origin : Path
deriving DecidableEq

instance : Inhabited Site := ⟨⟨0, []⟩⟩

/-- A node of a document: a schema all of whose nodes know where they stand. -/
abbrev Node := Schema Site

namespace Schema

/-- The number of nodes of the parts before a position, given the sizes of all parts. -/
def sizeBefore (sizes : List Nat) (position : Nat) : Nat :=
  total id (sizes.take position)

theorem sizeBefore_zero (sizes : List Nat) : sizeBefore sizes 0 = 0 := rfl

theorem sizeBefore_cons_succ (size : Nat) (sizes : List Nat) (i : Nat) :
    sizeBefore (size :: sizes) (i + 1) = size + sizeBefore sizes i := by
  rw [sizeBefore, List.take_succ_cons, total_cons]
  rfl

theorem sizeBefore_append {sizes : List Nat} {i : Nat} (h : i ≤ sizes.length)
    (others : List Nat) : sizeBefore (sizes ++ others) i = sizeBefore sizes i := by
  rw [sizeBefore, List.take_append_of_le_length h]
  rfl

theorem sizeBefore_append_length (sizes others : List Nat) :
    sizeBefore (sizes ++ others) sizes.length = total id sizes := by
  rw [sizeBefore, List.take_left]

/-- Marks a schema that was read at a place in the source. `site` is the site of
its root, and `start` the first number for what is below. -/
def locate (site : Site) (start : Nat) : Schema Unit → Node
  | node _ rule =>
    let sizes := rule.parts.map size
    node site <| rule.mapParts fun i path part _ =>
      let first := start + sizeBefore sizes i
      part.locate ⟨first + part.size - 1, site.origin ++ path⟩ first
termination_by n => n.size
decreasing_by exact size_lt_of_mem_parts ‹_›

end Schema

namespace Site

/-- Marks a schema whose nodes are numbered from `start` on, its root last. -/
def last (start : Nat) (origin : Path) (n : Schema Unit) : Node :=
  n.locate ⟨start + n.size - 1, origin⟩ start

end Site

end TreeSchema
