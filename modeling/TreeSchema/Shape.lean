import TreeSchema.Document.Nodes
import TreeSchema.Search

/-!
# Shapes

Every value is a scalar, an array or an object. The shape of a schema says which
of these its values can be, as far as the schema alone decides it. It has a fixed
shape where that is exactly one at every place that the schema describes.

* `Document.shape` — the categories at the place of the schema itself.
* `Document.explore` — the search through the nodes, with a stack.
* `Document.reachable` — the numbers of the nodes that a node leads to, through references too.
* `Document.isRecursive` — whether a reference is among them.
* `Document.hasFixedShape` — no node among them leaves the category open.
-/

namespace TreeSchema

/-! ### Categories -/

/-- What a value is made like. -/
inductive Category where
  | scalar
  | array
  | object
deriving DecidableEq

def Value.category : Value → Category
  | .sequence _ => .array
  | .mapping _ => .object
  | _ => .scalar

/-- The categories that the values of a schema can have. -/
structure Shape where
  scalar : Bool
  array : Bool
  object : Bool
  /-- A schema that takes every value is involved. -/
  any : Bool
deriving DecidableEq

namespace Shape

/-- No category. -/
def none : Shape := ⟨false, false, false, false⟩

/-- Every category. -/
def all : Shape := ⟨true, true, true, true⟩

/-- One category alone. -/
def only : Category → Shape
  | .scalar => { none with scalar := true }
  | .array => { none with array := true }
  | .object => { none with object := true }

/-- The categories of either shape. -/
def union (s t : Shape) : Shape :=
  ⟨s.scalar || t.scalar, s.array || t.array, s.object || t.object, s.any || t.any⟩

/-- The category is one of the shape. -/
def has (s : Shape) : Category → Bool
  | .scalar => s.scalar
  | .array => s.array
  | .object => s.object

/-- The shape is that of a single category, and no schema takes every value. -/
def isOnly (s : Shape) (category : Category) : Bool :=
  s = only category

/-- The shape is decided. -/
def isFixed (s : Shape) : Bool :=
  s.isOnly .scalar || s.isOnly .array || s.isOnly .object

end Shape

namespace Document

/-- The categories of the values of a schema. -/
def shape {α : Type} (d : Document α) (n : Schema α) : Shape :=
  match n with
  | .node _ rule =>
    match rule with
    | .scalar _ => .only .scalar
    | .any => .all
    | .enum _ => .only .scalar
    | .object _ => .only .object
    | .array _ _ => .only .array
    | .tuple _ => .only .array
    | .dictionary _ => .only .object
    | .oneof alternatives =>
      (alternatives.toList.attach.map fun ⟨alternative, _⟩ => d.shape alternative).foldr
        Shape.union .none
    | .ref label =>
      match _h : d.body? label with
      | some body => d.shape body
      | none => .all
termination_by d.height n
decreasing_by
  · exact d.height_alternative_lt ‹_›
  · exact d.height_target_lt _h

/-! ### What a node leads to -/

/-- The numbers of the parts of the node with a number, given all nodes. -/
def childIds (d : Document Site) (nodes : List Node) (id : Nat) : List Nat :=
  nodes[id]?.elim [] fun n => (d.children n).map (·.mark.id)

/-- With the parts of a node in place of the node, less is left to look at: a node less, or a
number less if it is that of no node. -/
theorem explore_decreases (d : Document Site) (nodes : List Node) {id : Nat} {seen : List Nat}
    (new : id ∉ seen) (pending : List Nat) :
    Prod.Lex (· < ·) (· < ·)
      ((Search.unseen (List.range nodes.length) (id :: seen)).length,
        ((d.childIds nodes id).reverse ++ pending).length)
      ((Search.unseen (List.range nodes.length) seen).length, (id :: pending).length) := by
  rw [Search.unseen_cons]
  cases found : nodes[id]? with
  | some n =>
    have small := (List.getElem?_eq_some_iff.mp found).1
    have room : id ∈ Search.unseen (List.range nodes.length) seen :=
      Search.mem_unseen.mpr ⟨List.mem_range.mpr small, new⟩
    exact .left _ _ (Search.length_without_lt room)
  | none =>
    rw [childIds, found, Option.elim_none, List.reverse_nil, List.nil_append]
    apply Prod.Lex.right'
    · exact List.length_filter_le _ _
    · exact Nat.lt_succ_self _

/-- The numbers that are come to from pending ones, in the order in which they are come to. The
parts of a node are put on the stack where the node is first come to, the last of them on top. -/
def explore (d : Document Site) (nodes : List Node) (seen : List Nat) :
    (pending : List Nat) → List Nat
  | [] => []
  | id :: pending =>
    if id ∈ seen then d.explore nodes seen pending
    else id :: d.explore nodes (id :: seen) ((d.childIds nodes id).reverse ++ pending)
termination_by pending =>
  ((Search.unseen (List.range nodes.length) seen).length, pending.length)
decreasing_by
  · exact .right _ (Nat.lt_succ_self _)
  · exact d.explore_decreases nodes ‹_› pending

/-- The numbers of the nodes that the node with a number leads to, its own among them. -/
def reachable (d : Document Site) (id : Nat) : List Nat :=
  d.explore d.nodes [] [id]

/-- The nodes that a node leads to, itself among them. -/
def reachableNodes (d : Document Site) (n : Node) : List Node :=
  let nodes := d.nodes
  (d.reachable n.mark.id).filterMap fun id => nodes[id]?

/-- The node leads to a reference. -/
def isRecursive (d : Document Site) (n : Node) : Bool :=
  (d.reachableNodes n).any fun m =>
    match m.rule with
    | .ref _ => true
    | _ => false

/-- The schema itself does not leave the category of its values open. -/
def decidesShape {α : Type} (d : Document α) (n : Schema α) : Bool :=
  match n.rule with
  | .any => false
  | .oneof _ => (d.shape n).isFixed
  | _ => true

/-- Nothing that the node leads to leaves the category of its values open. -/
def hasFixedShape (d : Document Site) (n : Node) : Bool :=
  (d.reachableNodes n).all d.decidesShape

end Document

end TreeSchema
