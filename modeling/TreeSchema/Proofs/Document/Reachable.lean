import TreeSchema.Proofs.Document.Arena
import TreeSchema.Shape

/-!
# What a node leads to

The search for what a node leads to works on the numbers of nodes. It keeps those that it came to
and a stack of those that are pending. What is next to something it came to, it came to or is
pending, so with nothing left on the stack it has come to everything that there is a way to; and
it puts nothing on the stack that there is no way to.

In a located document every node has the number of its position, so the search through numbers
is one through nodes: a node leads to itself and to all that its parts lead to, and what holds of
all the nodes it leads to carries over to them.

* `Document.Explored` — what is true of the search at every moment; `Document.Explored.skip`,
  `Document.Explored.enter` — its two steps; `Document.Explored.finished` — its end.
* `Document.mem_reachable_iff`, `Document.nodup_reachable` — **the search finds what there is a
  way to**, once.
* `Document.mem_reachableNodes_self` — a node leads to itself.
* `Document.reachableNodes_subset`, `Document.reachableNodes_trans` — and to what its parts, and
  all that it leads to, lead to.
* `Document.reachable_of_compile` — **the nodes that a node of a compiled document leads to**, and
  what they decide.
-/

namespace TreeSchema.Document

/-! ### The search -/

section

variable {d : Document Site} {nodes : List Node} {start id : Nat} {seen pending : List Nat}

/-- From the number of a node to that of one of its parts. -/
def LinksIds (d : Document Site) (nodes : List Node) (id part : Nat) : Prop :=
  part ∈ d.childIds nodes id

/-- How the search from a number stands when it came to some numbers and others are pending. -/
structure Explored (d : Document Site) (nodes : List Node) (start : Nat)
    (seen pending : List Nat) : Prop where
  nodup : seen.Nodup
  start_mem : start ∈ seen ∨ start ∈ pending
  reached : ∀ id, id ∈ seen ∨ id ∈ pending → Relation.ReflTransGen (d.LinksIds nodes) start id
  /-- What is next to something come to is come to or pending. -/
  frontier : ∀ id ∈ seen, ∀ part ∈ d.childIds nodes id, part ∈ seen ∨ part ∈ pending

namespace Explored

theorem first : d.Explored nodes start [] [start] where
  nodup := List.nodup_nil
  start_mem := .inr (List.mem_singleton_self start)
  reached id h := by
    obtain rfl := List.mem_singleton.mp (h.resolve_left List.not_mem_nil)
    exact .refl
  frontier _ h := absurd h List.not_mem_nil

/-- A number that was come to before is dropped. -/
theorem skip (h : d.Explored nodes start seen (id :: pending)) (known : id ∈ seen) :
    d.Explored nodes start seen pending where
  nodup := h.nodup
  start_mem := by
    rcases h.start_mem with hs | hs
    · exact .inl hs
    · rcases List.mem_cons.mp hs with rfl | hs
      · exact .inl known
      · exact .inr hs
  reached x hx := h.reached x (hx.imp_right (List.mem_cons_of_mem id))
  frontier x hx part hp := by
    rcases h.frontier x hx part hp with hs | hs
    · exact .inl hs
    · rcases List.mem_cons.mp hs with rfl | hs
      · exact .inl known
      · exact .inr hs

/-- The parts of a number that is first come to are put on the stack. -/
theorem enter (h : d.Explored nodes start seen (id :: pending)) (new : id ∉ seen) :
    d.Explored nodes start (id :: seen) ((d.childIds nodes id).reverse ++ pending) where
  nodup := List.nodup_cons.mpr ⟨new, h.nodup⟩
  start_mem := by
    have := h.start_mem
    simp only [List.mem_cons, List.mem_append] at this ⊢
    tauto
  reached x hx := by
    have here := h.reached id (.inr List.mem_cons_self)
    simp only [List.mem_cons, List.mem_append, List.mem_reverse] at hx
    rcases hx with (rfl | hx) | hp | hx
    · exact here
    · exact h.reached x (.inl hx)
    · exact here.tail hp
    · exact h.reached x (.inr (List.mem_cons_of_mem id hx))
  frontier x hx part hp := by
    simp only [List.mem_cons, List.mem_append, List.mem_reverse]
    rcases List.mem_cons.mp hx with rfl | hx
    · exact .inr (.inl hp)
    · have := h.frontier x hx part hp
      rw [List.mem_cons] at this
      tauto

/-- **The search ends with nothing pending**, and has then come to what it lists. -/
theorem finished (h : d.Explored nodes start seen pending) :
    d.Explored nodes start ((d.explore nodes seen pending).reverse ++ seen) [] := by
  fun_induction d.explore nodes seen pending with
  | case1 seen => exact h
  | case2 seen id pending known ih => exact ih (h.skip known)
  | case3 seen id pending new ih =>
    -- What is listed first is seen by all of the search that follows.
    rw [List.reverse_cons, List.append_assoc]
    exact ih (h.enter new)

/-- With nothing pending, all that there is a way to was come to. -/
theorem mem_iff (h : d.Explored nodes start seen []) :
    id ∈ seen ↔ Relation.ReflTransGen (d.LinksIds nodes) start id := by
  constructor
  · intro hs
    exact h.reached id (.inl hs)
  · intro way
    induction way with
    | refl => exact h.start_mem.resolve_right List.not_mem_nil
    | tail _ link ih => exact (h.frontier _ ih _ link).resolve_right List.not_mem_nil

end Explored

/-- How the search stands when it is over. -/
theorem explored_reachable (d : Document Site) (id : Nat) :
    d.Explored d.nodes id (d.reachable id).reverse [] := by
  have begun : d.Explored d.nodes id [] [id] := .first
  have ended := begun.finished
  rwa [List.append_nil] at ended

/-- **The search finds what there is a way to.** -/
theorem mem_reachable_iff {id' : Nat} :
    id' ∈ d.reachable id ↔ Relation.ReflTransGen (d.LinksIds d.nodes) id id' := by
  rw [← List.mem_reverse]
  exact (d.explored_reachable id).mem_iff

theorem nodup_reachable (d : Document Site) (id : Nat) : (d.reachable id).Nodup :=
  List.nodup_reverse.mp (d.explored_reachable id).nodup

end

/-! ### Nodes -/

/-- From a node to one of its parts; a reference is linked to its target. -/
def Links {α : Type} (d : Document α) (n m : Schema α) : Prop :=
  m ∈ d.children n

section

variable {d : Document Site} {n m : Node}

theorem mem_reachableNodes_iff :
    m ∈ d.reachableNodes n ↔ ∃ id ∈ d.reachable n.mark.id, d.node? id = some m :=
  List.mem_filterMap

end

section

variable {e : Document Unit} {n m : Node} {id : Nat}

theorem mem_nodes_of_links (hn : n ∈ e.locate.nodes)
    (way : Relation.ReflTransGen e.locate.Links n m) : m ∈ e.locate.nodes := by
  induction way with
  | refl => exact hn
  | tail _ link ih => exact mem_nodes_of_mem_children ih link

/-- The parts of a node, by their numbers. -/
theorem linksIds_iff (hn : n ∈ e.locate.nodes) :
    e.locate.LinksIds e.locate.nodes n.mark.id id ↔ ∃ m, e.locate.Links n m ∧ m.mark.id = id := by
  have found : e.locate.nodes[n.mark.id]? = some n := node?_eq_some_of_mem hn
  rw [LinksIds, childIds, found]
  exact List.mem_map

/-- A way through numbers is a way through nodes. -/
theorem reachesIds_iff (hn : n ∈ e.locate.nodes) :
    Relation.ReflTransGen (e.locate.LinksIds e.locate.nodes) n.mark.id id ↔
      ∃ m, Relation.ReflTransGen e.locate.Links n m ∧ m.mark.id = id := by
  constructor
  · intro way
    induction way with
    | refl => exact ⟨n, .refl, rfl⟩
    | tail _ link ih =>
      obtain ⟨m, reached, rfl⟩ := ih
      obtain ⟨part, links, rfl⟩ := (linksIds_iff (mem_nodes_of_links hn reached)).mp link
      exact ⟨part, reached.tail links, rfl⟩
  · rintro ⟨m, way, rfl⟩
    induction way with
    | refl => exact .refl
    | tail reached links ih =>
      exact ih.tail ((linksIds_iff (mem_nodes_of_links hn reached)).mpr ⟨_, links, rfl⟩)

/-- The numbers of what a node leads to. -/
theorem mem_reachable_mark_iff (hn : n ∈ e.locate.nodes) :
    id ∈ e.locate.reachable n.mark.id ↔
      ∃ m, Relation.ReflTransGen e.locate.Links n m ∧ m.mark.id = id :=
  mem_reachable_iff.trans (reachesIds_iff hn)

/-- **A node leads to what its parts, and theirs, lead to.** -/
theorem mem_reachableNodes_iff_links (hn : n ∈ e.locate.nodes) :
    m ∈ e.locate.reachableNodes n ↔ Relation.ReflTransGen e.locate.Links n m := by
  rw [mem_reachableNodes_iff]
  constructor
  · rintro ⟨id, hid, found⟩
    obtain ⟨m', way, rfl⟩ := (mem_reachable_mark_iff hn).mp hid
    rw [node?_eq_some_of_mem (mem_nodes_of_links hn way)] at found
    exact Option.some.inj found ▸ way
  · intro way
    exact ⟨m.mark.id, (mem_reachable_mark_iff hn).mpr ⟨m, way, rfl⟩,
      node?_eq_some_of_mem (mem_nodes_of_links hn way)⟩

/-- A node leads to itself. -/
theorem mem_reachableNodes_self (hn : n ∈ e.locate.nodes) : n ∈ e.locate.reachableNodes n :=
  (mem_reachableNodes_iff_links hn).mpr .refl

/-- **A node leads to what its parts lead to.** -/
theorem reachableNodes_subset (hn : n ∈ e.locate.nodes) (hm : m ∈ e.locate.children n) :
    e.locate.reachableNodes m ⊆ e.locate.reachableNodes n := by
  intro x hx
  have way := (mem_reachableNodes_iff_links (mem_nodes_of_mem_children hn hm)).mp hx
  exact (mem_reachableNodes_iff_links hn).mpr (.head hm way)

/-- What a node leads to leads to no more than the node. -/
theorem reachableNodes_trans (hm : m ∈ e.locate.reachableNodes n) :
    e.locate.reachableNodes m ⊆ e.locate.reachableNodes n := by
  intro x hx
  obtain ⟨i, hi, hm⟩ := mem_reachableNodes_iff.mp hm
  obtain ⟨j, hj, hx⟩ := mem_reachableNodes_iff.mp hx
  rw [id_of_node? hm] at hj
  refine mem_reachableNodes_iff.mpr ⟨j, mem_reachable_iff.mpr ?_, hx⟩
  exact (mem_reachable_iff.mp hi).trans (mem_reachable_iff.mp hj)

/-! ### What the nodes decide -/

/-- The node leads to a reference. -/
theorem isRecursive_iff (hn : n ∈ e.locate.nodes) :
    e.locate.isRecursive n = true ↔
      ∃ m label, Relation.ReflTransGen e.locate.Links n m ∧ m.rule = .ref label := by
  rw [isRecursive, List.any_eq_true]
  constructor
  · rintro ⟨m, hm, isRef⟩
    split at isRef
    · next label rule => exact ⟨m, label, (mem_reachableNodes_iff_links hn).mp hm, rule⟩
    · cases isRef
  · rintro ⟨m, label, way, rule⟩
    refine ⟨m, (mem_reachableNodes_iff_links hn).mpr way, ?_⟩
    rw [rule]

end

theorem decidesShape_iff {α : Type} {d : Document α} {n : Schema α} :
    d.decidesShape n = true ↔
      n.rule ≠ .any ∧ ∀ alternatives, n.rule = .oneof alternatives →
        (d.shape n).isFixed = true := by
  unfold decidesShape
  cases n.rule <;> simp

section

variable {e : Document Unit} {n m : Node}

/-- Nothing that the node leads to takes every value, and its unions have fixed shapes. -/
theorem hasFixedShape_iff (hn : n ∈ e.locate.nodes) :
    e.locate.hasFixedShape n = true ↔
      ∀ m, Relation.ReflTransGen e.locate.Links n m →
        m.rule ≠ .any ∧ ∀ alternatives, m.rule = .oneof alternatives →
          (e.locate.shape m).isFixed = true := by
  rw [hasFixedShape, List.all_eq_true]
  simp only [mem_reachableNodes_iff_links hn, decidesShape_iff]

/-- What is true of all that a node leads to is true of all that any of them leads to. -/
theorem hasFixedShape_of_links (hn : n ∈ e.locate.nodes)
    (way : Relation.ReflTransGen e.locate.Links n m)
    (fixed : e.locate.hasFixedShape n = true) : e.locate.hasFixedShape m = true := by
  rw [hasFixedShape_iff (mem_nodes_of_links hn way)]
  intro x rest
  exact (hasFixedShape_iff hn).mp fixed x (way.trans rest)

theorem isRecursive_of_links (hn : n ∈ e.locate.nodes)
    (way : Relation.ReflTransGen e.locate.Links n m)
    (recursive : e.locate.isRecursive m = true) : e.locate.isRecursive n = true := by
  obtain ⟨x, label, rest, rule⟩ := (isRecursive_iff (mem_nodes_of_links hn way)).mp recursive
  exact (isRecursive_iff hn).mpr ⟨x, label, way.trans rest, rule⟩

end

/-! ### Compiled documents -/

/-- **What the nodes of a compiled document lead to.** The search lists the numbers of the nodes
to which parts, and the targets of references, lead from the node, and lists none twice. The node
is recursive exactly if a reference is among these nodes. It has a fixed shape exactly if none of
them takes every value and all unions among them have shapes that are fixed. They have a fixed
shape if the node has one, and are not recursive if it is not. -/
theorem reachable_of_compile {source : Value} {d : Document Site} (hd : compile source = .ok d)
    {n : Node} (hn : n ∈ d.nodes) :
    (d.reachable n.mark.id).Nodup ∧
      (∀ id, id ∈ d.reachable n.mark.id ↔
        ∃ m, Relation.ReflTransGen d.Links n m ∧ m.mark.id = id) ∧
      (d.isRecursive n = true ↔
        ∃ m label, Relation.ReflTransGen d.Links n m ∧ m.rule = .ref label) ∧
      (d.hasFixedShape n = true ↔
        ∀ m, Relation.ReflTransGen d.Links n m →
          m.rule ≠ .any ∧ ∀ alternatives, m.rule = .oneof alternatives →
            (d.shape m).isFixed = true) ∧
      ∀ m, Relation.ReflTransGen d.Links n m →
        (d.hasFixedShape n = true → d.hasFixedShape m = true) ∧
          (d.isRecursive n = false → d.isRecursive m = false) := by
  obtain ⟨e, -, rfl⟩ := compile_eq_ok_iff.mp hd
  refine ⟨nodup_reachable _ _, fun _ => mem_reachable_mark_iff hn, isRecursive_iff hn,
    hasFixedShape_iff hn, ?_⟩
  intro m way
  refine ⟨hasFixedShape_of_links hn way, fun none => ?_⟩
  rw [Bool.eq_false_iff] at none ⊢
  exact fun recursive => none (isRecursive_of_links hn way recursive)

/-- A tree or nothing is recursive and has no fixed shape, but a tree has one, with all that is in
it. -/
theorem reachable_tree :
    compile treeSource = .ok tree.locate ∧ tree.locate.root ∈ tree.locate.nodes ∧
      tree.locate.reachable tree.locate.root.mark.id = [6, 5, 0, 3, 2, 1, 4] ∧
      (∃ m label, Relation.ReflTransGen tree.locate.Links tree.locate.root m ∧
        m.rule = .ref label) ∧
      (¬ ∀ m, Relation.ReflTransGen tree.locate.Links tree.locate.root m →
        m.rule ≠ .any ∧ ∀ alternatives, m.rule = .oneof alternatives →
          (tree.locate.shape m).isFixed = true) ∧
      ∃ body, tree.locate.body? "tree" = some body ∧
        ∀ m, Relation.ReflTransGen tree.locate.Links body m →
          tree.locate.hasFixedShape m = true := by
  have listed : tree.locate.reachable tree.locate.root.mark.id = [6, 5, 0, 3, 2, 1, 4] := by cbv
  have recursive : tree.locate.isRecursive tree.locate.root = true := by cbv
  have mixed : tree.locate.hasFixedShape tree.locate.root = false := by cbv
  have fixed : (tree.locate.body? "tree").all tree.locate.hasFixedShape = true := by cbv
  obtain ⟨-, -, recursive_iff, fixed_iff, -⟩ :=
    reachable_of_compile compile_treeSource (root_mem_nodes _)
  refine ⟨compile_treeSource, root_mem_nodes _, listed, recursive_iff.mp recursive, ?_, ?_⟩
  · rw [← fixed_iff, mixed]
    exact Bool.false_ne_true
  · obtain ⟨body, hb⟩ : ∃ body, tree.locate.body? "tree" = some body :=
      Option.isSome_iff_exists.mp (by cbv)
    rw [hb, Option.all_some] at fixed
    refine ⟨body, hb, fun m way => ?_⟩
    exact ((reachable_of_compile compile_treeSource (mem_nodes_of_body? hb)).2.2.2.2 m way).1 fixed

end TreeSchema.Document
