import MessagePassing.Traversal.Distinct

/-!
# Depth-first post-order

A depth-first walk enters a node, then everything below it, and leaves it. The walk is run from a
list of visits that are still due: entering an unseen node puts its successors, and the visit that
leaves it, in front of the rest. A node is being walked just while the visit that leaves it is due,
so an arc to such a node closes a cycle.

* `walk` runs a list of visits; `Digraph.postOrder` starts from every node in order.
* The order lists nodes as they are left, the back arcs those that close a cycle as they are met.

Specification: section 7 (the order of `generate_schedule` and its back edges).
-/

namespace MessagePassing

/-- A directed graph whose nodes and arcs are kept in the order of insertion. -/
structure Digraph (α : Type) where
  /-- The nodes, each once. -/
  nodes : List α
  /-- The arcs, each once; their ends are nodes. -/
  arcs : List (α × α)

/-- A visit that is due. -/
inductive Visit (α : Type) where
  /-- Enters `target` along the arc from `source`. -/
  | enter (source target : α)
  /-- Leaves a node that was entered. -/
  | leave (a : α)
deriving DecidableEq

/-- What a walk finds. -/
structure Walk (α : Type) where
  /-- The nodes in the order in which they are left. -/
  order : List α
  /-- The arcs that lead to a node being walked, in the order in which they are met. -/
  back : List (α × α)

variable {α : Type} [DecidableEq α]

/-- Runs the visits that are due. -/
def walk (next : α → List α) (due : List (Visit α)) (unseen : List α) : Walk α :=
  match due with
  | [] => ⟨[], []⟩
  | .leave a :: rest =>
    let w := walk next rest unseen
    { w with order := a :: w.order }
  | .enter u v :: rest =>
    if v ∈ unseen then
      walk next ((next v).map (.enter v) ++ .leave v :: rest) (unseen.erase v)
    else
      let w := walk next rest unseen
      if .leave v ∈ rest then { w with back := (u, v) :: w.back } else w
termination_by (unseen.length, due.length)
decreasing_by
  · exact Prod.Lex.right _ (by simp)
  · rename_i h
    simp only [List.length_erase_of_mem h]
    have := List.length_pos_of_mem h
    exact Prod.Lex.left _ _ (by omega)
  · exact Prod.Lex.right _ (by simp)

namespace Digraph

/-- The graph of a list of nodes and a list of arcs, whose ends are added as they appear. -/
def ofArcs (nodes : List α) (arcs : List (α × α)) : Digraph α where
  nodes := distinct (nodes ++ arcs.flatMap fun a => [a.1, a.2])
  arcs := distinct arcs

/-- The nodes that arcs from a node lead to, in the order of the arcs. -/
def successors (d : Digraph α) (a : α) : List α :=
  (d.arcs.filter (·.1 = a)).map (·.2)

/-- The depth-first walk from every node in order. -/
def postOrder (d : Digraph α) : Walk α :=
  walk d.successors (d.nodes.map fun a => .enter a a) d.nodes

end Digraph

end MessagePassing
