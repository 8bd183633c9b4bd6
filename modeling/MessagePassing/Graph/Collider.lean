import MessagePassing.Graph.Closure

/-!
# Colliders

A prior node puts one free variable into a block: only its first interface has an edge in the block.
Two prior nodes on the border of one component share an internal descendant, so their variables
depend on each other in the posterior of the block, which the factorization cannot say.

* `Graph.isPrior` tests a node against a set of edges.
* `Graph.hasCollider` tests the components of a set one by one, `Graph.hasColliderIn` does so up to
  the first one that does not exist.

Specification: sections 4.3 and 5 (`has_collider`).
-/

namespace MessagePassing.Graph

variable (g : Graph)

/-- Whether, of the edges at a node, just that of the first interface lies in a set. -/
def isPrior (edges : List EdgeId) (n : NodeId) : Bool :=
  match g.interfacesOf n with
  | [] => false
  | first :: rest =>
    (g.edgeAt? first).any (· ∈ edges) && rest.all fun i => !(g.edgeAt? i).any (· ∈ edges)

/-- The prior nodes on the border of a set of edges. -/
def borderPriors (edges : List EdgeId) : List NodeId :=
  (g.boundaryNodes edges).filter (g.isPrior edges)

/-- Whether more than one prior node lies on the border of a connected set of edges. -/
def componentHasCollider (edges : List EdgeId) : Bool :=
  1 < (g.borderPriors edges).length

/-- Whether a component of an ascending list of edges has a collider. -/
def hasCollider (edges : List EdgeId) : Bool :=
  (g.components edges).any g.componentHasCollider

/-- Whether one of several components has a collider. A component with a node that does not exist is
refused, unless a collider was found before it. -/
def findCollider : List (List EdgeId) → Except Failure Bool
  | [] => .ok false
  | c :: rest => do
    if ← g.withEnds c (g.componentHasCollider c) then return true else findCollider rest

/-- Whether a component has a collider, for a list of edges that may name missing ones: these come
last, and are refused only if no collider was found before them. -/
def hasColliderIn (edges : List EdgeId) : Except Failure Bool := do
  let sorted := Ascending.ofList edges
  let known := sorted.filter (· < g.edges.length)
  if ← g.findCollider (g.components known) then return true else g.withEdges sorted false

end MessagePassing.Graph
