import MessagePassing.Graph.Cluster
import MessagePassing.Traversal.Explore

/-!
# Closures and components

A function of its inputs adds no approximation, so a set of edges may grow through deterministic
nodes; only soft nodes cut it. The closure of a set is what it grows to, within an optional limit.
Growing through all nodes within a set gives the connected components of that set.

* `Graph.closure` is the closure as an ascending list, `Graph.knownClosure` that of seeds that lead
  only to nodes that exist.
* `Graph.components` lists the components of a set in the order of their smallest edges.

Specification: sections 3 and 4.1 (`extend`).
-/

namespace MessagePassing.Graph

variable (g : Graph)

/-- Whether a set may grow through a node: always, or only if the node is deterministic. -/
def passes (stopAtSoft : Bool) (n : Node) : Bool :=
  !stopAtSoft || n.deterministic

/-- The edges that a set grows by at one of its edges. An empty limit is no limit. -/
def neighbours (stopAtSoft : Bool) (limit : List EdgeId) (e : EdgeId) : List EdgeId :=
  (((g.endNodes e).filterMap (g.nodes[·]?)).filter (passes stopAtSoft)).flatMap fun n =>
    (g.edgesAt n.id).filter fun f => limit = [] ∨ f ∈ limit

/-- The closure of a set of edges. -/
def closure (stopAtSoft : Bool) (limit seeds : List EdgeId) : List EdgeId :=
  let all := List.range g.edges.length
  let reached := explore (g.neighbours stopAtSoft limit) seeds all
  all.filter (· ∈ reached)

/-- The closure of a set of edges that exist; so have to do the nodes at the ends of every edge that
is reached. -/
def knownClosure (stopAtSoft : Bool) (limit seeds : List EdgeId) :
    Except Failure (List EdgeId) := do
  let reached ← g.withEdges seeds (g.closure stopAtSoft limit seeds)
  g.withEnds reached reached

/-- The components of a set of edges that the edges of a list lie in. -/
def componentsFrom (whole : List EdgeId) : List EdgeId → List (List EdgeId)
  | [] => []
  | e :: rest =>
    let c := g.closure false whole [e]
    c :: componentsFrom whole (rest.removeAll c)
termination_by l => l.length
decreasing_by
  simp only [List.length_cons, List.removeAll]
  exact Nat.lt_succ_of_le (List.length_filter_le _ _)

/-- The connected components of an ascending list of edges. -/
def components (edges : List EdgeId) : List (List EdgeId) :=
  g.componentsFrom edges edges

end MessagePassing.Graph
