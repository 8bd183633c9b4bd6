import MessagePassing.Ascending
import MessagePassing.Graph.Basic

/-!
# Incidence of nodes and edges

Which nodes a set of edges touches, which edges meet at a set of nodes, and where a set of edges
borders on the rest of the graph. Sets are ascending lists. An interface may carry the number of a
node that was never completed; no edges meet there.

* `Graph.externalEdges` are the edges outside a set that share a node with it.
* `Graph.boundaryNodes` are the nodes where edges inside and outside a set meet.
* `Graph.edgesAt` follows the order of interfaces, because update rules go by position.
* `Graph.withEdges`, `Graph.withNodes` and `Graph.withEnds` give an answer only about what exists.

Specification: sections 2 (`edges_of_variables`, `edges_of_nodes`, `nodes_of_edges`) and 3
(`nodes_connected_to_external_edges`).
-/

namespace MessagePassing.Graph

variable (g : Graph)

/-- The interfaces at the ends of an edge. -/
def ends (e : EdgeId) : List InterfaceId :=
  ((g.edges[e]?).map (·.ends)).getD []

/-- The numbers of the nodes at the ends of an edge, the tail's first. -/
def endNodes (e : EdgeId) : List NodeId :=
  (g.ends e).filterMap fun i => (g.interfaces[i]?).map (·.node)

/-- The interfaces of a node. -/
def interfacesOf (n : NodeId) : List InterfaceId :=
  ((g.nodes[n]?).map (·.interfaces)).getD []

/-- The edges at a node, in the order of its interfaces. -/
def edgesAt (n : NodeId) : List EdgeId :=
  (g.interfacesOf n).filterMap g.edgeAt?

/-- The nodes that a set of edges touches. -/
def nodesOfEdges (edges : List EdgeId) : List NodeId :=
  Ascending.ofList (edges.flatMap g.endNodes)

/-- The edges that meet a set of nodes. -/
def edgesOfNodes (nodes : List NodeId) : List EdgeId :=
  Ascending.ofList (nodes.flatMap g.edgesAt)

/-- The edges of a list of variables, all of which have to exist. -/
def edgesOfVariables (names : List String) : Except Failure (List EdgeId) :=
  match names.find? fun x => !g.variableEdges.contains x with
  | some x => .error (.unknownVariable x)
  | none => .ok (Ascending.ofList (names.flatMap g.edgesOf))

/-- The edges outside a set that share a node with it. -/
def externalEdges (internal : List EdgeId) : List EdgeId :=
  (g.edgesOfNodes (g.nodesOfEdges internal)).filter (· ∉ internal)

/-- The nodes where edges inside and outside a set meet. -/
def boundaryNodes (internal : List EdgeId) : List NodeId :=
  let touched := g.nodesOfEdges internal
  (g.nodesOfEdges (g.externalEdges internal)).filter (· ∈ touched)

/-- The edges of a set at a node, in the order of the interfaces. -/
def clusterEdges (n : NodeId) (internal : List EdgeId) : List EdgeId :=
  (g.edgesAt n).filter (· ∈ internal)

/-- An answer about edges, all of which have to exist. -/
def withEdges {α : Type} (edges : List EdgeId) (answer : α) : Except Failure α :=
  if edges.all (· < g.edges.length) then .ok answer else .error .outOfRange

/-- An answer about nodes, all of which have to exist. -/
def withNodes {α : Type} (nodes : List NodeId) (answer : α) : Except Failure α :=
  if nodes.all (· < g.nodes.length) then .ok answer else .error .outOfRange

/-- An answer about edges, all of which have to exist together with the nodes at their ends. -/
def withEnds {α : Type} (edges : List EdgeId) (answer : α) : Except Failure α := do
  g.withNodes (← g.withEdges edges (g.nodesOfEdges edges)) answer

end MessagePassing.Graph
