import MessagePassing.Posterior

/-!
# Views of a block

What a drawing of a block shows: the nodes that the block touches, the edges inside it and at its
border, and the messages of its schedule. Drawing tools take the view as an undirected multigraph
whose edges list the places of the messages that run along them; dangling edges have only one end
and are left out.

Specification: section 11 (`subgraph_view`, `to_networkx`).
-/

namespace MessagePassing

/-- A block as it is drawn. -/
structure View where
  /-- The nodes that the block touches. -/
  nodes : List NodeId
  /-- The edges of the block. -/
  internal : List EdgeId
  /-- The edges at its border. -/
  external : List EdgeId
  /-- The scheduled messages. -/
  schedule : List ScheduleEntry

/-- An edge as it is drawn. -/
structure DrawnEdge where
  /-- The edge. -/
  id : EdgeId
  /-- The node at the tail. -/
  tail : NodeId
  /-- The node at the head. -/
  head : NodeId
  /-- The variable. -/
  owner : String
  /-- Whether the edge lies in the block. -/
  internal : Bool
  /-- The places of the messages along the edge, in the order of the schedule. -/
  messages : List Int

/-- An undirected multigraph of nodes and edges. -/
structure Drawing where
  /-- The nodes, by number. -/
  nodes : List Node
  /-- The edges, by number. -/
  edges : List DrawnEdge

/-- The view of a block. -/
def Block.view (b : Block) (g : Graph) : View where
  nodes := g.nodesOfEdges b.internal
  internal := b.internal
  external := g.externalEdges b.internal
  schedule := b.schedule

namespace View

variable (v : View) (g : Graph)

/-- The places of the messages along an edge. -/
def messagesAlong (e : EdgeId) : List Int :=
  (v.schedule.filter fun s => g.edgeAt? s.interface = some e).map (·.place)

/-- An edge as it is drawn, unless it dangles. -/
def drawEdge? (e : EdgeId) : Option DrawnEdge := do
  let edge ← g.edges[e]?
  let tail ← g.nodeOf? edge.tail
  let head ← g.nodeOf? (← edge.head)
  return {
    id := e
    tail := tail.id
    head := head.id
    owner := edge.owner
    internal := e ∈ v.internal
    messages := v.messagesAlong g e }

/-- The view as a multigraph; all nodes at the ends of its edges have to exist. -/
def draw : Except Failure Drawing := do
  let nodes ← (Ascending.ofList (v.nodes ++ g.nodesOfEdges v.external)).mapM g.node
  return {
    nodes
    edges := (Ascending.ofList (v.internal ++ v.external)).filterMap (v.drawEdge? g) }

end View

end MessagePassing
