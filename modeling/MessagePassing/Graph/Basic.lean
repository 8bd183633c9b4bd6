import MessagePassing.Table
import MessagePassing.Tensor

/-!
# Factor graphs

A factor graph has nodes with an ordered list of interfaces, and edges that join two interfaces of
different nodes or leave one interface dangling. Every edge belongs to a variable, a named group of
edges. Nodes, interfaces and edges are numbered in the order of their creation and refer to each
other by number.

* Functions ending in `?` answer `none` for a number that does not exist, or an interface that is
  not bound.
* `Graph.partner`, `Graph.edgeAt` and the other functions into `Except` say why there is no answer.

Specification: section 2 (`FactorGraph`, `Node`, `Interface`, `Edge`, `Variable`, `partner`,
`interface_label`).
-/

namespace MessagePassing

/-- The number of a node. -/
abbrev NodeId := Nat

/-- The number of an interface. -/
abbrev InterfaceId := Nat

/-- The number of an edge. -/
abbrev EdgeId := Nat

/-- A factor of the model. -/
structure Node where
  /-- The place among the nodes. -/
  id : NodeId
  /-- The unique name. -/
  name : String
  /-- The kind that update rules are looked up by. -/
  kind : String
  /-- The interfaces, in order. -/
  interfaces : List InterfaceId
  /-- Whether the factor is a function of its inputs, so that it adds no approximation. -/
  deterministic : Bool
  /-- Whether the function has an inverse that is known. -/
  inverseKnown : Bool
  /-- The observed value, if the node is a clamp. -/
  observed : Option Tensor
  /-- The dimensions of the variables of the node. -/
  dims : List Int
  /-- Whether the interfaces are interchangeable. -/
  symmetric : Bool

/-- Whether the node holds an observed value. -/
def Node.isClamp (n : Node) : Bool :=
  n.observed.isSome

/-- A place where an edge can be joined to a node. -/
structure Interface where
  /-- The place among the interfaces. -/
  id : InterfaceId
  /-- The node that owns the interface. -/
  node : NodeId
  /-- The position at that node. -/
  position : Nat
  /-- The name of the position, if it has one. -/
  handle : Option String
  /-- The edge, once there is one. -/
  edge : Option EdgeId := none
  /-- The interface at the other end of the edge; none if the edge dangles. -/
  partner : Option InterfaceId := none

/-- A join of two interfaces, or a dangling end. -/
structure Edge where
  /-- The place among the edges. -/
  id : EdgeId
  /-- The interface that sends the forward message. -/
  tail : InterfaceId
  /-- The interface that sends the backward message; none if the edge dangles. -/
  head : Option InterfaceId
  /-- The variable that the edge belongs to. -/
  owner : String
  /-- The type that marginals of the edge have to match, if one is declared. -/
  declared : Option TypeTerm

/-- The interfaces at the ends of an edge, the tail first. -/
def Edge.ends (e : Edge) : List InterfaceId :=
  e.tail :: e.head.toList

/-- A factor graph. -/
structure Graph where
  /-- The nodes, by number. -/
  nodes : List Node := []
  /-- The interfaces, by number. -/
  interfaces : List Interface := []
  /-- The edges, by number. -/
  edges : List Edge := []
  /-- The edges of each variable, oldest first. -/
  variableEdges : Table String (List EdgeId) := ∅
  /-- The node of each name. -/
  names : Table String NodeId := ∅

/-- The entry at a place, which has to exist. -/
def entryAt {α : Type} (l : List α) (i : Nat) : Except Failure α :=
  match l[i]? with
  | some a => .ok a
  | none => .error .outOfRange

/-- The entry at a position; a negative position counts from the end. -/
def entryAtOffset {α : Type} (l : List α) (i : Int) : Except Failure α :=
  if 0 ≤ i then entryAt l i.toNat
  else if -i ≤ l.length then entryAt l (l.length - (-i).toNat)
  else .error .outOfRange

namespace Graph

variable (g : Graph)

instance : EmptyCollection Graph := ⟨{}⟩

/-! ## Look-up that may find nothing -/

/-- The node that owns an interface. -/
def nodeOf? (i : InterfaceId) : Option Node :=
  (g.interfaces[i]?).bind fun x => g.nodes[x.node]?

/-- The edge at an interface. -/
def edgeAt? (i : InterfaceId) : Option EdgeId :=
  (g.interfaces[i]?).bind (·.edge)

/-- The interface at the other end of the edge. -/
def partner? (i : InterfaceId) : Option InterfaceId :=
  (g.interfaces[i]?).bind (·.partner)

/-- The position of an interface at its node. -/
def position? (i : InterfaceId) : Option Nat :=
  (g.interfaces[i]?).map (·.position)

/-- How an interface is called in messages: its position and handle, and the node. -/
def label? (i : InterfaceId) : Option String := do
  let x ← g.interfaces[i]?
  let n ← g.nodes[x.node]?
  let handle := match x.handle with
    | none | some "" => ""
    | some h => s!" ({h})"
  return s!"Interface {x.position}{handle} of {n.kind} {n.name}"

/-! ## Look-up that fails for a reason -/

/-- The node with a number. -/
def node (n : NodeId) : Except Failure Node :=
  entryAt g.nodes n

/-- The edge with a number. -/
def edge (e : EdgeId) : Except Failure Edge :=
  entryAt g.edges e

/-- The node of a name. -/
def nodeNamed (name : String) : Except Failure Node :=
  match g.names.get? name with
  | some n => g.node n
  | none => .error (.missing name)

/-- The node that owns an interface. -/
def nodeOf (i : InterfaceId) : Except Failure Node :=
  match g.nodeOf? i with
  | some n => .ok n
  | none => .error .outOfRange

/-- How an interface is called in messages. -/
def label (i : InterfaceId) : Except Failure String :=
  match g.label? i with
  | some l => .ok l
  | none => .error .outOfRange

/-- The failure of an interface that lacks an edge or a partner. -/
def notConnected (i : InterfaceId) : Failure :=
  match g.label? i with
  | some l => .notConnected l
  | none => .outOfRange

/-- The interface at the other end of the edge. -/
def partner (i : InterfaceId) : Except Failure InterfaceId :=
  match g.partner? i with
  | some j => .ok j
  | none => .error (g.notConnected i)

/-- The edge at an interface. -/
def edgeAt (i : InterfaceId) : Except Failure EdgeId :=
  match g.edgeAt? i with
  | some e => .ok e
  | none => .error (g.notConnected i)

/-- The interface at a position of a node; a negative number or position counts from the end. -/
def interfaceOf (n position : Int) : Except Failure InterfaceId := do
  entryAtOffset (← entryAtOffset g.nodes n).interfaces position

/-- The edges of a variable. -/
def edgesOf (x : String) : List EdgeId :=
  (g.variableEdges.get? x).getD []

/-- The variable of an edge. -/
def ownerOf? (e : EdgeId) : Option String :=
  (g.edges[e]?).map (·.owner)

/-- The type declared for an edge. -/
def declared? (e : EdgeId) : Option TypeTerm :=
  (g.edges[e]?).bind (·.declared)

/-- The sizes of the graph in words. -/
def summary : String :=
  s!"FactorGraph(nodes={g.nodes.length}, edges={g.edges.length}, "
    ++ s!"variables={g.variableEdges.size})"

end Graph

end MessagePassing
