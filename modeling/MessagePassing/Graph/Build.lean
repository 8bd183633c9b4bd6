import MessagePassing.Graph.Basic

/-!
# Building a factor graph

Nodes are added with fresh interfaces and a unique name, and edges join interfaces that have none.
What a caller leaves out is filled in: a node is named for its kind and number, an edge gets a
variable named for its number.

* `Graph.addNode` checks the request first, and reads the value last: nested lists that describe no
  array are refused when the interfaces are already there.
* `Graph.addClamp` reads the value first, so a refused value changes nothing.
* `Graph.connect` changes the graph only if both ends can be joined.

Specification: section 2 (`add_node`, `add_clamp`, `connect`, `first_free_interface`).
-/

namespace MessagePassing

/-- A node to be added. -/
structure NodeRequest where
  /-- The kind that update rules are looked up by. -/
  kind : String
  /-- The number of interfaces. -/
  interfaces : Int
  /-- The name; one is made up if there is none. -/
  name : Option String := none
  /-- Whether the factor is a function of its inputs. -/
  deterministic : Bool := false
  /-- Whether the function has an inverse that is known. -/
  inverseKnown : Bool := true
  /-- The observed value, if the node is a clamp. -/
  value : Option Nested := none
  /-- The dimensions of the variables of the node. -/
  dims : List Int := []
  /-- Names for the positions. -/
  handles : Option (List String) := none
  /-- Whether the interfaces are interchangeable. -/
  symmetric : Bool := false

/-- How a caller refers to an interface. -/
inductive InterfaceRef where
  /-- By its number. -/
  | numbered (interface : Int)
  /-- As the first free interface of a node whose interfaces are interchangeable. A negative number
  counts from the last node. -/
  | anyFree (node : Int)
  /-- By the name of its node and its position there. -/
  | named (node : String) (position : Int)

namespace Graph

variable (g : Graph)

/-! ## Nodes -/

/-- The name of a requested node, if the request can be met. -/
def checkedName (r : NodeRequest) : Except Failure String := do
  if r.interfaces < 1 then throw (.noInterface r.kind)
  if let some handles := r.handles then
    if (handles.length : Int) ≠ r.interfaces then
      throw (.handleCount r.kind handles.length r.interfaces)
  let name := r.name.getD s!"{r.kind}_{g.nodes.length}"
  if g.names.contains name then throw (.duplicateName name)
  return name

/-- The interfaces of a requested node. -/
def freshInterfaces (r : NodeRequest) : List Interface :=
  (List.range r.interfaces.toNat).map fun p =>
    { id := g.interfaces.length + p
      node := g.nodes.length
      position := p
      handle := r.handles.bind (·[p]?) }

/-- A requested node, with a name and a value. -/
def freshNode (r : NodeRequest) (name : String) (observed : Option Tensor) : Node where
  id := g.nodes.length
  name := name
  kind := r.kind
  interfaces := (g.freshInterfaces r).map (·.id)
  deterministic := r.deterministic
  inverseKnown := r.inverseKnown
  observed := observed
  dims := r.dims
  symmetric := r.symmetric

/-- Adds a node and answers its number. -/
def addNode (r : NodeRequest) : Attempt Graph NodeId := fun g =>
  match g.checkedName r with
  | .error e => .error e g
  | .ok name =>
    let grown := { g with interfaces := g.interfaces ++ g.freshInterfaces r }
    match r.value.mapM Tensor.ofNested with
    | .error e => .error e grown
    | .ok observed =>
      .ok g.nodes.length
        { grown with
          nodes := g.nodes ++ [g.freshNode r name observed]
          names := g.names.insert name g.nodes.length }

/-- Adds an observed value as a node with one interface, and answers its number. -/
def addClamp (value : Nested) (name : Option String) : Attempt Graph NodeId := do
  let observed ← Tensor.ofNested value
  addNode
    { kind := "clamp", interfaces := 1, name, deterministic := true, value := some value
      dims := observed.shape.map Int.ofNat }

/-! ## Edges -/

/-- The first free interface of a node whose interfaces are interchangeable. -/
def firstFree (n : Int) : Except Failure InterfaceId := do
  let node ← entryAtOffset g.nodes n
  if !node.symmetric then throw (.notSymmetric node.kind node.name)
  match node.interfaces.find? fun i => g.edgeAt? i = none with
  | some i => return i
  | none => throw (.noFreeInterface node.name)

/-- The interface that a caller refers to. -/
def locate : InterfaceRef → Except Failure InterfaceId
  | .anyFree n => g.firstFree n
  | .named name position => do entryAtOffset (← g.nodeNamed name).interfaces position
  | .numbered i =>
    if 0 ≤ i ∧ i.toNat < g.interfaces.length then .ok i.toNat else .error (.unknownInterface i)

/-- The number of the node that an interface was made for. -/
def nodeIdOf? (i : InterfaceId) : Option NodeId :=
  (g.interfaces[i]?).map (·.node)

/-- Refuses to join two interfaces of one node, and interfaces that have an edge. -/
def checkJoin (tail : InterfaceId) (head : Option InterfaceId) : Except Failure Unit := do
  if head.any fun h => g.nodeIdOf? h = g.nodeIdOf? tail then
    let node ← g.nodeOf tail
    throw (.sameNode node.kind node.name)
  if (g.edgeAt? tail).isSome || head.any fun h => (g.edgeAt? h).isSome then throw .alreadyBound

/-- The interfaces that an edge is asked to join, if it may. The tail is looked up first. -/
def joinedEnds (tail : InterfaceRef) (head : Option InterfaceRef) :
    Except Failure (InterfaceId × Option InterfaceId) := do
  let t ← g.locate tail
  let h ← head.mapM g.locate
  g.checkJoin t h
  return (t, h)

/-- The graph with two interfaces joined, or one left dangling. -/
def join (tail : InterfaceId) (head : Option InterfaceId) (owner : String)
    (declared : Option TypeTerm) : Graph :=
  let e := g.edges.length
  let bound := g.interfaces.modify tail fun x => { x with edge := some e, partner := head }
  { g with
    edges := g.edges ++ [{ id := e, tail, head, owner, declared }]
    interfaces :=
      match head with
      | none => bound
      | some h => bound.modify h fun x => { x with edge := some e, partner := some tail }
    variableEdges := g.variableEdges.insert owner (g.edgesOf owner ++ [e]) }

/-- Joins two interfaces, or leaves one dangling, and answers the number of the edge. -/
def connect (tail : InterfaceRef) (head : Option InterfaceRef) (owner : Option String)
    (declared : Option TypeTerm) : Attempt Graph EdgeId := fun g =>
  match g.joinedEnds tail head with
  | .error e => .error e g
  | .ok (t, h) =>
    .ok g.edges.length (g.join t h (owner.getD s!"x_{g.edges.length}") declared)

end Graph

end MessagePassing
