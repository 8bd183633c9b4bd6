import MessagePassing.Graph.Closure
import MessagePassing.Schedule.Entry

/-!
# Blocks of a posterior

A block is one factor of the factorized posterior: the variables that are treated jointly, the edges
that they reach through deterministic nodes, and the clusters that it forms where it borders on the
rest of the model. Its schedule and its marginal table are empty until it is compiled.

* `Block.ofVariables` is the block of a list of variables.

Specification: sections 4 and 4.2 (`RecognitionFactor`).
-/

namespace MessagePassing

/-- A factor of the posterior. -/
structure Block where
  /-- The unique name. -/
  id : String
  /-- The requested variables and those of the edges at the border, ascending. -/
  scope : List String := []
  /-- The edges of the block, ascending. -/
  internal : List EdgeId := []
  /-- The nodes where the block meets other edges, ascending. -/
  boundary : List NodeId := []
  /-- The clusters at these nodes, ascending. -/
  clusters : List Cluster := []
  /-- The messages in the order of execution. -/
  schedule : List ScheduleEntry := []
  /-- The interfaces whose messages are read before they are computed, ascending. -/
  loopBreakers : List InterfaceId := []
  /-- The pairs of an interface and one whose message it reads. -/
  arcs : List (InterfaceId × InterfaceId) := []
  /-- The marginals. -/
  marginalTable : List MarginalEntry := []
  /-- Whether a clamped value is estimated anew. -/
  reestimates : Bool := false
  /-- Whether a message has to be seeded. -/
  needsSeeds : Bool := false
  /-- The interfaces of the schedule that was assembled last, ascending. -/
  assembledInterfaces : List InterfaceId := []
  /-- The targets of the marginal table that was assembled last, ascending. -/
  assembledTargets : List Target := []
  /-- Whether the block can be run. -/
  runnable : Bool := false

namespace Block

instance : Inhabited Block := ⟨{ id := "" }⟩

/-- The edges of a set at its border. -/
def boundaryEdges (g : Graph) (internal : List EdgeId) : List EdgeId :=
  (g.edgesOfNodes (g.boundaryNodes internal)).filter (· ∈ internal)

/-- The block of a set of edges with the variables that it was asked for. -/
def ofEdges (g : Graph) (id : String) (requested : List String) (internal : List EdgeId) : Block :=
  let boundary := g.boundaryNodes internal
  { id
    scope :=
      Ascending.ofList (requested ++ (boundaryEdges g internal).filterMap g.ownerOf?)
    internal
    boundary
    clusters := Ascending.ofList (g.clusters internal boundary) }

/-- The block of a list of variables; no variables give a block without edges. -/
def ofVariables (g : Graph) (id : String) (requested : List String) : Except Failure Block :=
  if requested = [] then .ok { id }
  else do
    let edges ← g.edgesOfVariables requested
    return ofEdges g id requested (← g.knownClosure true [] edges)

variable (b : Block)

/-- Whether the block has no edges. -/
def isEmpty : Bool :=
  b.internal.isEmpty

/-- The entry of the schedule for an interface. -/
def find? (i : InterfaceId) : Option ScheduleEntry :=
  b.schedule.find? (·.interface = i)

/-- The written form of a block. -/
def render : String :=
  s!"RecognitionFactor({Text.quoted b.id}, variables="
    ++ Text.list (b.scope.map Text.quoted) ++ ")"

end Block

end MessagePassing
