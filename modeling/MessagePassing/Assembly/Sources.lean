import MessagePassing.Posterior
import MessagePassing.Schedule.Order

/-!
# Sources of arguments

An update at a node reads one argument per interface. Inside the block it is the message that the
partner sends, and outside it the marginal of the variable or cluster that another block has there,
or a constant if the other end is a clamp. The place that the update computes has no argument,
unless the update reads the message that it answers.

* `Posterior.sources` lists the sources of an update in interface order.
* `Posterior.sourceType` is the type of a source, as far as it is known.

Specification: section 9, step 2 (`Inbound`).
-/

namespace MessagePassing

/-- The type declared for an edge, if it is ground. -/
def Graph.groundType? (g : Graph) (e : EdgeId) : Option TypeTerm :=
  (g.declared? e).filter (·.isGround)

/-- The type declared for the oldest edge of a variable. -/
def Graph.oldestDeclared? (g : Graph) (x : String) : Option TypeTerm :=
  (g.edgesOf x).min?.bind g.declared?

namespace Posterior

variable (p : Posterior) (g : Graph)

/-- The source of the argument at interface `j` of node `n`, which has to be bound, for an update
that computes the message of `outbound`, or a joint marginal. -/
def sourceAt (internal : List EdgeId) (n : NodeId) (outbound : Option InterfaceId) (r : RuleType)
    (j : InterfaceId) : Except Failure Source := do
  let e ← g.edgeAt j
  if outbound = some j && !g.needsOwnInbound j r then return .nothing
  match g.partner? j with
  | none => return .nothing
  | some k =>
    if e ∈ internal then return .message k
    let far ← g.nodeOf k
    if far.isClamp then return .constant far.id
    return .marginal (p.marginalKey g n e)

/-- The sources of the arguments of an update, in interface order. -/
def sources (internal : List EdgeId) (n : NodeId) (outbound : Option InterfaceId) (r : RuleType) :
    Except Failure (List Source) := do
  (← g.node n).interfaces.mapM (p.sourceAt g internal n outbound r)

/-! ## Types of sources -/

/-- The type of the message of an interface: the resolved one, or the declared one while the message
is still to be computed. -/
def messageType (known : Table InterfaceId TypeTerm) (i : InterfaceId) :
    Except Failure TypeTerm :=
  match known.get? i with
  | some t => .ok t
  | none => do
    match g.groundType? (← g.edgeAt i) with
    | some t => return t
    | none => throw (.messageTypeUnknown (← g.label i))

/-- The type of a marginal that is read at a node: the settled one, or the declared one of a
variable. -/
def marginalType (n : NodeId) (t : Target) : Except Failure TypeTerm :=
  match p.marginalTypes.get? t, t with
  | some type, _ => .ok type
  | none, .variable x =>
    match (g.oldestDeclared? x).filter (·.isGround) with
    | some type => .ok type
    | none => unknown
  | none, .cluster _ => unknown
where
  unknown : Except Failure TypeTerm := do
    throw (.marginalTypeUnknown t.id (← g.node n).name)

/-- The type of a source. -/
def sourceType (known : Table InterfaceId TypeTerm) (n : NodeId) : Source → Except Failure TypeTerm
  | .nothing => .ok .void
  | .message i => (messageType g known i).map .message
  | .constant c => do
    let node ← g.node c
    return ((node.observed.map (·.pointMassType)).getD (.ofDims Value.pointMassFamily []))
  | .marginal t => p.marginalType g n t

end Posterior

end MessagePassing
