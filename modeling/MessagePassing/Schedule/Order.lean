import MessagePassing.Block.Basic
import MessagePassing.Traversal.PostOrder

/-!
# The order of messages

To compute the message of an interface, a block needs the messages that arrive at the node through
its other edges. Following these dependencies from the variables of the block gives a directed
graph, and its depth-first post-order is the schedule. Where a dependency closes a cycle, its
producer is a loop breaker: it is read before it is computed, and so needs a seed.

* `Block.dependencies` lists the messages that an update reads, `Block.ruleType` says how it is
  computed.
* `Block.withSchedule` puts the schedule into a block. It fails if the block is empty, or if a node
  on the way does not exist or has an interface without an edge.

Specification: sections 4.4 and 7 (`generate_schedule`, `loop_breakers`, `constrain`).
-/

namespace MessagePassing

namespace Graph

variable (g : Graph)

/-- Whether an update reads the message that it answers: always in expectation propagation, and at
the second interface of a function without known inverse. -/
def needsOwnInbound (i : InterfaceId) (r : RuleType) : Bool :=
  r = .expectationPropagation
    || (g.nodeOf? i).any (fun n => !n.inverseKnown) && g.position? i = some 1

/-- Whether an update reads the message that it answers; the interface is looked up if it
matters. -/
def needsOwnInboundAt (i : InterfaceId) (r : RuleType) : Except Failure Bool :=
  if r = .expectationPropagation then .ok true
  else (g.nodeOf i).map fun _ => g.needsOwnInbound i r

/-- The interfaces of the node that owns an interface. -/
def siblings (i : InterfaceId) : List InterfaceId :=
  ((g.nodeOf? i).map (·.interfaces)).getD []

/-- Refuses a list of interfaces one of which has no edge. -/
def checkBound (l : List InterfaceId) : Except Failure Unit :=
  match l.find? fun i => g.edgeAt? i = none with
  | some i => .error (g.notConnected i)
  | none => .ok ()

end Graph

namespace Block

variable (b : Block) (g : Graph)

/-- Whether an interface is bound to an edge of the block. -/
def covers (i : InterfaceId) : Bool :=
  (g.edgeAt? i).any (· ∈ b.internal)

/-- The type of the update that computes the message of an interface, at nodes without free
interfaces: soft nodes on the border of the block read marginals. -/
def ruleType (sites : List InterfaceId) (i : InterfaceId) : RuleType :=
  if i ∈ sites then .expectationPropagation
  else if (g.nodeOf? i).any (·.deterministic) then .sumProduct
  else if (g.siblings i).all (b.covers g) then .sumProduct
  else .variational

/-- The type of the update for an interface. At a soft node, the first interface that is not bound
inside the block decides, and has to be bound at all. -/
def ruleTypeAt (sites : List InterfaceId) (i : InterfaceId) : Except Failure RuleType :=
  if i ∈ sites then .ok .expectationPropagation
  else do
    let node ← g.nodeOf i
    if node.deterministic then return .sumProduct
    match node.interfaces.find? fun j => !b.covers g j with
    | none => return .sumProduct
    | some j => (g.edgeAt j).map fun _ => .variational

/-- The message that an update for interface `i` reads through interface `j` of the same node: the
one that the partner sends, if the edge is internal and not dangling. -/
def dependency? (r : RuleType) (i j : InterfaceId) : Option InterfaceId :=
  if b.covers g j && (j ≠ i || g.needsOwnInbound i r) then g.partner? j else none

/-- The interfaces whose messages an update reads, in interface order. -/
def dependencies (r : RuleType) (i : InterfaceId) : List InterfaceId :=
  (g.siblings i).filterMap (b.dependency? g r i)

/-- The interfaces whose messages an update reads; every interface of the node has to be bound. -/
def dependenciesAt (r : RuleType) (i : InterfaceId) : Except Failure (List InterfaceId) := do
  let node ← g.nodeOf i
  g.checkBound node.interfaces
  return b.dependencies g r i

/-- The interfaces that a schedule is made for: the ends of every edge of every variable. -/
def targets : List InterfaceId :=
  distinct (b.scope.flatMap fun x => (g.edgesOf x).flatMap g.ends)

/-- The interfaces whose messages the update of an interface reads. -/
def reads (sites : List InterfaceId) (i : InterfaceId) : List InterfaceId :=
  b.dependencies g (b.ruleType g sites i) i

/-- The interfaces that the targets lead to, in the order in which they are looked at: the latest
discovery first. -/
def discovered (sites : List InterfaceId) : List InterfaceId :=
  explore (fun i => (b.reads g sites i).reverse) (b.targets g).reverse
    (List.range g.interfaces.length)

/-- The graph with an arc from each interface to those whose messages it reads. -/
def dependencyGraph (sites : List InterfaceId) : Digraph InterfaceId :=
  .ofArcs (b.targets g)
    ((b.discovered g sites).flatMap fun i => (b.reads g sites i).map (i, ·))

/-- The entry that computes the message of an interface, still unresolved. -/
def freshEntry (sites : List InterfaceId) (i : InterfaceId) : ScheduleEntry where
  interface := i
  node := ((g.nodeOf? i).map (·.id)).getD 0
  position := (g.position? i).getD 0
  ruleType := b.ruleType g sites i

/-- The block with a schedule, in place of any that it had. -/
def withSchedule (sites : List InterfaceId) : Except Failure Block := do
  if b.isEmpty then throw (.emptyBlock b.id)
  (b.discovered g sites).forM fun i => do g.checkBound (← g.nodeOf i).interfaces
  let d := b.dependencyGraph g sites
  let w := d.postOrder
  return { b with
    schedule := w.order.map (b.freshEntry g sites)
    loopBreakers := Ascending.ofList (w.back.map (·.2))
    arcs := d.arcs }

/-- Sets what a caller wants of the message of a scheduled interface, and answers the entry. -/
def constrain (i : Int) (type : Option TypeTerm) (method : Option String) :
    Attempt Block ScheduleEntry := fun b =>
  match b.schedule.find? fun e => Int.ofNat e.interface = i with
  | none => .error (.notScheduled i b.id) b
  | some e =>
    let e := { e with constraint := type, method }
    .ok e { b with
      schedule := b.schedule.map fun f => if f.interface = e.interface then e else f }

end Block

end MessagePassing
