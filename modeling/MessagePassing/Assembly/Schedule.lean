import MessagePassing.Assembly.Sources
import MessagePassing.Rule.Resolution

/-!
# Resolving the schedule

The entries of a schedule are resolved in order, so that the types of the messages that an entry
reads are known when it is reached. Observed values need no rule. When an entry cannot be resolved,
it keeps what was found out about it, and the entries after it stay as they are.

* `ScheduleEntry.infer` resolves one entry, `Block.inferSchedule` the whole schedule.

Specification: section 9, step 1 of `assemble_algorithm`.
-/

namespace MessagePassing

/-- What the resolution of an entry depends on. -/
structure Surroundings where
  /-- The graph. -/
  graph : Graph
  /-- The rules. -/
  catalogue : Catalogue
  /-- What the blocks share. -/
  posterior : Posterior
  /-- The edges of the block. -/
  internal : List EdgeId

namespace ScheduleEntry

/-- The request that an entry poses, given the types that arrive at its node. -/
def request (e : ScheduleEntry) (node : Node) (types : List TypeTerm) : Request where
  key := ⟨node.kind, e.ruleType, some (Int.ofNat e.position)⟩
  inbounds := types
  node := some node
  constraint := e.constraint
  method := e.method

/-- The entry of an observed value. -/
def observed (e : ScheduleEntry) (value : Tensor) : ScheduleEntry :=
  { e with
    inbounds := [.nothing]
    inboundTypes := [.void]
    outbound := some value.pointMassType
    rule := none }

/-- The entry with the outcome of its resolution. -/
def resolved (e : ScheduleEntry) (r : Resolution) : ScheduleEntry :=
  { e with
    outbound := some r.outbound
    approximation := r.approximation
    rule := some r.rule
    oneByOne := r.oneByOne }

/-- Resolves the entry at a place of the order of execution, given the types of the messages that
come before it. -/
def infer (s : Surroundings) (known : Table InterfaceId TypeTerm) (place : Nat) :
    Attempt ScheduleEntry Unit := do
  modify fun e => { e with order := some place }
  let e ← get
  let node ← s.graph.node e.node
  match node.observed with
  | some value => modify (·.observed value)
  | none =>
    let sources ← s.posterior.sources s.graph s.internal e.node (some e.interface) e.ruleType
    modify fun e => { e with inbounds := sources }
    let types ← Attempt.ofExcept (sources.mapM (s.posterior.sourceType s.graph known e.node))
    modify fun e => { e with inboundTypes := types }
    let r ← s.catalogue.resolve (e.request node types)
    modify (·.resolved r)

end ScheduleEntry

/-- The types of the messages that a list of entries computes. -/
def messageTypes (entries : List ScheduleEntry) : Table InterfaceId TypeTerm :=
  Table.ofList (entries.filterMap fun e => e.outbound.map (e.interface, ·))

/-- Resolves a list of entries from a place on, given the types of the messages before it. -/
def inferEntries (s : Surroundings) (known : Table InterfaceId TypeTerm) (place : Nat) :
    List ScheduleEntry → EStateM.Result Failure (List ScheduleEntry) Unit
  | [] => .ok () []
  | e :: rest =>
    match ScheduleEntry.infer s known place e with
    | .error f e => .error f (e :: rest)
    | .ok () e =>
      let known := match e.outbound with
        | some t => known.insert e.interface t
        | none => known
      match inferEntries s known (place + 1) rest with
      | .ok () rest => .ok () (e :: rest)
      | .error f rest => .error f (e :: rest)

namespace Block

/-- The surroundings of a block. -/
def surroundings (b : Block) (g : Graph) (c : Catalogue) (p : Posterior) : Surroundings :=
  ⟨g, c, p, b.internal⟩

/-- Resolves the schedule of a block. -/
def inferSchedule (g : Graph) (c : Catalogue) (p : Posterior) : Attempt Block Unit := fun b =>
  match inferEntries (b.surroundings g c p) ∅ 0 b.schedule with
  | .ok () l => .ok () { b with schedule := l }
  | .error f l => .error f { b with schedule := l }

end Block

end MessagePassing
