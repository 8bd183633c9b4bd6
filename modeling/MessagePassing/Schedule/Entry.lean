import MessagePassing.Graph.Cluster
import MessagePassing.Rule.Basic
import MessagePassing.Value.Vague

/-!
# Entries of a compiled block

A compiled block is a list of schedule entries, one per message, followed by a table of marginal
entries, one per variable and cluster. An entry is filled in three steps: the schedule fixes what is
computed, the assembly resolves the rule and the sources of its arguments, and some entries get a
seed, so that a cyclic computation has something to start from.

* `Source` says where an argument comes from.
* `Phase` is the life of a seed: it is laid once, and the first update after that ends it.

Specification: sections 7 and 9 (`ScheduleEntry`, `MarginalEntry`, `Inbound`, `Breaker`).
-/

namespace MessagePassing

/-- Where an argument of an update comes from. -/
inductive Source where
  /-- Nowhere: the place that the update computes, or a dangling edge. -/
  | nothing
  /-- The message that an interface sends. -/
  | message (i : InterfaceId)
  /-- The marginal of a target. -/
  | marginal (t : Target)
  /-- The observed value of a clamp. -/
  | constant (n : NodeId)
deriving DecidableEq

/-! ## Seeds -/

/-- Why a message is seeded. -/
inductive SeedReason where
  /-- An update that reads the message it answers. -/
  | expectation
  /-- A function without known inverse, which is linearised around the message. -/
  | nonlinear
  /-- A message toward a clamp. -/
  | clamp
  /-- A cycle of messages. -/
  | loop
  /-- Another reason, in the words of a caller. -/
  | other (text : String)
deriving DecidableEq

/-- The written name of a reason. -/
def SeedReason.name : SeedReason → String
  | .expectation => "expectation"
  | .nonlinear => "nonlinear"
  | .clamp => "clamp"
  | .loop => "loop"
  | .other text => text

/-- The reason of a name. -/
def SeedReason.ofName : String → SeedReason
  | "expectation" => .expectation
  | "nonlinear" => .nonlinear
  | "clamp" => .clamp
  | "loop" => .loop
  | text => .other text

/-- The flat value that a message starts from. -/
structure Seed where
  /-- The family. -/
  family : String
  /-- The dimensions. -/
  dims : List Int
  /-- Why the message is seeded. -/
  reason : SeedReason
  /-- The number of factors, if the value is made of factors. -/
  factors : Option TypeTerm := none
deriving DecidableEq

namespace Seed

/-- The seed of a message of a type, with given dimensions. -/
def ofType (t : TypeTerm) (dims : List Int) (reason : SeedReason) : Seed :=
  ⟨t.family, dims, reason, t.count?⟩

/-- The value of a seed. -/
def value (o : Options) (s : Seed) : Except Failure Value :=
  match s.factors with
  | none => Value.vague o s.family s.dims
  | some (.num n) =>
    if n ≤ 0 then .error .noFactors
    else (Value.vague o s.family s.dims).map fun v => .parts (List.replicate n.toNat v)
  | some _ => .error .illTyped

end Seed

/-- How far a seed has come. -/
inductive Phase where
  /-- The seed is still to be laid. -/
  | uninitialized
  /-- The seed lies where the message will be. -/
  | seeded
  /-- The message has been updated. -/
  | iterating
deriving DecidableEq

namespace Phase

/-- The written name of a phase. -/
def name : Phase → String
  | uninitialized => "UNINITIALIZED"
  | seeded => "SEEDED"
  | iterating => "ITERATING"

/-- The phase in running text. -/
def word : Phase → String
  | uninitialized => "uninitialized"
  | seeded => "seeded"
  | iterating => "iterating"

/-- Lays the seed, which is done once. -/
def seed : Phase → Except Failure Phase
  | uninitialized => .ok seeded
  | p => .error (.seedTwice p.word)

/-- Records an update, which needs a seed before it. -/
def advance : Phase → Except Failure Phase
  | uninitialized => .error .updateBeforeSeed
  | _ => .ok iterating

end Phase

/-! ## Entries -/

/-- The computation of one message. -/
structure ScheduleEntry where
  /-- The interface that sends the message. -/
  interface : InterfaceId
  /-- The node that owns it. -/
  node : NodeId
  /-- Its position at the node. -/
  position : Nat
  /-- The type of the update. -/
  ruleType : RuleType
  /-- A pattern for the type of the message, set by a caller. -/
  constraint : Option TypeTerm := none
  /-- A method of approximation, set by a caller. -/
  method : Option String := none
  /-- The types that arrive. -/
  inboundTypes : List TypeTerm := []
  /-- The type of the message, once resolved. -/
  outbound : Option TypeTerm := none
  /-- The method of the rule, if it is approximate. -/
  approximation : Option String := none
  /-- The rule, once resolved; an observed value has none. -/
  rule : Option Rule := none
  /-- Whether the rule works on factors one by one. -/
  oneByOne : Bool := false
  /-- Where the arguments come from. -/
  inbounds : List Source := []
  /-- The place in the order of execution, once assembled. -/
  order : Option Nat := none
  /-- The seed of the message, if it has one. -/
  seed : Option Seed := none

namespace ScheduleEntry

/-- The place in the order of execution; `-1` before the entry is assembled. -/
def place (e : ScheduleEntry) : Int :=
  match e.order with
  | some i => i
  | none => -1

/-- The written form of an entry. -/
def render (e : ScheduleEntry) : String :=
  s!"ScheduleEntry(#{e.place}, iface={e.interface}, {e.ruleType.name}, out="
    ++ Text.optional (e.outbound.map (·.render)) ++ ")"

end ScheduleEntry

/-- How a marginal is computed, and from which messages. -/
inductive MarginalPlan where
  /-- As a copy of one message. -/
  | copy (i : InterfaceId)
  /-- As the product of two messages. -/
  | product (first second : InterfaceId)
  /-- By a rule at a node, from the messages that arrive there. -/
  | joint (node : NodeId) (messages : List InterfaceId)
deriving DecidableEq

namespace MarginalPlan

/-- The interfaces whose messages take part. -/
def interfaces : MarginalPlan → List InterfaceId
  | copy i => [i]
  | product i j => [i, j]
  | joint _ l => l

/-- The node of a joint marginal. -/
def node? : MarginalPlan → Option NodeId
  | joint n _ => some n
  | _ => none

/-- Whether the marginal is that of a cluster. -/
def isJoint (p : MarginalPlan) : Bool :=
  p.node?.isSome

/-- The written name of a plan. -/
def name : MarginalPlan → String
  | copy _ => "NONE"
  | product .. => "PRODUCT"
  | joint .. => "GENERAL"

end MarginalPlan

/-- The computation of one marginal. -/
structure MarginalEntry where
  /-- What the marginal is about. -/
  target : Target
  /-- How it is computed. -/
  plan : MarginalPlan
  /-- The type of the marginal, once resolved. -/
  type : Option TypeTerm := none
  /-- The rule, once resolved; a copy has none. -/
  rule : Option Rule := none
  /-- Where the arguments come from. -/
  inbounds : List Source := []
  /-- Whether the type has been published to the other blocks. -/
  published : Bool := false

end MessagePassing
