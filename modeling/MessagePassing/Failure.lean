import MessagePassing.Rule.Call

/-!
# Why an operation fails

One constructor per cause. `Failure.kind` sorts the causes into the classes that callers tell apart,
and `Failure.message?` words them; a few causes have no wording of their own. `Attempt` is the shape
of an operation on a state that may fail part of the way: the state it has reached stays.

* `Attempt.within` runs an operation on a part of a state.

Specification: section 12 (`CompilerError`), and section 7 of the appendix (the taxonomy of errors).
-/

namespace MessagePassing

/-- The class of a failure. -/
inductive Failure.Kind where
  /-- A graph that breaks a structural rule. -/
  | structural
  /-- A block that the factorization may not have. -/
  | factorization
  /-- A computation that is not, or cannot be, scheduled. -/
  | scheduling
  /-- An interface without an edge. -/
  | notConnected
  /-- A computation without a rule or a type. -/
  | resolution
  /-- A computation that no rule applies to. -/
  | noRule
  /-- A computation with several possible types. -/
  | ambiguous
  /-- Factors that do not line up. -/
  | partition
  /-- A marginal whose type another block has yet to settle. -/
  | unresolvedMarginal
  /-- A value that an operation does not accept. -/
  | badValue
  /-- A seed used out of turn. -/
  | lifecycle
  /-- A name that is not bound. -/
  | missingKey
  /-- A position outside a sequence. -/
  | outOfRange
  /-- Values of kinds that do not go together. -/
  | illTyped
  /-- A division by zero. -/
  | zeroDivision
  /-- A number that is too large. -/
  | overflow
  /-- An array that does not fit the memory. -/
  | memory
deriving DecidableEq

/-- The cause of a failure. -/
inductive Failure where
  /-- A node without interfaces. -/
  | noInterface (kind : String)
  /-- Handles that do not fit the number of interfaces. -/
  | handleCount (kind : String) (handles : Nat) (interfaces : Int)
  /-- A second node of one name. -/
  | duplicateName (name : String)
  /-- A free interface asked of a node whose interfaces are not interchangeable. -/
  | notSymmetric (kind name : String)
  /-- A free interface asked of a node that has none left. -/
  | noFreeInterface (name : String)
  /-- An edge from a node to itself. -/
  | sameNode (kind name : String)
  /-- A second edge at an interface. -/
  | alreadyBound
  /-- An interface that does not exist. -/
  | unknownInterface (interface : Int)
  /-- Nested lists whose lengths do not agree. -/
  | ragged
  /-- Lists nested more deeply than arrays have dimensions. -/
  | tooDeep (limit : Nat)
  /-- An interface without an edge or without a partner. -/
  | notConnected (label : String)
  /-- The backward message of a dangling edge. -/
  | danglingBackward (edge : Nat)
  /-- A marginal type that the edge does not allow. -/
  | marginalForbidden (type : TypeTerm) (edge : Nat) (owner : String) (declared : TypeTerm)
  /-- A resolved marginal type that an edge of the variable does not allow. -/
  | declarationBroken (owner : String) (type : TypeTerm) (edge : Nat) (declared : TypeTerm)
  /-- A variable that the graph does not have. -/
  | unknownVariable (name : String)
  /-- A second block under one name. -/
  | duplicateBlock (block : String)
  /-- A block that contains a collider, where colliders are rejected. -/
  | collider (block : String)
  /-- A block without edges. -/
  | emptyBlock (block : String)
  /-- An interface without an entry in the schedule. -/
  | notScheduled (interface : Int) (block : String)
  /-- A seed for a message that is not scheduled. -/
  | seedNotScheduled (label block : String)
  /-- A message type that is needed before the message is computed. -/
  | messageTypeUnknown (label : String)
  /-- A marginal type that is needed before it is published. -/
  | marginalTypeUnknown (target node : String)
  /-- A second rule with one key and signature. -/
  | duplicateRule (key : RuleKey) (inbounds : List TypeTerm) (outbound : String)
  /-- A rule whose outbound type is not determined by the types that arrive. -/
  | outboundOpen (key : RuleKey) (type : TypeTerm)
  /-- No rule for a call. -/
  | noRule (call : RuleCall)
  /-- Rules for a call, none of which meets the constraint. -/
  | constraintUnmet (call : RuleCall) (constraint : TypeTerm) (offered : List String)
  /-- Several outbound types for a call, each with its method of approximation. -/
  | ambiguous (call : RuleCall) (narrowed : Bool) (options : List (TypeTerm × Option String))
  /-- A type that is not made of factors where all others are. -/
  | notPartitioned (key : RuleKey) (type : TypeTerm)
  /-- Types made of different numbers of factors. -/
  | countsDiffer (key : RuleKey) (counts : List String)
  /-- An entry whose rule has no procedure. -/
  | entryWithoutProcedure (entry : String)
  /-- A marginal whose rule has no procedure. -/
  | marginalWithoutProcedure (target : String)
  /-- A value that is not made of factors where all others are. -/
  | valueNotPartitioned (value : String)
  /-- Values made of different numbers of factors. -/
  | valueCountsDiffer (counts : List Nat)
  /-- A marginal that has no value yet. -/
  | marginalMissing (target : String)
  /-- A value made of no factors. -/
  | noFactors
  /-- A seed of a family that needs one dimension. -/
  | dimensionCount (family : String) (dims : List Int)
  /-- A seed of a type that is no distribution. -/
  | notSeedable (type : TypeTerm)
  /-- A negative size of an array. -/
  | negativeSize
  /-- More sizes than arrays have dimensions. -/
  | tooManySizes (limit found : Nat)
  /-- A size of an array that is no machine number. -/
  | sizeTooLarge
  /-- Sizes whose array cannot be addressed. -/
  | arrayTooLarge
  /-- Sizes whose array does not fit the memory. -/
  | outOfMemory
  /-- A whole number beyond the range of double precision. -/
  | beyondDouble
  /-- A probability vector of no entries. -/
  | zeroDivision
  /-- A negative number of iterations. -/
  | negativeIterations
  /-- A scale that is not positive. -/
  | scaleNotPositive
  /-- The whole part of something that is no number. -/
  | floorOfNaN
  /-- The whole part of an infinity. -/
  | floorOfInfinity
  /-- A product without its two messages. -/
  | operandsMissing (found : Nat)
  /-- A message seeded a second time. -/
  | seedTwice (phase : String)
  /-- A message updated before it was seeded. -/
  | updateBeforeSeed
  /-- A procedure that gives up. -/
  | procedure (text : String)
  /-- A name that is not bound. -/
  | missing (key : String)
  /-- A group of edges that has no marginal. -/
  | missingCluster
  /-- A position outside a sequence. -/
  | outOfRange
  /-- Values of kinds that do not go together. -/
  | illTyped

namespace Failure

/-- The class of a failure. -/
def kind : Failure → Kind
  | noInterface _ | handleCount .. | duplicateName _ | notSymmetric .. | noFreeInterface _
  | sameNode .. | alreadyBound | unknownInterface _ | marginalForbidden .. | declarationBroken .. =>
    .structural
  | collider _ => .factorization
  | emptyBlock _ | notScheduled .. | seedNotScheduled .. => .scheduling
  | notConnected _ | danglingBackward _ => .notConnected
  | messageTypeUnknown _ | outboundOpen .. | entryWithoutProcedure _ | marginalWithoutProcedure _ =>
    .resolution
  | noRule _ | constraintUnmet .. => .noRule
  | ambiguous .. => .ambiguous
  | notPartitioned .. | countsDiffer .. | valueNotPartitioned _ | valueCountsDiffer _ => .partition
  | marginalTypeUnknown .. => .unresolvedMarginal
  | ragged | tooDeep _ | duplicateRule .. | noFactors | dimensionCount .. | notSeedable _
  | negativeSize | tooManySizes .. | sizeTooLarge | arrayTooLarge | negativeIterations
  | scaleNotPositive | floorOfNaN | operandsMissing _ | procedure _ =>
    .badValue
  | seedTwice _ | updateBeforeSeed => .lifecycle
  | unknownVariable _ | duplicateBlock _ | marginalMissing _ | missing _ | missingCluster =>
    .missingKey
  | outOfRange => .outOfRange
  | illTyped => .illTyped
  | zeroDivision => .zeroDivision
  | floorOfInfinity | beyondDouble => .overflow
  | outOfMemory => .memory

/-- The failure has to do with values alone: neither does the graph forbid something, nor is
something missing. -/
def OfValue (f : Failure) : Prop :=
  f.kind ≠ .structural ∧ f.kind ≠ .missingKey

/-- The written form of one of several possible outcomes. -/
def renderOption (o : TypeTerm × Option String) : String :=
  match o.2 with
  | none | some "" => o.1.render
  | some method => o.1.render ++ " (" ++ method ++ ")"

/-- The wording of a failure, for the causes that have one. -/
def message? : Failure → Option String
  | noInterface kind => some s!"node {Text.quoted kind} needs at least one interface"
  | handleCount kind handles interfaces =>
    some s!"node {Text.quoted kind}: {handles} handles for {interfaces} interfaces"
  | duplicateName name => some s!"duplicate node name {Text.quoted name}"
  | notSymmetric kind name =>
    some s!"Cannot automatically pick a free interface on non-symmetrical {kind} {name}"
  | noFreeInterface name => some s!"node {name} has no free interface"
  | sameNode kind name => some s!"Cannot connect two interfaces of the same node: {kind} {name}"
  | alreadyBound => some "Previously defined edges cannot be repositioned."
  | unknownInterface interface => some s!"unknown interface {interface}"
  | ragged => none
  | tooDeep limit =>
    some ("setting an array element with a sequence. The requested array would exceed the maximum "
      ++ s!"number of dimension of {limit}.")
  | notConnected label => some s!"{label} is not connected to an edge."
  | danglingBackward edge => some s!"edge {edge} is dangling and carries no backward message"
  | marginalForbidden type edge owner declared =>
    some (s!"Cannot create marginal of type {type.render} since edge {edge} ({owner}) "
      ++ s!"requires {declared.render}")
  | declarationBroken owner type edge declared =>
    some (s!"marginal of {owner} resolves to {type.render} but edge {edge} "
      ++ s!"requires {declared.render}")
  | unknownVariable name => some s!"unknown variable {Text.quoted name}"
  | duplicateBlock block => some s!"recognition factor {Text.quoted block} already registered"
  | collider block =>
    some (s!"recognition factor {block} contains a collider; "
      ++ "its variables are dependent in the posterior")
  | emptyBlock block => some s!"recognition factor {block} has no internal edges"
  | notScheduled interface block => some s!"interface {interface} is not scheduled in {block}"
  | seedNotScheduled label block => some s!"{label} must be scheduled in {block} to seed a breaker"
  | messageTypeUnknown label =>
    some (s!"type of the message on {label} is needed before it is computed; "
      ++ "declare a distribution_type on its edge")
  | marginalTypeUnknown target node => some s!"marginal type of {target} at node {node} is unknown"
  | duplicateRule key inbounds outbound =>
    some (s!"duplicate rule for {key.render} with inbounds "
      ++ Text.tuple (inbounds.map TypeTerm.render) ++ s!" and outbound {outbound}")
  | outboundOpen key type =>
    some s!"rule {key.render} leaves outbound type {type.render} unresolved"
  | noRule call => some s!"no applicable update rule for {call.render}"
  | constraintUnmet call constraint offered =>
    some (s!"{call.render}: constraint {constraint.render} matches none of the outbound types "
      ++ ", ".intercalate offered)
  | ambiguous call narrowed options =>
    let listing := ", ".intercalate (options.map renderOption)
    if narrowed then some s!"{call.render}: ambiguous after narrowing: {listing}"
    else
      some (s!"{call.render}: multiple outbound types possible ({listing}); "
        ++ "constrain the outbound type")
  | notPartitioned key type =>
    some (s!"{key.render}: inbound {type.render} is not partitioned; "
      ++ "one-by-one processing needs every present inbound partitioned")
  | countsDiffer key counts =>
    some (s!"{key.render}: partitioned inbounds have mismatched factor counts "
      ++ Text.list counts)
  | entryWithoutProcedure entry => some s!"{entry} resolved to a rule without procedure"
  | marginalWithoutProcedure target =>
    some s!"marginal of {target} resolved to a rule without procedure"
  | valueNotPartitioned value => some s!"argument {value} is not partitioned"
  | valueCountsDiffer counts =>
    some ("partitioned inbounds disagree on their factor count: "
      ++ Text.list (counts.map toString))
  | marginalMissing target => some s!"marginal {target} is not initialized"
  | noFactors => some "a partitioned distribution needs at least one factor"
  | dimensionCount family dims =>
    some (s!"vague {family} needs exactly one dimension, got " ++ Text.tuple (dims.map toString))
  | notSeedable type => some s!"cannot build a vague value of type {type.render}"
  | negativeSize => none
  | tooManySizes limit found =>
    some s!"maximum supported dimension for an ndarray is currently {limit}, found {found}"
  | sizeTooLarge => some "Maximum allowed dimension exceeded"
  | arrayTooLarge =>
    some ("array is too big; `arr.size * arr.dtype.itemsize` is larger than the maximum possible "
      ++ "size.")
  | outOfMemory => none
  | beyondDouble => none
  | zeroDivision => none
  | negativeIterations => some "n_iterations must be non-negative"
  | scaleNotPositive => some "huge and tiny must be positive"
  | floorOfNaN => some "cannot convert float NaN to integer"
  | floorOfInfinity => none
  | operandsMissing found => some s!"not enough values to unpack (expected 2, got {found})"
  | seedTwice phase => some s!"breaker already {phase}"
  | updateBeforeSeed => some "breaker updated before it was seeded"
  | procedure text => some s!"procedure failed: {text}"
  | missing key => some key
  | missingCluster => none
  | outOfRange => none
  | illTyped => none

end Failure

/-! ## Operations that may fail part of the way -/

/-- An operation on a state that returns an answer or fails, and leaves a state either way. -/
abbrev Attempt (σ α : Type) := EStateM Failure σ α

namespace Attempt

variable {σ τ α : Type}

/-- A computation that leaves the state alone. -/
def ofExcept (x : Except Failure α) : Attempt σ α := fun s =>
  match x with
  | .ok a => .ok a s
  | .error e => .error e s

instance : MonadLift (Except Failure) (EStateM Failure σ) := ⟨ofExcept⟩

/-- An operation reads and replaces the state that it has reached. -/
instance : MonadStateOf σ (EStateM Failure σ) where
  get s := .ok s s
  set s _ := .ok () s
  modifyGet f s := .ok (f s).1 (f s).2

/-- An operation that fails leaves the state that it has reached, also to what handles the failure.
-/
instance : MonadExceptOf Failure (EStateM Failure σ) where
  throw e s := .error e s
  tryCatch x handle s :=
    match x s with
    | .ok a s => .ok a s
    | .error e s => handle e s

/-- Runs an operation on a part of the state, and puts back what it leaves, also when it fails. -/
def within (part : σ → τ) (replace : τ → σ → σ) (x : Attempt τ α) : Attempt σ α := fun s =>
  match x (part s) with
  | .ok a t => .ok a (replace t s)
  | .error e t => .error e (replace t s)

/-- The answer of an operation, and the state it leaves. -/
def outcome (x : Attempt σ α) (s : σ) : Except Failure α × σ :=
  match x s with
  | .ok a s => (.ok a, s)
  | .error e s => (.error e, s)

end Attempt

end MessagePassing
