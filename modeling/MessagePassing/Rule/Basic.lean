import MessagePassing.Graph.Basic
import MessagePassing.TypeTerm.Matching
import MessagePassing.Value.Basic

/-!
# Update rules

A rule says what an update computes: for a kind of node, a type of rule and a position, from types
that match its inbound patterns, a value of its outbound type. The outbound type is a pattern with
the variables of the inbound patterns, or a function of the node and of what the variables stand
for. An approximate rule names its method. The procedure that computes the value is optional,
because a model can be compiled without being run.

* `Rule.agrees` tells when two rules say the same, so that one of them is superfluous. Functions
  agree only with themselves.
* `Rule.outboundFor` is the outbound type of a rule under bindings, which has to be ground.

Specification: section 8 (`UpdateRule`).
-/

namespace MessagePassing

/-- An argument of a procedure. -/
inductive Argument where
  /-- The node that computes the update. -/
  | node (id : NodeId)
  /-- A value that arrives. -/
  | value (v : Value)

/-- Computes the value of an update from its arguments. -/
abbrev Procedure := List Argument → Except Failure Value

/-- A function for the outbound type of a rule. -/
structure ComputedType where
  /-- What tells this function from others. -/
  identity : Nat
  /-- The name of the function in messages. -/
  name : String
  /-- The type for a node, or for no node, under bindings. -/
  infer : Option Node → Bindings → Except Failure TypeTerm

namespace ComputedType

/-- The function that answers one type. -/
def constant (identity : Nat) (name : String) (t : TypeTerm) : ComputedType :=
  ⟨identity, name, fun _ _ => .ok t⟩

/-- The function that answers a family with the dimensions of the node. -/
def nodeDims (identity : Nat) (name family : String) : ComputedType :=
  ⟨identity, name, fun node _ => .ok (.ofDims family ((node.map (·.dims)).getD []))⟩

/-- What a variable is bound to. -/
def boundTo (b : Bindings) (x : String) : Except Failure TypeTerm :=
  match b.get? x with
  | some t => .ok t
  | none => .error (.missing x)

/-- The function that answers a family with what given variables are bound to. -/
def bound (identity : Nat) (name family : String) (vars : List String) : ComputedType :=
  ⟨identity, name, fun _ b => (vars.mapM (boundTo b)).map (.dist family)⟩

end ComputedType

/-- The outbound type of a rule. -/
inductive Outbound where
  /-- A pattern in the variables of the inbound patterns. -/
  | pattern (t : TypeTerm)
  /-- A function of the node and the bindings. -/
  | computed (f : ComputedType)

namespace Outbound

/-- Whether two outbound types are the same pattern or the same function. -/
def agrees : Outbound → Outbound → Bool
  | pattern s, pattern t => s = t
  | computed f, computed h => f.identity = h.identity
  | _, _ => false

/-- The written form of an outbound type. -/
def render : Outbound → String
  | pattern t => t.render
  | computed f => "<callable " ++ f.name ++ ">"

/-- The outbound type for a node, or for no node, under bindings. -/
def under (node : Option Node) (b : Bindings) : Outbound → Except Failure TypeTerm
  | pattern t => .ok (t.substitute b)
  | computed f => f.infer node b

end Outbound

/-- An update rule. -/
structure Rule where
  /-- Where the rule is registered. -/
  key : RuleKey
  /-- The patterns of the types that arrive, in interface order. -/
  inbounds : List TypeTerm
  /-- The type that the rule computes. -/
  outbound : Outbound
  /-- The method, if the rule is approximate. -/
  approximation : Option String := none
  /-- What computes the value. -/
  procedure : Option Procedure := none

namespace Rule

/-- Whether a rule has a method of approximation. -/
def isApproximate (r : Rule) : Bool :=
  r.approximation.isSome

/-- Whether two rules have one key and one signature. -/
def agrees (r s : Rule) : Bool :=
  r.key = s.key && r.inbounds = s.inbounds && r.outbound.agrees s.outbound
    && r.approximation = s.approximation

/-- The outbound type for a node, or for no node, under bindings. -/
def outboundFor (r : Rule) (node : Option Node) (b : Bindings) : Except Failure TypeTerm := do
  let t ← r.outbound.under node b
  if t.isGround then return t else throw (.outboundOpen r.key t)

end Rule

end MessagePassing
