import MessagePassing.TypeTerm.Basic

/-!
# Calls of update rules

An update is looked up by the kind of the node that computes it, the type of the rule, the position
of the interface it is for (none for a marginal), and the types that arrive at the node.

Specification: section 8 (`UpdateRuleType`, the arguments of `resolve`).
-/

namespace MessagePassing

/-- What an update computes, and how. -/
inductive RuleType where
  /-- A message from messages alone. -/
  | sumProduct
  /-- A message from marginals of other blocks. -/
  | variational
  /-- A message that also reads the message it answers. -/
  | expectationPropagation
  /-- The joint marginal of several edges at a node. -/
  | jointMarginal
  /-- The product of two messages. -/
  | product
deriving DecidableEq

namespace RuleType

/-- All rule types. -/
def all : List RuleType :=
  [sumProduct, variational, expectationPropagation, jointMarginal, product]

/-- The written name of a rule type. -/
def name : RuleType → String
  | sumProduct => "SUM_PRODUCT"
  | variational => "VARIATIONAL"
  | expectationPropagation => "EXPECTATION_PROPAGATION"
  | jointMarginal => "JOINT_MARGINAL"
  | product => "PRODUCT"

end RuleType

/-- Where a rule is registered, and where one is looked for. -/
structure RuleKey where
  /-- The kind of the node. -/
  kind : String
  /-- The type of the rule. -/
  ruleType : RuleType
  /-- The position of the interface that the update is for; none for a marginal. -/
  position : Option Int
deriving DecidableEq

/-- The written form of a key. -/
def RuleKey.render (k : RuleKey) : String :=
  k.kind ++ "/" ++ k.ruleType.name ++ "/" ++ Text.optional (k.position.map toString)

/-- A key together with the types that arrive at the node, in interface order. -/
structure RuleCall where
  /-- The key. -/
  key : RuleKey
  /-- The types that arrive, `void` where nothing does. -/
  inbounds : List TypeTerm

/-- The written form of a call. -/
def RuleCall.render (c : RuleCall) : String :=
  c.key.render ++ " with inbounds " ++ Text.list (c.inbounds.map (·.render))

end MessagePassing
