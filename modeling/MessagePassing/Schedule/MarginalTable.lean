import MessagePassing.Block.Basic

/-!
# The marginal table

A block has a marginal for each of its variables and each of its clusters. The oldest edge of a
variable decides how its marginal is computed: a message that comes from a clamp, or that runs along
a dangling edge, is the marginal itself; otherwise the marginal is the product of the two messages
of the edge. A cluster needs a rule at its node, which reads the messages that arrive there.

* `Block.withMarginalTable` puts the table into a block, variables first. It fails if a node at the
  oldest edge of a variable does not exist, or if an edge of a cluster dangles.

Specification: section 7 (`generate_marginal_table`).
-/

namespace MessagePassing.Block

variable (b : Block) (g : Graph)

/-- How the marginal of a variable with a given oldest edge is computed. -/
def variablePlan (e : Edge) : Except Failure MarginalPlan := do
  match e.head with
  | none => return .copy e.tail
  | some h =>
    let tail ← g.nodeOf e.tail
    let head ← g.nodeOf h
    if tail.isClamp then return .copy e.tail
    if head.isClamp then return .copy h
    return .product e.tail h

/-- The entry for the marginal of a variable. -/
def variableMarginal (x : String) : Except Failure MarginalEntry := do
  match (g.edgesOf x).min? with
  | none => throw (.missing x)
  | some e => return { target := .variable x, plan := ← variablePlan g (← g.edge e) }

/-- The entry for the marginal of a cluster. -/
def clusterMarginal (c : Cluster) : Except Failure MarginalEntry := do
  let ends := (g.interfacesOf c.node).filter fun i => (g.edgeAt? i).any (· ∈ c.edges)
  return { target := .cluster c, plan := .joint c.node (← ends.mapM g.partner) }

/-- The block with a marginal table, in place of any that it had. -/
def withMarginalTable : Except Failure Block := do
  let single ← b.scope.mapM (variableMarginal g)
  let joint ← b.clusters.mapM (clusterMarginal g)
  return { b with marginalTable := single ++ joint }

end MessagePassing.Block
