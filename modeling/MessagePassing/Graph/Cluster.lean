import MessagePassing.Graph.Incidence

/-!
# Clusters

A cluster is a group of edges at one node whose joint marginal is of interest. What a marginal is
about, its target, is a variable or a cluster. Targets are ordered: variables by name, then clusters
by node and edges.

* `Graph.clusterAt?` is the cluster that a set of edges forms at a node: at least two of its edges
  meet there.

Specification: sections 3 and 4.1 (`Cluster`, `build_clusters`).
-/

namespace MessagePassing

/-- Edges at one node that are treated jointly. -/
structure Cluster where
  /-- The node. -/
  node : NodeId
  /-- The edges, in the order of the interfaces of the node. -/
  edges : List EdgeId
deriving DecidableEq

namespace Cluster

/-- The identifier of a cluster: its node and its edges. -/
def id (c : Cluster) : String :=
  s!"cluster_{c.node}_" ++ "_".intercalate (c.edges.map toString)

/-- The written form of a cluster. -/
def render (c : Cluster) : String :=
  s!"Cluster(node={c.node}, edges=" ++ Text.tuple (c.edges.map toString) ++ ")"

/-- Clusters are ordered by node, then by edges. -/
instance : LT Cluster :=
  ⟨fun c d => c.node < d.node ∨ c.node = d.node ∧ c.edges < d.edges⟩

instance : DecidableLT Cluster := fun c d =>
  inferInstanceAs (Decidable (c.node < d.node ∨ c.node = d.node ∧ c.edges < d.edges))

end Cluster

/-- What a marginal is about. -/
inductive Target where
  /-- A variable. -/
  | variable (name : String)
  /-- Several edges at a node. -/
  | cluster (c : Cluster)
deriving DecidableEq

namespace Target

/-- The identifier of a target. -/
def id : Target → String
  | .variable x => x
  | .cluster c => c.id

/-- Variables come before clusters. -/
def Before : Target → Target → Prop
  | .variable x, .variable y => x < y
  | .variable _, .cluster _ => True
  | .cluster _, .variable _ => False
  | .cluster c, .cluster d => c < d

instance : LT Target := ⟨Before⟩

instance : DecidableLT Target := fun s t =>
  match s, t with
  | .variable x, .variable y => inferInstanceAs (Decidable (x < y))
  | .variable _, .cluster _ => inferInstanceAs (Decidable True)
  | .cluster _, .variable _ => inferInstanceAs (Decidable False)
  | .cluster c, .cluster d => inferInstanceAs (Decidable (c < d))

end Target

namespace Graph

variable (g : Graph)

/-- The cluster that a set of edges forms at a node, if at least two of them meet there. -/
def clusterAt? (internal : List EdgeId) (n : NodeId) : Option Cluster :=
  let edges := g.clusterEdges n internal
  if 1 < edges.length then some ⟨n, edges⟩ else none

/-- The clusters that a set of edges forms at a list of nodes. -/
def clusters (internal : List EdgeId) (nodes : List NodeId) : List Cluster :=
  nodes.filterMap (g.clusterAt? internal)

end Graph

end MessagePassing
