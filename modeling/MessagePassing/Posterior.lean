import MessagePassing.Block.Basic
import MessagePassing.IdSource

/-!
# Factorized posteriors

A posterior holds the blocks of a factorization in the order of their registration, and what the
blocks share: which block an edge at a border belongs to, which cluster stands for an edge at a
node, and the types of the marginals that have been settled. Blocks may overlap; a later block then
takes over what an earlier one had, with a warning.

* `Posterior.addBlock` builds and registers a block. A name that is made up is used up even if that
  fails; nothing else changes then.
* `Posterior.onBlock` runs an operation on one block.

Specification: section 4 (`AlgorithmContext`, `recognition_factor_of`, `local_clusters`,
`local_recognition_factors`, `local_recognition_factorization`).
-/

namespace MessagePassing

/-- A remark on a doubtful but accepted operation. -/
inductive Warning where
  /-- An edge that passes from one block to another. -/
  | edgeMoves (edge : EdgeId) (old new : String)
  /-- An edge at a node that passes from one cluster to another. -/
  | clusterMoves (node : NodeId) (edge : EdgeId) (old new : Cluster)
  /-- A block that contains a collider. -/
  | collider (block : String)

/-- The wording of a warning. -/
def Warning.message : Warning → String
  | edgeMoves edge old new => s!"edge {edge} moves from recognition factor {old} to {new}"
  | clusterMoves node edge old new =>
    s!"(node {node}, edge {edge}) moves from {old.render} to {new.render}"
  | collider block => s!"recognition factor {block} contains a collider"

/-- A factorized posterior under construction. -/
structure Posterior where
  /-- The settings. -/
  options : Options := {}
  /-- The source of block names. -/
  ids : IdSource := {}
  /-- The blocks, in the order of registration. -/
  blocks : Table String Block := ∅
  /-- The block of each edge at a border. -/
  owners : Table EdgeId String := ∅
  /-- The cluster that stands for an edge at a node. -/
  clusters : Table (NodeId × EdgeId) Cluster := ∅
  /-- The types of the settled marginals. -/
  marginalTypes : Table Target TypeTerm := ∅
  /-- How far the seeds of each block have come; a seed that is not listed is still to be laid. -/
  phases : Table (String × InterfaceId) Phase := ∅
  /-- The warnings so far, oldest first. -/
  warnings : List Warning := []

namespace Posterior

instance : Inhabited Posterior := ⟨{}⟩

/-- The stem of made-up block names. -/
def blockStem : String := "recognitionfactor"

/-- The given name of a block, or a new one. -/
def nameBlock (p : Posterior) : Option String → String × Posterior
  | some id => (id, p)
  | none =>
    let r := p.ids.next blockStem
    (r.1, { p with ids := r.2 })

/-- Puts a block under its name. -/
def putBlock (p : Posterior) (b : Block) : Posterior :=
  { p with blocks := p.blocks.insert b.id b }

/-- Adds a warning. -/
def warn (p : Posterior) (w : Warning) : Posterior :=
  { p with warnings := p.warnings ++ [w] }

/-- Gives an edge to a block. -/
def registerEdge (id : String) (p : Posterior) (e : EdgeId) : Posterior :=
  let q := match p.owners.get? e with
    | some old => if old = id then p else p.warn (.edgeMoves e old id)
    | none => p
  { q with owners := q.owners.insert e id }

/-- Lets a cluster stand for one of its edges. -/
def registerClusterEdge (c : Cluster) (p : Posterior) (e : EdgeId) : Posterior :=
  let q := match p.clusters.get? (c.node, e) with
    | some old => if old = c then p else p.warn (.clusterMoves c.node e old c)
    | none => p
  { q with clusters := q.clusters.insert (c.node, e) c }

/-- Lets a cluster stand for all of its edges. -/
def registerCluster (p : Posterior) (c : Cluster) : Posterior :=
  c.edges.foldl (registerClusterEdge c) p

/-- Registers a block with its border. -/
def register (g : Graph) (p : Posterior) (b : Block) : Posterior :=
  b.clusters.foldl registerCluster
    ((Block.boundaryEdges g b.internal).foldl (registerEdge b.id) (p.putBlock b))

/-- Builds the block of a list of variables and registers it under a given or a new name. -/
def addBlock (g : Graph) (requested : List String) (id : Option String) :
    Attempt Posterior Block := fun p =>
  let (name, p) := p.nameBlock id
  match Block.ofVariables g name requested with
  | .error e => .error e p
  | .ok b =>
    if p.blocks.contains name then .error (.duplicateBlock name) p
    else .ok b (p.register g b)

/-- The block of a name. -/
def block (p : Posterior) (id : String) : Except Failure Block :=
  match p.blocks.get? id with
  | some b => .ok b
  | none => .error (.missing id)

/-- Runs an operation on one block, which may consult the posterior as it is before. -/
def onBlock {α : Type} (id : String) (x : Posterior → Attempt Block α) : Attempt Posterior α :=
  fun p =>
    match p.blocks.get? id with
    | none => .error (.missing id) p
    | some b =>
      match x p b with
      | .ok a b => .ok a (p.putBlock b)
      | .error e b => .error e (p.putBlock b)

/-- How far the seed of an interface of a block has come. -/
def phase (p : Posterior) (id : String) (i : InterfaceId) : Phase :=
  (p.phases.get? (id, i)).getD .uninitialized

/-- Forgets how far the seeds of a block have come. -/
def forgetPhases (id : String) (p : Posterior) : Posterior :=
  { p with phases := p.phases.filterKeys (·.1 ≠ id) }

/-! ## What the blocks share -/

/-- What an edge belongs to. -/
inductive Owner where
  /-- A block. -/
  | block (id : String)
  /-- No block; the number may be one that no edge has. -/
  | unassigned (edge : Int)
deriving DecidableEq

variable (p : Posterior)

/-- What an edge belongs to. -/
def ownerOf (e : Int) : Owner :=
  match e.toNat?.bind p.owners.get? with
  | some id => .block id
  | none => .unassigned e

/-- The target that stands for an edge at a node: its cluster if it has one there, and its variable
otherwise. -/
def marginalKey (g : Graph) (n : NodeId) (e : EdgeId) : Target :=
  match p.clusters.get? (n, e) with
  | some c => .cluster c
  | none => .variable ((g.ownerOf? e).getD "")

/-- The edges at a node, all of whose interfaces have to be bound. -/
def boundEdges (g : Graph) (n : NodeId) : Except Failure (List EdgeId) := do
  (← g.node n).interfaces.mapM g.edgeAt

/-- What the edges at a node belong to, in interface order. -/
def localOwners (g : Graph) (n : NodeId) : Except Failure (List Owner) :=
  (boundEdges g n).map fun edges => edges.map fun e : EdgeId => p.ownerOf e

/-- The targets that stand for the edges at a node, in interface order. -/
def localTargets (g : Graph) (n : NodeId) : Except Failure (List Target) :=
  (boundEdges g n).map fun edges => edges.map (p.marginalKey g n)

/-- The factorization at a node: the target that each owner covers there. -/
def localFactorization (g : Graph) (n : NodeId) : Except Failure (Table Owner Target) :=
  (boundEdges g n).map fun edges =>
    Table.ofList (edges.map fun e : EdgeId => (p.ownerOf e, p.marginalKey g n e))

/-- The first block that contains an edge. -/
def blockContaining? (e : EdgeId) : Option Block :=
  p.blocks.values.find? (e ∈ ·.internal)

end Posterior

end MessagePassing
