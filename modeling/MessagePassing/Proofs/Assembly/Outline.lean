import MessagePassing.Proofs.Assembly.Skeleton
import MessagePassing.Proofs.Graph.Border
import MessagePassing.Proofs.Graph.LeastClosure

/-!
# The outline of a block

What a block is made with is computed from its edges: the nodes at the border, the clusters there,
and the variables in scope. The edges themselves are the closure of those that the block is asked
for, so they are closed under growing through deterministic nodes.

Results:
* `mem_scope_ofEdges`, `mem_clusters_ofEdges`: the scope and the clusters of a set of edges.
* `MadeFor.cases`: the outlines that there are.
* `MadeFor.boundary_eq`, **`MadeFor.closedUnder`**: the border of a block is that of its edges,
  which are closed.
* `MadeFor.mem_clusters_iff`, `MadeFor.mem_scope_of_border`: what a block has at its border.
* `MadeFor.exists_edge`: the variables of a block have edges.
* `MadeFor.nodup_scope`, `MadeFor.nodup_clusters`: a block has nothing twice.
-/

namespace MessagePassing.Block

variable {g : Graph} {id x : String} {A : List String} {internal : List EdgeId} {b : Block}
  {c : Cluster} {e : EdgeId}

/-! ## Outlines of edges -/

theorem mem_boundaryEdges : e ∈ boundaryEdges g internal ↔
    (∃ n ∈ g.boundaryNodes internal, e ∈ g.edgesAt n) ∧ e ∈ internal := by
  unfold boundaryEdges Graph.edgesOfNodes
  rw [List.mem_filter, Ascending.mem_ofList, List.mem_flatMap, decide_eq_true_iff]

theorem mem_scope_ofEdges : x ∈ (ofEdges g id A internal).scope ↔
    x ∈ A ∨ ∃ n ∈ g.boundaryNodes internal, ∃ e ∈ g.edgesAt n,
      e ∈ internal ∧ g.ownerOf? e = some x := by
  change x ∈ Ascending.ofList _ ↔ _
  rw [Ascending.mem_ofList, List.mem_append, List.mem_filterMap]
  refine or_congr_right ⟨?_, ?_⟩
  · rintro ⟨e, he, hx⟩
    obtain ⟨⟨n, hn, he⟩, hin⟩ := mem_boundaryEdges.mp he
    exact ⟨n, hn, e, he, hin, hx⟩
  · rintro ⟨n, hn, e, he, hin, hx⟩
    exact ⟨e, mem_boundaryEdges.mpr ⟨⟨n, hn, he⟩, hin⟩, hx⟩

/-- The clusters of a set of edges are found in order. -/
theorem clusters_ofEdges :
    (ofEdges g id A internal).clusters = g.clusters internal (g.boundaryNodes internal) :=
  Ascending.ofList_of_pairwise
    ((Graph.pairwise_clusters Graph.pairwise_boundaryNodes).imp fun h => Or.inl h)

theorem mem_clusters_ofEdges : c ∈ (ofEdges g id A internal).clusters ↔
    c.node ∈ g.boundaryNodes internal ∧ 1 < (g.clusterEdges c.node internal).length ∧
      c.edges = g.clusterEdges c.node internal := by
  rw [clusters_ofEdges, Graph.clusters, List.mem_filterMap]
  constructor
  · rintro ⟨n, hn, hc⟩
    obtain ⟨hlength, rfl⟩ := Graph.clusterAt?_eq_some.mp hc
    exact ⟨hn, hlength, rfl⟩
  · rintro ⟨hn, hlength, hedges⟩
    refine ⟨c.node, hn, Graph.clusterAt?_eq_some.mpr ⟨hlength, ?_⟩⟩
    rw [← hedges]

/-! ## Outlines of blocks -/

/-- A block without variables has nothing, and any other has the edges that its variables lead
to. -/
theorem MadeFor.cases (h : b.MadeFor g) : b.outline = { id := b.id } ∨
    ∃ requested edges internal, g.edgesOfVariables requested = .ok edges ∧
      g.knownClosure true [] edges = .ok internal ∧
      b.outline = ofEdges g b.id requested internal := by
  obtain ⟨requested, h⟩ := h
  unfold ofVariables at h
  split at h
  · exact Or.inl (Except.ok.inj h).symm
  · obtain ⟨edges, hedges, h⟩ := bind_eq_ok.mp h
    obtain ⟨internal, hinternal, h⟩ := bind_eq_ok.mp h
    exact Or.inr ⟨requested, edges, internal, hedges, hinternal, (pure_eq_ok.mp h).symm⟩

theorem MadeFor.boundary_eq (h : b.MadeFor g) : b.boundary = g.boundaryNodes b.internal := by
  change b.outline.boundary = g.boundaryNodes b.outline.internal
  rcases h.cases with ho | ⟨requested, edges, internal, -, -, ho⟩
  · rw [ho]
    rfl
  · rw [ho]
    rfl

/-- **The edges of a block are closed under growing through deterministic nodes.** -/
theorem MadeFor.closedUnder (h : b.MadeFor g) (hg : g.Coherent) :
    g.ClosedUnder true [] {e | e ∈ b.internal} := by
  change g.ClosedUnder true [] {e | e ∈ b.outline.internal}
  rcases h.cases with ho | ⟨requested, edges, internal, -, hinternal, ho⟩
  · rw [ho]
    exact fun e he => absurd he List.not_mem_nil
  · rw [ho]
    exact (hg.isLeast_of_known hinternal).1.2

/-- **The clusters of a block are where several of its edges meet at its border.** -/
theorem MadeFor.mem_clusters_iff (h : b.MadeFor g) : c ∈ b.clusters ↔
    c.node ∈ b.boundary ∧ 1 < (g.clusterEdges c.node b.internal).length ∧
      c.edges = g.clusterEdges c.node b.internal := by
  rw [h.boundary_eq]
  change c ∈ b.outline.clusters ↔ c.node ∈ g.boundaryNodes b.outline.internal ∧
    1 < (g.clusterEdges c.node b.outline.internal).length ∧
      c.edges = g.clusterEdges c.node b.outline.internal
  rcases h.cases with ho | ⟨requested, edges, internal, -, -, ho⟩
  · rw [ho]
    exact iff_of_false List.not_mem_nil fun h => absurd h.1 List.not_mem_nil
  · rw [ho]
    exact mem_clusters_ofEdges

/-- The variables of the edges of a block at its border are in its scope. -/
theorem MadeFor.mem_scope_of_border (h : b.MadeFor g) {n : NodeId} (hn : n ∈ b.boundary)
    (he : e ∈ g.edgesAt n) (hin : e ∈ b.internal) (hx : g.ownerOf? e = some x) : x ∈ b.scope := by
  rw [h.boundary_eq] at hn
  change e ∈ b.outline.internal at hin
  change n ∈ g.boundaryNodes b.outline.internal at hn
  change x ∈ b.outline.scope
  rcases h.cases with ho | ⟨requested, edges, internal, -, -, ho⟩
  · rw [ho] at hin
    exact absurd hin List.not_mem_nil
  · rw [ho] at hin hn ⊢
    exact mem_scope_ofEdges.mpr (Or.inr ⟨n, hn, e, he, hin, hx⟩)

/-- Every variable in scope has an edge. -/
theorem MadeFor.exists_edge (h : b.MadeFor g) (hg : g.Built) (hx : x ∈ b.scope) :
    ∃ e, e ∈ g.edgesOf x := by
  change x ∈ b.outline.scope at hx
  rcases h.cases with ho | ⟨requested, edges, internal, hedges, -, ho⟩
  · rw [ho] at hx
    exact absurd hx List.not_mem_nil
  · rw [ho] at hx
    rcases mem_scope_ofEdges.mp hx with hx | ⟨n, -, e, -, -, hex⟩
    · exact hg.exists_edge ((Graph.edgesOfVariables_eq_ok.mp hedges).1 x hx)
    · exact ⟨e, hg.coherent.mem_edgesOf_of_owner hex⟩

theorem MadeFor.nodup_scope (h : b.MadeFor g) : b.scope.Nodup := by
  change b.outline.scope.Nodup
  rcases h.cases with ho | ⟨requested, edges, internal, -, -, ho⟩
  · rw [ho]
    exact List.nodup_nil
  · rw [ho]
    exact Ascending.nodup_ofList _

theorem MadeFor.nodup_clusters (h : b.MadeFor g) : b.clusters.Nodup := by
  change b.outline.clusters.Nodup
  rcases h.cases with ho | ⟨requested, edges, internal, -, -, ho⟩
  · rw [ho]
    exact List.nodup_nil
  · rw [ho, clusters_ofEdges]
    refine (Graph.pairwise_clusters Graph.pairwise_boundaryNodes).imp fun {c d} hlt heq => ?_
    rw [heq] at hlt
    exact Nat.lt_irrefl _ hlt

/-- The clusters of a block consist of the edges of the block at a node of its border, and the
variables of these edges are in its scope. -/
theorem MadeFor.of_mem_clusters (h : b.MadeFor g) {x : Cluster} (hx : x ∈ b.clusters) :
    x.edges = g.clusterEdges x.node b.internal ∧
      ∀ e ∈ g.edgesAt x.node, e ∈ b.internal → ∀ v, g.ownerOf? e = some v → v ∈ b.scope := by
  obtain ⟨hn, -, hedges⟩ := h.mem_clusters_iff.mp hx
  exact ⟨hedges, fun e he hin v hv => h.mem_scope_of_border hn he hin hv⟩

/-- At least two edges of a block meet in a cluster. -/
theorem MadeFor.length_of_mem_clusters (h : b.MadeFor g) (hc : c ∈ b.clusters) :
    1 < c.edges.length := by
  obtain ⟨-, hlength, hedges⟩ := h.mem_clusters_iff.mp hc
  rwa [hedges]

/-- A cluster of a block has an edge of the block. -/
theorem MadeFor.exists_mem_of_mem_clusters (h : b.MadeFor g) (hc : c ∈ b.clusters) :
    ∃ e ∈ c.edges, e ∈ b.internal := by
  obtain ⟨-, hlength, hedges⟩ := h.mem_clusters_iff.mp hc
  obtain ⟨e, he⟩ := List.exists_mem_of_length_pos (Nat.zero_lt_of_lt hlength)
  exact ⟨e, hedges ▸ he, (Graph.mem_clusterEdges.mp he).2⟩

/-- A block has one cluster at a node. -/
theorem MadeFor.eq_of_node (h : b.MadeFor g) {c' : Cluster} (hc : c ∈ b.clusters)
    (hc' : c' ∈ b.clusters) (hnode : c.node = c'.node) : c = c' := by
  have hedges := (h.of_mem_clusters hc).1
  have hedges' := (h.of_mem_clusters hc').1
  obtain ⟨n, edges⟩ := c
  obtain ⟨n', edges'⟩ := c'
  obtain rfl : n = n' := hnode
  exact congrArg (Cluster.mk n) (hedges.trans hedges'.symm)

end MessagePassing.Block
