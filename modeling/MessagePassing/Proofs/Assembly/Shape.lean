import MessagePassing.Proofs.Assembly.Outline
import MessagePassing.Proofs.Assembly.Overlap

/-!
# The shape of a block

The outline of a block is computed in three passes over the graph: the closure of the requested
edges, the nodes where it meets other edges, and the edges that meet at each of these nodes. Where
edges are listed at the nodes of their ends, the passes agree on what the border is. The closure
ends at soft nodes only, so the border is soft.

Results:
* `shape_ofEdges`: the outline of the closure of some edges.
* **`exists_shape_of_ofVariables`**: every list of existing variables has a block of this shape.
* `not_soft_stray`: after a refused value, a function of its inputs may be at the border.
-/

namespace MessagePassing.Block

variable {g : Graph} {id : String} {A : List String} {internal : List EdgeId} {n : NodeId}

/-- The edges of a block, its border, and what it has there. -/
structure Shape (g : Graph) (requested : List String) (b : Block) : Prop where
  /-- The edges of the block are the least closed set with those of the requested variables. -/
  least : IsLeast (g.closedOver true [] (requested.flatMap g.edgesOf)) {e | e ∈ b.internal}
  /-- The border is where edges inside and outside the block meet. -/
  mem_boundary : ∀ n, n ∈ b.boundary ↔
    (∃ e ∈ g.edgesAt n, e ∈ b.internal) ∧ ∃ f ∈ g.edgesAt n, f ∉ b.internal
  /-- The nodes there are soft. -/
  soft : ∀ n ∈ b.boundary, ∃ x, g.nodes[n]? = some x ∧ x.deterministic = false
  /-- The variables in scope are the requested ones and those of the edges of the block there. -/
  mem_scope : ∀ x, x ∈ b.scope ↔ x ∈ requested ∨
    ∃ n ∈ b.boundary, ∃ e ∈ g.edgesAt n, e ∈ b.internal ∧ g.ownerOf? e = some x
  /-- There is at most one cluster at a node, -/
  nodup_nodes : (b.clusters.map (·.node)).Nodup
  /-- and there is one just where two edges of the block meet at the border. -/
  mem_nodes : ∀ n, n ∈ b.clusters.map (·.node) ↔ n ∈ b.boundary ∧
    ∃ e ∈ g.edgesAt n, ∃ f ∈ g.edgesAt n, e ∈ b.internal ∧ f ∈ b.internal ∧ e ≠ f
  /-- A cluster has the edges of the block at its node, -/
  mem_edges : ∀ c ∈ b.clusters, ∀ e, e ∈ c.edges ↔ e ∈ g.edgesAt c.node ∧ e ∈ b.internal
  /-- each of them once, -/
  nodup_edges : ∀ c ∈ b.clusters, c.edges.Nodup
  /-- in the order of the positions of their interfaces. -/
  ascending : ∀ c ∈ b.clusters, c.edges.Pairwise (g.Precedes c.node)

/-! ## Outlines of closures -/

/-- A set that grows through deterministic nodes has no such node at its border. -/
theorem soft_of_closedUnder (hg : g.Coherent) (hl : g.Listed)
    (hclosed : g.ClosedUnder true [] {e | e ∈ internal}) (hn : n ∈ g.boundaryNodes internal) :
    ∃ x, g.nodes[n]? = some x ∧ x.deterministic = false := by
  obtain ⟨⟨e, he, hin⟩, f, hf, hout⟩ := (hg.mem_boundaryNodes_iff hl).mp hn
  have hend := hg.mem_endNodes he
  have hx := List.getElem?_eq_getElem (hl.lt_of_mem_endNodes hend)
  refine ⟨_, hx, Bool.eq_false_iff.mpr fun hdet => ?_⟩
  exact hout (hclosed e hin n hend _ hx (fun _ => hdet) f hf (Or.inl rfl))

theorem shape_ofEdges (hg : g.Built) (hl : g.Listed)
    (hleast : IsLeast (g.closedOver true [] (A.flatMap g.edgesOf)) {e | e ∈ internal}) :
    (ofEdges g id A internal).Shape g A where
  least := hleast
  mem_boundary n := hg.coherent.mem_boundaryNodes_iff hl
  soft n hn := soft_of_closedUnder hg.coherent hl hleast.1.2 hn
  mem_scope x := mem_scope_ofEdges
  nodup_nodes := by
    rw [clusters_ofEdges]
    refine List.pairwise_map.mpr ?_
    exact (Graph.pairwise_clusters Graph.pairwise_boundaryNodes).imp fun h => Nat.ne_of_lt h
  mem_nodes n := by
    refine List.mem_map.trans ⟨?_, ?_⟩
    · rintro ⟨c, hc, rfl⟩
      obtain ⟨hn, hlength, -⟩ := mem_clusters_ofEdges.mp hc
      exact ⟨hn, hg.one_lt_length_iff_meet.mp hlength⟩
    · rintro ⟨hn, hmeet⟩
      exact ⟨⟨n, g.clusterEdges n internal⟩,
        mem_clusters_ofEdges.mpr ⟨hn, hg.one_lt_length_iff_meet.mpr hmeet, rfl⟩, rfl⟩
  mem_edges c hc e := by
    rw [(mem_clusters_ofEdges.mp hc).2.2]
    exact Graph.mem_clusterEdges
  nodup_edges c hc := by
    rw [(mem_clusters_ofEdges.mp hc).2.2]
    exact hg.nodup_clusterEdges
  ascending c hc := by
    rw [(mem_clusters_ofEdges.mp hc).2.2]
    exact hg.pairwise_edgesAt.filter _

/-! ## Blocks of variables -/

/-- **Every list of existing variables has a block, whose border is soft and has the clusters that
meet there**, where edges are listed at their nodes. -/
theorem exists_shape_of_ofVariables (hg : g.Built) (hl : g.Listed) (hA : A ≠ [])
    (hx : ∀ x ∈ A, g.variableEdges.contains x = true) (id : String) :
    ∃ b, ofVariables g id A = .ok b ∧ b.Shape g A := by
  obtain ⟨b, hb⟩ := exists_ofVariables hg.coherent hl id hx
  refine ⟨b, hb, ?_⟩
  unfold ofVariables at hb
  rw [if_neg hA] at hb
  obtain ⟨edges, hedges, hb⟩ := bind_eq_ok.mp hb
  obtain ⟨internal, hinternal, hb⟩ := bind_eq_ok.mp hb
  have hleast := hg.coherent.isLeast_of_known hinternal
  rw [← (Graph.edgesOfVariables_eq_ok.mp hedges).2, Graph.closedOver_ofList] at hleast
  rw [← pure_eq_ok.mp hb]
  exact shape_ofEdges hg hl hleast

/-- A soft node of three edges, two of which meet again at a sum. -/
def loopGraph : Graph :=
  let sum : NodeRequest := { kind := "sum", interfaces := 2, deterministic := true }
  let g := ((Graph.addNode { kind := "joint", interfaces := 3 }).outcome ∅).2
  let g := ((Graph.addNode sum).outcome g).2
  let g := ((Graph.connect (.numbered 0) (some (.numbered 3)) (some "x") none).outcome g).2
  let g := ((Graph.connect (.numbered 1) (some (.numbered 4)) (some "z") none).outcome g).2
  ((Graph.connect (.numbered 2) none (some "y") none).outcome g).2

theorem intact_loopGraph : loopGraph.Intact :=
  .connect (.connect (.connect (.addNode (.addNode .empty _ ⟨none, rfl⟩) _ ⟨none, rfl⟩) _ _ _ _)
    _ _ _ _) _ _ _ _

/-- The block of a variable has both edges of the sum, and a cluster where they meet at the soft
node. -/
theorem shape_loop : loopGraph.Built ∧ loopGraph.Listed ∧ ["x"] ≠ [] ∧
    (∀ x ∈ ["x"], loopGraph.variableEdges.contains x = true) ∧
    ∃ b, ofVariables loopGraph "b" ["x"] = .ok b ∧ b.Shape loopGraph ["x"] ∧
      b.boundary = [0] ∧ b.scope = ["x", "z"] ∧ b.clusters = [⟨0, [0, 1]⟩] := by
  have hx : ∀ x ∈ ["x"], loopGraph.variableEdges.contains x = true := by simp; cbv
  have hrun : (ofVariables loopGraph "b" ["x"]).map
      (fun b => (b.boundary, b.scope, b.clusters)) = .ok ([0], ["x", "z"], [⟨0, [0, 1]⟩]) := by
    cbv
  obtain ⟨b, hb, hshape⟩ := exists_shape_of_ofVariables intact_loopGraph.built
    intact_loopGraph.listed (List.cons_ne_nil _ _) hx "b"
  obtain ⟨b', hb', hparts⟩ := map_eq_ok.mp hrun
  cases hb.symm.trans hb'
  simp only [Prod.mk.injEq] at hparts
  exact ⟨intact_loopGraph.built, intact_loopGraph.listed, List.cons_ne_nil _ _, hx, b, hb, hshape,
    hparts⟩

/-- A sum that is joined to a pair, and an edge from the other end of the pair to the interface that
a refused value has left behind. That interface carries the number of the sum. -/
def strayPair : Graph :=
  let sum : NodeRequest := { kind := "sum", interfaces := 2, deterministic := true }
  let g := ((Graph.addNode sum).outcome refusedGraph).2
  let g := ((Graph.addNode { kind := "pair", interfaces := 2 }).outcome g).2
  let g := ((Graph.connect (.numbered 1) (some (.numbered 3)) (some "x") none).outcome g).2
  ((Graph.connect (.numbered 0) (some (.numbered 4)) (some "y") none).outcome g).2

theorem built_strayPair : strayPair.Built :=
  .connect (.connect (.addNode (.addNode (.addNode .empty _) _) _) _ _ _ _) _ _ _ _

/-- **After a refused value, a function of its inputs may be at the border**, although it lists no
edge outside the block. -/
theorem not_soft_stray : strayPair.Built ∧
    (∀ x ∈ ["x"], strayPair.variableEdges.contains x = true) ∧
    ∃ b, ofVariables strayPair "x" ["x"] = .ok b ∧ 0 ∈ b.boundary ∧
      (strayPair.nodes[0]?).map (·.deterministic) = some true ∧
      (∀ f ∈ strayPair.edgesAt 0, f ∈ b.internal) ∧ ¬b.Shape strayPair ["x"] := by
  have hrun : (ofVariables strayPair "x" ["x"]).map (fun b => (b.boundary, b.internal)) =
      .ok ([0, 1], [0]) := by cbv
  have hedges : strayPair.edgesAt 0 = [0] := by cbv
  have hdet : (strayPair.nodes[0]?).map (·.deterministic) = some true := by cbv
  obtain ⟨b, hb, hparts⟩ := map_eq_ok.mp hrun
  simp only [Prod.mk.injEq] at hparts
  have hboundary : 0 ∈ b.boundary := by
    rw [hparts.1]
    exact List.mem_cons_self
  refine ⟨built_strayPair, by simp; cbv, b, hb, hboundary, hdet, ?_, fun hshape => ?_⟩
  · rw [hedges, hparts.2]
    exact fun _ h => h
  · obtain ⟨x, hx, hsoft⟩ := hshape.soft 0 hboundary
    rw [hx, Option.map_some, hsoft] at hdet
    contradiction

end MessagePassing.Block
