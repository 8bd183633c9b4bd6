import Mathlib.Control.Traversable.Instances
import Mathlib.Data.List.Permutation
import MessagePassing.Proofs.Graph.Closure
import MessagePassing.Block.Basic

/-!
# Where blocks overlap

The edges of a block are those that its variables lead to through deterministic nodes. In a graph
whose edges are listed at the nodes of their ends these are whole classes of joined edges, so two
blocks share whole classes.

Results:
* `mem_internal_iff`: the edges of a block are what its variables lead to, in every graph.
* **`overlap_of_ofVariables`**: where edges are listed, two blocks overlap just if an edge of the
  one's variables is joined to an edge of the other's, and then they share whole classes.
* `not_whole_orphan`: after a refused value, blocks may share a part of a class.
-/

namespace MessagePassing.Block

variable {g : Graph} {id : String} {A : List String} {a : Block} {e : EdgeId}

/-- A block of some variables has the closure of their edges. -/
theorem internal_of_ofVariables (hA : A ≠ []) (h : ofVariables g id A = .ok a) :
    ∃ edges, g.edgesOfVariables A = .ok edges ∧ g.knownClosure true [] edges = .ok a.internal := by
  unfold ofVariables at h
  rw [if_neg hA] at h
  obtain ⟨edges, hedges, h⟩ := bind_eq_ok.mp h
  obtain ⟨internal, hinternal, h⟩ := bind_eq_ok.mp h
  cases pure_eq_ok.mp h
  exact ⟨edges, hedges, hinternal⟩

/-- **The edges of a block are those that its variables lead to.** -/
theorem mem_internal_iff (hg : g.Coherent) (hA : A ≠ []) (h : ofVariables g id A = .ok a) :
    e ∈ a.internal ↔
      ∃ x ∈ A, ∃ s ∈ g.edgesOf x, Leads (g.neighbours true []) s e := by
  obtain ⟨edges, hedges, hinternal⟩ := internal_of_ofVariables hA h
  obtain ⟨-, rfl⟩ := Graph.edgesOfVariables_eq_ok.mp hedges
  obtain ⟨hlt, hclosure, -⟩ := Graph.knownClosure_eq_ok.mp hinternal
  rw [← hclosure, hg.mem_closure_iff hlt]
  simp only [Ascending.mem_ofList, List.mem_flatMap]
  constructor
  · rintro ⟨s, ⟨x, hx, hs⟩, hse⟩
    exact ⟨x, hx, s, hs, hse⟩
  · rintro ⟨x, hx, s, hs, hse⟩
    exact ⟨s, ⟨x, hx, hs⟩, hse⟩

/-- Where edges are listed, existing variables have a block. -/
theorem exists_ofVariables (hg : g.Coherent) (hl : g.Listed) (id : String)
    (hA : ∀ x ∈ A, g.variableEdges.contains x = true) : ∃ a, ofVariables g id A = .ok a := by
  unfold ofVariables
  split
  · exact ⟨_, rfl⟩
  · have hlt : ∀ s ∈ Ascending.ofList (A.flatMap g.edgesOf), s < g.edges.length := by
      intro s hs
      obtain ⟨x, -, hs⟩ := List.mem_flatMap.mp (Ascending.mem_ofList.mp hs)
      obtain ⟨y, hy, -⟩ := hg.owner hs
      exact (List.getElem?_eq_some_iff.mp hy).1
    rw [Graph.edgesOfVariables_eq_ok.mpr ⟨hA, rfl⟩, ok_bind,
      Graph.knownClosure_eq_ok.mpr ⟨hlt, rfl, fun _ _ _ => hl.lt_of_mem_endNodes⟩]
    exact ⟨_, rfl⟩

/-- **Two blocks share whole classes of joined edges.** Where edges are listed, blocks of existing
variables overlap just if an edge of the one's variables is joined to an edge of the other's, and
of joined edges they share all or none. -/
theorem overlap_of_ofVariables (hg : g.Built) (hl : g.Listed) {A B : List String} (hA : A ≠ [])
    (hB : B ≠ []) (hxA : ∀ x ∈ A, g.variableEdges.contains x = true)
    (hxB : ∀ x ∈ B, g.variableEdges.contains x = true) (id id' : String) :
    ∃ a b, ofVariables g id A = .ok a ∧ ofVariables g id' B = .ok b ∧
      ((∃ e, e ∈ a.internal ∧ e ∈ b.internal) ↔
        ∃ x ∈ A, ∃ s ∈ g.edgesOf x, ∃ y ∈ B, ∃ t ∈ g.edgesOf y, g.Joined s t) ∧
      ∀ e f, g.Joined e f →
        (e ∈ a.internal ∧ e ∈ b.internal ↔ f ∈ a.internal ∧ f ∈ b.internal) := by
  obtain ⟨a, ha⟩ := exists_ofVariables hg.coherent hl id hxA
  obtain ⟨b, hb⟩ := exists_ofVariables hg.coherent hl id' hxB
  have hmem : ∀ {id C c}, C ≠ [] → ofVariables g id C = .ok c → ∀ e,
      e ∈ c.internal ↔ ∃ x ∈ C, ∃ s ∈ g.edgesOf x, g.Joined s e := by
    intro id C c hC hc e
    simp only [mem_internal_iff hg.coherent hC hc, Graph.leads_iff_joined hg.coherent hl]
  have hclosed : ∀ {id C c}, C ≠ [] → ofVariables g id C = .ok c → ∀ {e f}, g.Joined e f →
      e ∈ c.internal → f ∈ c.internal := by
    intro id C c hC hc e f hef he
    obtain ⟨x, hx, s, hs, hse⟩ := (hmem hC hc e).mp he
    exact (hmem hC hc f).mpr ⟨x, hx, s, hs, hse.trans hef⟩
  refine ⟨a, b, ha, hb, ⟨?_, ?_⟩, fun e f hef => ⟨?_, ?_⟩⟩
  · rintro ⟨e, hea, heb⟩
    obtain ⟨x, hx, s, hs, hse⟩ := (hmem hA ha e).mp hea
    obtain ⟨y, hy, t, ht, hte⟩ := (hmem hB hb e).mp heb
    exact ⟨x, hx, s, hs, y, hy, t, ht, hse.trans hte.symm⟩
  · rintro ⟨x, hx, s, hs, y, hy, t, ht, hst⟩
    exact ⟨t, (hmem hA ha t).mpr ⟨x, hx, s, hs, hst⟩, (hmem hB hb t).mpr ⟨y, hy, t, ht, .refl⟩⟩
  · rintro ⟨hea, heb⟩
    exact ⟨hclosed hA ha hef hea, hclosed hB hb hef heb⟩
  · rintro ⟨hfa, hfb⟩
    exact ⟨hclosed hA ha hef.symm hfa, hclosed hB hb hef.symm hfb⟩

/-- A node with rows of different lengths as its value, which is refused. -/
def raggedRequest : NodeRequest where
  kind := "map"
  interfaces := 1
  value := some (.list [.list [.num (.whole 1)], .list [.num (.whole 2), .num (.whole 3)]])

/-- What is left of the empty graph when the value is refused. -/
def refusedGraph : Graph :=
  ((Graph.addNode raggedRequest).outcome ∅).2

/-- The graph with an equality, and with edges that dangle at its first two interfaces. -/
def equalityGraph (g : Graph) : Graph :=
  let n : NodeRequest := { kind := "equality", interfaces := 2, deterministic := true }
  let g := ((Graph.addNode n).outcome g).2
  let g := ((Graph.connect (.numbered 0) none (some "x") none).outcome g).2
  ((Graph.connect (.numbered 1) none (some "y") none).outcome g).2

theorem intact_equalityGraph : (equalityGraph ∅).Intact :=
  .connect (.connect (.addNode .empty _ ⟨none, rfl⟩) _ _ _ _) _ _ _ _

theorem built_equalityGraph {g : Graph} (hg : g.Built) : (equalityGraph g).Built :=
  .connect (.connect (.addNode hg _) _ _ _ _) _ _ _ _

theorem joined_equality {g : Graph} (hzero : (equalityGraph g).endNodes 0 = [0])
    (hone : (equalityGraph g).endNodes 1 = [0])
    (hnode : ((equalityGraph g).nodes[0]?).map (·.deterministic) = some true) :
    (equalityGraph g).Joined 0 1 := by
  obtain ⟨x, hx, hdet⟩ := Option.map_eq_some_iff.mp hnode
  refine .single ⟨0, ?_, ?_, x, hx, hdet⟩
  · rw [hzero]
    exact List.mem_singleton_self 0
  · rw [hone]
    exact List.mem_singleton_self 0

/-- The blocks of the two variables overlap, and share both edges of the equality or none. -/
theorem overlap_equality : (equalityGraph ∅).Built ∧ (equalityGraph ∅).Listed ∧
    ["x"] ≠ [] ∧ ["y"] ≠ [] ∧
    (∀ x ∈ ["x"], (equalityGraph ∅).variableEdges.contains x = true) ∧
    (∀ x ∈ ["y"], (equalityGraph ∅).variableEdges.contains x = true) ∧
    ∃ a b, ofVariables (equalityGraph ∅) "x" ["x"] = .ok a ∧
      ofVariables (equalityGraph ∅) "y" ["y"] = .ok b ∧
      (∃ e, e ∈ a.internal ∧ e ∈ b.internal) ∧ (equalityGraph ∅).Joined 0 1 ∧
      (0 ∈ a.internal ∧ 0 ∈ b.internal ↔ 1 ∈ a.internal ∧ 1 ∈ b.internal) := by
  have hg := built_equalityGraph .empty
  have hl := intact_equalityGraph.listed
  have hx : ∀ x ∈ ["x"], (equalityGraph ∅).variableEdges.contains x = true := by simp; cbv
  have hy : ∀ x ∈ ["y"], (equalityGraph ∅).variableEdges.contains x = true := by simp; cbv
  have hedges : (equalityGraph ∅).edgesOf "x" = [0] ∧ (equalityGraph ∅).edgesOf "y" = [1] := by cbv
  have hjoined : (equalityGraph ∅).Joined 0 1 :=
    joined_equality (by cbv) (by cbv) (by cbv)
  obtain ⟨a, b, ha, hb, hoverlap, hwhole⟩ :=
    overlap_of_ofVariables hg hl (A := ["x"]) (B := ["y"])
      (List.cons_ne_nil _ _) (List.cons_ne_nil _ _) hx hy "x" "y"
  refine ⟨hg, hl, List.cons_ne_nil _ _, List.cons_ne_nil _ _, hx, hy, a, b, ha, hb,
    hoverlap.mpr ?_, hjoined, hwhole 0 1 hjoined⟩
  refine ⟨"x", List.mem_singleton_self _, 0, ?_, "y", List.mem_singleton_self _, 1, ?_, hjoined⟩
  · rw [hedges.1]
    exact List.mem_singleton_self 0
  · rw [hedges.2]
    exact List.mem_singleton_self 1

/-- **After a refused value, blocks may share a part of a class**: the interface that is left behind
carries the number of the next node, which does not list it. -/
theorem not_whole_orphan : (equalityGraph refusedGraph).Built ∧
    (equalityGraph refusedGraph).Joined 0 1 ∧
    ∃ a b, ofVariables (equalityGraph refusedGraph) "x" ["x"] = .ok a ∧
      ofVariables (equalityGraph refusedGraph) "y" ["y"] = .ok b ∧
      (1 ∈ a.internal ∧ 1 ∈ b.internal) ∧ ¬ (0 ∈ a.internal ∧ 0 ∈ b.internal) := by
  have hblocks :
      (ofVariables (equalityGraph refusedGraph) "x" ["x"]).map (·.internal) = .ok [0, 1] ∧
        (ofVariables (equalityGraph refusedGraph) "y" ["y"]).map (·.internal) = .ok [1] := by cbv
  obtain ⟨a, ha, hx⟩ := map_eq_ok.mp hblocks.1
  obtain ⟨b, hb, hy⟩ := map_eq_ok.mp hblocks.2
  refine ⟨built_equalityGraph (.addNode .empty _), joined_equality (by cbv) (by cbv) (by cbv),
    a, b, ha, hb, ?_, ?_⟩
  · rw [hx, hy]
    simp
  · rw [hy]
    simp

end MessagePassing.Block
