import Mathlib.Data.Finset.Card
import MessagePassing.Proofs.Graph.Closure

/-!
# Borders

The border of a set of edges is where edges inside and outside the set meet. A node at the border is
soft, if the set is closed under growing through deterministic nodes. Where several edges of the set
meet at such a node, they stand in the order of its interfaces.

Results:
* `Coherent.mem_boundaryNodes_iff`: the nodes at the border, where edges are listed.
* `Built.one_lt_length_iff_meet`: when several edges of a set are at a node.
* **`Built.pairwise_edgesAt`**: the edges at a node are in the order of their positions.
-/

namespace MessagePassing.Graph

variable {g : Graph} {n : NodeId} {e f : EdgeId} {internal : List EdgeId}

/-! ## Nodes at the border -/

/-- An end of an edge inside, where an edge outside is listed, is at the border. -/
theorem Coherent.mem_boundaryNodes_of_end (hg : g.Coherent) (hn : n ∈ g.endNodes e)
    (hin : e ∈ internal) (hf : f ∈ g.edgesAt n) (hout : f ∉ internal) :
    n ∈ g.boundaryNodes internal := by
  have htouched : n ∈ g.nodesOfEdges internal := mem_nodesOfEdges.mpr ⟨e, hin, hn⟩
  have hexternal : f ∈ g.externalEdges internal := mem_externalEdges.mpr ⟨⟨e, hin, n, hn, hf⟩, hout⟩
  exact List.mem_filter.mpr
    ⟨mem_nodesOfEdges.mpr ⟨f, hexternal, hg.mem_endNodes hf⟩, decide_eq_true htouched⟩

/-- A node where edges inside and outside a set meet is at its border. -/
theorem Coherent.mem_boundaryNodes (hg : g.Coherent) (he : e ∈ g.edgesAt n) (hin : e ∈ internal)
    (hf : f ∈ g.edgesAt n) (hout : f ∉ internal) : n ∈ g.boundaryNodes internal :=
  hg.mem_boundaryNodes_of_end (hg.mem_endNodes he) hin hf hout

/-- **The border of a set is where edges inside and outside meet**, if edges are listed. -/
theorem Coherent.mem_boundaryNodes_iff (hg : g.Coherent) (hl : g.Listed) :
    n ∈ g.boundaryNodes internal ↔
      (∃ e ∈ g.edgesAt n, e ∈ internal) ∧ ∃ f ∈ g.edgesAt n, f ∉ internal := by
  constructor
  · intro hn
    obtain ⟨hn, htouched⟩ := List.mem_filter.mp hn
    obtain ⟨f, hf, hfn⟩ := mem_nodesOfEdges.mp hn
    obtain ⟨e, he, hen⟩ := mem_nodesOfEdges.mp (of_decide_eq_true htouched)
    exact ⟨⟨e, hl e n hen, he⟩, f, hl f n hfn, (mem_externalEdges.mp hf).2⟩
  · rintro ⟨⟨e, he, hin⟩, f, hf, hout⟩
    exact hg.mem_boundaryNodes he hin hf hout

theorem pairwise_boundaryNodes : (g.boundaryNodes internal).Pairwise (· < ·) :=
  (Ascending.pairwise_ofList _).filter _

/-! ## Edges that meet at a node -/

theorem mem_clusterEdges : e ∈ g.clusterEdges n internal ↔ e ∈ g.edgesAt n ∧ e ∈ internal := by
  unfold clusterEdges
  rw [List.mem_filter, decide_eq_true_iff]

theorem Built.nodup_clusterEdges (hg : g.Built) : (g.clusterEdges n internal).Nodup :=
  (hg.nodup_edgesAt n).filter _

theorem one_lt_length_iff {l : List Nat} (h : l.Nodup) :
    1 < l.length ↔ ∃ a ∈ l, ∃ b ∈ l, a ≠ b := by
  rw [← List.toFinset_card_of_nodup h, Finset.one_lt_card]
  simp only [List.mem_toFinset]

/-- Several edges of a set are at a node just when two of them meet there. -/
theorem Built.one_lt_length_iff_meet (hg : g.Built) : 1 < (g.clusterEdges n internal).length ↔
    ∃ e ∈ g.edgesAt n, ∃ f ∈ g.edgesAt n, e ∈ internal ∧ f ∈ internal ∧ e ≠ f := by
  rw [one_lt_length_iff hg.nodup_clusterEdges]
  simp only [mem_clusterEdges]
  constructor
  · rintro ⟨e, ⟨he, hein⟩, f, ⟨hf, hfin⟩, hne⟩
    exact ⟨e, he, f, hf, hein, hfin, hne⟩
  · rintro ⟨e, he, f, hf, hein, hfin, hne⟩
    exact ⟨e, ⟨he, hein⟩, f, ⟨hf, hfin⟩, hne⟩

/-- A set has several edges at a node just when it has another one beside a given one. -/
theorem Built.one_lt_length_clusterEdges (hg : g.Built) (he : e ∈ g.edgesAt n)
    (hin : e ∈ internal) : 1 < (g.clusterEdges n internal).length ↔
      ∃ e' ∈ g.edgesAt n, e' ∈ internal ∧ e' ≠ e := by
  rw [hg.one_lt_length_iff_meet]
  constructor
  · rintro ⟨a, ha, b, hb, hain, hbin, hne⟩
    by_cases h : a = e
    · exact ⟨b, hb, hbin, fun hbe => hne (h.trans hbe.symm)⟩
    · exact ⟨a, ha, hain, h⟩
  · rintro ⟨e', he', hin', hne⟩
    exact ⟨e', he', e, he, hin', hin, hne⟩

theorem clusterAt?_eq_some {c : Cluster} : g.clusterAt? internal n = some c ↔
    1 < (g.clusterEdges n internal).length ∧ ⟨n, g.clusterEdges n internal⟩ = c := by
  unfold clusterAt?
  dsimp only
  split <;> simp [*]

/-- The clusters at ascending nodes are in the order of these nodes. -/
theorem pairwise_clusters {nodes : List NodeId} (h : nodes.Pairwise (· < ·)) :
    (g.clusters internal nodes).Pairwise fun c d => c.node < d.node := by
  refine List.pairwise_filterMap.mpr (h.imp fun {m n} hmn c hc d hd => ?_)
  obtain ⟨-, rfl⟩ := clusterAt?_eq_some.mp hc
  obtain ⟨-, rfl⟩ := clusterAt?_eq_some.mp hd
  exact hmn

/-! ## Positions of edges -/

/-- The interface of an edge at a node has a smaller position than that of another edge. -/
def Precedes (g : Graph) (n : NodeId) (e f : EdgeId) : Prop :=
  ∃ i ∈ g.interfacesOf n, ∃ j ∈ g.interfacesOf n, g.edgeAt? i = some e ∧ g.edgeAt? j = some f ∧
    ∃ p q, g.position? i = some p ∧ g.position? j = some q ∧ p < q

theorem Built.position?_interfacesOf (hg : g.Built) {p : Nat} {i : InterfaceId}
    (h : (g.interfacesOf n)[p]? = some i) : g.position? i = some p := by
  obtain ⟨x, hx⟩ := exists_of_mem_interfacesOf (List.mem_of_getElem? h)
  rw [interfacesOf_of_some hx] at h
  obtain ⟨y, hy, -, rfl⟩ := hg.positioned hx h
  rw [position?, hy, Option.map_some]

/-- **The edges at a node are in the order of their positions.** -/
theorem Built.pairwise_edgesAt (hg : g.Built) : (g.edgesAt n).Pairwise (g.Precedes n) := by
  refine List.pairwise_filterMap.mpr (List.pairwise_iff_getElem.mpr ?_)
  intro p q hp hq hpq e he f hf
  exact ⟨_, List.getElem_mem hp, _, List.getElem_mem hq, he, hf, p, q,
    hg.position?_interfacesOf (List.getElem?_eq_getElem hp),
    hg.position?_interfacesOf (List.getElem?_eq_getElem hq), hpq⟩

end MessagePassing.Graph
