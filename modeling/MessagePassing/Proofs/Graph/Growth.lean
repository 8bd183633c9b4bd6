import MessagePassing.Proofs.Graph.Collider

/-!
# Colliders of growing sets

A set of edges that grows may get new prior nodes, and it may lose some: a prior node that gets a
second edge in the set injects no free variable any more. So a collider can be lost as the set
grows, but only through edges that are added at its own prior nodes.

Results:
* `mem_borderPriors_of_untouched`: a prior node at which no edge is added stays one.
* `Coherent.mem_borderPriors_iff_untouched`: no other prior node stays one, where edges are listed.
* **`Built.collider_of_grown`**: a collider is lost only if edges are added at all of its prior
  nodes but one.
* `not_collider_grown`: a collider that is lost.
-/

namespace MessagePassing.Graph

variable {g : Graph} {C D : List EdgeId} {n : NodeId}

/-- The edges of a set at a node belong to another set already. -/
def Untouched (g : Graph) (C D : List EdgeId) (n : NodeId) : Prop :=
  ∀ e ∈ D, n ∈ g.endNodes e → e ∈ C

/-- A set is a single component of its own, and all of its edges and nodes exist. -/
def Connected (g : Graph) (E : List EdgeId) : Prop :=
  g.withEnds E (g.components E) = .ok [E]

/-! ## Prior nodes of a larger set -/

theorem PriorIn.of_untouched (hg : g.Coherent) (hsub : ∀ e ∈ C, e ∈ D)
    (hn : g.Untouched C D n) (h : g.PriorIn C n) : g.PriorIn D n where
  first := by
    obtain ⟨i, hi, e, he, hie⟩ := h.first
    exact ⟨i, hi, e, hsub e he, hie⟩
  others p i hp hi e he hie :=
    h.others p i hp hi e (hn e he (hg.mem_endNodes (mem_edgesAt_of_getElem? hi hie))) hie

/-- A node at the border at which no edge is added stays there: its edges outside the smaller set
are outside the larger one. -/
theorem mem_boundaryNodes_of_untouched (hsub : ∀ e ∈ C, e ∈ D) (hn : g.Untouched C D n)
    (h : n ∈ g.boundaryNodes C) : n ∈ g.boundaryNodes D := by
  obtain ⟨hexternal, hinside⟩ := List.mem_filter.mp h
  obtain ⟨d, hd, hdn⟩ := mem_nodesOfEdges.mp (of_decide_eq_true hinside)
  have htouched : n ∈ g.nodesOfEdges D := mem_nodesOfEdges.mpr ⟨d, hsub d hd, hdn⟩
  obtain ⟨f, hf, hfn⟩ := mem_nodesOfEdges.mp hexternal
  obtain ⟨⟨e, he, m, hm, hfm⟩, hout⟩ := mem_externalEdges.mp hf
  have hexternal : f ∈ g.externalEdges D :=
    mem_externalEdges.mpr ⟨⟨e, hsub e he, m, hm, hfm⟩, fun hfD => hout (hn f hfD hfn)⟩
  exact List.mem_filter.mpr ⟨mem_nodesOfEdges.mpr ⟨f, hexternal, hfn⟩, decide_eq_true htouched⟩

/-- **A prior node at which no edge is added stays one.** -/
theorem mem_borderPriors_of_untouched (hg : g.Coherent) (hsub : ∀ e ∈ C, e ∈ D)
    (hn : g.Untouched C D n) (h : n ∈ g.borderPriors C) : n ∈ g.borderPriors D := by
  obtain ⟨hborder, hprior⟩ := List.mem_filter.mp h
  exact List.mem_filter.mpr ⟨mem_boundaryNodes_of_untouched hsub hn hborder,
    isPrior_iff.mpr ((isPrior_iff.mp hprior).of_untouched hg hsub hn)⟩

/-- **A prior node stays one just if no edge is added there**, where edges are listed. -/
theorem Coherent.mem_borderPriors_iff_untouched (hg : g.Coherent) (hl : g.Listed)
    (hsub : ∀ e ∈ C, e ∈ D) (h : n ∈ g.borderPriors C) :
    n ∈ g.borderPriors D ↔ g.Untouched C D n := by
  refine ⟨fun hD e he hen => ?_, fun hn => mem_borderPriors_of_untouched hg hsub hn h⟩
  have hpriorC := isPrior_iff.mp (List.mem_filter.mp h).2
  have hpriorD := isPrior_iff.mp (List.mem_filter.mp hD).2
  obtain ⟨i, hi, hie⟩ := List.mem_filterMap.mp (hl e n hen)
  obtain ⟨p, hp⟩ := List.mem_iff_getElem?.mp hi
  -- of the interfaces of a prior node, only the first has an edge of the set
  obtain rfl : p = 0 := by
    by_contra hne
    exact hpriorD.others p i (Nat.pos_of_ne_zero hne) hp e he hie
  obtain ⟨j, hj, d, hd, hjd⟩ := hpriorC.first
  cases hj.symm.trans hp
  cases hjd.symm.trans hie
  exact hd

/-! ## Colliders of a larger set -/

/-- Whether an answer about a set is given does not depend on the answer. -/
theorem withEnds_of_ok {α β : Type} {x y : α} (h : g.withEnds C x = .ok y) (answer : β) :
    g.withEnds C answer = .ok answer := by
  obtain ⟨nodes, hedges, hnodes⟩ := bind_eq_ok.mp h
  obtain ⟨hlt, rfl⟩ := withEdges_eq_ok.mp hedges
  exact bind_eq_ok.mpr ⟨_, withEdges_eq_ok.mpr ⟨hlt, rfl⟩,
    withNodes_eq_ok.mpr ⟨(withNodes_eq_ok.mp hnodes).1, rfl⟩⟩

theorem eq_of_withEnds {α : Type} {x y : α} (h : g.withEnds C x = .ok y) : x = y := by
  obtain ⟨nodes, -, hnodes⟩ := bind_eq_ok.mp h
  exact (withNodes_eq_ok.mp hnodes).2

/-- Of the prior nodes of a collider, a larger set either leaves two alone, or it has a further edge
at all but one. -/
theorem exists_untouched_pair_or (hcollider : g.componentHasCollider C = true) :
    (∃ m ∈ g.borderPriors C, ∃ n ∈ g.borderPriors C,
      m ≠ n ∧ g.Untouched C D m ∧ g.Untouched C D n) ∨
    ∃ n ∈ g.borderPriors C, ∀ m ∈ g.borderPriors C, m ≠ n → ¬g.Untouched C D m := by
  obtain ⟨k, hk, -⟩ := componentHasCollider_iff_mem.mp hcollider
  by_cases h : ∃ n ∈ g.borderPriors C, g.Untouched C D n
  · obtain ⟨n, hn, hun⟩ := h
    by_cases hm : ∃ m ∈ g.borderPriors C, m ≠ n ∧ g.Untouched C D m
    · obtain ⟨m, hm, hne, hum⟩ := hm
      exact Or.inl ⟨m, hm, n, hn, hne, hum, hun⟩
    · exact Or.inr ⟨n, hn, fun m hmem hne hum => hm ⟨m, hmem, hne, hum⟩⟩
  · exact Or.inr ⟨k, hk, fun m hm _ hum => h ⟨m, hm, hum⟩⟩

/-- **A collider is lost only if edges are added at all of its prior nodes but one.** Where edges
are listed, the prior nodes that stay are just those at which no edge is added. -/
theorem Built.collider_of_grown (hg : g.Built) (hD : g.Connected D) (hsub : ∀ e ∈ C, e ∈ D)
    (hcollider : g.withEnds C (g.componentHasCollider C) = .ok true) :
    (g.withEnds D (g.componentHasCollider D) = .ok true ∨
      ∃ n ∈ g.borderPriors C, ∀ m ∈ g.borderPriors C, m ≠ n → ¬g.Untouched C D m) ∧
    (g.Listed → ∀ n ∈ g.borderPriors C, n ∈ g.borderPriors D ↔ g.Untouched C D n) := by
  refine ⟨?_, fun hl n hn => hg.coherent.mem_borderPriors_iff_untouched hl hsub hn⟩
  refine (exists_untouched_pair_or (eq_of_withEnds hcollider)).imp_left ?_
  rintro ⟨m, hm, n, hn, hne, hum, hun⟩
  have hkept : g.componentHasCollider D = true := componentHasCollider_iff_mem.mpr
    ⟨m, mem_borderPriors_of_untouched hg.coherent hsub hum hm, n,
      mem_borderPriors_of_untouched hg.coherent hsub hun hn, hne⟩
  rw [withEnds_of_ok hD, hkept]

/-- Beside the edges of the priors, the set gets that of the sum. -/
theorem collider_grown_sibling : siblingGraph.Built ∧ siblingGraph.Connected [0, 1, 2] ∧
    (∀ e ∈ [0, 1], e ∈ [0, 1, 2]) ∧
    siblingGraph.withEnds [0, 1] (siblingGraph.componentHasCollider [0, 1]) = .ok true ∧
    siblingGraph.borderPriors [0, 1] = [0, 1] ∧ siblingGraph.Untouched [0, 1] [0, 1, 2] 0 ∧
    siblingGraph.Untouched [0, 1] [0, 1, 2] 1 ∧
    siblingGraph.withEnds [0, 1, 2] (siblingGraph.componentHasCollider [0, 1, 2]) = .ok true := by
  have hconnected : siblingGraph.Connected [0, 1, 2] := by unfold Connected; cbv
  have hsub : ∀ e ∈ [0, 1], e ∈ [0, 1, 2] := by decide
  have hcollider : siblingGraph.withEnds [0, 1] (siblingGraph.componentHasCollider [0, 1]) =
      .ok true := by cbv
  have hpriors : siblingGraph.borderPriors [0, 1] = [0, 1] := by cbv
  have hends : siblingGraph.endNodes 2 = [2] := by cbv
  have huntouched : ∀ n, n < 2 → siblingGraph.Untouched [0, 1] [0, 1, 2] n := by
    intro n hn e he hen
    simp only [List.mem_cons, List.not_mem_nil, or_false] at he ⊢
    rcases he with rfl | rfl | rfl
    · exact Or.inl rfl
    · exact Or.inr rfl
    · rw [hends, List.mem_singleton] at hen
      exact absurd hen (Nat.ne_of_lt hn)
  have h := (intact_siblingGraph.built.collider_of_grown hconnected hsub hcollider).1
  refine ⟨intact_siblingGraph.built, hconnected, hsub, hcollider, hpriors,
    huntouched 0 (by decide), huntouched 1 (by decide), h.resolve_right ?_⟩
  rintro ⟨n, hn, htouched⟩
  rw [hpriors] at hn htouched
  rcases List.mem_pair.mp hn with rfl | rfl
  · exact htouched 1 (by decide) (by decide) (huntouched 1 (by decide))
  · exact htouched 0 (by decide) (by decide) (huntouched 0 (by decide))

/-- **A collider may be lost**: with its second edge in the set, the first prior is none any more.
-/
theorem not_collider_grown : siblingGraph.Built ∧ siblingGraph.Listed ∧
    siblingGraph.Connected [0, 1] ∧ siblingGraph.Connected [0, 1, 3] ∧
    (∀ e ∈ [0, 1], e ∈ [0, 1, 3]) ∧
    siblingGraph.withEnds [0, 1] (siblingGraph.componentHasCollider [0, 1]) = .ok true ∧
    siblingGraph.withEnds [0, 1, 3] (siblingGraph.componentHasCollider [0, 1, 3]) = .ok false := by
  refine ⟨intact_siblingGraph.built, intact_siblingGraph.listed, ?_, ?_, by decide, by cbv, by cbv⟩
  · unfold Connected
    cbv
  · unfold Connected
    cbv

end MessagePassing.Graph
