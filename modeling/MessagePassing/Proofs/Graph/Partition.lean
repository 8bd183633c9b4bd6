import MessagePassing.Proofs.Graph.Components

/-!
# The components of a set of edges partition it

The components of a set are taken off one by one: the closure of the smallest edge that is left,
within the whole set and not within what is left. It is the class of the edges that are linked to
that edge, so what is left stays a union of classes, and no edge is taken twice. This takes that the
edges of the set are listed at the nodes of their ends.

Results:
* `Coherent.pairwise_componentsFrom`: each component starts below the later ones, and meets none.
* **`Built.partition_components`**: the components partition the set into its classes.
* `not_partition_stray`: where an edge ends at an interface that a node does not list, components
  may overlap.
-/

namespace MessagePassing.Graph

variable {g : Graph} {E l : List EdgeId} {e f : EdgeId}

/-! ## Edges that share a node -/

/-- Edges of a set that touch one node are linked. -/
theorem ListedIn.linkedIn_of_mem_endNodes (hl : g.ListedIn E) (he : e ∈ E) (hf : f ∈ E)
    {n : NodeId} (hen : n ∈ g.endNodes e) (hfn : n ∈ g.endNodes f) : g.LinkedIn E e f :=
  .single ⟨he, hf, n, hl e he n hen, hl f hf n hfn⟩

/-! ## Taking off components -/

/-- What is left of a set holds all edges that are linked to one of its edges. -/
def Whole (g : Graph) (E l : List EdgeId) : Prop :=
  ∀ e ∈ l, ∀ f, g.LinkedIn E e f → f ∈ l

/-- Taking off a component leaves whole classes. -/
theorem Whole.removeAll (hg : g.Coherent) (hl : g.ListedIn E)
    (hE : ∀ e ∈ E, e < g.edges.length) (he : e ∈ E) (h : g.Whole E (e :: l)) :
    g.Whole E (l.removeAll (g.closure false E [e])) := by
  intro x hx f hxf
  obtain ⟨hxl, hxc⟩ := List.mem_filter.mp hx
  have hfree : ¬g.LinkedIn E e x := fun hex => by
    simp [(hg.mem_closure_iff_linkedIn hl hE he).mpr hex] at hxc
  have hfc : ¬g.LinkedIn E e f := fun hef => hfree (hef.trans hxf.symm)
  refine List.mem_filter.mpr ⟨?_, ?_⟩
  · refine (List.mem_cons.mp (h x (List.mem_cons_of_mem _ hxl) f hxf)).resolve_left ?_
    rintro rfl
    exact hfc .refl
  · simpa [hg.mem_closure_iff_linkedIn hl hE he] using hfc

/-- **Each component starts below the later ones, and has no edge of them.** -/
theorem Coherent.pairwise_componentsFrom (hg : g.Coherent) (hl : g.ListedIn E)
    (hE : ∀ e ∈ E, e < g.edges.length) (hsub : ∀ e ∈ l, e ∈ E) (hsorted : l.Pairwise (· < ·))
    (hwhole : g.Whole E l) :
    (g.componentsFrom E l).Pairwise fun C D =>
      C.Disjoint D ∧ ∃ c ∈ C, ∀ d ∈ D, c < d := by
  fun_induction componentsFrom g E l with
  | case1 => exact List.Pairwise.nil
  | case2 e rest c ih =>
    have he : e ∈ E := hsub e List.mem_cons_self
    obtain ⟨hlow, hrest⟩ := List.pairwise_cons.mp hsorted
    have hleft := hwhole.removeAll hg hl hE he
    have hsub' : ∀ x ∈ rest.removeAll c, x ∈ E := fun x hx =>
      hsub x (List.mem_cons_of_mem _ (List.mem_filter.mp hx).1)
    refine List.pairwise_cons.mpr ⟨fun D hD => ?_, ih hsub' (hrest.filter _) hleft⟩
    -- the edges of a later component are linked to one that is left, so they are left, too
    obtain ⟨s, hs, rfl⟩ := exists_of_mem_componentsFrom hD
    have hD : ∀ d ∈ g.closure false E [s], d ∈ rest.removeAll c := fun d hd =>
      hleft s hs d ((hg.mem_closure_iff_linkedIn hl hE (hsub' s hs)).mp hd)
    refine ⟨fun x hxc hxD => ?_, e, ?_, fun d hd => hlow d (List.mem_filter.mp (hD d hd)).1⟩
    · simpa [hxc] using (List.mem_filter.mp (hD x hxD)).2
    · exact (hg.mem_closure_iff_linkedIn hl hE he).mpr .refl

/-! ## The partition -/

/-- Ascending lists of edges partition a set into its classes of linked edges. -/
structure Partition (g : Graph) (E : List EdgeId) (Cs : List (List EdgeId)) : Prop where
  ascending : ∀ C ∈ Cs, C.Pairwise (· < ·)
  nonempty : ∀ C ∈ Cs, C ≠ []
  disjoint : Cs.Pairwise List.Disjoint
  /-- Together they have the edges of the set. -/
  union : ∀ e, (∃ C ∈ Cs, e ∈ C) ↔ e ∈ E
  /-- They are in the order of their smallest edges. -/
  ordered : Cs.Pairwise fun C D => ∃ c ∈ C, ∀ d ∈ D, c < d
  /-- Edges of the set are in one list just if they are linked. -/
  linked : ∀ e ∈ E, ∀ f ∈ E, (∃ C ∈ Cs, e ∈ C ∧ f ∈ C) ↔ g.LinkedIn E e f
  /-- Different lists touch different nodes. -/
  apart : Cs.Pairwise fun C D => (g.nodesOfEdges C).Disjoint (g.nodesOfEdges D)

theorem Coherent.partition_of_listedIn (hg : g.Coherent) (hsorted : E.Pairwise (· < ·))
    (hE : ∀ e ∈ E, e < g.edges.length) (hl : g.ListedIn E) : g.Partition E (g.components E) := by
  have hpairs : (g.components E).Pairwise fun C D => C.Disjoint D ∧ ∃ c ∈ C, ∀ d ∈ D, c < d :=
    hg.pairwise_componentsFrom hl hE (fun _ h => h) hsorted fun _ he _ hef => hef.mem_iff.mp he
  have hclass := fun C => hg.mem_components_iff (C := C) hl hE
  have hcover : ∀ e ∈ E, ∃ C ∈ g.components E, e ∈ C := fun e he =>
    hg.exists_mem_componentsFrom hE he
  have hinside : ∀ C ∈ g.components E, ∀ e ∈ C, e ∈ E := fun C hC e =>
    hg.mem_of_mem_component hl hE hC
  refine
    { ascending := fun C hC => ((hclass C).mp hC).1
      nonempty := fun C hC => ?_
      disjoint := hpairs.imp And.left
      union := fun e => ⟨fun ⟨C, hC, he⟩ => hinside C hC e he, hcover e⟩
      ordered := hpairs.imp And.right
      linked := fun e he f hf => ⟨?_, fun hef => ?_⟩
      apart := ?_ }
  · obtain ⟨-, s, -, hmem⟩ := (hclass C).mp hC
    exact List.ne_nil_of_mem ((hmem s).mpr .refl)
  · rintro ⟨C, hC, heC, hfC⟩
    obtain ⟨-, s, -, hmem⟩ := (hclass C).mp hC
    exact ((hmem e).mp heC).symm.trans ((hmem f).mp hfC)
  · obtain ⟨C, hC, heC⟩ := hcover e he
    obtain ⟨-, s, -, hmem⟩ := (hclass C).mp hC
    exact ⟨C, hC, heC, (hmem f).mpr (((hmem e).mp heC).trans hef)⟩
  · refine hpairs.imp_of_mem fun {C D} hC hD h n hnC hnD => ?_
    obtain ⟨e, he, hen⟩ := mem_nodesOfEdges.mp hnC
    obtain ⟨f, hf, hfn⟩ := mem_nodesOfEdges.mp hnD
    have hef := hl.linkedIn_of_mem_endNodes (hinside C hC e he) (hinside D hD f hf) hen hfn
    obtain ⟨-, s, -, hmem⟩ := (hclass C).mp hC
    exact h.1 ((hmem f).mpr (((hmem e).mp he).trans hef)) hf

/-- **The components of a set of edges partition it**, if its edges are listed at the nodes of their
ends. So they are in every graph, if no value of a node has been refused (`Unspoilt.listed`). -/
theorem Built.partition_components (hg : g.Built) (hsorted : E.Pairwise (· < ·))
    (hE : ∀ e ∈ E, e < g.edges.length) (hl : g.ListedIn E) :
    ∃ Cs, g.withEnds E (g.components E) = .ok Cs ∧ g.Partition E Cs :=
  ⟨_, hl.withEnds_eq_ok hE, hg.coherent.partition_of_listedIn hsorted hE hl⟩

/-- Two nodes that an edge joins, a third one apart, and an edge that dangles at each of the last
two. -/
def splitGraph : Graph :=
  let node (k : ℤ) : NodeRequest := { kind := "prior", interfaces := k }
  let g := Call.after (.addNode (node 1)) ∅
  let g := Call.after (.addNode (node 2)) g
  let g := Call.after (.addNode (node 1)) g
  let g := Call.after (.connect (.numbered 0) (some (.numbered 1)) (some "x") none) g
  let g := Call.after (.connect (.numbered 3) none (some "z") none) g
  Call.after (.connect (.numbered 2) none (some "y") none) g

theorem intact_splitGraph : splitGraph.Intact := by
  have hread (k : ℤ) : ∃ observed, (({ kind := "prior", interfaces := k } : NodeRequest).value).mapM
      Tensor.ofNested = .ok observed := ⟨none, rfl⟩
  have hnodes := ((Intact.empty.addNode _ (hread 1)).addNode _ (hread 2)).addNode _ (hread 1)
  exact ((hnodes.connect _ _ _ _).connect _ _ _ _).connect _ _ _ _

/-- The third edge belongs to the component of the first. -/
theorem partition_split : splitGraph.Built ∧ [0, 1, 2].Pairwise (· < ·) ∧
    (∀ e ∈ [0, 1, 2], e < splitGraph.edges.length) ∧ splitGraph.ListedIn [0, 1, 2] ∧
    splitGraph.Partition [0, 1, 2] [[0, 2], [1]] := by
  have hg := intact_splitGraph.built
  have hsorted : [0, 1, 2].Pairwise (· < ·) := by decide
  have hE : ∀ e ∈ [0, 1, 2], e < splitGraph.edges.length := by simp; cbv
  have hl := intact_splitGraph.listed.within [0, 1, 2]
  have hanswer : splitGraph.withEnds [0, 1, 2] (splitGraph.components [0, 1, 2]) =
      .ok [[0, 2], [1]] := by cbv
  obtain ⟨Cs, hCs, h⟩ := hg.partition_components hsorted hE hl
  cases hanswer.symm.trans hCs
  exact ⟨hg, hsorted, hE, hl, h⟩

/-- A node, and an interface that a refused value has left behind with the number of the node. An
edge dangles at the interface of the node, a second one at the stray interface. -/
def strayEdges : Graph :=
  let g := Call.after (.addNode unevenRequest) ∅
  let g := Call.after (.addNode { kind := "prior", interfaces := 1 }) g
  let g := Call.after (.connect (.numbered 1) none (some "x") none) g
  Call.after (.connect (.numbered 0) none (some "y") none) g

/-- **After a refused value, components may overlap**: the stray interface leads to the node, whose
interfaces do not lead back. -/
theorem not_partition_stray : strayEdges.Built ∧ [0, 1].Pairwise (· < ·) ∧
    (∀ e ∈ [0, 1], e < strayEdges.edges.length) ∧
    strayEdges.withEnds [0, 1] (strayEdges.components [0, 1]) = .ok [[0], [0, 1]] ∧
    ¬strayEdges.Partition [0, 1] [[0], [0, 1]] := by
  refine ⟨(((Built.empty.after _).after _).after _).after _, by decide, by simp; cbv, by cbv,
    fun h => ?_⟩
  have hdisjoint := (List.pairwise_cons.mp h.disjoint).1 [0, 1] (List.mem_singleton_self _)
  exact hdisjoint (List.mem_singleton_self 0) List.mem_cons_self

end MessagePassing.Graph
