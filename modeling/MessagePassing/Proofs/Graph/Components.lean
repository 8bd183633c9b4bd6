import MessagePassing.Proofs.Graph.LeastClosure

/-!
# Connected components

Two edges of a set are linked if a chain of edges of the set leads from the one to the other, each
of which meets the next one at a node. The closure of one edge within the set, through nodes of any
kind, has the edges that are linked to it. So the components of a set are its classes of linked
edges, where edges are listed at their nodes.

Results:
* `LinkedIn.symm`, `LinkedIn.mem_iff`: linked edges of a set are a class within it.
* `Coherent.mem_closure_iff_linkedIn`: what an edge of a set grows to within the set.
* **`Coherent.mem_components_iff`**: the components are the classes of linked edges.
* `Coherent.mem_component_iff_of_meet`: a node has edges of one component only.
-/

namespace MessagePassing.Graph

variable {g : Graph} {E C : List EdgeId} {e f : EdgeId} {n : NodeId}

/-! ## Linked edges -/

/-- Two edges of a set meet at a node. -/
def MeetIn (g : Graph) (E : List EdgeId) (e f : EdgeId) : Prop :=
  e ∈ E ∧ f ∈ E ∧ ∃ n, e ∈ g.edgesAt n ∧ f ∈ g.edgesAt n

/-- A chain of edges of a set, each of which meets the next one, leads from an edge to another. -/
def LinkedIn (g : Graph) (E : List EdgeId) : EdgeId → EdgeId → Prop :=
  Relation.ReflTransGen (g.MeetIn E)

/-- Every edge of a set is listed at the nodes of its ends. -/
def ListedIn (g : Graph) (E : List EdgeId) : Prop :=
  ∀ e ∈ E, ∀ n ∈ g.endNodes e, e ∈ g.edgesAt n

theorem Listed.within (h : g.Listed) (E : List EdgeId) : g.ListedIn E :=
  fun e _ n hn => h e n hn

/-- There is an answer about edges that are listed, as the nodes at their ends exist. -/
theorem ListedIn.withEnds_eq_ok (hl : g.ListedIn E) {α : Type} {answer : α}
    (hE : ∀ e ∈ E, e < g.edges.length) : g.withEnds E answer = .ok answer := by
  unfold withEnds
  rw [withEdges_eq_ok.mpr ⟨hE, rfl⟩, ok_bind]
  refine withNodes_eq_ok.mpr ⟨fun n hn => ?_, rfl⟩
  obtain ⟨e, he, hn⟩ := mem_nodesOfEdges.mp hn
  exact node_lt_of_mem_edgesAt (hl e he n hn)

theorem MeetIn.symm (h : g.MeetIn E e f) : g.MeetIn E f e := by
  obtain ⟨he, hf, n, hen, hfn⟩ := h
  exact ⟨hf, he, n, hfn, hen⟩

theorem LinkedIn.symm (h : g.LinkedIn E e f) : g.LinkedIn E f e := by
  induction h with
  | refl => exact .refl
  | tail _ hlast ih => exact .head hlast.symm ih

/-- Edges that are linked are both in the set, or they are the same. -/
theorem LinkedIn.mem_iff (h : g.LinkedIn E e f) : e ∈ E ↔ f ∈ E := by
  induction h with
  | refl => exact Iff.rfl
  | tail _ hlast ih => exact ih.trans (iff_of_true hlast.1 hlast.2.1)

/-! ## Components as classes -/

/-- A set grows within itself, through nodes of any kind, to the edges that meet it. -/
theorem Coherent.mem_neighbours_iff_meetIn (hg : g.Coherent) (hl : g.ListedIn E) (he : e ∈ E) :
    f ∈ g.neighbours false E e ↔ g.MeetIn E e f := by
  rw [hg.mem_neighbours_iff]
  constructor
  · rintro ⟨n, hn, hf, hlim, -⟩
    exact ⟨he, hlim.resolve_left (List.ne_nil_of_mem he), n, hl e he n hn, hf⟩
  · rintro ⟨-, hfE, n, hen, hf⟩
    have hn := hg.mem_endNodes hen
    exact ⟨n, hn, hf, Or.inr hfE, _, List.getElem?_eq_getElem (node_lt_of_mem_edgesAt hf), nofun⟩

/-- **An edge of a set grows within the set to the edges that are linked to it.** -/
theorem Coherent.mem_closure_iff_linkedIn (hg : g.Coherent) (hl : g.ListedIn E)
    (hE : ∀ e ∈ E, e < g.edges.length) (he : e ∈ E) :
    f ∈ g.closure false E [e] ↔ g.LinkedIn E e f := by
  have hseed : ∀ s ∈ [e], s < g.edges.length := by simpa using hE e he
  rw [hg.mem_closure_iff hseed]
  simp only [List.mem_singleton, exists_eq_left]
  constructor
  · intro h
    induction h with
    | refl => exact .refl
    | tail _ hlast ih =>
      exact ih.tail ((hg.mem_neighbours_iff_meetIn hl (ih.mem_iff.mp he)).mp hlast)
  · intro h
    induction h with
    | refl => exact .refl
    | tail _ hlast ih => exact ih.tail ((hg.mem_neighbours_iff_meetIn hl hlast.1).mpr hlast)

/-- A component is the closure of an edge. -/
theorem exists_of_mem_componentsFrom {l : List EdgeId} (h : C ∈ g.componentsFrom E l) :
    ∃ e ∈ l, C = g.closure false E [e] := by
  fun_induction componentsFrom g E l with
  | case1 => exact absurd h List.not_mem_nil
  | case2 e rest c ih =>
    rcases List.mem_cons.mp h with rfl | h
    · exact ⟨e, List.mem_cons_self, rfl⟩
    · obtain ⟨s, hs, hC⟩ := ih h
      exact ⟨s, List.mem_cons_of_mem _ (List.mem_filter.mp hs).1, hC⟩

/-- Every edge lies in a component. -/
theorem Coherent.exists_mem_componentsFrom (hg : g.Coherent) {l : List EdgeId}
    (hlt : ∀ e ∈ l, e < g.edges.length) (he : e ∈ l) : ∃ C ∈ g.componentsFrom E l, e ∈ C := by
  fun_induction componentsFrom g E l with
  | case1 => exact absurd he List.not_mem_nil
  | case2 s rest c ih =>
    have hseed : s ∈ c :=
      (hg.mem_closure_iff (by simpa using hlt s List.mem_cons_self)).mpr
        ⟨s, List.mem_singleton_self s, .refl⟩
    by_cases hc : e ∈ c
    · exact ⟨c, List.mem_cons_self, hc⟩
    · -- an edge outside the first component is left for the others
      have hrest : e ∈ rest.removeAll c := by
        refine List.mem_filter.mpr ⟨(List.mem_cons.mp he).resolve_left ?_, by simpa using hc⟩
        rintro rfl
        exact hc hseed
      obtain ⟨C, hC, heC⟩ := ih
        (fun x hx => hlt x (List.mem_cons_of_mem _ (List.mem_filter.mp hx).1)) hrest
      exact ⟨C, List.mem_cons_of_mem _ hC, heC⟩

/-- **The components of a set are its classes of linked edges**, as ascending lists. -/
theorem Coherent.mem_components_iff (hg : g.Coherent) (hl : g.ListedIn E)
    (hE : ∀ e ∈ E, e < g.edges.length) :
    C ∈ g.components E ↔
      C.Pairwise (· < ·) ∧ ∃ e ∈ E, ∀ f, f ∈ C ↔ g.LinkedIn E e f := by
  constructor
  · intro hC
    obtain ⟨e, he, rfl⟩ := exists_of_mem_componentsFrom hC
    exact ⟨pairwise_closure, e, he, fun f => hg.mem_closure_iff_linkedIn hl hE he⟩
  · rintro ⟨hsorted, e, he, hmem⟩
    obtain ⟨D, hD, heD⟩ := hg.exists_mem_componentsFrom (E := E) hE he
    obtain ⟨s, hs, rfl⟩ := exists_of_mem_componentsFrom hD
    have hse := (hg.mem_closure_iff_linkedIn hl hE hs).mp heD
    have heq : C = g.closure false E [s] := by
      refine hsorted.eq_of_mem_iff pairwise_closure fun f => ?_
      rw [hmem, hg.mem_closure_iff_linkedIn hl hE hs]
      exact ⟨hse.trans, hse.symm.trans⟩
    rw [heq]
    exact hD

/-- A component lies in the set. -/
theorem Coherent.mem_of_mem_component (hg : g.Coherent) (hl : g.ListedIn E)
    (hE : ∀ e ∈ E, e < g.edges.length) (hC : C ∈ g.components E) (he : e ∈ C) : e ∈ E := by
  obtain ⟨-, s, hs, hmem⟩ := (hg.mem_components_iff hl hE).mp hC
  exact ((hmem e).mp he).mem_iff.mp hs

/-- At a node of a component, the edges of the set are those of the component. -/
theorem Coherent.mem_component_iff_of_meet (hg : g.Coherent) (hl : g.ListedIn E)
    (hE : ∀ e ∈ E, e < g.edges.length) (hC : C ∈ g.components E) (he : e ∈ C)
    (hen : e ∈ g.edgesAt n) (hfn : f ∈ g.edgesAt n) : f ∈ C ↔ f ∈ E := by
  refine ⟨hg.mem_of_mem_component hl hE hC, fun hf => ?_⟩
  obtain ⟨-, s, hs, hmem⟩ := (hg.mem_components_iff hl hE).mp hC
  have heE := hg.mem_of_mem_component hl hE hC he
  exact (hmem f).mpr (((hmem e).mp he).tail ⟨heE, hf, n, hen, hfn⟩)

end MessagePassing.Graph
