import MessagePassing.Graph.Closure
import MessagePassing.Proofs.Graph.Representation
import MessagePassing.Proofs.Traversal.Exploration

/-!
# Closures of edges

A set of edges grows through the deterministic nodes that it touches. Sharing such a node is
symmetric, so edges that are joined through deterministic nodes form classes, and a closure consists
of whole classes. This takes that an edge is listed at the nodes of its ends. It is, unless the
value of a node has been refused: the interfaces that are left behind then carry the number of the
next node, which does not list them.

Results:
* `Joined.symm`: edges that are joined through deterministic nodes are so in both directions.
* `Coherent.mem_closure_iff`: a closure is what its edges lead to, in every graph.
* **`leads_iff_joined`**: where edges are listed, a set leads to what is joined to it.
* `knownClosure_eq_ok`, `edgesOfVariables_eq_ok`: when there is an answer, and which.
* **`Intact.listed`**: edges are listed if every value that is given for a node can be read.
-/

namespace MessagePassing.Graph

variable {g : Graph} {i : InterfaceId} {e f : EdgeId} {n : NodeId} {A : List String}
  {stopAtSoft : Bool} {limit seeds l : List EdgeId}

/-! ## Edges and their nodes -/

/-- The ends of an edge have the edge. -/
theorem Coherent.edgeAt_of_mem_ends (hg : g.Coherent) (h : i ∈ g.ends e) :
    g.edgeAt? i = some e := by
  unfold ends at h
  cases hy : g.edges[e]? with
  | none => rw [hy] at h; exact absurd h List.not_mem_nil
  | some y =>
    rw [hy] at h
    have hend : ∃ z, g.interfaces[i]? = some z ∧ z.edge = some e := by
      rcases List.mem_cons.mp h with rfl | h
      · exact (hg.tail hy).imp fun _ h => ⟨h.1, h.2.1⟩
      · exact (hg.head hy (by simpa using h)).imp fun _ h => ⟨h.1, h.2.1⟩
    obtain ⟨z, hz, hze⟩ := hend
    rw [edgeAt?, hz, Option.bind_some, hze]

/-- An interface that has an edge is an end of it. -/
theorem Coherent.mem_ends (hg : g.Coherent) (h : g.edgeAt? i = some e) : i ∈ g.ends e := by
  obtain ⟨y, hy, hye⟩ := Option.bind_eq_some_iff.mp h
  obtain ⟨x, hx, hends⟩ := hg.bound hy hye
  unfold ends
  rw [hx]
  exact hends

theorem interfacesOf_of_some {x : Node} (hx : g.nodes[n]? = some x) :
    g.interfacesOf n = x.interfaces := by
  unfold interfacesOf
  rw [hx]
  rfl

/-- Only a node that exists has interfaces. -/
theorem exists_of_mem_interfacesOf (h : i ∈ g.interfacesOf n) : ∃ x, g.nodes[n]? = some x := by
  by_contra hnone
  unfold interfacesOf at h
  rw [Option.eq_none_iff_forall_ne_some.mpr fun x hx => hnone ⟨x, hx⟩] at h
  exact absurd h List.not_mem_nil

/-- An edge at a node has an end there. -/
theorem Coherent.mem_endNodes (hg : g.Coherent) (he : e ∈ g.edgesAt n) : n ∈ g.endNodes e := by
  obtain ⟨i, hi, hie⟩ := List.mem_filterMap.mp he
  obtain ⟨x, hx⟩ := exists_of_mem_interfacesOf hi
  rw [interfacesOf_of_some hx] at hi
  obtain ⟨y, hy, rfl⟩ := hg.interface_of_node hx hi
  exact List.mem_filterMap.mpr ⟨i, hg.mem_ends hie, by rw [hy, Option.map_some]⟩

/-- A node with an edge exists. -/
theorem node_lt_of_mem_edgesAt (he : e ∈ g.edgesAt n) : n < g.nodes.length := by
  obtain ⟨i, hi, -⟩ := List.mem_filterMap.mp he
  obtain ⟨x, hx⟩ := exists_of_mem_interfacesOf hi
  exact (List.getElem?_eq_some_iff.mp hx).1

/-- An edge at a node exists. -/
theorem Coherent.lt_of_mem_edgesAt (hg : g.Coherent) (he : e ∈ g.edgesAt n) :
    e < g.edges.length := by
  obtain ⟨i, -, he⟩ := List.mem_filterMap.mp he
  obtain ⟨y, hy, hye⟩ := Option.bind_eq_some_iff.mp he
  obtain ⟨x, hx, -⟩ := hg.bound hy hye
  exact (List.getElem?_eq_some_iff.mp hx).1

/-! ## Edges and their variables -/

theorem Coherent.owner_of_mem_edgesOf (hg : g.Coherent) {x : String} (h : e ∈ g.edgesOf x) :
    g.ownerOf? e = some x := by
  obtain ⟨y, hy, rfl⟩ := hg.owner h
  unfold ownerOf?
  rw [hy, Option.map_some]

theorem Coherent.mem_edgesOf_of_owner (hg : g.Coherent) {x : String} (h : g.ownerOf? e = some x) :
    e ∈ g.edgesOf x := by
  obtain ⟨y, hy, rfl⟩ := Option.map_eq_some_iff.mp h
  exact hg.owned hy

/-- An edge at an interface belongs to a variable. -/
theorem Coherent.exists_owner_of_edgeAt (hg : g.Coherent) (he : g.edgeAt? i = some e) :
    ∃ x, g.ownerOf? e = some x := by
  obtain ⟨y, hy, hye⟩ := Option.bind_eq_some_iff.mp he
  obtain ⟨x, hx, -⟩ := hg.bound hy hye
  exact ⟨x.owner, by rw [ownerOf?, hx, Option.map_some]⟩

/-! ## Joined edges -/

/-- Both edges have an end at a deterministic node. -/
def Shares (g : Graph) (e f : EdgeId) : Prop :=
  ∃ n ∈ g.endNodes e, n ∈ g.endNodes f ∧ ∃ x, g.nodes[n]? = some x ∧ x.deterministic = true

/-- A chain of edges, each of which shares a deterministic node with the next one, leads from an
edge to another. -/
def Joined (g : Graph) : EdgeId → EdgeId → Prop :=
  Relation.ReflTransGen g.Shares

/-- Every edge is listed at the nodes of its ends. -/
def Listed (g : Graph) : Prop :=
  ∀ e n, n ∈ g.endNodes e → e ∈ g.edgesAt n

theorem Shares.symm (h : g.Shares e f) : g.Shares f e := by
  obtain ⟨n, he, hf, hn⟩ := h
  exact ⟨n, hf, he, hn⟩

theorem Joined.symm (h : g.Joined e f) : g.Joined f e := by
  induction h with
  | refl => exact .refl
  | tail _ hlast ih => exact .head hlast.symm ih

/-! ## Closures -/

/-- A set that has the first edge grows to the second: a node that it may grow through has both, and
the limit admits the second. -/
def Spreads (g : Graph) (stopAtSoft : Bool) (limit : List EdgeId) (e f : EdgeId) : Prop :=
  ∃ n ∈ g.endNodes e, f ∈ g.edgesAt n ∧ (limit = [] ∨ f ∈ limit) ∧
    ∃ x, g.nodes[n]? = some x ∧ (stopAtSoft = true → x.deterministic = true)

theorem passes_iff {x : Node} :
    passes stopAtSoft x = true ↔ (stopAtSoft = true → x.deterministic = true) := by
  cases stopAtSoft <;> simp [passes]

theorem Coherent.mem_neighbours_iff (hg : g.Coherent) :
    f ∈ g.neighbours stopAtSoft limit e ↔ g.Spreads stopAtSoft limit e f := by
  unfold neighbours Spreads
  simp only [List.mem_flatMap, List.mem_filter, List.mem_filterMap, decide_eq_true_eq, passes_iff]
  constructor
  · rintro ⟨x, ⟨⟨n, hn, hx⟩, hdet⟩, hf, hlim⟩
    rw [hg.node_id hx] at hf
    exact ⟨n, hn, hf, hlim, x, hx, hdet⟩
  · rintro ⟨n, hn, hf, hlim, x, hx, hdet⟩
    refine ⟨x, ⟨⟨n, hn, hx⟩, hdet⟩, ?_, hlim⟩
    rwa [hg.node_id hx]

/-- Where edges are listed, a set grows to the edges that share a deterministic node with it. -/
theorem Coherent.mem_neighbours_iff_shares (hg : g.Coherent) (hl : g.Listed) :
    f ∈ g.neighbours true [] e ↔ g.Shares e f := by
  rw [hg.mem_neighbours_iff]
  constructor
  · rintro ⟨n, hn, hf, -, x, hx, hdet⟩
    exact ⟨n, hn, hg.mem_endNodes hf, x, hx, hdet rfl⟩
  · rintro ⟨n, hn, hf, x, hx, hdet⟩
    exact ⟨n, hn, hl f n hf, Or.inl rfl, x, hx, fun _ => hdet⟩

/-- **Where edges are listed, a set leads to what is joined to it.** -/
theorem leads_iff_joined (hg : g.Coherent) (hl : g.Listed) :
    Leads (g.neighbours true []) e f ↔ g.Joined e f := by
  have hstep : (fun x y => y ∈ g.neighbours true [] x) = g.Shares := by
    funext x y
    exact propext (hg.mem_neighbours_iff_shares hl)
  unfold Leads Joined
  rw [hstep]

theorem Coherent.mem_closure_iff (hg : g.Coherent) (hs : ∀ s ∈ seeds, s < g.edges.length) :
    e ∈ g.closure stopAtSoft limit seeds ↔
      ∃ s ∈ seeds, Leads (g.neighbours stopAtSoft limit) s e := by
  have hnext : ∀ x ∈ List.range g.edges.length, ∀ y ∈ g.neighbours stopAtSoft limit x,
      y ∈ List.range g.edges.length := by
    intro x _ y hy
    obtain ⟨n, -, hy, -⟩ := hg.mem_neighbours_iff.mp hy
    exact List.mem_range.mpr (hg.lt_of_mem_edgesAt hy)
  have hseeds : ∀ s ∈ seeds, s ∈ List.range g.edges.length := fun s h => List.mem_range.mpr (hs s h)
  unfold closure
  rw [List.mem_filter, decide_eq_true_eq, ← mem_explore_iff hseeds hnext]
  exact ⟨And.right, fun h => ⟨mem_unseen_of_mem_explore h, h⟩⟩

theorem withEdges_eq_ok {α : Type} {answer a : α} :
    g.withEdges seeds answer = .ok a ↔ (∀ s ∈ seeds, s < g.edges.length) ∧ answer = a := by
  have hall : seeds.all (· < g.edges.length) = true ↔ ∀ s ∈ seeds, s < g.edges.length := by simp
  rw [← hall]
  unfold withEdges
  split <;> simp [*]

theorem withNodes_eq_ok {α : Type} {nodes : List NodeId} {answer a : α} :
    g.withNodes nodes answer = .ok a ↔ (∀ n ∈ nodes, n < g.nodes.length) ∧ answer = a := by
  have hall : nodes.all (· < g.nodes.length) = true ↔ ∀ n ∈ nodes, n < g.nodes.length := by simp
  rw [← hall]
  unfold withNodes
  split <;> simp [*]

theorem mem_nodesOfEdges : n ∈ g.nodesOfEdges l ↔ ∃ e ∈ l, n ∈ g.endNodes e := by
  unfold nodesOfEdges
  rw [Ascending.mem_ofList, List.mem_flatMap]

/-- The edges at the border of a set are those outside it at the nodes that it touches. -/
theorem mem_externalEdges : e ∈ g.externalEdges l ↔
    (∃ f ∈ l, ∃ n ∈ g.endNodes f, e ∈ g.edgesAt n) ∧ e ∉ l := by
  unfold externalEdges edgesOfNodes
  simp only [List.mem_filter, Ascending.mem_ofList, List.mem_flatMap, mem_nodesOfEdges,
    decide_eq_true_eq]
  refine and_congr_left fun _ => ?_
  constructor
  · rintro ⟨n, ⟨f, hf, hn⟩, he⟩
    exact ⟨f, hf, n, hn, he⟩
  · rintro ⟨f, hf, n, hn, he⟩
    exact ⟨n, ⟨f, hf, hn⟩, he⟩

theorem lt_of_mem_closure (he : e ∈ g.closure stopAtSoft limit seeds) : e < g.edges.length :=
  List.mem_range.mp (List.mem_filter.mp he).1

/-- A closure is known if the edges that it starts from and the nodes that it touches exist. -/
theorem knownClosure_eq_ok : g.knownClosure stopAtSoft limit seeds = .ok l ↔
    (∀ s ∈ seeds, s < g.edges.length) ∧ g.closure stopAtSoft limit seeds = l ∧
      ∀ e ∈ l, ∀ n ∈ g.endNodes e, n < g.nodes.length := by
  unfold knownClosure withEnds
  simp only [bind_eq_ok, withEdges_eq_ok, withNodes_eq_ok]
  constructor
  · rintro ⟨_, ⟨hs, rfl⟩, _, ⟨-, rfl⟩, hn, rfl⟩
    exact ⟨hs, rfl, fun e he n hne => hn n (mem_nodesOfEdges.mpr ⟨e, he, hne⟩)⟩
  · rintro ⟨hs, rfl, hn⟩
    refine ⟨_, ⟨hs, rfl⟩, _, ⟨fun _ => lt_of_mem_closure, rfl⟩, fun n hne => ?_, rfl⟩
    obtain ⟨e, he, hne⟩ := mem_nodesOfEdges.mp hne
    exact hn e he n hne

theorem edgesOfVariables_eq_ok : g.edgesOfVariables A = .ok l ↔
    (∀ x ∈ A, g.variableEdges.contains x = true) ∧ Ascending.ofList (A.flatMap g.edgesOf) = l := by
  unfold edgesOfVariables
  split
  · rename_i x hx
    have hmem := List.mem_of_find?_eq_some hx
    have hnone := List.find?_some hx
    simp only [reduceCtorEq, false_iff, not_and]
    intro hall
    rw [hall x hmem] at hnone
    contradiction
  · rename_i hnone
    simpa using fun _ => hnone

/-! ## Where edges are listed -/

/-- The graphs that calls lead to which give nodes only values that can be read. -/
inductive Intact : Graph → Prop
  | empty : Intact ∅
  | addNode {g : Graph} (hg : Intact g) (r : NodeRequest)
      (hr : ∃ observed, r.value.mapM Tensor.ofNested = .ok observed) :
      Intact ((Graph.addNode r).outcome g).2
  | addClamp {g : Graph} (hg : Intact g) (value : Nested) (name : Option String) :
      Intact ((Graph.addClamp value name).outcome g).2
  | connect {g : Graph} (hg : Intact g) (tail : InterfaceRef) (head : Option InterfaceRef)
      (owner : Option String) (declared : Option TypeTerm) :
      Intact ((Graph.connect tail head owner declared).outcome g).2

theorem Intact.unspoilt (h : Intact g) : Unspoilt g := by
  induction h with
  | empty => exact .empty
  | addNode _ r hr ih =>
    refine .call ih (.addNode r) ?_
    rintro ⟨-, f, hf⟩
    obtain ⟨observed, hr⟩ := hr
    rw [hr] at hf
    contradiction
  | addClamp _ value name ih => exact .call ih (.addClamp value name) id
  | connect _ tail head owner declared ih => exact .call ih (.connect tail head owner declared) id

theorem Intact.built (h : Intact g) : Built g :=
  h.unspoilt.built

theorem Unspoilt.listed (h : Unspoilt g) : g.Listed := by
  intro e n hn
  obtain ⟨i, hi, hn⟩ := List.mem_filterMap.mp hn
  exact List.mem_filterMap.mpr ⟨i, h.arranged.listed hn, h.built.coherent.edgeAt_of_mem_ends hi⟩

/-- **Edges are listed, if every value that is given for a node can be read.** -/
theorem Intact.listed (h : Intact g) : g.Listed :=
  h.unspoilt.listed

/-- Where edges are listed, the nodes at their ends exist. -/
theorem Listed.lt_of_mem_endNodes (h : g.Listed) (hn : n ∈ g.endNodes e) : n < g.nodes.length :=
  node_lt_of_mem_edgesAt (h e n hn)

end MessagePassing.Graph
