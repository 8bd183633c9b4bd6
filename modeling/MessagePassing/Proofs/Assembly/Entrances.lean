import MessagePassing.Proofs.Assembly.Ownership

/-!
# Where values enter a block

What an update reads from outside its block is a marginal of another block or an observed value. The
scheduler decides by determinism and by the edges of the block which type of update computes a
message, the assembly finds out on its own, interface by interface, where the arguments come from.
They agree: outside edges meet edges of the block at its border, where the nodes are soft and the
updates are not of the sum-product type.

The schedule has messages along all edges of the variables in scope. The statements are about blocks
that have all of these edges; other blocks compute messages at nodes that they do not touch.

Results:
* `ruleType_eq_sumProduct`: when an update is of the sum-product type.
* `entrances_of_compiled`: where values enter a compiled block.
* **`Posterior.entrances_of_compile`**: the same for the blocks that compiling answers.
-/

namespace MessagePassing

namespace Graph

variable {g : Graph} {i : InterfaceId} {e : EdgeId} {x : Node}

/-- An interface of a node that exists is an end of its edge there. -/
theorem Coherent.mem_endNodes_of_nodeOf? (hg : g.Coherent) (he : g.edgeAt? i = some e)
    (hx : g.nodeOf? i = some x) : x.id ∈ g.endNodes e := by
  obtain ⟨y, hy, hx⟩ := Option.bind_eq_some_iff.mp hx
  refine List.mem_filterMap.mpr ⟨i, hg.mem_ends he, ?_⟩
  rw [hy, Option.map_some, hg.node_id hx]

end Graph

namespace Block

variable {b : Block} {g : Graph} {c : Catalogue} {sites : List InterfaceId} {i : InterfaceId}

/-- The block has all edges of its variables. -/
def Whole (g : Graph) (b : Block) : Prop :=
  ∀ x ∈ b.scope, ∀ e ∈ g.edgesOf x, e ∈ b.internal

/-- Where values from outside enter a block. -/
structure Entrances (g : Graph) (b : Block) : Prop where
  /-- Every scheduled message runs along an edge of the block. -/
  scheduled : ∀ i ∈ b.order, ∃ e ∈ b.internal, g.edgeAt? i = some e
  /-- An entry that reads a marginal or an observed value is at the border. -/
  entry : ∀ e ∈ b.schedule, (∃ s ∈ e.inbounds, s.Outside) → e.node ∈ b.boundary
  /-- An entry of the sum-product type reads messages only, or nothing. -/
  sumProduct : ∀ e ∈ b.schedule, e.ruleType = .sumProduct →
    ∀ s ∈ e.inbounds, s = .nothing ∨ ∃ i, s = .message i
  /-- A marginal that is computed from another one or from an observed value is that of a cluster at
  the border. -/
  marginal : ∀ m ∈ b.marginalTable, (∃ s ∈ m.inbounds, s.Outside) →
    ∃ n, m.plan.node? = some n ∧ n ∈ b.boundary

/-! ## Types of updates -/

/-- Updates of the sum-product type are at deterministic nodes, and at nodes all interfaces of which
have edges of the block. -/
theorem ruleType_eq_sumProduct {x : Node} (hx : g.nodeOf? i = some x)
    (h : b.ruleType g sites i = .sumProduct) :
    x.deterministic = true ∨ ∀ j ∈ x.interfaces, b.covers g j = true := by
  unfold ruleType Graph.siblings at h
  rw [hx] at h
  split at h
  · contradiction
  · split at h
    · rename_i hdet
      exact Or.inl hdet
    · split at h
      · rename_i hcovers
        exact Or.inr (List.all_eq_true.mp hcovers)
      · contradiction

/-! ## Entries -/

/-- An interface that has an edge of the block or of a variable in its scope has an edge of the
block, if that has all edges of its variables. -/
theorem Whole.exists_internal (hall : b.Whole g)
    (h : ∃ e, g.edgeAt? i = some e ∧ (e ∈ b.internal ∨ ∃ x ∈ b.scope, e ∈ g.edgesOf x)) :
    ∃ e ∈ b.internal, g.edgeAt? i = some e := by
  obtain ⟨e, he, hin | ⟨x, hx, hex⟩⟩ := h
  · exact ⟨e, hin, he⟩
  · exact ⟨e, hall x hx e hex, he⟩

/-- The messages of a block that has all edges of its variables run along these edges. -/
theorem Planned.exists_internal (h : b.Planned g sites) (hg : g.Coherent)
    (hall : b.Whole g) (hi : i ∈ b.order) :
    ∃ e ∈ b.internal, g.edgeAt? i = some e :=
  hall.exists_internal (h.of_mem_order hg hi)

/-- The node of an entry is at an end of an edge of the block. -/
theorem Planned.exists_end (h : b.Planned g sites) (hg : g.Coherent)
    (hall : b.Whole g) {e : ScheduleEntry}
    (he : e ∈ b.schedule) : ∃ f ∈ b.internal, e.node ∈ g.endNodes f := by
  obtain ⟨f, hin, hf⟩ := h.exists_internal hg hall (List.mem_map_of_mem he)
  obtain ⟨-, x, hx, hnode, -⟩ := h.exists_node hg he
  refine ⟨f, hin, ?_⟩
  rw [← hg.node_id (Graph.node_eq_ok.mp hnode)]
  exact hg.mem_endNodes_of_nodeOf? hf hx

/-- An entry of the sum-product type is at a node the edges of which all belong to the block. -/
theorem Planned.mem_internal_of_sumProduct (h : b.Planned g sites) (hg : g.Coherent)
    (hb : b.MadeFor g) (hall : b.Whole g)
    {e : ScheduleEntry} (he : e ∈ b.schedule) (hsum : e.ruleType = .sumProduct) {f : EdgeId}
    {j : InterfaceId} (hj : j ∈ g.interfacesOf e.node) (hf : g.edgeAt? j = some f) :
    f ∈ b.internal := by
  obtain ⟨hrule, x, hx, hnode, -⟩ := h.exists_node hg he
  have hx' := Graph.node_eq_ok.mp hnode
  rcases ruleType_eq_sumProduct hx (hrule.symm.trans hsum) with hdet | hcovers
  · -- the block has grown through the node
    obtain ⟨d, hin, hend⟩ := h.exists_end hg hall he
    have hfn : f ∈ g.edgesAt e.node := List.mem_filterMap.mpr ⟨j, hj, hf⟩
    exact hb.closedUnder hg d hin e.node hend x hx' (fun _ => hdet) f hfn (Or.inl rfl)
  · rw [Graph.interfacesOf_of_some hx'] at hj
    have hcover := hcovers j hj
    unfold covers at hcover
    rw [hf, Option.any_some, decide_eq_true_iff] at hcover
    exact hcover

/-- What an assembled entry reads from outside comes through an edge outside the block. -/
theorem Assembled.exists_outside (h : b.Assembled g c) {e : ScheduleEntry} (he : e ∈ b.schedule)
    {s : Source} (hs : s ∈ e.inbounds) (ho : s.Outside) :
    ∃ j ∈ g.interfacesOf e.node, ∃ f, g.edgeAt? j = some f ∧ f ∉ b.internal := by
  obtain ⟨p, hentries⟩ := h.entries
  obtain ⟨pre, post, hsplit⟩ := List.append_of_mem he
  cases hentries pre e post hsplit with
  | observed _ _ hinbounds _ =>
    rw [hinbounds, List.mem_singleton] at hs
    rw [hs] at ho
    exact ho.elim
  | rule _ _ hsources _ _ _ _ _ => exact Posterior.exists_outside_of_sources hsources hs ho

/-- **Marginals and observed values enter a compiled block at its border only.** -/
theorem entrances_of_compiled (hg : g.Coherent) (hb : b.MadeFor g) (h : b.Compiled g c sites)
    (hall : b.Whole g) : b.Entrances g where
  scheduled i hi := h.prepared.planned.exists_internal hg hall hi
  entry e he := by
    rintro ⟨s, hs, ho⟩
    obtain ⟨j, hj, f, hf, hout⟩ := h.assembled.exists_outside he hs ho
    obtain ⟨d, hin, hend⟩ := h.prepared.planned.exists_end hg hall he
    rw [hb.boundary_eq]
    exact hg.mem_boundaryNodes_of_end hend hin (List.mem_filterMap.mpr ⟨j, hj, hf⟩) hout
  sumProduct e he hsum s hs := by
    refine Source.not_outside_iff.mp fun ho => ?_
    obtain ⟨j, hj, f, hf, hout⟩ := h.assembled.exists_outside he hs ho
    exact hout (h.prepared.planned.mem_internal_of_sumProduct hg hb hall he hsum hj hf)
  marginal m hm := by
    rintro ⟨s, hs, ho⟩
    obtain ⟨p, hsettled⟩ := h.assembled.marginals m hm
    cases hsettled with
    | copy _ _ hinbounds _ =>
      rw [hinbounds, List.mem_singleton] at hs
      rw [hs] at ho
      exact ho.elim
    | product _ _ _ _ hinbounds _ _ =>
      rw [hinbounds] at hs
      obtain ⟨i, -, rfl⟩ := List.mem_map.mp hs
      exact ho.elim
    | joint hplan _ _ _ _ _ _ =>
      obtain ⟨x, hx, rfl, -⟩ := h.prepared.exists_cluster hm hplan
      exact ⟨x.node, by rw [hplan]; rfl, (hb.mem_clusters_iff.mp hx).1⟩

end Block

namespace Posterior

variable {g : Graph} {c : Catalogue} {p q : Posterior} {sites : List InterfaceId}
  {ids : List String}

/-- **Marginals and observed values enter a block at its border only**, if the block has all edges
of its variables and has been compiled for the graph that it was made for. -/
theorem entrances_of_compile (hg : g.Built) (hp : Built g p) {reject : Option Bool}
    (h : compile g c sites reject p = .ok ids q) :
    ∃ blocks, ids.mapM q.block = .ok blocks ∧ ∀ b ∈ blocks,
      b.Whole g → b.Entrances g := by
  obtain ⟨blocks, hblocks, hcompiled⟩ := exists_blocks_of_compile hp h
  refine ⟨blocks, hblocks, fun b hb hall => ?_⟩
  obtain ⟨-, hmade, hc⟩ := hcompiled b hb
  exact Block.entrances_of_compiled hg.coherent hmade hc hall

/-- A soft node with a prior at its second edge and an observed value at the third. Its first edge
leads to a function the result of which dangles. -/
def noisyGraph : Graph :=
  let copy : NodeRequest := { kind := "copy", interfaces := 2, deterministic := true }
  let g := ((Graph.addNode { kind := "noisy", interfaces := 3 }).outcome ∅).2
  let g := ((Graph.addNode copy).outcome g).2
  let g := ((Graph.addNode { kind := "prior", interfaces := 1 }).outcome g).2
  let g := ((Graph.addClamp (.num (.whole 1)) (some "w")).outcome g).2
  let g := ((Graph.connect (.numbered 0) (some (.numbered 3)) (some "x") none).outcome g).2
  let g := ((Graph.connect (.numbered 4) none (some "y") none).outcome g).2
  let g := ((Graph.connect (.numbered 5) (some (.numbered 1)) (some "m")
    (some (.dist "Gaussian" []))).outcome g).2
  ((Graph.connect (.numbered 6) (some (.numbered 2)) (some "w") none).outcome g).2

theorem built_noisyGraph : noisyGraph.Built :=
  .connect (.connect (.connect (.connect (.addClamp (.addNode (.addNode (.addNode .empty _) _) _)
    _ _) _ _ _ _) _ _ _ _) _ _ _ _) _ _ _ _

/-- Rules for the two messages of the first edge, and for their product. -/
def noisyCatalogue : Catalogue where
  rules :=
    [{ key := ⟨"noisy", .variational, some 0⟩
       inbounds := [.void, .dist "Gaussian" [], .any]
       outbound := .pattern (.dist "Gaussian" [])
       procedure := some fun _ => .ok (.dist "Gaussian" [] ∅) },
     { key := ⟨"copy", .sumProduct, some 0⟩
       inbounds := [.void, .void]
       outbound := .pattern (.dist "Gaussian" [])
       procedure := some fun _ => .ok (.dist "Gaussian" [] ∅) },
     { key := ⟨"product", .product, none⟩
       inbounds := [.message (.dist "Gaussian" []), .message (.dist "Gaussian" [])]
       outbound := .pattern (.dist "Gaussian" [])
       procedure := some fun _ => .ok (.dist "Gaussian" [] ∅) }]

/-- The posterior with a block for the first variable. -/
def noisyPosterior : Posterior :=
  ((addBlock noisyGraph ["x"] (some "x")).outcome { options := wholeOptions }).2

theorem built_noisyPosterior : Built noisyGraph noisyPosterior :=
  .addBlock (.fresh _) _ _

/-- The soft node reads a marginal and an observed value, and it is the border of the block. -/
theorem entrances_noisy : noisyGraph.Built ∧ Built noisyGraph noisyPosterior ∧
    ∃ q b, compile noisyGraph noisyCatalogue [] none noisyPosterior = .ok ["x"] q ∧
      ["x"].mapM q.block = .ok [b] ∧ b.Whole noisyGraph ∧ b.Entrances noisyGraph ∧
      b.boundary = [0] ∧ b.schedule.map (fun e => (e.node, e.ruleType, e.inbounds)) =
        [(0, .variational, [.nothing, .marginal (.variable "m"), .constant 3]),
          (1, .sumProduct, [.nothing, .nothing])] := by
  have hok : ((compile noisyGraph noisyCatalogue [] none).outcome noisyPosterior).1 =
      .ok ["x"] := by cbv
  have hblock : (((compile noisyGraph noisyCatalogue [] none).outcome
      noisyPosterior).2.blocks.get? "x").map (fun b => (b.scope, b.internal, b.boundary,
        b.schedule.map fun e => (e.node, e.ruleType, e.inbounds))) =
      some (["x"], [0, 1], [0],
        [(0, .variational, [.nothing, .marginal (.variable "m"), .constant 3]),
          (1, .sumProduct, [.nothing, .nothing])]) := by cbv
  obtain ⟨q, b, h, hb, hparts⟩ := exists_block_of_outcome hok hblock
  simp only [Prod.mk.injEq] at hparts
  obtain ⟨hscope, hinternal, hboundary, hschedule⟩ := hparts
  have hwhole : b.Whole noisyGraph := by
    have hx : noisyGraph.edgesOf "x" = [0] := by cbv
    intro x hmem e he
    rw [hscope, List.mem_singleton] at hmem
    rw [hmem, hx, List.mem_singleton] at he
    rw [he, hinternal]
    exact List.mem_cons_self
  obtain ⟨blocks, hblocks, hentrances⟩ :=
    entrances_of_compile built_noisyGraph built_noisyPosterior h
  cases hb.symm.trans hblocks
  exact ⟨built_noisyGraph, built_noisyPosterior, q, b, h, hb, hwhole,
    hentrances b List.mem_cons_self hwhole, hboundary, hschedule⟩

end Posterior

end MessagePassing
