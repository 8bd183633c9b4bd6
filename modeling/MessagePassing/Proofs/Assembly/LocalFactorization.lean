import MessagePassing.Proofs.Assembly.Overwriting
import MessagePassing.Proofs.Assembly.MeanField

/-!
# The factorization at a node

What the blocks do at one node is put together from two registries: whom each edge there belongs to,
and which target stands for it. The answers are entered in one table, interface by interface, so
that a later edge may overwrite what an earlier one has entered. Between blocks without a common
edge nothing is lost by that. All edges of a block at the node give the same answer, and edges of
different blocks, or of none, are entered apart from each other.

That is so where a block meets an edge that is not its own. At a node inside of a block the edges of
the block need not be registered, and pass for edges of no block then.

Results:
* `Posterior.Built.ownerOf_eq_block`, `Posterior.Built.ownerOf_eq_unassigned`: whom an edge at a
  node belongs to.
* **`Posterior.Built.factored_of_bordersAt`**: the items of the factorization at a node.
-/

namespace MessagePassing

/-! ## Edges at a node -/

namespace Graph

variable {g : Graph} {n : NodeId} {e : EdgeId}

/-- All interfaces of a node are bound. -/
def Saturated (g : Graph) (n : NodeId) : Prop :=
  ∀ i ∈ g.interfacesOf n, ∃ e, g.edgeAt? i = some e

theorem mapM_edgeAt {l : List InterfaceId} (h : ∀ i ∈ l, ∃ e, g.edgeAt? i = some e) :
    l.mapM g.edgeAt = .ok (l.filterMap g.edgeAt?) := by
  induction l with
  | nil => rfl
  | cons i l ih =>
    obtain ⟨⟨e, he⟩, hl⟩ := List.forall_mem_cons.mp h
    have hat : g.edgeAt i = .ok e := by
      unfold edgeAt
      rw [he]
    rw [List.mapM_cons, hat, ok_bind, ih hl, List.filterMap_cons, he]
    rfl

/-- Where all interfaces are bound, the edges at the node are found interface by interface. -/
theorem Saturated.boundEdges_eq (h : g.Saturated n) (he : e ∈ g.edgesAt n) :
    Posterior.boundEdges g n = .ok (g.edgesAt n) := by
  obtain ⟨i, hi, -⟩ := List.mem_filterMap.mp he
  obtain ⟨x, hx⟩ := exists_of_mem_interfacesOf hi
  have hnode : g.node n = .ok x := by
    unfold node entryAt
    rw [hx]
  unfold Posterior.boundEdges
  rw [hnode, ok_bind, ← interfacesOf_of_some hx]
  exact mapM_edgeAt h

end Graph

/-- At a node, a block has an edge and meets one that is not its own. -/
def Block.BordersAt (g : Graph) (n : NodeId) (b : Block) : Prop :=
  (∃ e ∈ g.edgesAt n, e ∈ b.internal) ∧ ∃ f ∈ g.edgesAt n, f ∉ b.internal

namespace Posterior

variable {g : Graph} {p : Posterior} {a b : Block} {j k x : String} {n : NodeId} {e f : EdgeId}

/-- No block has the edge. -/
def Free (p : Posterior) (e : EdgeId) : Prop :=
  ∀ k b, p.blocks.get? k = some b → e ∉ b.internal

theorem EdgeDisjoint.eq_of_mem (h : p.EdgeDisjoint) (ha : p.blocks.get? j = some a)
    (hb : p.blocks.get? k = some b) (hea : e ∈ a.internal) (heb : e ∈ b.internal) : j = k := by
  by_contra hne
  exact h j k a b ha hb hne e hea heb

/-- Where one block meets an edge that is not its own, all blocks do that have an edge. -/
theorem EdgeDisjoint.exists_outside (h : p.EdgeDisjoint) (ha : p.blocks.get? j = some a)
    (hborder : a.BordersAt g n) (hb : p.blocks.get? k = some b) :
    ∃ f ∈ g.edgesAt n, f ∉ b.internal := by
  obtain ⟨⟨e, he, hea⟩, hout⟩ := hborder
  by_cases hjk : j = k
  · subst hjk
    cases ha.symm.trans hb
    exact hout
  · exact ⟨e, he, h j k a b ha hb hjk e hea⟩

theorem ownerOf_of_some (h : p.owners.get? e = some k) : p.ownerOf e = .block k := by
  have hbind : (e : Int).toNat?.bind p.owners.get? = some k := h
  unfold ownerOf
  rw [hbind]

theorem ownerOf_of_none (h : p.owners.get? e = none) : p.ownerOf e = .unassigned e := by
  have hbind : (e : Int).toNat?.bind p.owners.get? = none := h
  unfold ownerOf
  rw [hbind]

/-- **An edge of a block belongs to it where the block meets another edge.** -/
theorem Built.ownerOf_eq_block (hg : g.Built) (hp : Built g p) (hdisjoint : p.EdgeDisjoint)
    (hb : p.blocks.get? k = some b) (he : e ∈ g.edgesAt n) (heb : e ∈ b.internal)
    (hf : f ∈ g.edgesAt n) (hfb : f ∉ b.internal) : p.ownerOf e = .block k := by
  have hborder : e ∈ b.border g := Block.mem_boundaryEdges.mpr
    ⟨⟨n, hg.coherent.mem_boundaryNodes he heb hf hfb, he⟩, heb⟩
  obtain ⟨j, hj⟩ := hp.bordered.owned hb hborder
  obtain ⟨a, ha, hea⟩ := hp.bordered.owner hj
  have hjk : j = k := hdisjoint.eq_of_mem ha hb (Block.mem_boundaryEdges.mp hea).2 heb
  exact ownerOf_of_some (hjk ▸ hj)

/-- **An edge of no block belongs to none**, and its variable stands for it. -/
theorem Built.ownerOf_eq_unassigned (hp : Built g p) (he : p.Free e) (hx : g.ownerOf? e = some x) :
    p.ownerOf e = .unassigned e ∧ p.marginalKey g n e = .variable x := by
  constructor
  · cases h : p.owners.get? e with
    | none => exact ownerOf_of_none h
    | some k =>
      obtain ⟨b, hb, heb⟩ := hp.bordered.owner h
      exact absurd (Block.mem_boundaryEdges.mp heb).2 (he k b hb)
  · unfold marginalKey
    cases h : p.clusters.get? (n, e) with
    | none => rw [hx]; rfl
    | some c =>
      -- a registered cluster is one of a block, and its edges are edges of the block
      obtain ⟨o, ho⟩ := hp.exists_registry
      obtain ⟨-, hec, hown⟩ := ho.placed n e c h
      obtain ⟨k, b, hb, hcb⟩ := (ho.owned _).mpr hown
      rw [((hp.madeFor k b hb).2.of_mem_clusters hcb).1] at hec
      exact absurd (Graph.mem_clusterEdges.mp hec).2 (he k b hb)

/-! ## The items of the factorization -/

/-- What stands for the edges at a node, by whom they belong to. -/
inductive Item (g : Graph) (p : Posterior) (n : NodeId) : Owner → Target → Prop
  /-- For the only edge of a block there, its variable does, -/
  | single {k : String} {b : Block} {e : EdgeId} {x : String} (hb : p.blocks.get? k = some b)
      (he : g.clusterEdges n b.internal = [e]) (hx : g.ownerOf? e = some x) :
      Item g p n (.block k) (.variable x)
  /-- for several edges of a block the cluster of them, in interface order, -/
  | joint {k : String} {b : Block} (hb : p.blocks.get? k = some b)
      (hmany : 1 < (g.clusterEdges n b.internal).length) :
      Item g p n (.block k) (.cluster ⟨n, g.clusterEdges n b.internal⟩)
  /-- and for an edge of no block its variable. -/
  | unassigned {e : EdgeId} {x : String} (he : e ∈ g.edgesAt n) (hfree : p.Free e)
      (hx : g.ownerOf? e = some x) : Item g p n (.unassigned e) (.variable x)

theorem Item.unique {o : Owner} {s t : Target} (hs : Item g p n o s) (ht : Item g p n o t) :
    s = t := by
  cases hs with
  | single hb he hx =>
    cases ht with
    | single hb' he' hx' =>
      cases hb.symm.trans hb'
      cases he.symm.trans he'
      cases hx.symm.trans hx'
      rfl
    | joint hb' hmany =>
      cases hb.symm.trans hb'
      rw [he] at hmany
      contradiction
  | joint hb hmany =>
    cases ht with
    | single hb' he' =>
      cases hb.symm.trans hb'
      rw [he'] at hmany
      contradiction
    | joint hb' =>
      cases hb.symm.trans hb'
      rfl
  | unassigned _ _ hx =>
    cases ht with
    | unassigned _ _ hx' =>
      cases hx.symm.trans hx'
      rfl

/-- A block that has an edge at the node has an item. -/
theorem Item.of_mem (hb : p.blocks.get? k = some b) (he : e ∈ g.edgesAt n) (heb : e ∈ b.internal)
    (hx : g.ownerOf? e = some x) : Item g p n (.block k)
      (if 1 < (g.clusterEdges n b.internal).length then .cluster ⟨n, g.clusterEdges n b.internal⟩
        else .variable x) := by
  have hmem : e ∈ g.clusterEdges n b.internal := Graph.mem_clusterEdges.mpr ⟨he, heb⟩
  split
  · rename_i hmany
    exact .joint hb hmany
  · rename_i hmany
    obtain ⟨f, hf⟩ := List.length_eq_one_iff.mp
      (Nat.le_antisymm (Nat.not_lt.mp hmany) (List.length_pos_of_mem hmem))
    rw [hf, List.mem_singleton] at hmem
    subst hmem
    exact .single hb hf hx

theorem exists_item_block_iff (hg : g.Coherent) : (∃ s, Item g p n (.block k) s) ↔
    ∃ b, p.blocks.get? k = some b ∧ ∃ e ∈ g.edgesAt n, e ∈ b.internal := by
  constructor
  · rintro ⟨s, h⟩
    cases h with
    | single hb he => exact ⟨_, hb, _, Graph.mem_clusterEdges.mp (he ▸ List.mem_singleton_self _)⟩
    | joint hb hmany =>
      obtain ⟨e, he⟩ := List.exists_mem_of_length_pos (Nat.zero_lt_of_lt hmany)
      exact ⟨_, hb, e, Graph.mem_clusterEdges.mp he⟩
  · rintro ⟨b, hb, e, he, heb⟩
    obtain ⟨x, hx⟩ := hg.exists_owner he
    exact ⟨_, .of_mem hb he heb hx⟩

theorem exists_item_unassigned_iff {i : Int} (hg : g.Coherent) :
    (∃ s, Item g p n (.unassigned i) s) ↔ ∃ e : EdgeId, i = e ∧ e ∈ g.edgesAt n ∧ p.Free e := by
  constructor
  · rintro ⟨s, h⟩
    cases h with
    | unassigned he hfree => exact ⟨_, rfl, he, hfree⟩
  · rintro ⟨e, rfl, he, hfree⟩
    obtain ⟨x, hx⟩ := hg.exists_owner he
    exact ⟨_, .unassigned he hfree hx⟩

/-- What is entered for an edge at a node where a block meets another edge is an item. -/
theorem Built.item_of_mem (hg : g.Built) (hp : Built g p) (hdisjoint : p.EdgeDisjoint)
    (ha : p.blocks.get? j = some a) (hborder : a.BordersAt g n) (he : e ∈ g.edgesAt n) :
    Item g p n (p.ownerOf e) (p.marginalKey g n e) := by
  obtain ⟨x, hx⟩ := hg.coherent.exists_owner he
  by_cases hfree : p.Free e
  · obtain ⟨howner, htarget⟩ := hp.ownerOf_eq_unassigned (n := n) hfree hx
    rw [howner, htarget]
    exact .unassigned he hfree hx
  · obtain ⟨k, b, hb, heb⟩ : ∃ k b, p.blocks.get? k = some b ∧ e ∈ b.internal := by
      simpa [Free] using hfree
    obtain ⟨f, hf, hfb⟩ := hdisjoint.exists_outside ha hborder hb
    rw [hp.ownerOf_eq_block hg hdisjoint hb he heb hf hfb,
      (hp.marginalKey_eq hg hdisjoint hb he heb hf hfb hx).1]
    exact .of_mem hb he heb hx

/-- Each item is entered for some edge. -/
theorem Built.exists_of_item (hg : g.Built) (hp : Built g p) (hdisjoint : p.EdgeDisjoint)
    (ha : p.blocks.get? j = some a) (hborder : a.BordersAt g n) {o : Owner} {t : Target}
    (h : Item g p n o t) : ∃ e ∈ g.edgesAt n, p.ownerOf e = o ∧ p.marginalKey g n e = t := by
  -- an edge with the same owner suffices, for its item is the same
  suffices ∃ e ∈ g.edgesAt n, p.ownerOf e = o by
    obtain ⟨e, he, rfl⟩ := this
    exact ⟨e, he, rfl, (hp.item_of_mem hg hdisjoint ha hborder he).unique h⟩
  cases o with
  | block k =>
    obtain ⟨b, hb, e, he, heb⟩ := (exists_item_block_iff hg.coherent).mp ⟨t, h⟩
    obtain ⟨f, hf, hfb⟩ := hdisjoint.exists_outside ha hborder hb
    exact ⟨e, he, hp.ownerOf_eq_block hg hdisjoint hb he heb hf hfb⟩
  | unassigned i =>
    obtain ⟨e, rfl, he, hfree⟩ := (exists_item_unassigned_iff hg.coherent).mp ⟨t, h⟩
    obtain ⟨x, hx⟩ := hg.coherent.exists_owner he
    exact ⟨e, he, (hp.ownerOf_eq_unassigned (n := n) hfree hx).1⟩

/-- What the factorization at a node lists. -/
structure Factored (g : Graph) (p : Posterior) (n : NodeId) (t : Table Owner Target) : Prop where
  /-- Nothing is listed twice. -/
  nodup : t.keys.Nodup
  /-- Listed are the blocks that have an edge at the node, -/
  block_mem_keys : ∀ k, .block k ∈ t.keys ↔
    ∃ b, p.blocks.get? k = some b ∧ ∃ e ∈ g.edgesAt n, e ∈ b.internal
  /-- and the edges at the node that no block has. -/
  unassigned_mem_keys : ∀ i : Int, .unassigned i ∈ t.keys ↔
    ∃ e : EdgeId, i = e ∧ e ∈ g.edgesAt n ∧ p.Free e
  /-- For each of them there is what stands for its edges. -/
  get?_eq_some : ∀ o s, t.get? o = some s ↔ Item g p n o s

/-- What is entered for the edges at a node, in the order of its interfaces. -/
def localEntries (g : Graph) (p : Posterior) (n : NodeId) : List (Owner × Target) :=
  (g.edgesAt n).map fun e : EdgeId => (p.ownerOf e, p.marginalKey g n e)

theorem localFactorization_eq (h : g.Saturated n) (he : e ∈ g.edgesAt n) :
    p.localFactorization g n = .ok (Table.ofList (localEntries g p n)) := by
  unfold localFactorization
  rw [h.boundEdges_eq he]
  rfl

/-- The entries are the items, and those of one owner agree. -/
theorem Built.get?_localEntries (hg : g.Built) (hp : Built g p) (hdisjoint : p.EdgeDisjoint)
    (ha : p.blocks.get? j = some a) (hborder : a.BordersAt g n) (o : Owner) (s : Target) :
    (Table.ofList (localEntries g p n)).get? o = some s ↔ Item g p n o s := by
  have hitem : ∀ b ∈ localEntries g p n, Item g p n b.1 b.2 := by
    intro b hb
    obtain ⟨e, he, rfl⟩ := List.mem_map.mp hb
    exact hp.item_of_mem hg hdisjoint ha hborder he
  rw [Table.get?_ofList fun b hb c hc hbc =>
    Prod.ext hbc ((hitem b hb).unique (hbc ▸ hitem c hc))]
  constructor
  · exact fun hb => hitem _ hb
  · intro h
    obtain ⟨e, he, rfl, rfl⟩ := hp.exists_of_item hg hdisjoint ha hborder h
    exact List.mem_map.mpr ⟨e, he, rfl⟩

/-- **Nothing is lost where a block meets an edge that is not its own**: each block with an edge at
the node, and each edge there that no block has, has an item of its own. -/
theorem Built.factored_of_bordersAt (hg : g.Built) (hp : Built g p) (hdisjoint : p.EdgeDisjoint)
    (hsaturated : g.Saturated n) (ha : p.blocks.get? j = some a) (hborder : a.BordersAt g n) :
    ∃ t, p.localFactorization g n = .ok t ∧ Factored g p n t := by
  obtain ⟨e, he, -⟩ := hborder.1
  have hget := hp.get?_localEntries hg hdisjoint ha hborder
  refine ⟨_, localFactorization_eq hsaturated he, Table.nodup_keys_ofList _, fun k => ?_,
    fun i => ?_, hget⟩
  · rw [Table.mem_keys_iff, ← exists_item_block_iff hg.coherent]
    exact exists_congr (hget _)
  · rw [Table.mem_keys_iff, ← exists_item_unassigned_iff hg.coherent]
    exact exists_congr (hget _)

/-- The two blocks at the fork, and what stands for the edges of each. -/
theorem factored_fork : forkGraph.Built ∧ Built forkGraph forkPosterior ∧
    forkPosterior.EdgeDisjoint ∧ forkGraph.Saturated 0 ∧
    ∃ a t, forkPosterior.blocks.get? "x" = some a ∧ a.BordersAt forkGraph 0 ∧
      forkPosterior.localFactorization forkGraph 0 = .ok t ∧ Factored forkGraph forkPosterior 0 t ∧
      t.get? (.block "x") = some (.variable "x") ∧
      t.get? (.block "yz") = some (.cluster ⟨0, [1, 2]⟩) := by
  have hx : (forkPosterior.blocks.get? "x").map (·.internal) = some [0] := by cbv
  have hyz : (forkPosterior.blocks.get? "yz").map (·.internal) = some [1, 2] := by cbv
  have hedges : forkGraph.edgesAt 0 = [0, 1, 2] := by cbv
  have howner : forkGraph.ownerOf? 0 = some "x" := by cbv
  have hsaturated : forkGraph.Saturated 0 := by
    have hall : (forkGraph.interfacesOf 0).all (fun i => (forkGraph.edgeAt? i).isSome) = true := by
      cbv
    exact fun i hi => Option.isSome_iff_exists.mp (List.all_eq_true.mp hall i hi)
  obtain ⟨a, ha, hax⟩ := Option.map_eq_some_iff.mp hx
  obtain ⟨b, hb, hbx⟩ := Option.map_eq_some_iff.mp hyz
  have hborder : a.BordersAt forkGraph 0 := by
    unfold Block.BordersAt
    rw [hedges, hax]
    decide
  obtain ⟨t, ht, hfactored⟩ := Built.factored_of_bordersAt built_forkGraph built_forkPosterior
    edgeDisjoint_forkPosterior hsaturated ha hborder
  have hclusterA : forkGraph.clusterEdges 0 a.internal = [0] := by
    unfold Graph.clusterEdges
    rw [hedges, hax]
    decide
  have hclusterB : forkGraph.clusterEdges 0 b.internal = [1, 2] := by
    unfold Graph.clusterEdges
    rw [hedges, hbx]
    decide
  refine ⟨built_forkGraph, built_forkPosterior, edgeDisjoint_forkPosterior, hsaturated, a, t, ha,
    hborder, ht, hfactored, ?_, ?_⟩
  · exact (hfactored.get?_eq_some _ _).mpr (.single ha hclusterA howner)
  · refine (hfactored.get?_eq_some _ _).mpr ?_
    rw [← hclusterB]
    exact .joint hb (hclusterB ▸ by decide)

end Posterior

end MessagePassing
