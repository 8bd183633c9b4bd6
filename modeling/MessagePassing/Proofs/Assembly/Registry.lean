import MessagePassing.Proofs.Assembly.Ownership
import MessagePassing.Proofs.Graph.Border

/-!
# What the registry says about the blocks

A block that reads an edge of another block looks up which target stands for it at the node where
they meet. The answer is in a registry that the other block has filled when it was made. Nothing
that is done later, and no block that is registered later, makes the two disagree, as long as the
blocks have no edge in common: the cluster that stands for an edge belongs to the block of the edge.

Results, for a posterior that is built:
* **`Posterior.Built.exists_registry`**: a registered cluster, or the type of a marginal, is about a
  target of some block, and the clusters of all blocks are registered.
* `Posterior.Built.eq_of_placed`: between blocks without a common edge, the cluster that stands for
  an edge at a node is that of the block of the edge.
* `Posterior.Built.marginalKey_eq`: which target stands for an edge at the border of its block.
* **`Posterior.Built.marginalKey_mem_table`**: what a block reads through an edge of another block
  is in the marginal table of that block.
-/

namespace MessagePassing

open Attempt (Keeps)

/-! ## The targets of blocks -/

namespace Block

/-- The target is a variable in the scope of the block or one of its clusters. -/
def Owns (b : Block) : Target → Prop
  | .variable x => x ∈ b.scope
  | .cluster c => c ∈ b.clusters

theorem owns_iff_of_outline {b b' : Block} (h : b'.outline = b.outline) (t : Target) :
    b'.Owns t ↔ b.Owns t := by
  change b'.outline.Owns t ↔ b.outline.Owns t
  rw [h]

/-- A marginal table is about targets of the block. -/
theorem Laid.owns {g : Graph} {b : Block} (h : b.Laid g) {t : Target}
    (ht : t ∈ b.marginalTargets) : b.Owns t := by
  rcases h.of_mem_marginalTargets ht with ⟨x, e, rfl, hx, -⟩ | ⟨c, rfl, hc⟩
  · exact hx
  · exact hc

end Block

/-- Settling marginals publishes types for the targets of the table only. -/
theorem target_of_settleEntries {g : Graph} {c : Catalogue} {b : Block} {p : Posterior}
    {l : List MarginalEntry} {r : List MarginalEntry × Posterior}
    (h : settleEntries g c b p l = .ok () r ∨ ∃ f, settleEntries g c b p l = .error f r)
    {t : Target} {τ : TypeTerm} (ht : r.2.marginalTypes.get? t = some τ) :
    t ∈ l.map (·.target) ∨ ∃ σ, p.marginalTypes.get? t = some σ := by
  induction l generalizing p r with
  | nil =>
    rcases h with h | ⟨f, h⟩
    · cases h
      exact Or.inr ⟨τ, ht⟩
    · contradiction
  | cons m l ih =>
    rcases settleEntries_cons h with ⟨f, m', -, rfl⟩ | ⟨σ, m', r', hs, hr, rfl⟩
    · exact Or.inr ⟨τ, ht⟩
    · have hm := (MarginalEntry.keeps_settle (b.surroundings g c p) b m.bare).of_ok rfl hs
      have htarget : m'.bare.target = m.bare.target := by rw [hm]
      rcases ih hr ht with hl | ⟨σ', hσ⟩
      · exact Or.inl (List.mem_cons_of_mem _ hl)
      · rw [Table.get?_insert] at hσ
        split at hσ
        · rename_i hk
          exact Or.inl (List.mem_cons.mpr (Or.inl (hk.symm.trans htarget)))
        · exact Or.inr ⟨σ', hσ⟩

namespace Posterior

variable {g : Graph} {c : Catalogue} {o : Target → Prop} {p q : Posterior} {b b' : Block}
  {id j k : String} {sites : List InterfaceId} {t : Target}

/-- Some block has the target. -/
def Owned (p : Posterior) (t : Target) : Prop :=
  ∃ k b, p.blocks.get? k = some b ∧ b.Owns t

theorem owned_putBlock_of_outline (hp : Each (Block.Laid g) p) (hb : p.blocks.get? id = some b)
    (ho : b'.outline = b.outline) : (p.putBlock b').Owned t ↔ p.Owned t := by
  have hid : b'.id = id := (Block.id_of_outline ho).trans (hp id b hb).1
  constructor
  · rintro ⟨k, d, hd, ht⟩
    rw [get?_putBlock] at hd
    split at hd
    · cases hd
      exact ⟨id, b, hb, (Block.owns_iff_of_outline ho t).mp ht⟩
    · exact ⟨k, d, hd, ht⟩
  · rintro ⟨k, d, hd, ht⟩
    by_cases hk : id = k
    · subst hk
      cases hb.symm.trans hd
      exact ⟨id, b', by rw [get?_putBlock, if_pos hid], (Block.owns_iff_of_outline ho t).mpr ht⟩
    · exact ⟨k, d, by rw [get?_putBlock, if_neg (hid ▸ hk)]; exact hd, ht⟩

theorem owned_putBlock_of_free (hb : p.blocks.get? b.id = none) :
    (p.putBlock b).Owned t ↔ p.Owned t ∨ b.Owns t := by
  constructor
  · rintro ⟨k, d, hd, ht⟩
    rw [get?_putBlock] at hd
    split at hd
    · cases hd
      exact Or.inr ht
    · exact Or.inl ⟨k, d, hd, ht⟩
  · rintro (⟨k, d, hd, ht⟩ | ht)
    · have hk : b.id ≠ k := by
        rintro rfl
        rw [hb] at hd
        contradiction
      exact ⟨k, d, by rw [get?_putBlock, if_neg hk]; exact hd, ht⟩
    · exact ⟨b.id, b, by rw [get?_putBlock, if_pos rfl], ht⟩

/-! ## The registry -/

/-- The blocks have these targets, and what is registered is about them. -/
structure Registry (g : Graph) (o : Target → Prop) (p : Posterior) : Prop where
  /-- The blocks are laid out as their outlines tell. -/
  laid : Each (Block.Laid g) p
  /-- The targets of all blocks. -/
  owned : ∀ t, p.Owned t ↔ o t
  /-- A cluster stands only for its own edges at its own node, and it is that of some block. -/
  placed : ∀ n e x, p.clusters.get? (n, e) = some x → x.node = n ∧ e ∈ x.edges ∧ o (.cluster x)
  /-- Some cluster stands for each edge of a cluster. -/
  listed : ∀ x, o (.cluster x) → ∀ e ∈ x.edges, ∃ y, p.clusters.get? (x.node, e) = some y
  /-- A type is that of the marginal of some block. -/
  typed : ∀ t τ, p.marginalTypes.get? t = some τ → o t

namespace Registry

theorem congr (h : Registry g o p) (hblocks : q.blocks = p.blocks)
    (hclusters : q.clusters = p.clusters) (htypes : q.marginalTypes = p.marginalTypes) :
    Registry g o q where
  laid := by
    unfold Each
    rw [hblocks]
    exact h.laid
  owned t := by
    unfold Owned
    rw [hblocks]
    exact h.owned t
  placed := hclusters ▸ h.placed
  listed := hclusters ▸ h.listed
  typed := htypes ▸ h.typed

/-- A block may be worked on as long as its outline stays. -/
theorem putBlock (h : Registry g o p) (hb : p.blocks.get? id = some b)
    (ho : b'.outline = b.outline) (hl : b'.Laid g) : Registry g o (p.putBlock b') where
  laid := h.laid.putBlock hl
  owned t := (owned_putBlock_of_outline h.laid hb ho).trans (h.owned t)
  placed := h.placed
  listed := h.listed
  typed := h.typed

theorem keeps_replaceBlock {f : Block → Except Failure Block}
    (hf : ∀ b b', b.Laid g → f b = .ok b' → b'.outline = b.outline ∧ b'.Laid g) :
    Keeps (Registry g o) (replaceBlock id f) := by
  rw [replaceBlock_eq]
  refine keeps_onBlock_of fun p b hp hb => ?_
  have hl := (hp.laid id b hb).2
  unfold Attempt.outcome replacement
  cases hfb : f b with
  | ok b' => exact hp.putBlock hb (hf b b' hl hfb).1 (hf b b' hl hfb).2
  | error e => exact hp.putBlock hb rfl hl

theorem keeps_scheduleBlock : Keeps (Registry g o) (scheduleBlock g sites id) :=
  Keeps.bind (keeps_replaceBlock fun _ _ hl h =>
      ⟨Block.outline_of_withSchedule h, hl.withSchedule h⟩) fun _ =>
    Keeps.bind (Keeps.modify fun _ h => h.congr rfl rfl rfl) fun _ => Keeps.pure _

theorem keeps_tabulateBlock : Keeps (Registry g o) (tabulateBlock g id) :=
  keeps_replaceBlock fun _ _ hl h =>
    ⟨Block.outline_of_withMarginalTable h, hl.withMarginalTable h⟩

theorem keeps_constrain (i : Int) (type : Option TypeTerm) (method : Option String) :
    Keeps (Registry g o) (onBlock id fun _ => Block.constrain i type method) := by
  refine keeps_onBlock_of fun p b hp hb => ?_
  have hl := (hp.laid id b hb).2
  refine hp.putBlock hb ?_ (Block.laid_constrain i type method hl)
  unfold Attempt.outcome Block.constrain
  cases b.schedule.find? fun e => Int.ofNat e.interface = i <;> rfl

theorem keeps_makeRunnable : Keeps (Registry g o) (makeRunnable id) := by
  refine Keeps.bind (keeps_replaceBlock fun b b' hl h => ?_) fun _ => Keeps.pure _
  obtain ⟨_, -, rfl⟩ := map_eq_ok.mp h
  exact ⟨rfl, Block.laid_ofSkeleton g b _ rfl hl⟩

theorem keeps_assemble : Keeps (Registry g o) (assemble g c id) := by
  have hlaid : ∀ {p : Posterior} {b b' : Block}, Registry g o p → p.blocks.get? id = some b →
      b'.skeleton = b.skeleton → b'.Laid g := fun hp hb hs =>
    Block.laid_ofSkeleton g _ _ hs (hp.laid id _ hb).2
  refine keeps_assemble_of_put
    (fun p b b' hp hb hs => hp.putBlock hb (Block.outline_of_skeleton hs) (hlaid hp hb hs))
    (fun p hp => hp.congr rfl rfl rfl) fun p b r hp hb hr => ?_
  obtain ⟨hbare, types, hq⟩ := bare_settleEntries hr
  have hskeleton : Block.skeleton { b with marginalTable := r.1 } = b.skeleton :=
    Block.skeleton_eq rfl rfl rfl rfl hbare
  have htyped : ∀ t τ, r.2.marginalTypes.get? t = some τ → o t := by
    intro t τ ht
    rcases target_of_settleEntries hr ht with hmem | ⟨σ, hσ⟩
    · exact (hp.owned t).mp ⟨id, b, hb, (hp.laid id b hb).2.owns hmem⟩
    · exact hp.typed t σ hσ
  have hr : Registry g o r.2 := by
    rw [hq] at htyped ⊢
    exact ⟨hp.laid, hp.owned, hp.placed, hp.listed, htyped⟩
  have hkept : r.2.blocks.get? id = some b := by rw [hq]; exact hb
  exact hr.putBlock hkept (Block.outline_of_skeleton hskeleton) (hlaid hp hb hskeleton)

theorem keeps_compile (reject : Option Bool) :
    Keeps (Registry g o) (compile g c sites reject) :=
  keeps_compile_of (fun _ _ => keeps_scheduleBlock) (fun _ => keeps_tabulateBlock)
    (fun _ _ h => h.congr rfl rfl rfl) (fun _ => keeps_assemble) (fun _ => keeps_makeRunnable)
    sites reject

/-- Registering a block adds its targets. -/
theorem register (h : Registry g o p) (hfree : p.blocks.get? b.id = none) (hl : b.Laid g) :
    Registry g (fun t => o t ∨ b.Owns t) (p.register g b) := by
  obtain ⟨owners, warnings, hq⟩ := register_eq g p b
  rw [hq]
  refine ⟨h.laid.putBlock hl, fun t => ?_, fun n e x hx => ?_, fun x hx e he => ?_,
    fun t τ ht => Or.inl (h.typed t τ ht)⟩
  · exact (owned_putBlock_of_free hfree).trans (or_congr_left (h.owned t))
  · rcases Table.mem_or_of_get?_foldl_insert hx with hx | hx
    · obtain ⟨hmem, hn, he⟩ := mem_clusterPlaces.mp hx
      exact ⟨hn.symm, he, Or.inr hmem⟩
    · exact (h.placed n e x hx).imp_right (And.imp_right Or.inl)
  · refine Option.isSome_iff_exists.mp (Table.isSome_get?_foldl_insert ?_)
    rcases hx with hx | hx
    · obtain ⟨y, hy⟩ := h.listed x hx e he
      exact Or.inr (Option.isSome_of_eq_some hy)
    · have hplace : ((x.node, e), x) ∈ clusterPlaces b.clusters :=
        mem_clusterPlaces.mpr ⟨hx, rfl, he⟩
      exact Or.inl (List.mem_map_of_mem hplace)

theorem addBlock (h : Registry g o p) (requested : List String) (id : Option String) :
    ∃ o, Registry g o ((Posterior.addBlock g requested id).outcome p).2 := by
  obtain ⟨ids, ⟨f, hf⟩ | ⟨b, hb, hfree, hok⟩⟩ := addBlock_cases g requested id p
  · rw [Attempt.outcome_snd_of_error hf]
    exact ⟨o, h.congr rfl rfl rfl⟩
  · rw [Attempt.outcome_snd_of_ok hok]
    have hp : Registry g o { p with ids } := h.congr rfl rfl rfl
    refine ⟨_, hp.register hfree ?_⟩
    rw [← (Block.of_ofVariables hb).2]
    exact ⟨Or.inl rfl, Or.inl rfl⟩

end Registry

/-- **What is registered is about the targets of the blocks.** -/
theorem Built.exists_registry (h : Built g p) : ∃ o, Registry g o p := by
  induction h with
  | fresh options =>
    refine ⟨fun _ => False, fun _ _ h => ?_, fun t => ⟨?_, False.elim⟩, fun _ _ _ h => ?_,
      fun _ h => h.elim, fun _ _ h => ?_⟩
    · contradiction
    · rintro ⟨_, _, h, -⟩
      contradiction
    · contradiction
    · contradiction
  | addBlock _ requested id ih =>
    obtain ⟨o, h⟩ := ih
    exact h.addBlock requested id
  | schedule _ sites id ih => exact ih.imp fun _ h => Registry.keeps_scheduleBlock _ h
  | tabulate _ id ih => exact ih.imp fun _ h => Registry.keeps_tabulateBlock _ h
  | constrain _ id i type method ih =>
    exact ih.imp fun _ h => Registry.keeps_constrain i type method _ h
  | assemble _ c id ih => exact ih.imp fun _ h => Registry.keeps_assemble _ h
  | makeRunnable _ id ih => exact ih.imp fun _ h => Registry.keeps_makeRunnable _ h
  | compile _ c sites reject ih => exact ih.imp fun _ h => Registry.keeps_compile reject _ h
  | report _ phases warnings ih => exact ih.imp fun _ h => h.congr rfl rfl rfl

/-! ## Where blocks meet -/

end Posterior

namespace Graph

variable {g : Graph} {n : NodeId} {e : EdgeId}

theorem Coherent.exists_owner (hg : g.Coherent) (he : e ∈ g.edgesAt n) :
    ∃ x, g.ownerOf? e = some x := by
  obtain ⟨i, -, he⟩ := List.mem_filterMap.mp he
  exact hg.exists_owner_of_edgeAt he

end Graph

namespace Block

variable {b b' : Block} {g : Graph} {n : NodeId} {e f : EdgeId} {x : String} {c : Cluster}

/-- At its border a block has the variables of its edges in scope, and it has a cluster if two of
its edges meet. -/
theorem MadeFor.owns_of_border (h : b.MadeFor g) (hg : g.Coherent) (he : e ∈ g.edgesAt n)
    (hin : e ∈ b.internal) (hf : f ∈ g.edgesAt n) (hout : f ∉ b.internal) :
    (g.ownerOf? e = some x → b.Owns (.variable x)) ∧
      (1 < (g.clusterEdges n b.internal).length →
        b.Owns (.cluster ⟨n, g.clusterEdges n b.internal⟩)) := by
  have hn : n ∈ b.boundary := h.boundary_eq ▸ hg.mem_boundaryNodes he hin hf hout
  exact ⟨fun hx => h.mem_scope_of_border hn he hin hx,
    fun hlength => h.mem_clusters_iff.mpr ⟨hn, hlength, rfl⟩⟩

/-- A marginal table covers the targets of the block. -/
theorem mem_marginalTargets_of_owns (h : b.withMarginalTable g = .ok b') {t : Target}
    (ht : b.Owns t) : t ∈ b'.marginalTargets := by
  obtain ⟨single, joint, hsingle, hjoint, rfl⟩ := withMarginalTable_eq_ok.mp h
  cases t with
  | «variable» x =>
    obtain ⟨m, hm, hxm⟩ := exists_mem_of_mapM hsingle ht
    obtain ⟨_, _, _, -, -, -, rfl⟩ := variableMarginal_eq_ok.mp hxm
    exact List.mem_map.mpr ⟨_, List.mem_append_left _ hm, rfl⟩
  | cluster c =>
    obtain ⟨m, hm, hcm⟩ := exists_mem_of_mapM hjoint ht
    obtain ⟨_, -, rfl⟩ := clusterMarginal_eq_ok.mp hcm
    exact List.mem_map.mpr ⟨_, List.mem_append_right _ hm, rfl⟩

/-- The marginal table of a prepared block covers the targets of the block. -/
theorem Prepared.mem_marginalTargets {sites : List InterfaceId} (h : b.Prepared g sites)
    {t : Target} (ht : b.Owns t) : t ∈ b.marginalTargets := by
  obtain ⟨b₁, hs, hm⟩ := h
  have ho := outline_of_withSchedule hs
  rw [← marginalTargets_skeleton]
  exact mem_marginalTargets_of_owns hm ((owns_iff_of_outline ho t).mpr ht)

end Block

namespace Posterior

variable {g : Graph} {p q : Posterior} {a b b' : Block} {j k : String} {n : NodeId} {e f : EdgeId}
  {x : Cluster}

/-- No edge lies in two blocks. -/
def EdgeDisjoint (p : Posterior) : Prop :=
  ∀ j k a b, p.blocks.get? j = some a → p.blocks.get? k = some b → j ≠ k →
    ∀ e ∈ a.internal, e ∉ b.internal

/-- **The cluster that stands for an edge at a node is that of the block of the edge**: it holds
just the edges of the block there. -/
theorem Built.eq_of_placed (hp : Built g p) (hdisjoint : p.EdgeDisjoint)
    (hb : p.blocks.get? k = some b) (heb : e ∈ b.internal)
    (hx : p.clusters.get? (n, e) = some x) :
    x = ⟨n, g.clusterEdges n b.internal⟩ ∧ x ∈ b.clusters := by
  obtain ⟨o, ho⟩ := hp.exists_registry
  obtain ⟨rfl, hex, hox⟩ := ho.placed n e x hx
  obtain ⟨i, d, hd, hxd⟩ := (ho.owned _).mpr hox
  have hedges := ((hp.madeFor i d hd).2.of_mem_clusters hxd).1
  have hed : e ∈ d.internal := by
    rw [hedges] at hex
    exact of_decide_eq_true (List.mem_filter.mp hex).2
  have hik : i = k := by
    by_contra hne
    exact hdisjoint i k d b hd hb hne e hed heb
  subst hik
  cases hd.symm.trans hb
  refine ⟨?_, hxd⟩
  obtain ⟨m, edges⟩ := x
  exact congrArg (Cluster.mk m) hedges

/-- At the border of a block, the cluster of its edges stands for each of them if there are several,
and else the variable of the edge does. In any case that is a target of the block. -/
theorem Built.marginalKey_eq (hg : g.Built) (hp : Built g p) (hdisjoint : p.EdgeDisjoint)
    (hb : p.blocks.get? k = some b) (he : e ∈ g.edgesAt n) (heb : e ∈ b.internal)
    (hf : f ∈ g.edgesAt n) (hfb : f ∉ b.internal) {x : String} (hx : g.ownerOf? e = some x) :
    (p.marginalKey g n e = if 1 < (g.clusterEdges n b.internal).length then
      .cluster ⟨n, g.clusterEdges n b.internal⟩ else .variable x) ∧
      b.Owns (p.marginalKey g n e) := by
  have hmade := (hp.madeFor k b hb).2
  obtain ⟨hvariable, hcluster⟩ := hmade.owns_of_border hg.coherent (x := x) he heb hf hfb
  by_cases hlength : 1 < (g.clusterEdges n b.internal).length
  · -- the cluster is registered for the edge
    obtain ⟨o, ho⟩ := hp.exists_registry
    have hown := (ho.owned _).mp ⟨k, b, hb, hcluster hlength⟩
    obtain ⟨y, hy⟩ := ho.listed _ hown e (List.mem_filter.mpr ⟨he, decide_eq_true heb⟩)
    have hkey : p.marginalKey g n e = .cluster ⟨n, g.clusterEdges n b.internal⟩ := by
      unfold marginalKey
      rw [hy, (hp.eq_of_placed hdisjoint hb heb hy).1]
    rw [if_pos hlength]
    exact ⟨hkey, hkey ▸ hcluster hlength⟩
  · -- a cluster that is registered would have several edges
    have hkey : p.marginalKey g n e = .variable x := by
      unfold marginalKey
      cases hy : p.clusters.get? (n, e) with
      | none => rw [hx]; rfl
      | some y =>
        obtain ⟨rfl, hyb⟩ := hp.eq_of_placed hdisjoint hb heb hy
        exact absurd (hmade.length_of_mem_clusters hyb) hlength
    rw [if_neg hlength]
    exact ⟨hkey, hkey ▸ hvariable hx⟩

/-- **What a block reads through an edge of another block is in the marginal table of that block.**
Blocks without a common edge meet at a node, where `e` is an edge of `b` and not of `a`. The target
that stands for `e` there is the cluster of the edges of `b` at the node, in interface order, if
there are others, and the variable of `e` if it is the only one. -/
theorem Built.marginalKey_mem_table (hg : g.Built) (hp : Built g p) (hdisjoint : p.EdgeDisjoint)
    (ha : p.blocks.get? j = some a) (hb : p.blocks.get? k = some b) (hf : f ∈ g.edgesAt n)
    (hfa : f ∈ a.internal) (he : e ∈ g.edgesAt n) (hea : e ∉ a.internal) (heb : e ∈ b.internal) :
    (∀ b' q, tabulateBlock g k p = .ok b' q → p.marginalKey g n e ∈ b'.marginalTargets) ∧
      (∀ e' ∈ g.edgesAt n, e' ∈ b.internal → e' ≠ e →
        p.marginalKey g n e = .cluster ⟨n, g.clusterEdges n b.internal⟩ ∧
          ⟨n, g.clusterEdges n b.internal⟩ ∈ b.clusters) ∧
      ((∀ e' ∈ g.edgesAt n, e' ∈ b.internal → e' = e) →
        ∃ x, g.ownerOf? e = some x ∧ p.marginalKey g n e = .variable x) := by
  have hfb : f ∉ b.internal := by
    have hjk : j ≠ k := by
      rintro rfl
      cases ha.symm.trans hb
      exact hea heb
    exact hdisjoint j k a b ha hb hjk f hfa
  obtain ⟨x, hx⟩ := hg.coherent.exists_owner he
  obtain ⟨hkey, howns⟩ := hp.marginalKey_eq hg hdisjoint hb he heb hf hfb hx
  refine ⟨fun b' q h => ?_, fun e' he' heb' hne => ?_, fun hone => ⟨x, hx, ?_⟩⟩
  · obtain ⟨d, hd, htable, -⟩ := replaceBlock_eq_ok.mp h
    cases hb.symm.trans hd
    exact Block.mem_marginalTargets_of_owns htable howns
  · rw [if_pos (hg.one_lt_length_clusterEdges he heb |>.mpr ⟨e', he', heb', hne⟩)] at hkey
    rw [hkey] at howns
    exact ⟨hkey, howns⟩
  · rw [hkey, if_neg]
    rw [hg.one_lt_length_clusterEdges he heb]
    rintro ⟨e', he', heb', hne⟩
    exact hne (hone e' he' heb')

/-- A soft node that joins three sources. -/
def forkGraph : Graph :=
  let source : NodeRequest := { kind := "source", interfaces := 1 }
  let g := ((Graph.addNode { kind := "fork", interfaces := 3 }).outcome ∅).2
  let g := ((Graph.addNode source).outcome ((Graph.addNode source).outcome g).2).2
  let g := ((Graph.addNode source).outcome g).2
  let g := ((Graph.connect (.numbered 0) (some (.numbered 3)) (some "x") none).outcome g).2
  let g := ((Graph.connect (.numbered 1) (some (.numbered 4)) (some "y") none).outcome g).2
  ((Graph.connect (.numbered 2) (some (.numbered 5)) (some "z") none).outcome g).2

theorem built_forkGraph : forkGraph.Built :=
  .connect (.connect (.connect (.addNode (.addNode (.addNode (.addNode .empty _) _) _) _)
    _ _ _ _) _ _ _ _) _ _ _ _

/-- One variable is treated on its own, the other two jointly. -/
def forkPosterior : Posterior :=
  let p : Posterior := { options := wholeOptions }
  let p := ((addBlock forkGraph ["x"] (some "x")).outcome p).2
  ((addBlock forkGraph ["y", "z"] (some "yz")).outcome p).2

theorem built_forkPosterior : Built forkGraph forkPosterior :=
  .addBlock (.addBlock (.fresh _) _ _) _ _

theorem blocks_forkPosterior :
    forkPosterior.blocks.toList.map (fun b => (b.1, b.2.internal)) =
      [("x", [0]), ("yz", [1, 2])] := by
  cbv

theorem edgeDisjoint_forkPosterior : forkPosterior.EdgeDisjoint := by
  have hat : ∀ j a, forkPosterior.blocks.get? j = some a →
      (j, a.internal) ∈ [("x", [0]), ("yz", [1, 2])] := fun j a ha => by
    rw [← blocks_forkPosterior]
    exact List.mem_map_of_mem (Table.mem_of_find? ha)
  have hdisjoint : ∀ s ∈ [("x", [0]), ("yz", [1, 2])], ∀ t ∈ [("x", [0]), ("yz", [1, 2])],
      s.1 ≠ t.1 → ∀ e ∈ s.2, e ∉ t.2 := by decide
  exact fun j k a b ha hb hjk => hdisjoint _ (hat j a ha) _ (hat k b hb) hjk

/-- The first block reads the joint marginal of the two variables of the second. -/
theorem marginalKey_fork : forkGraph.Built ∧ Built forkGraph forkPosterior ∧
    forkPosterior.EdgeDisjoint ∧ ∃ a b b' q, forkPosterior.blocks.get? "x" = some a ∧
      forkPosterior.blocks.get? "yz" = some b ∧ a.internal = [0] ∧ b.internal = [1, 2] ∧
      forkGraph.edgesAt 0 = [0, 1, 2] ∧ tabulateBlock forkGraph "yz" forkPosterior = .ok b' q ∧
      forkPosterior.marginalKey forkGraph 0 1 = .cluster ⟨0, [1, 2]⟩ ∧
      .cluster ⟨0, [1, 2]⟩ ∈ b'.marginalTargets := by
  have hx : (forkPosterior.blocks.get? "x").map (·.internal) = some [0] := by cbv
  have hyz : (forkPosterior.blocks.get? "yz").map (·.internal) = some [1, 2] := by cbv
  have hedges : forkGraph.edgesAt 0 = [0, 1, 2] := by cbv
  have hok : ((tabulateBlock forkGraph "yz").outcome forkPosterior).1.isOk = true := by cbv
  obtain ⟨a, ha, hax⟩ := Option.map_eq_some_iff.mp hx
  obtain ⟨b, hb, hbx⟩ := Option.map_eq_some_iff.mp hyz
  cases htable : ((tabulateBlock forkGraph "yz").outcome forkPosterior).1 with
  | error f =>
    rw [htable] at hok
    contradiction
  | ok b' =>
    have htabled := Attempt.eq_ok_of_outcome htable
    obtain ⟨htarget, hkey, -⟩ := Built.marginalKey_mem_table (f := 0) (e := 1) (n := 0)
      built_forkGraph built_forkPosterior edgeDisjoint_forkPosterior ha hb
      (by rw [hedges]; decide) (by rw [hax]; decide) (by rw [hedges]; decide)
      (by rw [hax]; decide) (by rw [hbx]; decide)
    have hkey := (hkey 2 (by rw [hedges]; decide) (by rw [hbx]; decide) (by decide)).1
    have hcluster : forkGraph.clusterEdges 0 b.internal = [1, 2] := by
      unfold Graph.clusterEdges
      rw [hedges, hbx]
      decide
    rw [hcluster] at hkey
    refine ⟨built_forkGraph, built_forkPosterior, edgeDisjoint_forkPosterior, a, b, b', _, ha, hb,
      hax, hbx, hedges, htabled, hkey, ?_⟩
    rw [← hkey]
    exact htarget b' _ htabled

end Posterior

end MessagePassing
