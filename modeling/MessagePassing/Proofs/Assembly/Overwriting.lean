import MessagePassing.Proofs.Assembly.Registry

/-!
# What a registration overwrites

A block is registered with the edges at its border and with its clusters. Where an earlier block has
registered the same edge, or another cluster for it, the later block takes over, with a warning. So
blocks that overlap are noticed if they share an edge at the border of both, and only then: an edge
inside of one of them is registered for the other at most.

Results, for a posterior that is built:
* `Posterior.Built.induct_layout`: what is said of the outlines of the blocks and of the owners of
  edges is only changed by adding a block.
* `Posterior.Built.bordered`: the registered edges are those at the borders of the blocks.
* **`Posterior.Built.overwrites_of_addBlock`**: which warnings a new block gives, and when.
-/

namespace MessagePassing

open Attempt (Keeps)

/-! ## Borders -/

namespace Block

variable {g : Graph} {b b' : Block} {c : Cluster} {e : EdgeId}

/-- The edges of a block at its border. -/
def border (g : Graph) (b : Block) : List EdgeId :=
  boundaryEdges g b.internal

theorem border_of_outline (h : b'.outline = b.outline) : b'.border g = b.border g := by
  change b'.outline.border g = b.outline.border g
  rw [h]

/-- The edges of a cluster are at the border of the block. -/
theorem MadeFor.mem_border (h : b.MadeFor g) (hc : c ∈ b.clusters) (he : e ∈ c.edges) :
    e ∈ b.border g := by
  obtain ⟨hn, -, hedges⟩ := h.mem_clusters_iff.mp hc
  rw [h.boundary_eq] at hn
  rw [hedges] at he
  obtain ⟨hat, hin⟩ := Graph.mem_clusterEdges.mp he
  exact mem_boundaryEdges.mpr ⟨⟨c.node, hn, hat⟩, hin⟩

end Block

namespace Posterior

variable {g : Graph} {c : Catalogue} {o : String → Option Block} {w : Table EdgeId String}
  {p q : Posterior} {a b b' : Block} {id : Option String} {i k : String} {e : EdgeId}
  {sites : List InterfaceId} {requested : List String}

/-! ## What only adding a block changes -/

/-- The blocks have these outlines, and the edges these owners. -/
structure Layout (o : String → Option Block) (w : Table EdgeId String) (p : Posterior) : Prop where
  named : Each (fun _ => True) p
  outline : ∀ k, (p.blocks.get? k).map Block.outline = o k
  owners : p.owners = w

namespace Layout

theorem putBlock (h : Layout o w p) (hb : p.blocks.get? i = some b)
    (ho : b'.outline = b.outline) : Layout o w (p.putBlock b') where
  named := h.named.putBlock trivial
  outline k := by
    have hid : b'.id = i := (Block.id_of_outline ho).trans (h.named i b hb).1
    rw [get?_putBlock, ← h.outline k]
    split
    · rename_i hk
      rw [← hk, hid, hb, Option.map_some, Option.map_some, ho]
    · rfl
  owners := h.owners

theorem keeps_replaceBlock {f : Block → Except Failure Block}
    (hf : ∀ b b', f b = .ok b' → b'.outline = b.outline) :
    Keeps (Layout o w) (replaceBlock i f) := by
  rw [replaceBlock_eq]
  refine keeps_onBlock_of fun p b hp hb => hp.putBlock hb ?_
  unfold Attempt.outcome replacement
  cases hfb : f b with
  | ok b' => exact hf b b' hfb
  | error e => rfl

theorem keeps_scheduleBlock : Keeps (Layout o w) (scheduleBlock g sites i) :=
  Keeps.bind (keeps_replaceBlock fun _ _ h => Block.outline_of_withSchedule h) fun _ =>
    Keeps.bind (Keeps.modify fun _ h => ⟨h.named, h.outline, h.owners⟩) fun _ => Keeps.pure _

theorem keeps_tabulateBlock : Keeps (Layout o w) (tabulateBlock g i) :=
  keeps_replaceBlock fun _ _ h => Block.outline_of_withMarginalTable h

theorem keeps_constrain (j : Int) (type : Option TypeTerm) (method : Option String) :
    Keeps (Layout o w) (onBlock i fun _ => Block.constrain j type method) := by
  refine keeps_onBlock_of fun p b hp hb => hp.putBlock hb ?_
  unfold Attempt.outcome Block.constrain
  cases b.schedule.find? fun e => Int.ofNat e.interface = j <;> rfl

theorem keeps_makeRunnable : Keeps (Layout o w) (makeRunnable i) := by
  refine Keeps.bind (keeps_replaceBlock fun b b' h => ?_) fun _ => Keeps.pure _
  obtain ⟨_, -, rfl⟩ := map_eq_ok.mp h
  rfl

theorem keeps_assemble : Keeps (Layout o w) (assemble g c i) := by
  refine keeps_assemble_of_put
    (fun p b b' hp hb hs => hp.putBlock hb (Block.outline_of_skeleton hs))
    (fun p hp => ⟨hp.named, hp.outline, hp.owners⟩) fun p b r hp hb hr => ?_
  obtain ⟨-, types, hq⟩ := bare_settleEntries hr
  have hr : Layout o w r.2 := by
    rw [hq]
    exact ⟨hp.named, hp.outline, hp.owners⟩
  have hkept : r.2.blocks.get? i = some b := by rw [hq]; exact hb
  exact hr.putBlock hkept rfl

theorem keeps_compile (reject : Option Bool) : Keeps (Layout o w) (compile g c sites reject) :=
  keeps_compile_of (fun _ _ => keeps_scheduleBlock) (fun _ => keeps_tabulateBlock)
    (fun _ _ h => ⟨h.named, h.outline, h.owners⟩) (fun _ => keeps_assemble)
    (fun _ => keeps_makeRunnable) sites reject

end Layout

/-- **Only adding a block changes the outlines of blocks and the owners of edges.** -/
theorem Built.induct_layout {P : Posterior → Prop} (hfresh : ∀ o, P { options := o })
    (hadd : ∀ p requested id, Built g p → P p →
      P ((Posterior.addBlock g requested id).outcome p).2)
    (hcongr : ∀ p q, P p →
      (∀ k, (q.blocks.get? k).map Block.outline = (p.blocks.get? k).map Block.outline) →
      q.owners = p.owners → P q) (h : Built g p) : P p := by
  have step : ∀ {p : Posterior} {α : Type} {x : Attempt Posterior α}, Built g p → P p →
      (∀ {o w}, Keeps (Layout o w) x) → P (x.outcome p).2 := by
    intro p α x hb hp hx
    have hlayout : Layout (fun k => (p.blocks.get? k).map Block.outline) p.owners p :=
      ⟨hb.madeFor.mono fun _ _ => trivial, fun _ => rfl, rfl⟩
    have h := hx p hlayout
    exact hcongr p _ hp h.outline h.owners
  induction h with
  | fresh options => exact hfresh options
  | addBlock hp requested id ih => exact hadd _ requested id hp ih
  | schedule hp sites id ih => exact step hp ih Layout.keeps_scheduleBlock
  | tabulate hp id ih => exact step hp ih Layout.keeps_tabulateBlock
  | constrain hp id i type method ih => exact step hp ih (Layout.keeps_constrain i type method)
  | assemble hp c id ih => exact step hp ih Layout.keeps_assemble
  | makeRunnable hp id ih => exact step hp ih Layout.keeps_makeRunnable
  | compile hp c sites reject ih => exact step hp ih (Layout.keeps_compile reject)
  | report _ phases warnings ih => exact hcongr _ _ ih (fun _ => rfl) rfl

/-! ## The owners of edges -/

/-- The registered edges are those at the borders of the blocks. -/
structure Bordered (g : Graph) (p : Posterior) : Prop where
  /-- The block that an edge is registered for has it at its border. -/
  owner : ∀ {e : EdgeId} {k : String}, p.owners.get? e = some k →
    ∃ a, p.blocks.get? k = some a ∧ e ∈ a.border g
  /-- The edges at the border of a block are registered, if only for a later block. -/
  owned : ∀ {k : String} {a : Block} {e : EdgeId}, p.blocks.get? k = some a → e ∈ a.border g →
    ∃ j, p.owners.get? e = some j

namespace Bordered

theorem congr (h : Bordered g p)
    (hblocks : ∀ k, (q.blocks.get? k).map Block.outline = (p.blocks.get? k).map Block.outline)
    (howners : q.owners = p.owners) : Bordered g q where
  owner {e k} he := by
    rw [howners] at he
    obtain ⟨a, ha, hea⟩ := h.owner he
    have hk := hblocks k
    rw [ha, Option.map_some, Option.map_eq_some_iff] at hk
    obtain ⟨a', ha', ho⟩ := hk
    exact ⟨a', ha', Block.border_of_outline ho ▸ hea⟩
  owned {k a e} ha he := by
    have hk := hblocks k
    rw [ha, Option.map_some, eq_comm, Option.map_eq_some_iff] at hk
    obtain ⟨a', ha', ho⟩ := hk
    rw [howners]
    exact h.owned ha' (Block.border_of_outline ho ▸ he)

/-- Registering a block registers the edges at its border. -/
theorem register (h : Bordered g p) (hfree : p.blocks.get? b.id = none) :
    Bordered g (p.register g b) := by
  have hblocks : ∀ k, (p.register g b).blocks.get? k =
      if b.id = k then some b else p.blocks.get? k := fun k => by
    rw [blocks_register, get?_putBlock]
  rw [register_eq_overwritten] at hblocks ⊢
  refine ⟨fun {e k} he => ?_, fun {k a e} ha he => ?_⟩
  · rw [hblocks]
    rcases Table.mem_or_of_get?_foldl_insert he with hmem | hold
    · obtain ⟨f, hf, hfe⟩ := List.mem_map.mp hmem
      cases hfe
      exact ⟨b, if_pos rfl, hf⟩
    · obtain ⟨a, ha, hea⟩ := h.owner hold
      have hne : b.id ≠ k := by
        rintro rfl
        rw [hfree] at ha
        cases ha
      exact ⟨a, by rwa [if_neg hne], hea⟩
  · rw [hblocks] at ha
    refine Option.isSome_iff_exists.mp (Table.isSome_get?_foldl_insert ?_)
    split at ha
    · cases ha
      rw [List.map_map]
      exact Or.inl (List.mem_map.mpr ⟨e, he, rfl⟩)
    · obtain ⟨j, hj⟩ := h.owned ha he
      exact Or.inr (Option.isSome_of_eq_some hj)

end Bordered

/-- **The registered edges are those at the borders of the blocks.** -/
theorem Built.bordered (h : Built g p) : Bordered g p := by
  refine h.induct_layout (fun o => ⟨fun he => ?_, fun ha => ?_⟩) (fun p requested id _ hp => ?_)
    fun p q hp hblocks howners => hp.congr hblocks howners
  · contradiction
  · contradiction
  · obtain ⟨ids, ⟨f, hf⟩ | ⟨b, -, hfree, hok⟩⟩ := addBlock_cases g requested id p
    · rw [Attempt.outcome_snd_of_error hf]
      exact ⟨hp.owner, hp.owned⟩
    · rw [Attempt.outcome_snd_of_ok hok]
      exact Bordered.register (p := { p with ids }) ⟨hp.owner, hp.owned⟩ hfree

/-! ## The warnings of a new block -/

/-- The warnings of a block that is registered: edges that pass to it, and clusters that give way.
-/
def overwritings (g : Graph) (p : Posterior) (b : Block) : List Warning :=
  ((p.owners.overwritten ((b.border g).map (·, b.id))).map fun r => .edgeMoves r.1.1 r.2 r.1.2) ++
    (p.clusters.overwritten (clusterPlaces b.clusters)).map fun r =>
      .clusterMoves r.1.1.1 r.1.1.2 r.2 r.1.2

theorem warnings_register :
    (p.register g b).warnings = p.warnings ++ overwritings g p b := by
  rw [register_eq_overwritten, overwritings, ← List.append_assoc]
  rfl

theorem edgeMoves_mem_overwritings {old new : String} :
    .edgeMoves e old new ∈ overwritings g p b ↔
      e ∈ b.border g ∧ p.owners.get? e = some old ∧ old ≠ b.id ∧ new = b.id := by
  have hone : ∀ x ∈ (b.border g).map (·, b.id), ∀ y ∈ (b.border g).map (·, b.id),
      x.1 = y.1 → x = y := by
    intro x hx y hy hxy
    obtain ⟨e, -, rfl⟩ := List.mem_map.mp hx
    obtain ⟨f, -, rfl⟩ := List.mem_map.mp hy
    exact congrArg (·, b.id) hxy
  have hmem : .edgeMoves e old new ∈ overwritings g p b ↔
      ((e, new), old) ∈ p.owners.overwritten ((b.border g).map (·, b.id)) := by
    simp [overwritings]
  rw [hmem, Table.mem_overwritten hone]
  constructor
  · rintro ⟨h, hget, hne⟩
    obtain ⟨f, hf, hfe⟩ := List.mem_map.mp h
    cases hfe
    exact ⟨hf, hget, hne, rfl⟩
  · rintro ⟨h, hget, hne, rfl⟩
    exact ⟨List.mem_map.mpr ⟨e, h, rfl⟩, hget, hne⟩

theorem clusterMoves_mem_overwritings (hb : b.MadeFor g) {n : NodeId} {old new : Cluster} :
    .clusterMoves n e old new ∈ overwritings g p b ↔
      new ∈ b.clusters ∧ n = new.node ∧ e ∈ new.edges ∧ p.clusters.get? (n, e) = some old ∧
        old ≠ new := by
  have hone : ∀ x ∈ clusterPlaces b.clusters, ∀ y ∈ clusterPlaces b.clusters,
      x.1 = y.1 → x = y := by
    intro x hx y hy hxy
    obtain ⟨hx, hxn, -⟩ := mem_clusterPlaces.mp hx
    obtain ⟨hy, hyn, -⟩ := mem_clusterPlaces.mp hy
    exact Prod.ext hxy (hb.eq_of_node hx hy (by rw [← hxn, ← hyn, hxy]))
  have hmem : .clusterMoves n e old new ∈ overwritings g p b ↔
      (((n, e), new), old) ∈ p.clusters.overwritten (clusterPlaces b.clusters) := by
    simp [overwritings]
  rw [hmem, Table.mem_overwritten hone, mem_clusterPlaces]
  simp only [and_assoc]

theorem collider_not_mem_overwritings : .collider k ∉ overwritings g p b := by
  simp [overwritings]

/-- What a block overwrites when it is registered, as told by its warnings. -/
structure Overwrites (g : Graph) (p : Posterior) (b : Block) (ws : List Warning) : Prop where
  /-- There is a warning just when a registered block shares an edge at the border of both. -/
  ne_nil_iff : ws ≠ [] ↔
    ∃ k a, p.blocks.get? k = some a ∧ ∃ e ∈ a.border g, e ∈ b.border g
  /-- Each of these edges is reported. -/
  shared : ∀ {k : String} {a : Block} {e : EdgeId}, p.blocks.get? k = some a → e ∈ a.border g →
    e ∈ b.border g → ∃ old, .edgeMoves e old b.id ∈ ws
  /-- An edge that is reported passes to the block from one that shares it. -/
  edge : ∀ {e : EdgeId} {old new : String}, .edgeMoves e old new ∈ ws → new = b.id ∧
    e ∈ b.border g ∧ ∃ a, p.blocks.get? old = some a ∧ e ∈ a.border g
  /-- A cluster of a registered block gives way to another one of the block, for an edge that is
  reported itself. -/
  cluster : ∀ {n : NodeId} {e : EdgeId} {old new : Cluster}, .clusterMoves n e old new ∈ ws →
    old ≠ new ∧ (∃ k a, p.blocks.get? k = some a ∧ old ∈ a.clusters) ∧ new ∈ b.clusters ∧
      old.node = n ∧ new.node = n ∧ e ∈ old.edges ∧ e ∈ new.edges ∧
      ∃ k, .edgeMoves e k b.id ∈ ws
  /-- No other warning is given. -/
  collider : ∀ {k : String}, .collider k ∉ ws

/-- The warnings of a block that is registered under a free name. -/
theorem Built.overwrites_overwritings (hp : Built g p) (hb : b.MadeFor g)
    (hfree : p.blocks.get? b.id = none) : Overwrites g p b (overwritings g p b) := by
  have hedge : ∀ {e : EdgeId} {old new : String}, .edgeMoves e old new ∈ overwritings g p b →
      new = b.id ∧ e ∈ b.border g ∧ ∃ a, p.blocks.get? old = some a ∧ e ∈ a.border g := by
    intro e old new hmem
    obtain ⟨he, hold, -, hnew⟩ := edgeMoves_mem_overwritings.mp hmem
    exact ⟨hnew, he, hp.bordered.owner hold⟩
  have hshared : ∀ {k : String} {a : Block} {e : EdgeId}, p.blocks.get? k = some a →
      e ∈ a.border g → e ∈ b.border g → ∃ old, .edgeMoves e old b.id ∈ overwritings g p b := by
    intro k a e ha hea heb
    obtain ⟨old, hold⟩ := hp.bordered.owned ha hea
    refine ⟨old, edgeMoves_mem_overwritings.mpr ⟨heb, hold, ?_, rfl⟩⟩
    rintro rfl
    obtain ⟨a', ha', -⟩ := hp.bordered.owner hold
    rw [hfree] at ha'
    cases ha'
  have hcluster : ∀ {n : NodeId} {e : EdgeId} {old new : Cluster},
      .clusterMoves n e old new ∈ overwritings g p b →
      old ≠ new ∧ (∃ k a, p.blocks.get? k = some a ∧ old ∈ a.clusters) ∧ new ∈ b.clusters ∧
        old.node = n ∧ new.node = n ∧ e ∈ old.edges ∧ e ∈ new.edges ∧
        ∃ k, .edgeMoves e k b.id ∈ overwritings g p b := by
    intro n e old new hmem
    obtain ⟨hnew, rfl, he, hold, hne⟩ := (clusterMoves_mem_overwritings hb).mp hmem
    obtain ⟨o, ho⟩ := hp.exists_registry
    obtain ⟨hnode, heold, hown⟩ := ho.placed _ _ _ hold
    obtain ⟨k, a, ha, holda⟩ := (ho.owned _).mpr hown
    refine ⟨hne, ⟨k, a, ha, holda⟩, hnew, hnode, rfl, heold, he, ?_⟩
    exact hshared ha ((hp.madeFor k a ha).2.mem_border holda heold) (hb.mem_border hnew he)
  refine ⟨⟨fun hne => ?_, ?_⟩, hshared, hedge, hcluster, collider_not_mem_overwritings⟩
  · -- a warning about a cluster comes with one about an edge
    have hsome : ∃ e old new, .edgeMoves e old new ∈ overwritings g p b := by
      obtain ⟨w, hw⟩ := List.exists_mem_of_ne_nil _ hne
      cases w with
      | edgeMoves e old new => exact ⟨e, old, new, hw⟩
      | clusterMoves n e old new =>
        obtain ⟨-, -, -, -, -, -, -, k, hk⟩ := hcluster hw
        exact ⟨e, k, b.id, hk⟩
      | collider k => exact absurd hw collider_not_mem_overwritings
    obtain ⟨e, old, new, hmem⟩ := hsome
    obtain ⟨-, heb, a, ha, hea⟩ := hedge hmem
    exact ⟨old, a, ha, e, hea, heb⟩
  · rintro ⟨k, a, ha, e, hea, heb⟩
    obtain ⟨old, hmem⟩ := hshared ha hea heb
    exact List.ne_nil_of_mem hmem

/-- **A new block gives a warning just when it has an edge at its border that an earlier block has
at its border, too.** Every such edge is reported. -/
theorem Built.overwrites_of_addBlock (hp : Built g p)
    (h : Posterior.addBlock g requested id p = .ok b q) :
    ∃ ws, q.warnings = p.warnings ++ ws ∧ Overwrites g p b ws := by
  obtain ⟨ids, ⟨f, hf⟩ | ⟨d, hd, hfree, hok⟩⟩ := addBlock_cases g requested id p
  · rw [h] at hf
    contradiction
  · rw [h] at hok
    cases hok
    have hmade : b.MadeFor g := ⟨requested, by rw [(Block.of_ofVariables hd).2]; exact hd⟩
    exact ⟨_, warnings_register, hp.overwrites_overwritings hmade hfree⟩

/-- Three variables in a row: two soft nodes with an edge between them and one that dangles at each.
-/
def rowGraph : Graph :=
  let pair : NodeRequest := { kind := "pair", interfaces := 2 }
  let g := ((Graph.addNode pair).outcome ((Graph.addNode pair).outcome ∅).2).2
  let g := ((Graph.connect (.numbered 0) none (some "x") none).outcome g).2
  let g := ((Graph.connect (.numbered 1) (some (.numbered 2)) (some "y") none).outcome g).2
  ((Graph.connect (.numbered 3) none (some "z") none).outcome g).2

/-- A block for some variables of the row. -/
def rowPosterior (requested : List String) : Posterior :=
  ((addBlock rowGraph requested (some "old")).outcome { options := wholeOptions }).2

theorem built_rowPosterior (requested : List String) : Built rowGraph (rowPosterior requested) :=
  .addBlock (.fresh _) requested _

/-- The edge in the middle is at the border of both blocks. -/
theorem overwrites_row : Built rowGraph (rowPosterior ["y"]) ∧
    ∃ b q ws, addBlock rowGraph ["y", "z"] (some "new") (rowPosterior ["y"]) = .ok b q ∧
      q.warnings = (rowPosterior ["y"]).warnings ++ ws ∧
      Overwrites rowGraph (rowPosterior ["y"]) b ws ∧ ws ≠ [] := by
  have hbuilt := built_rowPosterior ["y"]
  have hok : ((addBlock rowGraph ["y", "z"] (some "new")).outcome (rowPosterior ["y"])).1.isOk =
      true := by cbv
  have hold : (rowPosterior ["y"]).warnings.length = 0 := by cbv
  have hnew : ((addBlock rowGraph ["y", "z"] (some "new")).outcome
      (rowPosterior ["y"])).2.warnings.length = 1 := by cbv
  cases hb : ((addBlock rowGraph ["y", "z"] (some "new")).outcome (rowPosterior ["y"])).1 with
  | error f =>
    rw [hb] at hok
    contradiction
  | ok b =>
    have h := Attempt.eq_ok_of_outcome hb
    obtain ⟨ws, hws, hover⟩ := Built.overwrites_of_addBlock hbuilt h
    refine ⟨hbuilt, b, _, ws, h, hws, hover, ?_⟩
    rintro rfl
    rw [hws, List.append_nil, hold] at hnew
    contradiction

/-- The new block lies inside of the old one. Both have edge 0, and there is no warning. -/
theorem silent_row : Built rowGraph (rowPosterior ["x", "y"]) ∧
    ∃ a b q, (rowPosterior ["x", "y"]).blocks.get? "old" = some a ∧
      addBlock rowGraph ["x"] (some "new") (rowPosterior ["x", "y"]) = .ok b q ∧
      a.id ≠ b.id ∧ 0 ∈ a.internal ∧ 0 ∈ b.internal ∧
      q.warnings = (rowPosterior ["x", "y"]).warnings := by
  have hold : ((rowPosterior ["x", "y"]).blocks.get? "old").map (fun a => (a.id, a.internal)) =
      some ("old", [0, 1]) := by cbv
  have hnew : ((addBlock rowGraph ["x"] (some "new")).outcome (rowPosterior ["x", "y"])).1.map
      (fun b => (b.id, b.internal)) = .ok ("new", [0]) := by cbv
  have hsilent : ((addBlock rowGraph ["x"] (some "new")).outcome
      (rowPosterior ["x", "y"])).2.warnings = (rowPosterior ["x", "y"]).warnings := by cbv
  obtain ⟨a, ha, haid⟩ := Option.map_eq_some_iff.mp hold
  obtain ⟨b, hb, hbid⟩ := map_eq_ok.mp hnew
  obtain ⟨hai, hain⟩ := Prod.mk.inj haid
  obtain ⟨hbi, hbin⟩ := Prod.mk.inj hbid
  refine ⟨built_rowPosterior _, a, b, _, ha, Attempt.eq_ok_of_outcome hb, ?_, ?_, ?_, hsilent⟩
  · rw [hai, hbi]
    decide
  · rw [hain]
    decide
  · rw [hbin]
    decide

end Posterior

end MessagePassing
