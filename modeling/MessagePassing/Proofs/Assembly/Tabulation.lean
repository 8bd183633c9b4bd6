import MessagePassing.Proofs.Assembly.Ownership

/-!
# Marginal tables of scheduled blocks

A block that can be scheduled gets a marginal table, but for one case. Nothing arrives through an
edge that dangles: the schedule reads no message there, and the marginal of a variable is a copy of
the one message that there is. A table has no such way out for a cluster. It wants the message that
arrives through every edge of the cluster, and it cannot be made if one of them dangles.

* `silentEnds` are the interfaces at clusters that have an edge which dangles.

Results, for a graph and a posterior that are built:
* `mem_silentEnds`, `silentEnds_eq_nil_iff`: these interfaces belong to cluster edges that dangle.
* `failsFirst_withMarginalTable`: tabulating fails at the first of them, or it succeeds.
* `tabulated_of_withMarginalTable`: what a table is about, and which messages it names.
* **`Posterior.Built.tabulated_of_scheduled`**: a block that has been scheduled gets a table of its
  variables and clusters just when no edge of a cluster dangles.
* `Posterior.not_tabulated_joint`: a block with a schedule may have no table.
-/

namespace MessagePassing

/-! ## Edges that dangle -/

namespace Graph

variable {g : Graph} {i : InterfaceId} {e : EdgeId} {c : Cluster}

/-- The edge has one end only. -/
def Dangles (g : Graph) (e : EdgeId) : Prop :=
  ∃ x, g.edges[e]? = some x ∧ x.head = none

/-- An interface with an edge has a partner, unless the edge dangles. -/
theorem Coherent.partner?_eq_none_iff (hg : g.Coherent) (he : g.edgeAt? i = some e) :
    g.partner? i = none ↔ g.Dangles e := by
  obtain ⟨y, hy, hye⟩ := Option.bind_eq_some_iff.mp he
  obtain ⟨x, hx, hi⟩ := hg.bound hy hye
  have hpartner : g.partner? i = y.partner := by rw [partner?, hy, Option.bind_some]
  have hdangles : g.Dangles e ↔ x.head = none := by simp [Dangles, hx]
  rw [hpartner, hdangles]
  rcases Edge.mem_ends.mp hi with rfl | hh
  · obtain ⟨z, hz, -, hzp⟩ := hg.tail hx
    cases hy.symm.trans hz
    rw [hzp]
  · obtain ⟨z, hz, -, hzp⟩ := hg.head hx hh
    cases hy.symm.trans hz
    simp [hzp, hh]

/-- The interfaces of a node that have an edge of the cluster there. -/
def clusterEnds (g : Graph) (c : Cluster) : List InterfaceId :=
  (g.interfacesOf c.node).filter fun i => (g.edgeAt? i).any (· ∈ c.edges)

theorem mem_clusterEnds :
    i ∈ g.clusterEnds c ↔ i ∈ g.interfacesOf c.node ∧ ∃ e ∈ c.edges, g.edgeAt? i = some e := by
  simp only [clusterEnds, List.mem_filter, Option.any_eq_true, decide_eq_true_eq, and_comm]

/-- Those of them through which nothing arrives. -/
def silentEnds (g : Graph) (c : Cluster) : List InterfaceId :=
  (g.clusterEnds c).filter fun i => g.partner? i = none

/-- An interface of a node has a name. -/
theorem Coherent.exists_label (hg : g.Coherent) {n : NodeId} (hi : i ∈ g.interfacesOf n) :
    ∃ l, g.notConnected i = .notConnected l := by
  obtain ⟨x, hx⟩ := exists_of_mem_interfacesOf hi
  rw [interfacesOf_of_some hx] at hi
  obtain ⟨y, hy, rfl⟩ := hg.interface_of_node hx hi
  simp [notConnected, label?, hy, hx]

theorem failsFirst_partner (g : Graph) (i : InterfaceId) :
    FailsFirst g.notConnected (if g.partner? i = none then [i] else []) (g.partner i) := by
  unfold partner
  cases g.partner? i with
  | none => exact .error i []
  | some j => exact .ok j

end Graph

namespace Block

variable {b b' : Block} {g : Graph} {sites : List InterfaceId} {i : InterfaceId} {e : EdgeId}
  {x : String} {c : Cluster} {m : MarginalEntry}

/-- The interfaces at the clusters through which nothing arrives, in the order in which a table
comes to them. -/
def silentEnds (b : Block) (g : Graph) : List InterfaceId :=
  b.clusters.flatMap g.silentEnds

theorem mem_silentEnds (hg : g.Coherent) : i ∈ b.silentEnds g ↔
    ∃ c ∈ b.clusters, ∃ e ∈ c.edges,
      i ∈ g.interfacesOf c.node ∧ g.edgeAt? i = some e ∧ g.Dangles e := by
  simp only [silentEnds, List.mem_flatMap, Graph.silentEnds, List.mem_filter,
    Graph.mem_clusterEnds, decide_eq_true_eq]
  refine exists_congr fun c => and_congr_right fun _ => ?_
  constructor
  · rintro ⟨⟨hi, e, he, hie⟩, hp⟩
    exact ⟨e, he, hi, hie, (hg.partner?_eq_none_iff hie).mp hp⟩
  · rintro ⟨e, he, hi, hie, hd⟩
    exact ⟨⟨hi, e, he, hie⟩, (hg.partner?_eq_none_iff hie).mpr hd⟩

/-- Something arrives at every interface of a cluster just when none of its edges dangles. -/
theorem MadeFor.silentEnds_eq_nil_iff (hb : b.MadeFor g) (hg : g.Coherent) :
    b.silentEnds g = [] ↔ ∀ c ∈ b.clusters, ∀ e ∈ c.edges, ¬ g.Dangles e := by
  rw [List.eq_nil_iff_forall_not_mem]
  constructor
  · intro hnone c hc e he hd
    -- an edge of a cluster is at an interface of its node
    have hat := he
    rw [(hb.of_mem_clusters hc).1, Graph.mem_clusterEdges] at hat
    obtain ⟨i, hi, hie⟩ := List.mem_filterMap.mp hat.1
    exact hnone i ((mem_silentEnds hg).mpr ⟨c, hc, e, he, hi, hie, hd⟩)
  · intro hnone i hi
    obtain ⟨c, hc, e, he, -, -, hd⟩ := (mem_silentEnds hg).mp hi
    exact hnone c hc e he hd

/-! ## What is scheduled for a variable -/

/-- Both messages along an edge of a variable in scope are scheduled, and their nodes exist. -/
theorem scheduled_of_mem_ends (hg : g.Coherent) (h : b.withSchedule g sites = .ok b')
    (hx : x ∈ b.scope) (he : e ∈ g.edgesOf x) (hi : i ∈ g.ends e) :
    i ∈ b'.order ∧ ∃ n, g.nodeOf? i = some n := by
  have htarget := mem_targets (b := b) hg (hg.edgeAt_of_mem_ends hi) (hg.owner_of_mem_edgesOf he) hx
  have horder := (sufficient_order hg h).targets i htarget
  obtain ⟨n, hn, -⟩ := (withSchedule_eq_ok.mp h).2.1 i ((mem_order_iff hg h).mp horder)
  exact ⟨horder, n, hn⟩

theorem mem_ends_of_variablePlan {y : Edge} {plan : MarginalPlan}
    (h : variablePlan g y = .ok plan) : ∀ i ∈ plan.interfaces, i ∈ y.ends := by
  unfold variablePlan at h
  cases hy : y.head with
  | none =>
    rw [hy] at h
    cases pure_eq_ok.mp h
    simp [MarginalPlan.interfaces, Graph.Edge.mem_ends]
  | some k =>
    rw [hy] at h
    obtain ⟨tail, -, h⟩ := bind_eq_ok.mp h
    obtain ⟨head, -, h⟩ := bind_eq_ok.mp h
    split at h
    · cases pure_eq_ok.mp h
      simp [MarginalPlan.interfaces, Graph.Edge.mem_ends]
    · split at h <;> cases pure_eq_ok.mp h <;>
        simp [MarginalPlan.interfaces, Graph.Edge.mem_ends, hy]

theorem exists_variablePlan {y : Edge} (h : ∀ i ∈ y.ends, ∃ n, g.nodeOf? i = some n) :
    ∃ plan, variablePlan g y = .ok plan := by
  unfold variablePlan
  cases hy : y.head with
  | none => exact ⟨_, rfl⟩
  | some k =>
    obtain ⟨tail, htail⟩ := h y.tail (Graph.Edge.mem_ends.mpr (Or.inl rfl))
    obtain ⟨head, hhead⟩ := h k (Graph.Edge.mem_ends.mpr (Or.inr hy))
    simp only [Graph.nodeOf, htail, hhead, ok_bind]
    by_cases htc : tail.isClamp
    · exact ⟨_, by rw [if_pos htc]; rfl⟩
    · by_cases hhc : head.isClamp
      · exact ⟨_, by rw [if_neg htc, if_pos hhc]; rfl⟩
      · exact ⟨_, by rw [if_neg htc, if_neg hhc]; rfl⟩

/-- A variable in scope has a marginal, once the block can be scheduled. -/
theorem exists_variableMarginal (hb : b.MadeFor g) (hg : g.Built)
    (h : b.withSchedule g sites = .ok b') (hx : x ∈ b.scope) :
    ∃ m, variableMarginal g x = .ok m := by
  have hc := hg.coherent
  obtain ⟨f, hf⟩ := hb.exists_edge hg hx
  obtain ⟨e, he⟩ := Option.ne_none_iff_exists'.mp fun hnone =>
    List.ne_nil_of_mem hf (List.min?_eq_none_iff.mp hnone)
  obtain ⟨y, hy, -⟩ := hc.owner (List.min?_mem he)
  have hends : g.ends e = y.ends := by rw [Graph.ends, hy, Option.map_some, Option.getD_some]
  obtain ⟨plan, hplan⟩ := exists_variablePlan (g := g) (y := y) fun i hi =>
    (scheduled_of_mem_ends hc h hx (List.min?_mem he) (hends ▸ hi)).2
  exact ⟨_, variableMarginal_eq_ok.mpr ⟨e, y, plan, he, Graph.edge_eq_ok.mpr hy, hplan, rfl⟩⟩

/-- The marginal of a variable in scope is made of scheduled messages. -/
theorem mem_order_of_variableMarginal (hg : g.Coherent) (h : b.withSchedule g sites = .ok b')
    (hx : x ∈ b.scope) (hm : variableMarginal g x = .ok m) :
    ∀ i ∈ m.plan.interfaces, i ∈ b'.order := by
  obtain ⟨e, y, plan, he, hy, hplan, rfl⟩ := variableMarginal_eq_ok.mp hm
  intro i hi
  refine (scheduled_of_mem_ends hg h hx (List.min?_mem he) ?_).1
  rw [Graph.ends, Graph.edge_eq_ok.mp hy, Option.map_some, Option.getD_some]
  exact mem_ends_of_variablePlan hplan i hi

/-! ## What is scheduled for a cluster -/

theorem failsFirst_clusterMarginal (g : Graph) (c : Cluster) :
    FailsFirst g.notConnected (g.silentEnds c) (clusterMarginal g c) := by
  have hends : g.silentEnds c =
      (g.clusterEnds c).flatMap fun i => if g.partner? i = none then [i] else [] := by
    unfold Graph.silentEnds
    induction g.clusterEnds c with
    | nil => rfl
    | cons i l ih =>
      rw [List.filter_cons, List.flatMap_cons, ih]
      by_cases hi : g.partner? i = none
      · rw [if_pos (decide_eq_true hi), if_pos hi, List.singleton_append]
      · rw [if_neg (mt of_decide_eq_true hi), if_neg hi, List.nil_append]
  rw [hends]
  exact (FailsFirst.mapM fun i _ => g.failsFirst_partner i).map

/-- The marginal of a cluster is made of scheduled messages. -/
theorem mem_order_of_clusterMarginal (hb : b.MadeFor g) (hg : g.Coherent)
    (h : b.withSchedule g sites = .ok b') (hc : c ∈ b.clusters)
    (hm : clusterMarginal g c = .ok m) : ∀ i ∈ m.plan.interfaces, i ∈ b'.order := by
  obtain ⟨l, hl, rfl⟩ := clusterMarginal_eq_ok.mp hm
  intro j hj
  obtain ⟨i, hi, hij⟩ := exists_of_mem_mapM hl hj
  obtain ⟨-, e, he, hie⟩ := Graph.mem_clusterEnds.mp hi
  obtain ⟨hedges, hscope⟩ := hb.of_mem_clusters hc
  rw [hedges, Graph.mem_clusterEdges] at he
  obtain ⟨x, hx⟩ := hg.exists_owner_of_edgeAt hie
  exact (sufficient_order hg h).targets j
    (mem_targets_of_partner hg (partner_eq_ok.mp hij) hie hx (hscope e he.1 he.2 x hx))

/-! ## Tables -/

/-- What there are marginals of: the variables in scope, and then the clusters. -/
def tabulable (b : Block) : List Target :=
  b.scope.map .variable ++ b.clusters.map .cluster

theorem MadeFor.nodup_tabulable (hb : b.MadeFor g) : b.tabulable.Nodup := by
  refine List.nodup_append.mpr ⟨?_, ?_, ?_⟩
  · exact List.Nodup.map (fun _ _ h => Target.variable.inj h) hb.nodup_scope
  · exact List.Nodup.map (fun _ _ h => Target.cluster.inj h) hb.nodup_clusters
  · intro t ht u hu htu
    obtain ⟨x, -, rfl⟩ := List.mem_map.mp ht
    obtain ⟨c, -, rfl⟩ := List.mem_map.mp hu
    contradiction

/-- A table has one entry for each variable in scope, in order, and then one for each cluster. The
messages that it names are scheduled, and it changes nothing else. -/
structure Tabulated (b b' : Block) : Prop where
  targets : b'.marginalTargets = b.tabulable
  nodup : b'.marginalTargets.Nodup
  scheduled : ∀ m ∈ b'.marginalTable, ∀ i ∈ m.plan.interfaces, i ∈ b'.order
  rest : b' = { b with marginalTable := b'.marginalTable }

theorem map_target_of_mapM {α : Type} {f : α → Except Failure MarginalEntry} {t : α → Target}
    {l : List α} {l' : List MarginalEntry} (hf : ∀ a m, f a = .ok m → m.target = t a)
    (h : l.mapM f = .ok l') : l'.map (·.target) = l.map t := by
  replace h := mapM_eq_ok.mp h
  induction h with
  | nil => rfl
  | cons hm _ ih => rw [List.map_cons, List.map_cons, ih, hf _ _ hm]

theorem marginalTargets_of_withMarginalTable (h : b.withMarginalTable g = .ok b') :
    b'.marginalTargets = b.tabulable := by
  obtain ⟨single, joint, hsingle, hjoint, rfl⟩ := withMarginalTable_eq_ok.mp h
  have hvariable : ∀ x m, variableMarginal g x = .ok m → m.target = .variable x := by
    intro x m hm
    obtain ⟨_, _, _, -, -, -, rfl⟩ := variableMarginal_eq_ok.mp hm
    rfl
  have hcluster : ∀ c m, clusterMarginal g c = .ok m → m.target = .cluster c := by
    intro c m hm
    obtain ⟨_, -, rfl⟩ := clusterMarginal_eq_ok.mp hm
    rfl
  change (single ++ joint).map (·.target) = _
  rw [List.map_append, map_target_of_mapM hvariable hsingle, map_target_of_mapM hcluster hjoint]
  rfl

/-- **A table that is made of a scheduled block is right.** -/
theorem tabulated_of_withMarginalTable (hb : b.MadeFor g) (hg : g.Coherent)
    (h : b.withSchedule g sites = .ok b') {b'' : Block} (ht : b'.withMarginalTable g = .ok b'') :
    b'.Tabulated b'' := by
  have hmade := madeFor_ofOutline g b b' (outline_of_withSchedule h) hb
  have htargets := marginalTargets_of_withMarginalTable ht
  obtain ⟨single, joint, hsingle, hjoint, rfl⟩ := withMarginalTable_eq_ok.mp ht
  have hscope : b'.scope = b.scope := (congrArg Block.scope (outline_of_withSchedule h) :)
  have hclusters : b'.clusters = b.clusters :=
    (congrArg Block.clusters (outline_of_withSchedule h) :)
  refine ⟨htargets, htargets ▸ hmade.nodup_tabulable, fun m hm i hi => ?_, rfl⟩
  change i ∈ b'.order
  rcases List.mem_append.mp hm with hm | hm
  · obtain ⟨x, hx, hxm⟩ := exists_of_mem_mapM hsingle hm
    exact mem_order_of_variableMarginal hg h (hscope ▸ hx) hxm i hi
  · obtain ⟨c, hc, hcm⟩ := exists_of_mem_mapM hjoint hm
    exact mem_order_of_clusterMarginal hb hg h (hclusters ▸ hc) hcm i hi

/-- **The table of a scheduled block fails at the first cluster edge that dangles**, and there is
one if none does. -/
theorem failsFirst_withMarginalTable (hb : b.MadeFor g) (hg : g.Built)
    (h : b.withSchedule g sites = .ok b') :
    FailsFirst g.notConnected (b'.silentEnds g) (b'.withMarginalTable g) := by
  have hscope : b'.scope = b.scope := (congrArg Block.scope (outline_of_withSchedule h) :)
  -- no variable is objected to
  have hsingle : FailsFirst g.notConnected (b'.scope.flatMap fun _ => [])
      (b'.scope.mapM (variableMarginal g)) :=
    FailsFirst.mapM fun x hx => by
      obtain ⟨m, hm⟩ := exists_variableMarginal hb hg h (hscope ▸ hx)
      exact hm ▸ .ok m
  have hjoint : FailsFirst g.notConnected (b'.silentEnds g)
      (b'.clusters.mapM (clusterMarginal g)) :=
    FailsFirst.mapM fun c _ => failsFirst_clusterMarginal g c
  have hend := hsingle.bind fun single => hjoint.bind fun joint =>
    FailsFirst.ok { b' with marginalTable := single ++ joint }
  rwa [List.flatMap_eq_nil_iff.mpr fun _ _ => rfl, List.nil_append, List.append_nil] at hend

end Block

/-! ## Blocks of a posterior -/

namespace Posterior

variable {g : Graph} {p q : Posterior} {b : Block} {id : String} {sites : List InterfaceId}

theorem replaceBlock_of_error {f : Block → Except Failure Block} {e : Failure}
    (hb : p.blocks.get? id = some b) (hf : f b = .error e) :
    replaceBlock id f p = .error e (p.putBlock b) := by
  rw [replaceBlock_eq]
  simp [onBlock, hb, replacement, hf]

/-- **A block that has been scheduled gets a table just when no edge of a cluster dangles.** The
table has one entry for each variable and then one for each cluster, and names scheduled messages
only. If an edge of a cluster dangles, it fails at the first interface where nothing arrives. -/
theorem Built.tabulated_of_scheduled (hg : g.Built) (hp : Built g p)
    (h : scheduleBlock g sites id p = .ok b q) :
    ((∀ c ∈ b.clusters, ∀ e ∈ c.edges, ¬ g.Dangles e) →
      ∃ b', tabulateBlock g id q = .ok b' (q.putBlock b') ∧ b.Tabulated b') ∧
    ∀ c ∈ b.clusters, ∀ e ∈ c.edges, g.Dangles e →
      ∃ i l, (b.silentEnds g).head? = some i ∧ g.notConnected i = .notConnected l ∧
        tabulateBlock g id q = .error (.notConnected l) (q.putBlock b) := by
  have hc := hg.coherent
  obtain ⟨b₀, hb₀, hs, rfl⟩ := scheduleBlock_eq_ok.mp h
  obtain ⟨hid₀, hmade₀⟩ := hp.madeFor id b₀ hb₀
  have houtline := Block.outline_of_withSchedule hs
  have hmade := Block.madeFor_ofOutline g b₀ b houtline hmade₀
  have hget : ((p.putBlock b).forgetPhases id).blocks.get? id = some b :=
    get?_putBlock.trans (if_pos ((Block.id_of_outline houtline).trans hid₀))
  have htable := Block.failsFirst_withMarginalTable hmade₀ hg hs
  refine ⟨fun hnone => ?_, fun c hcb e he hd => ?_⟩
  · obtain ⟨b', hb'⟩ := htable.succeeds ((hmade.silentEnds_eq_nil_iff hc).mpr hnone)
    exact ⟨b', replaceBlock_eq_ok.mpr ⟨b, hget, hb', rfl⟩,
      Block.tabulated_of_withMarginalTable hmade₀ hc hs hb'⟩
  · have hne : b.silentEnds g ≠ [] := fun hnil =>
      (hmade.silentEnds_eq_nil_iff hc).mp hnil c hcb e he hd
    obtain ⟨i, l, hl⟩ := List.exists_cons_of_ne_nil hne
    have hhead : (b.silentEnds g).head? = some i := by rw [hl, List.head?_cons]
    obtain ⟨d, -, f, -, hi, -⟩ := (Block.mem_silentEnds hc).mp (List.mem_of_head? hhead)
    obtain ⟨text, htext⟩ := hc.exists_label hi
    exact ⟨i, text, hhead, htext, replaceBlock_of_error hget (htext ▸ htable.fails i hhead)⟩

/-- A joint with three interfaces. The first one leads to a prior, the second one to where it is
asked to, and the last one dangles. -/
def jointGraph (far : Option InterfaceRef) : Graph :=
  let g := ((Graph.addNode { kind := "joint", interfaces := 3 }).outcome ∅).2
  let g := ((Graph.addNode { kind := "prior", interfaces := 1 }).outcome g).2
  let g := ((Graph.addNode { kind := "prior", interfaces := 1 }).outcome g).2
  let g := ((Graph.connect (.numbered 0) (some (.numbered 3)) (some "x") none).outcome g).2
  let g := ((Graph.connect (.numbered 1) far (some "y") none).outcome g).2
  ((Graph.connect (.numbered 2) none (some "z") none).outcome g).2

theorem built_jointGraph (far : Option InterfaceRef) : (jointGraph far).Built :=
  .connect (.connect (.connect (.addNode (.addNode (.addNode .empty _) _) _) _ _ _ _) _ _ _ _)
    _ _ _ _

/-- A block of the first two variables. -/
def jointPosterior (far : Option InterfaceRef) : Posterior :=
  ((addBlock (jointGraph far) ["x", "y"] (some "x")).outcome { options := wholeOptions }).2

theorem built_jointPosterior (far : Option InterfaceRef) :
    Built (jointGraph far) (jointPosterior far) :=
  .addBlock (.fresh _) _ _

/-- If the second edge leads to a prior, nothing at the cluster dangles. -/
theorem tabulated_joint : (jointGraph (some (.numbered 4))).Built ∧
    Built (jointGraph (some (.numbered 4))) (jointPosterior (some (.numbered 4))) ∧
    ∃ b q, scheduleBlock (jointGraph (some (.numbered 4))) [] "x"
        (jointPosterior (some (.numbered 4))) = .ok b q ∧
      b.clusters = [⟨0, [0, 1]⟩] ∧
      ∃ b', tabulateBlock (jointGraph (some (.numbered 4))) "x" q = .ok b' (q.putBlock b') ∧
        b.Tabulated b' := by
  have hg := built_jointGraph (some (.numbered 4))
  have hp := built_jointPosterior (some (.numbered 4))
  have hrun : (((scheduleBlock (jointGraph (some (.numbered 4))) [] "x").outcome
      (jointPosterior (some (.numbered 4)))).1).map (·.clusters) = .ok [⟨0, [0, 1]⟩] := by cbv
  obtain ⟨b, hb, hclusters⟩ := map_eq_ok.mp hrun
  have hs := Attempt.eq_ok_of_outcome hb
  refine ⟨hg, hp, b, _, hs, hclusters, (Built.tabulated_of_scheduled hg hp hs).1 ?_⟩
  rw [hclusters]
  rintro c hc e he ⟨x, hx, hhead⟩
  cases List.mem_singleton.mp hc
  have hheads : (jointGraph (some (.numbered 4))).edges.map (·.head) = [some 3, some 4, none] := by
    cbv
  have hnone : ((jointGraph (some (.numbered 4))).edges.map (·.head))[e]? = some none := by
    simp [hx, hhead]
  rw [hheads] at hnone
  rcases List.mem_pair.mp he with rfl | rfl <;> simp at hnone

/-- **A block with a schedule may have no table**: the second edge at the joint dangles. -/
theorem not_tabulated_joint : (jointGraph none).Built ∧
    Built (jointGraph none) (jointPosterior none) ∧
    ∃ b q, scheduleBlock (jointGraph none) [] "x" (jointPosterior none) = .ok b q ∧
      b.internal = [0, 1] ∧ b.order = [0, 3, 1] ∧
      ((tabulateBlock (jointGraph none) "x").outcome q).1 =
        .error (.notConnected "Interface 1 of joint joint_0") := by
  have hrun : (((scheduleBlock (jointGraph none) [] "x").outcome (jointPosterior none)).1).map
      (fun b => (b.internal, b.order)) = .ok ([0, 1], [0, 3, 1]) := by cbv
  have htable : ((tabulateBlock (jointGraph none) "x").outcome
      ((scheduleBlock (jointGraph none) [] "x").outcome (jointPosterior none)).2).1 =
      .error (.notConnected "Interface 1 of joint joint_0") := by cbv
  obtain ⟨b, hb, hparts⟩ := map_eq_ok.mp hrun
  obtain ⟨hinternal, horder⟩ := Prod.mk.inj hparts
  exact ⟨built_jointGraph none, built_jointPosterior none, b, _, Attempt.eq_ok_of_outcome hb,
    hinternal, horder, htable⟩

end Posterior

end MessagePassing
