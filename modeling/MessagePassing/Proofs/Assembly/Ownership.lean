import MessagePassing.Proofs.Assembly.Reads
import MessagePassing.Proofs.Graph.Closure

/-!
# What two blocks share

The edges of a block are its own, but a schedule is made for all edges of its variables, and some of
these edges may lie in another block. Two blocks then compute the same messages, and the same
marginal. This is the only way: clusters consist of edges of the block.

Results, for a graph and a posterior that are built:
* `Posterior.Built.laid`: the schedule of a block is the one that scheduling its outline gives, and
  its marginal table covers what tabulating gives, whatever has been done since.
* `Posterior.Built.shared_message`, `Posterior.Built.shared_marginal`: what a message or a marginal
  that two blocks without a common edge both compute is about.
* **`Posterior.Built.holds_of_shared`**: what two blocks without a common edge both compute belongs
  to a variable that has an edge in each of them.
* `not_apart_shared`: two such blocks may have a message and a marginal in common.
-/

namespace MessagePassing

open Attempt (Keeps)

namespace Block

/-- What the marginal table is about. -/
def marginalTargets (b : Block) : List Target :=
  b.marginalTable.map (·.target)

/-- An edge of the block belongs to the variable. -/
def Holds (b : Block) (g : Graph) (x : String) : Prop :=
  ∃ e ∈ b.internal, g.ownerOf? e = some x

/-- No message and no marginal is computed by both blocks. -/
structure Apart (a b : Block) : Prop where
  order : ∀ i ∈ a.order, i ∉ b.order
  targets : ∀ t ∈ a.marginalTargets, t ∉ b.marginalTargets

/-- The schedule is the one that scheduling the outline gives, and the marginal table covers what
tabulating it gives, or there is nothing yet. -/
structure Laid (g : Graph) (b : Block) : Prop where
  schedule : b.schedule = [] ∨ ∃ sites, b.Planned g sites
  targets : b.marginalTargets = [] ∨
    ∃ b₁, b.outline.withMarginalTable g = .ok b₁ ∧ b₁.marginalTargets = b.marginalTargets

variable {a b b' : Block} {g : Graph} {sites : List InterfaceId} {i : InterfaceId} {x : String}

/-! ## What is scheduled and tabulated -/

theorem schedule_of_skeleton (h : b'.skeleton = b.skeleton) :
    b'.schedule.map (·.bare) = b.schedule.map (·.bare) :=
  congrArg Block.schedule h

theorem planned_ofSkeleton (g : Graph) (sites : List InterfaceId) :
    OfSkeleton (Planned g sites) := by
  rintro b b' h ⟨b₁, hs, hl, hb₁⟩
  refine ⟨b₁, ?_, ?_, ?_⟩
  · rw [outline_of_skeleton h, hs]
  · rw [loopBreakers_of_skeleton h, hl]
  · rw [schedule_of_skeleton h, hb₁]

theorem marginalTargets_skeleton (b : Block) : b.skeleton.marginalTargets = b.marginalTargets := by
  unfold marginalTargets skeleton
  rw [List.map_map]
  rfl

theorem marginalTargets_of_skeleton (h : b'.skeleton = b.skeleton) :
    b'.marginalTargets = b.marginalTargets := by
  rw [← marginalTargets_skeleton b', h, marginalTargets_skeleton]

theorem laid_ofSkeleton (g : Graph) : OfSkeleton (Laid g) := fun b b' h hb => by
  refine ⟨?_, ?_⟩
  · refine hb.schedule.imp (fun hnil => ?_) fun ⟨sites, hp⟩ =>
      ⟨sites, planned_ofSkeleton g sites b b' h hp⟩
    have := schedule_of_skeleton h
    rwa [hnil, List.map_nil, List.map_eq_nil_iff] at this
  · rw [marginalTargets_of_skeleton h, outline_of_skeleton h]
    exact hb.targets

theorem planned_of_withSchedule (h : b.withSchedule g sites = .ok b') : b'.Planned g sites := by
  obtain ⟨hne, hnode, rfl⟩ := withSchedule_eq_ok.mp h
  refine ⟨_, withSchedule_eq_ok.mpr ⟨hne, hnode, rfl⟩, rfl, ?_⟩
  rw [List.map_map]
  rfl

theorem Laid.withSchedule (hb : b.Laid g) (h : b.withSchedule g sites = .ok b') : b'.Laid g := by
  have hp := planned_of_withSchedule h
  obtain ⟨-, -, rfl⟩ := withSchedule_eq_ok.mp h
  exact ⟨Or.inr ⟨sites, hp⟩, hb.targets⟩

theorem Laid.withMarginalTable (hb : b.Laid g) (h : b.withMarginalTable g = .ok b') :
    b'.Laid g := by
  obtain ⟨single, joint, hs, hj, rfl⟩ := withMarginalTable_eq_ok.mp h
  exact ⟨hb.schedule, Or.inr ⟨_, withMarginalTable_eq_ok.mpr ⟨single, joint, hs, hj, rfl⟩, rfl⟩⟩

/-- What a caller wants of a message leaves it where it is. -/
theorem laid_constrain (i : Int) (type : Option TypeTerm) (method : Option String)
    (hb : b.Laid g) : ((Block.constrain i type method).outcome b).2.Laid g := by
  unfold Attempt.outcome Block.constrain
  cases he : b.schedule.find? fun e => Int.ofNat e.interface = i with
  | none => exact hb
  | some e =>
    refine ⟨?_, hb.targets⟩
    have hmem := List.mem_of_find?_eq_some he
    rcases hb.schedule with hnil | ⟨sites, hp⟩
    · rw [hnil] at hmem
      exact absurd hmem List.not_mem_nil
    · -- the entry is the only one of its interface
      have hunique : ∀ f ∈ b.schedule, f.interface = e.interface → f = e := fun f hf hfe =>
        List.inj_on_of_nodup_map hp.nodup_order hf hmem hfe
      obtain ⟨b₁, hs, hl, hb₁⟩ := hp
      refine Or.inr ⟨sites, b₁, hs, hl, ?_⟩
      rw [hb₁, List.map_map]
      refine List.map_congr_left fun f hf => ?_
      rw [Function.comp_apply]
      split
      · rename_i hfe
        rw [hunique f hf hfe]
        rfl
      · rfl

end Block

namespace Posterior

variable {g : Graph} {p : Posterior}

/-- **Every block has what its outline gives, or nothing yet.** -/
theorem Built.laid (h : Built g p) : Each (Block.Laid g) p := by
  have hS := Block.laid_ofSkeleton g
  have hadd : ∀ b requested, Block.ofVariables g b.id requested = .ok b → b.Laid g := by
    intro b requested h
    rw [← (Block.of_ofVariables h).2]
    exact ⟨Or.inl rfl, Or.inl rfl⟩
  have hschedule : ∀ sites id, Keeps (Each (Block.Laid g)) (scheduleBlock g sites id) :=
    fun sites id => Keeps.bind (keeps_replaceBlock fun _ _ _ hb h => hb.withSchedule h) fun _ =>
      Keeps.bind (keeps_modify fun _ => rfl) fun _ => Keeps.pure _
  have htabulate : ∀ id, Keeps (Each (Block.Laid g)) (tabulateBlock g id) := fun id =>
    keeps_replaceBlock fun _ _ _ hb h => hb.withMarginalTable h
  exact h.of_keeps (fun _ _ _ h => nomatch h) (keeps_addBlock hadd) hschedule htabulate
    (fun _ i type method => keeps_onBlock fun _ _ _ => Block.laid_constrain i type method)
    (fun _ _ => keeps_assemble fun b b' _ => hS b b')
    (fun _ => keeps_makeRunnable fun b _ => hS b _ rfl) fun _ _ _ h => h

end Posterior

/-! ## What belongs to which variable -/

namespace Block

variable {a b b' : Block} {g : Graph} {sites : List InterfaceId} {i : InterfaceId} {x : String}

/-- A closure has the edges that it starts from. -/
theorem mem_of_knownClosure {seeds edges : List EdgeId} {e : EdgeId}
    (h : g.knownClosure true [] seeds = .ok edges) (he : e ∈ seeds) : e ∈ edges := by
  obtain ⟨hlt, rfl, -⟩ := Graph.knownClosure_eq_ok.mp h
  have hrange := List.mem_range.mpr (hlt e he)
  unfold Graph.closure
  rw [List.mem_filter, decide_eq_true_eq]
  exact ⟨hrange, mem_explore_of_mem_pending he hrange⟩

/-- Every variable in the scope of a block that has an edge at all has one in the block. -/
theorem MadeFor.holds_of_mem_scope (h : b.MadeFor g) (hg : g.Coherent) (hx : x ∈ b.scope)
    {e : EdgeId} (he : e ∈ g.edgesOf x) : b.Holds g x := by
  change x ∈ b.outline.scope at hx
  change ∃ e ∈ b.outline.internal, _
  rcases h.cases with ho | ⟨requested, edges, internal, hedges, hinternal, ho⟩
  · rw [ho] at hx
    exact absurd hx List.not_mem_nil
  · rw [ho] at hx ⊢
    rcases mem_scope_ofEdges.mp hx with hx | ⟨n, -, f, -, hin, hfx⟩
    · refine ⟨e, mem_of_knownClosure hinternal ?_, hg.owner_of_mem_edgesOf he⟩
      obtain ⟨-, rfl⟩ := Graph.edgesOfVariables_eq_ok.mp hedges
      exact Ascending.mem_ofList.mpr (List.mem_flatMap.mpr ⟨x, hx, he⟩)
    · exact ⟨f, hin, hfx⟩

/-- A message that is scheduled runs along an edge of the block, or along an edge of a variable in
its scope. -/
theorem Planned.of_mem_order (h : b.Planned g sites) (hg : g.Coherent) (hi : i ∈ b.order) :
    ∃ e, g.edgeAt? i = some e ∧ (e ∈ b.internal ∨ ∃ x ∈ b.scope, e ∈ g.edgesOf x) := by
  obtain ⟨b₁, hs, ho, -⟩ := h.exists_schedule
  rw [← ho, mem_order_iff hg hs, mem_discovered_iff hg] at hi
  obtain ⟨t, ht, hl⟩ := hi
  rcases Relation.ReflTransGen.cases_tail hl with rfl | ⟨k, -, hk⟩
  · obtain ⟨x, hx, hi⟩ := List.mem_flatMap.mp (mem_distinct.mp ht)
    obtain ⟨e, he, hi⟩ := List.mem_flatMap.mp hi
    exact ⟨e, hg.edgeAt_of_mem_ends hi, Or.inr ⟨x, hx, he⟩⟩
  · obtain ⟨j, -, hj, -, hp⟩ := mem_dependencies.mp hk
    obtain ⟨e, he, hin⟩ := (Option.any_eq_true _ _).mp hj
    exact ⟨e, (hg.edgeAt_partner hp).trans he, Or.inl (of_decide_eq_true hin)⟩

/-- The edge of a message that is scheduled belongs to a variable. -/
theorem Laid.of_mem_order (h : b.Laid g) (hg : g.Coherent) (hi : i ∈ b.order) :
    ∃ e x, g.edgeAt? i = some e ∧ g.ownerOf? e = some x ∧ (e ∈ b.internal ∨ x ∈ b.scope) := by
  rcases h.schedule with hnil | ⟨sites, hp⟩
  · rw [order, hnil] at hi
    exact absurd hi List.not_mem_nil
  · obtain ⟨e, he, hin | ⟨x, hx, hex⟩⟩ := hp.of_mem_order hg hi
    · obtain ⟨x, hx⟩ := hg.exists_owner_of_edgeAt he
      exact ⟨e, x, he, hx, Or.inl hin⟩
    · exact ⟨e, x, he, hg.owner_of_mem_edgesOf hex, Or.inr hx⟩

/-- A marginal table is about the variables in scope, which have edges, and the clusters. -/
theorem Laid.of_mem_marginalTargets (h : b.Laid g) {t : Target} (ht : t ∈ b.marginalTargets) :
    (∃ x e, t = .variable x ∧ x ∈ b.scope ∧ e ∈ g.edgesOf x) ∨
      ∃ c, t = .cluster c ∧ c ∈ b.clusters := by
  rcases h.targets with hnil | ⟨b₁, htable, htargets⟩
  · rw [hnil] at ht
    exact absurd ht List.not_mem_nil
  · obtain ⟨single, joint, hsingle, hjoint, rfl⟩ := withMarginalTable_eq_ok.mp htable
    rw [← htargets] at ht
    obtain ⟨m, hm, rfl⟩ := List.mem_map.mp ht
    rcases List.mem_append.mp hm with hm | hm
    · obtain ⟨x, hx, hxm⟩ := exists_of_mem_mapM hsingle hm
      obtain ⟨e, _, _, he, -, -, rfl⟩ := variableMarginal_eq_ok.mp hxm
      exact Or.inl ⟨x, e, rfl, hx, List.min?_mem he⟩
    · obtain ⟨c, hc, hcm⟩ := exists_of_mem_mapM hjoint hm
      obtain ⟨_, -, rfl⟩ := clusterMarginal_eq_ok.mp hcm
      exact Or.inr ⟨c, rfl, hc⟩

/-- The variable of a message that is scheduled has an edge in the block. -/
theorem holds_of_internal_or_scope (hb : b.MadeFor g) (hg : g.Coherent) {e : EdgeId}
    (hx : g.ownerOf? e = some x)
    (h : e ∈ b.internal ∨ x ∈ b.scope) : b.Holds g x := by
  rcases h with h | h
  · exact ⟨e, h, hx⟩
  · obtain ⟨y, hy, rfl⟩ := Option.map_eq_some_iff.mp hx
    exact hb.holds_of_mem_scope hg h (hg.owned hy)

end Block

/-! ## What two blocks share -/

namespace Posterior

open Block (Holds Apart)

variable {g : Graph} {p : Posterior} {j k : String} {a b : Block}

/-- A message that two blocks without a common edge both compute runs along an edge of a variable in
the scope of one of them. -/
theorem Built.shared_message (hg : g.Built) (hp : Built g p) (ha : p.blocks.get? j = some a)
    (hb : p.blocks.get? k = some b) (hdisjoint : ∀ e ∈ a.internal, e ∉ b.internal)
    {i : InterfaceId} (hia : i ∈ a.order) (hib : i ∈ b.order) :
    ∃ e x, g.edgeAt? i = some e ∧ g.ownerOf? e = some x ∧ (x ∈ a.scope ∨ x ∈ b.scope) ∧
      a.Holds g x ∧ b.Holds g x := by
  have hc := hg.coherent
  obtain ⟨e, x, he, hx, hea⟩ := (hp.laid j a ha).2.of_mem_order hc hia
  obtain ⟨f, y, hf, hy, heb⟩ := (hp.laid k b hb).2.of_mem_order hc hib
  cases he.symm.trans hf
  cases hx.symm.trans hy
  refine ⟨e, x, he, hx, ?_, Block.holds_of_internal_or_scope (hp.madeFor j a ha).2 hc hx hea,
    Block.holds_of_internal_or_scope (hp.madeFor k b hb).2 hc hx heb⟩
  rcases hea with hea | hea
  · exact Or.inr (heb.resolve_left (hdisjoint e hea))
  · exact Or.inl hea

/-- A marginal that two blocks without a common edge both compute is that of a variable in the scope
of both. -/
theorem Built.shared_marginal (hg : g.Built) (hp : Built g p) (ha : p.blocks.get? j = some a)
    (hb : p.blocks.get? k = some b) (hdisjoint : ∀ e ∈ a.internal, e ∉ b.internal) {t : Target}
    (hta : t ∈ a.marginalTargets) (htb : t ∈ b.marginalTargets) :
    ∃ x, t = .variable x ∧ x ∈ a.scope ∧ x ∈ b.scope ∧ a.Holds g x ∧ b.Holds g x := by
  have hc := hg.coherent
  have hma := (hp.madeFor j a ha).2
  have hmb := (hp.madeFor k b hb).2
  rcases (hp.laid j a ha).2.of_mem_marginalTargets hta with ⟨x, e, rfl, hxa, he⟩ | ⟨c, rfl, hca⟩
  · rcases (hp.laid k b hb).2.of_mem_marginalTargets htb with ⟨y, f, hy, hxb, -⟩ | ⟨c, hc', -⟩
    · cases hy
      exact ⟨x, rfl, hxa, hxb, hma.holds_of_mem_scope hc hxa he,
        hmb.holds_of_mem_scope hc hxb he⟩
    · contradiction
  · rcases (hp.laid k b hb).2.of_mem_marginalTargets htb with ⟨y, f, hy, -⟩ | ⟨d, hd, hcb⟩
    · contradiction
    · cases hd
      -- a cluster tells its node, and the edges of a block at a node are its own
      obtain ⟨e, he, hea⟩ := hma.exists_mem_of_mem_clusters hca
      rw [(hmb.of_mem_clusters hcb).1] at he
      exact absurd (of_decide_eq_true (List.mem_filter.mp he).2) (hdisjoint e hea)

/-- **What two blocks without a common edge both compute belongs to a variable that has an edge in
each of them.** A message that both compute runs along an edge of a variable in the scope of one, a
marginal that both compute is that of a variable in the scope of both. Blocks that have no variable
in common compute nothing in common. -/
theorem Built.holds_of_shared (hg : g.Built) (hp : Built g p) (ha : p.blocks.get? j = some a)
    (hb : p.blocks.get? k = some b) (hdisjoint : ∀ e ∈ a.internal, e ∉ b.internal) :
    (∀ i ∈ a.order, i ∈ b.order → ∃ e x, g.edgeAt? i = some e ∧ g.ownerOf? e = some x ∧
      (x ∈ a.scope ∨ x ∈ b.scope) ∧ a.Holds g x ∧ b.Holds g x) ∧
    (∀ t ∈ a.marginalTargets, t ∈ b.marginalTargets → ∃ x, t = .variable x ∧
      x ∈ a.scope ∧ x ∈ b.scope ∧ a.Holds g x ∧ b.Holds g x) ∧
    ((∀ x, a.Holds g x → ¬ b.Holds g x) → a.Apart b) := by
  refine ⟨fun i hia hib => hp.shared_message hg ha hb hdisjoint hia hib,
    fun t hta htb => hp.shared_marginal hg ha hb hdisjoint hta htb,
    fun h => ⟨fun i hia hib => ?_, fun t hta htb => ?_⟩⟩
  · obtain ⟨e, x, -, -, -, hxa, hxb⟩ := hp.shared_message hg ha hb hdisjoint hia hib
    exact h x hxa hxb
  · obtain ⟨x, -, -, -, hxa, hxb⟩ := hp.shared_marginal hg ha hb hdisjoint hta htb
    exact h x hxa hxb

/-! ## A variable that two blocks share -/

/-- Schedules and tabulates a list of blocks. -/
def layOut (g : Graph) (sites : List InterfaceId) (ids : List String) : Attempt Posterior Unit :=
  ids.forM fun id => do
    let _ ← scheduleBlock g sites id
    let _ ← tabulateBlock g id

theorem keeps_layOut (sites : List InterfaceId) (ids : List String) :
    Keeps (Built g) (layOut g sites ids) :=
  Keeps.forM fun id _ => Keeps.bind (fun _ h => Built.schedule h sites id) fun _ =>
    Keeps.bind (fun _ h => Built.tabulate h id) fun _ => Keeps.pure _

/-- Two functions whose results a soft node joins. Both of its edges belong to one variable. -/
def sharedGraph : Graph :=
  let f : NodeRequest := { kind := "map", interfaces := 2, deterministic := true }
  let g := ((Graph.addNode f).outcome ((Graph.addNode f).outcome ∅).2).2
  let g := ((Graph.addNode { kind := "pair", interfaces := 2 }).outcome g).2
  let g := ((Graph.connect (.numbered 0) none (some "y") none).outcome g).2
  let g := ((Graph.connect (.numbered 1) (some (.numbered 4)) (some "x") none).outcome g).2
  let g := ((Graph.connect (.numbered 2) none (some "z") none).outcome g).2
  ((Graph.connect (.numbered 3) (some (.numbered 5)) (some "x") none).outcome g).2

theorem built_sharedGraph : sharedGraph.Built :=
  .connect (.connect (.connect (.connect (.addNode (.addNode (.addNode .empty _) _) _)
    _ _ _ _) _ _ _ _) _ _ _ _) _ _ _ _

/-- A block for each function. -/
def shared : Posterior :=
  let p : Posterior := { options := wholeOptions }
  let p := ((addBlock sharedGraph ["y"] (some "y")).outcome p).2
  ((addBlock sharedGraph ["z"] (some "z")).outcome p).2

theorem built_shared : Built sharedGraph shared :=
  .addBlock (.addBlock (.fresh _) _ _) _ _

/-- What scheduling and tabulating the two blocks gives. -/
theorem exists_shared_blocks : ∃ q a b, layOut sharedGraph [] ["y", "z"] shared = .ok () q ∧
    q.blocks.get? "y" = some a ∧ q.blocks.get? "z" = some b ∧
    a.internal = [0, 1] ∧ a.order = [1, 4, 3, 5, 0] ∧
    a.marginalTargets = [.variable "x", .variable "y"] ∧
    b.internal = [2, 3] ∧ b.order = [1, 3, 4, 5, 2] ∧
    b.marginalTargets = [.variable "x", .variable "z"] := by
  have hok : ((layOut sharedGraph [] ["y", "z"]).outcome shared).1 = .ok () := by cbv
  have hy : (((layOut sharedGraph [] ["y", "z"]).outcome shared).2.blocks.get? "y").map
      (fun a => (a.internal, a.order, a.marginalTargets)) =
      some ([0, 1], [1, 4, 3, 5, 0], [.variable "x", .variable "y"]) := by cbv
  have hz : (((layOut sharedGraph [] ["y", "z"]).outcome shared).2.blocks.get? "z").map
      (fun b => (b.internal, b.order, b.marginalTargets)) =
      some ([2, 3], [1, 3, 4, 5, 2], [.variable "x", .variable "z"]) := by cbv
  obtain ⟨a, ha, hay⟩ := Option.map_eq_some_iff.mp hy
  obtain ⟨b, hb, hbz⟩ := Option.map_eq_some_iff.mp hz
  simp only [Prod.mk.injEq] at hay hbz
  exact ⟨_, a, b, Attempt.eq_ok_of_outcome hok, ha, hb, hay.1, hay.2.1, hay.2.2, hbz.1, hbz.2.1,
    hbz.2.2⟩

/-- **Two blocks without a common edge may compute the same message and the same marginal.** -/
theorem not_apart_shared : ∃ q a b, sharedGraph.Built ∧ Built sharedGraph shared ∧
    layOut sharedGraph [] ["y", "z"] shared = .ok () q ∧
    q.blocks.get? "y" = some a ∧ q.blocks.get? "z" = some b ∧
    (∀ e ∈ a.internal, e ∉ b.internal) ∧
    (¬ ∀ i ∈ a.order, i ∉ b.order) ∧ ¬ ∀ t ∈ a.marginalTargets, t ∉ b.marginalTargets := by
  obtain ⟨q, a, b, hq, ha, hb, hai, hao, hat, hbi, hbo, hbt⟩ := exists_shared_blocks
  refine ⟨q, a, b, built_sharedGraph, built_shared, hq, ha, hb, ?_, ?_, ?_⟩
  · rw [hai, hbi]
    decide
  · rw [hao, hbo]
    decide
  · rw [hat, hbt]
    decide

/-- A message that both functions need runs along an edge of the variable that they share. -/
theorem holds_of_shared_message : sharedGraph.Built ∧ ∃ q a b, Built sharedGraph q ∧
    q.blocks.get? "y" = some a ∧ q.blocks.get? "z" = some b ∧
    (∀ e ∈ a.internal, e ∉ b.internal) ∧ 1 ∈ a.order ∧ 1 ∈ b.order ∧
    ∃ e x, sharedGraph.edgeAt? 1 = some e ∧ sharedGraph.ownerOf? e = some x ∧
      (x ∈ a.scope ∨ x ∈ b.scope) ∧ a.Holds sharedGraph x ∧ b.Holds sharedGraph x := by
  obtain ⟨q, a, b, hq, ha, hb, hai, hao, -, hbi, hbo, -⟩ := exists_shared_blocks
  have hbuilt : Built sharedGraph q := (keeps_layOut [] ["y", "z"]).of_ok built_shared hq
  have hdisjoint : ∀ e ∈ a.internal, e ∉ b.internal := by
    rw [hai, hbi]
    decide
  have h1a : 1 ∈ a.order := by
    rw [hao]
    decide
  have h1b : 1 ∈ b.order := by
    rw [hbo]
    decide
  exact ⟨built_sharedGraph, q, a, b, hbuilt, ha, hb, hdisjoint, h1a, h1b,
    (Built.holds_of_shared built_sharedGraph hbuilt ha hb hdisjoint).1 1 h1a h1b⟩

end Posterior

end MessagePassing
