import Mathlib.Combinatorics.SimpleGraph.Acyclic
import MessagePassing.Proofs.Schedule.Validity

/-!
# Schedules of forests

The messages that a message depends on, one after the other, lie along a walk through the nodes. The
walk turns back only where an update reads the message that it answers. In a forest, a walk that
does not turn back is a path, so a cycle of dependencies would have to turn back at two places.

Results, for a block whose edges form a forest:
* `exists_walk`: dependencies that do not turn back lie along a path.
* **`loopBreakers_eq_nil_of_isForest`**: if at most one update of each tree reads the message that
  it answers, there are no loop breakers.
-/

namespace MessagePassing

namespace Block

/-- An edge of the block joins two nodes; it does not dangle. -/
def Joins (b : Block) (g : Graph) (e : EdgeId) (u v : NodeId) : Prop :=
  e ∈ b.internal ∧ g.endNodes e = [u, v]

/-- The nodes of a block, adjacent if an edge of the block joins them. -/
def nodeGraph (b : Block) (g : Graph) : SimpleGraph NodeId :=
  SimpleGraph.fromRel fun u v => ∃ e, b.Joins g e u v

/-- The edges of a block form a forest: they close no cycle, and no two join the same nodes. -/
structure IsForest (b : Block) (g : Graph) : Prop where
  acyclic : (b.nodeGraph g).IsAcyclic
  simple : ∀ {e e' : EdgeId} {u v : NodeId}, b.Joins g e u v →
    b.Joins g e' u v ∨ b.Joins g e' v u → e = e'

/-- An interface has an edge of the block that does not dangle, and its update reads the message
that it answers. -/
def ReadsOwn (b : Block) (g : Graph) (sites : List InterfaceId) (i : InterfaceId) : Prop :=
  b.covers g i ∧ (g.partner? i).isSome ∧
    ∃ r, b.ruleTypeAt g sites i = .ok r ∧ g.needsOwnInboundAt i r = .ok true

/-- No two updates in one tree of a block read the message that they answer. -/
def OwnOnce (b : Block) (g : Graph) (sites : List InterfaceId) : Prop :=
  ∀ {i j : InterfaceId} {u v : NodeId}, b.ReadsOwn g sites i → b.ReadsOwn g sites j →
    g.nodeIdOf? i = some u → g.nodeIdOf? j = some v → (b.nodeGraph g).Reachable u v → i = j

variable {b b' : Block} {g : Graph} {sites : List InterfaceId} {i j k c d : InterfaceId}
  {u v : NodeId}

/-! ## Edges of a block -/

/-- The ends of an edge of the block lie at the nodes that it joins. -/
theorem joins_of_partner (hg : g.Coherent) (hk : b.covers g k) (h : g.partner? k = some j) :
    ∃ e u v, g.edgeAt? k = some e ∧ g.nodeIdOf? k = some u ∧ g.nodeIdOf? j = some v ∧ u ≠ v ∧
      (b.Joins g e u v ∨ b.Joins g e v u) := by
  obtain ⟨e, x, he, hx, hends⟩ := hg.exists_of_partner h
  have hmem : e ∈ b.internal := by
    unfold covers at hk
    rw [he] at hk
    simpa using hk
  obtain ⟨y, hy, -⟩ := Option.bind_eq_some_iff.mp h
  obtain ⟨z, hz, -⟩ := Option.bind_eq_some_iff.mp (hg.partner_symm h)
  have hne := hg.node_ne_of_partner h
  rw [Graph.nodeIdOf?_of_some hy, Graph.nodeIdOf?_of_some hz, ne_eq, Option.some.injEq] at hne
  refine ⟨e, y.node, z.node, he, Graph.nodeIdOf?_of_some hy, Graph.nodeIdOf?_of_some hz, hne, ?_⟩
  unfold Joins Graph.endNodes Graph.ends Edge.ends
  rw [hx]
  rcases hends with ⟨rfl, hh⟩ | ⟨rfl, hh⟩
  · left
    simp [hmem, hh, hy, hz]
  · right
    simp [hmem, hh, hy, hz]

theorem adj_of_partner (hg : g.Coherent) (hk : b.covers g k) (h : g.partner? k = some j)
    (hu : g.nodeIdOf? k = some u) (hv : g.nodeIdOf? j = some v) : (b.nodeGraph g).Adj u v := by
  obtain ⟨e, u', v', -, hu', hv', hne, hj⟩ := joins_of_partner hg hk h
  rw [hu] at hu'
  rw [hv] at hv'
  cases hu'
  cases hv'
  exact (SimpleGraph.fromRel_adj _ _ _).mpr ⟨hne, hj.imp (⟨e, ·⟩) (⟨e, ·⟩)⟩

/-- Two interfaces of one node have different edges. -/
theorem edgeAt_ne (hg : g.Coherent) {i' k' : InterfaceId} (hi : g.partner? i = some i')
    (hk : g.partner? k = some k') (hn : g.nodeIdOf? k = g.nodeIdOf? i) (hki : k ≠ i) :
    g.edgeAt? k ≠ g.edgeAt? i := by
  intro he
  obtain ⟨e, x, hie, hx, hi'⟩ := hg.exists_of_partner hi
  obtain ⟨f, y, hkf, hy, hk'⟩ := hg.exists_of_partner hk
  rw [hie, hkf] at he
  cases he
  rw [hx] at hy
  cases hy
  have : k = i' := by
    rcases hi' with ⟨rfl, h⟩ | ⟨rfl, h⟩ <;> rcases hk' with ⟨rfl, h'⟩ | ⟨rfl, h'⟩
    · exact absurd rfl hki
    · exact Option.some.inj (h'.symm.trans h)
    · rfl
    · exact absurd (Option.some.inj (h'.symm.trans h)) hki
  subst this
  exact hg.node_ne_of_partner hi hn.symm

/-- In a forest, the edges at two interfaces of one node lead to different nodes. -/
theorem IsForest.far_ne (hf : b.IsForest g) (hg : g.Coherent) {i' k' : InterfaceId}
    (hbi : b.covers g i) (hi : g.partner? i = some i') (hbk : b.covers g k)
    (hk : g.partner? k = some k') (hn : g.nodeIdOf? k = g.nodeIdOf? i) (hki : k ≠ i) :
    g.nodeIdOf? k' ≠ g.nodeIdOf? i' := by
  intro hfar
  obtain ⟨e, u, v, hie, hu, hv, -, hj⟩ := joins_of_partner hg hbi hi
  obtain ⟨f, u', v', hkf, hu', hv', -, hj'⟩ := joins_of_partner hg hbk hk
  rw [hn, hu] at hu'
  rw [hfar, hv] at hv'
  cases hu'
  cases hv'
  refine edgeAt_ne hg hi hk hn hki ?_
  rw [hie, hkf]
  rcases hj with hj | hj
  · rw [hf.simple hj hj']
  · rw [hf.simple hj hj'.symm]

/-! ## Dependencies lie along walks -/

/-- An update reads through an interface of its node, and through its own only if it reads the
message that it answers. -/
theorem exists_of_dependsOn (hg : g.Coherent) (h : b.DependsOn g sites i j) :
    ∃ k, g.nodeIdOf? k = g.nodeIdOf? i ∧ b.covers g k ∧ g.partner? k = some j ∧
      (k = i → b.ReadsOwn g sites i) := by
  obtain ⟨r, l, hr, hl, hj⟩ := h
  obtain ⟨n, hn, hl⟩ := bind_eq_ok.mp hl
  obtain ⟨_, -, hl⟩ := bind_eq_ok.mp hl
  cases pure_eq_ok.mp hl
  have hnode := Graph.nodeOf_eq_ok.mp hn
  obtain ⟨k, hk, hcov, hown, hp⟩ := mem_dependencies.mp hj
  refine ⟨k, ?_, hcov, hp, fun hki => ?_⟩
  · obtain ⟨x, hx, hxn⟩ := Option.bind_eq_some_iff.mp hnode
    unfold Graph.siblings at hk
    rw [hnode] at hk
    obtain ⟨y, hy, hyn⟩ := hg.interface_of_node hxn hk
    rw [Graph.nodeIdOf?_of_some hx, Graph.nodeIdOf?_of_some hy, hyn]
  · subst hki
    have hown := hown.resolve_left (fun h => h rfl)
    refine ⟨hcov, by rw [hp]; rfl, r, hr, ?_⟩
    unfold Graph.needsOwnInboundAt
    split
    · rfl
    · rw [hn, hown]
      rfl

/-- What a message depends on comes over an edge of the block. -/
theorem covers_of_dependsOn (hg : g.Coherent) (h : b.DependsOn g sites i j) :
    b.covers g j ∧ ∃ k, g.partner? j = some k ∧ g.nodeIdOf? k = g.nodeIdOf? i := by
  obtain ⟨k, hn, hcov, hp, -⟩ := exists_of_dependsOn hg h
  refine ⟨?_, k, hg.partner_symm hp, hn⟩
  unfold covers at hcov ⊢
  rwa [hg.edgeAt_partner hp]

/-- **Dependencies that do not turn back lie along a walk that does not turn back.** The walk starts
with the edge of the message that is read last. -/
theorem exists_walk (hg : g.Coherent) (hf : b.IsForest g) (hcd : b.DependsOn g sites c d)
    (hdj : Relation.ReflTransGen (fun x y => b.DependsOn g sites x y ∧ ¬ b.ReadsOwn g sites x)
      d j) :
    ∃ (u v w : NodeId) (k : InterfaceId) (p : (b.nodeGraph g).Walk v u),
      g.nodeIdOf? c = some u ∧ g.nodeIdOf? j = some v ∧ b.covers g j ∧ g.partner? j = some k ∧
      g.nodeIdOf? k = some w ∧ p.edges.head? = some s(v, w) ∧ p.edges.IsChain (· ≠ ·) := by
  induction hdj with
  | refl =>
    obtain ⟨hcov, k, hk, hn⟩ := covers_of_dependsOn hg hcd
    obtain ⟨-, v, u, -, hv, hu, -⟩ := joins_of_partner hg hcov hk
    refine ⟨u, v, u, k, .cons (adj_of_partner hg hcov hk hv hu) .nil, hn ▸ hu, hv, hcov, hk, hu, ?_⟩
    simp
  | @tail y j _ hyj ih =>
    obtain ⟨u, v, w, k', p, hu, hv, hcy, hk', hw, hhead, hchain⟩ := ih
    obtain ⟨k, hn, hck, hkj, hown⟩ := exists_of_dependsOn hg hyj.1
    obtain ⟨hcj, -⟩ := covers_of_dependsOn hg hyj.1
    have hjk := hg.partner_symm hkj
    have hky : k ≠ y := fun h => hyj.2 (hown h)
    obtain ⟨-, x, v', -, hx, hv', hne, -⟩ := joins_of_partner hg hcj hjk
    rw [hn, hv] at hv'
    cases hv'
    refine ⟨u, x, v, k, .cons (adj_of_partner hg hcj hjk hx (hn.trans hv)) p, hu, hx, hcj, hjk,
      hn.trans hv, by simp, ?_⟩
    have hxw : x ≠ w := by
      have := hf.far_ne hg hcy hk' hck hkj hn hky
      rwa [hx, hw, ne_eq, Option.some.injEq] at this
    rw [SimpleGraph.Walk.edges_cons, List.isChain_cons]
    refine ⟨fun e he => ?_, hchain⟩
    rw [hhead] at he
    cases he
    rw [ne_eq, Sym2.eq_iff]
    rintro (⟨h, -⟩ | ⟨h, -⟩)
    · exact hne h
    · exact hxw h

/-- Dependencies that do not turn back do not lead back. -/
theorem ne_of_dependsOn (hg : g.Coherent) (hf : b.IsForest g) (hcd : b.DependsOn g sites c d)
    (hdj : Relation.ReflTransGen (fun x y => b.DependsOn g sites x y ∧ ¬ b.ReadsOwn g sites x)
      d j) :
    j ≠ c := by
  rintro rfl
  obtain ⟨u, v, w, -, p, hu, hv, -, -, -, hhead, hchain⟩ := exists_walk hg hf hcd hdj
  rw [hu] at hv
  cases hv
  have hp := SimpleGraph.Walk.isPath_iff_nil.mp ((hf.acyclic.isPath_iff_isChain p).mpr hchain)
  rw [hp.eq_nil] at hhead
  simp at hhead

theorem reachable_of_dependsOn (hg : g.Coherent)
    (h : Relation.ReflTransGen (b.DependsOn g sites) i j) (hu : g.nodeIdOf? i = some u)
    (hv : g.nodeIdOf? j = some v) : (b.nodeGraph g).Reachable u v := by
  induction h generalizing v with
  | refl =>
    rw [hu] at hv
    cases hv
    exact SimpleGraph.Reachable.refl _
  | @tail x j _ hxj ih =>
    obtain ⟨hcj, k, hk, hn⟩ := covers_of_dependsOn hg hxj
    obtain ⟨-, v', w, -, hv', hw, -⟩ := joins_of_partner hg hcj hk
    rw [hv] at hv'
    cases hv'
    exact (ih (hn ▸ hw)).trans (adj_of_partner hg hcj hk hv hw).symm.reachable

/-! ## Cycles of dependencies -/

/-- If only `c` turns back on the cycles through `c`, a message on such a cycle depends on `c`
without turning back. -/
theorem leads_straight
    (hc : ∀ x, Relation.ReflTransGen (b.DependsOn g sites) c x →
      Relation.ReflTransGen (b.DependsOn g sites) x c → b.ReadsOwn g sites x → x = c)
    (hcd : Relation.ReflTransGen (b.DependsOn g sites) c d)
    (hdc : Relation.ReflTransGen (b.DependsOn g sites) d c) :
    Relation.ReflTransGen (fun x y => b.DependsOn g sites x y ∧ ¬ b.ReadsOwn g sites x) d c := by
  induction hdc using Relation.ReflTransGen.head_induction_on with
  | refl => exact Relation.ReflTransGen.refl
  | @head x y hxy hyc ih =>
    by_cases hxc : x = c
    · rw [hxc]
    · have hown : ¬ b.ReadsOwn g sites x := fun h => hxc (hc x hcd (.head hxy hyc) h)
      exact Relation.ReflTransGen.head ⟨hxy, hown⟩ (ih (hcd.tail hxy))

/-- A cycle can be entered where it turns back. -/
theorem exists_entry (hg : g.Coherent) (ho : b.OwnOnce g sites)
    (h : Relation.TransGen (b.DependsOn g sites) i i) :
    ∃ c, Relation.TransGen (b.DependsOn g sites) c c ∧
      ∀ x, Relation.ReflTransGen (b.DependsOn g sites) c x →
        Relation.ReflTransGen (b.DependsOn g sites) x c → b.ReadsOwn g sites x → x = c := by
  by_cases hy : ∃ y, b.ReadsOwn g sites y ∧ Relation.ReflTransGen (b.DependsOn g sites) i y ∧
      Relation.ReflTransGen (b.DependsOn g sites) y i
  · obtain ⟨y, hown, hiy, hyi⟩ := hy
    refine ⟨y, Relation.TransGen.trans_right hyi (h.trans_left hiy), fun x hyx _ hx => ?_⟩
    have hnode : ∀ z, b.ReadsOwn g sites z → ∃ u, g.nodeIdOf? z = some u := by
      rintro z ⟨hcov, hp, -⟩
      obtain ⟨k, hk⟩ := Option.isSome_iff_exists.mp hp
      obtain ⟨-, u, -, -, hu, -⟩ := joins_of_partner hg hcov hk
      exact ⟨u, hu⟩
    obtain ⟨u, hu⟩ := hnode y hown
    obtain ⟨v, hv⟩ := hnode x hx
    exact (ho hown hx hu hv (reachable_of_dependsOn hg hyx hu hv)).symm
  · exact ⟨i, h, fun x hix hxi hx => absurd ⟨x, hx, hix, hxi⟩ hy⟩

theorem not_dependsOn_self (hg : g.Coherent) (hf : b.IsForest g) (ho : b.OwnOnce g sites) :
    ¬ Relation.TransGen (b.DependsOn g sites) i i := by
  intro h
  obtain ⟨c, hcc, hc⟩ := exists_entry hg ho h
  obtain ⟨d, hcd, hdc⟩ := Relation.TransGen.head'_iff.mp hcc
  exact ne_of_dependsOn hg hf hcd (leads_straight hc (.single hcd) hdc) rfl

/-- **The schedule of a forest has no loop breakers.** -/
theorem loopBreakers_eq_nil_of_isForest (hg : g.Built) (hf : b.IsForest g)
    (ho : b.OwnOnce g sites) (h : b.withSchedule g sites = .ok b') :
    b'.loopBreakers = [] ∧ ∀ i ∈ b'.order, ¬ Relation.TransGen (b.DependsOn g sites) i i := by
  have hacyclic : ∀ i ∈ b'.order, ¬ Relation.TransGen (b.DependsOn g sites) i i := fun _ _ =>
    not_dependsOn_self hg.coherent hf ho
  exact ⟨(loopBreakers_eq_nil_iff hg.coherent h).mpr hacyclic, hacyclic⟩

/-- A prior in front of a function without known inverse, whose value is wanted. -/
def chainGraph : Graph :=
  let f : NodeRequest :=
    { kind := "nonlinear", interfaces := 2, deterministic := true, inverseKnown := false }
  let g := ((Graph.addNode f).outcome
    ((Graph.addNode { kind := "prior", interfaces := 1 }).outcome ∅).2).2
  let g := ((Graph.connect (.numbered 0) (some (.numbered 2)) (some "x") none).outcome g).2
  ((Graph.connect (.numbered 1) none (some "y") none).outcome g).2

/-- The block of the chain. -/
def chain : Block :=
  { id := "x", scope := ["x", "y"], internal := [0, 1] }

theorem built_chain : chainGraph.Built :=
  .connect (.connect (.addNode (.addNode .empty _) _) _ _ _ _) _ _ _ _

theorem joins_chain {e : EdgeId} {u v : NodeId} (h : chain.Joins chainGraph e u v) :
    e = 0 ∧ u = 0 ∧ v = 1 := by
  obtain ⟨he, h⟩ := h
  have he : e = 0 ∨ e = 1 := by simpa [chain] using he
  rcases he with rfl | rfl
  · have h0 : chainGraph.endNodes 0 = [0, 1] := by cbv
    rw [h0] at h
    simp_all
  · have h1 : chainGraph.endNodes 1 = [1] := by cbv
    rw [h1] at h
    simp_all

theorem isForest_chain : chain.IsForest chainGraph where
  acyclic := by
    have h : chain.nodeGraph chainGraph ≤ ⊥ ⊔ SimpleGraph.edge 0 1 := by
      intro u v huv
      obtain ⟨hne, h⟩ := (SimpleGraph.fromRel_adj _ _ _).mp huv
      rw [bot_sup_eq, SimpleGraph.edge_adj]
      rcases h with ⟨e, h⟩ | ⟨e, h⟩
      · obtain ⟨-, rfl, rfl⟩ := joins_chain h
        simp
      · obtain ⟨-, rfl, rfl⟩ := joins_chain h
        simp
    refine SimpleGraph.IsAcyclic.anti h (SimpleGraph.IsAcyclic.sup_edge_of_not_reachable ?_ ?_)
    · simp
    · exact SimpleGraph.isAcyclic_bot
  simple := by
    intro e e' u v h h'
    obtain ⟨rfl, rfl, rfl⟩ := joins_chain h
    rcases h' with h' | h'
    · exact (joins_chain h').1.symm
    · exact (joins_chain h').1.symm

theorem ownOnce_chain : chain.OwnOnce chainGraph [] := by
  have two : ∀ i : Nat, chain.ReadsOwn chainGraph [] i → i = 2 := by
    rintro i ⟨-, hp, r, hr, hown⟩
    obtain ⟨k, hk⟩ := Option.isSome_iff_exists.mp hp
    obtain ⟨y, hy, -⟩ := Option.bind_eq_some_iff.mp hk
    have hi := (List.getElem?_eq_some_iff.mp hy).1
    have hlen : chainGraph.interfaces.length = 3 := by cbv
    rw [hlen] at hi
    obtain rfl | rfl | rfl : i = 0 ∨ i = 1 ∨ i = 2 := by omega
    · have hr0 : chain.ruleTypeAt chainGraph [] 0 = .ok .sumProduct := by cbv
      have hown0 : chainGraph.needsOwnInboundAt 0 .sumProduct = .ok false := by cbv
      rw [hr0] at hr
      cases hr
      rw [hown0] at hown
      exact absurd hown (by simp)
    · have hk1 : chainGraph.partner? 1 = none := by cbv
      rw [hk1] at hk
      contradiction
    · rfl
  intro i j u v hi hj _ _ _
  rw [two i hi, two j hj]

/-- The update of the function reads the message that it answers, and closes no cycle. -/
theorem loopBreakers_chain :
    chainGraph.Built ∧ chain.IsForest chainGraph ∧ chain.OwnOnce chainGraph [] ∧
      chain.ReadsOwn chainGraph [] 2 ∧
      ∃ b', chain.withSchedule chainGraph [] = .ok b' ∧ b'.order = [0, 2, 1] ∧
        b'.loopBreakers = [] := by
  have h : (chain.withSchedule chainGraph []).map (·.order) = .ok [0, 2, 1] := by cbv
  obtain ⟨b', hb, ho⟩ := map_eq_ok.mp h
  refine ⟨built_chain, isForest_chain, ownOnce_chain, ?_, b', hb, ho,
    (loopBreakers_eq_nil_of_isForest built_chain isForest_chain ownOnce_chain hb).1⟩
  have hcov : chain.covers chainGraph 2 = true := by cbv
  have hp : chainGraph.partner? 2 = some 0 := by cbv
  exact ⟨hcov, by rw [hp]; rfl, .sumProduct, by cbv, by cbv⟩

end Block

end MessagePassing
