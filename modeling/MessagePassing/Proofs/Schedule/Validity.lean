import Mathlib.Control.Traversable.Instances
import Mathlib.Data.List.Permutation
import Mathlib.Logic.Relation
import Mathlib.Order.Bounds.Defs
import MessagePassing.Proofs.Graph.Construction
import MessagePassing.Proofs.Traversal.DepthFirst
import MessagePassing.Schedule.Order

/-!
# Schedules are valid

A schedule is read off a depth-first walk of the graph of dependencies, which a worklist has
collected before. Both only see what the targets lead to, so the schedule is the smallest set of
messages that contains the targets and everything that they need, and its order is that of the walk.

Results, for a graph that is built and a block that gets a schedule:
* `withSchedule_eq_ok`: what a block has to be like to get a schedule, and what it gets.
* `mem_dependencyGraph_nodes`, `mem_dependencyGraph_arcs`: the collected graph is that of the
  dependencies of what the targets lead to.
* **`valid_of_withSchedule`**: every message that is read comes first or is that of a loop breaker,
  and the loop breakers are those that do not come first.
-/

namespace MessagePassing

namespace Block

/-- The interfaces of the schedule, in the order of execution. -/
def order (b : Block) : List InterfaceId :=
  b.schedule.map (·.interface)

/-- The update of interface `i` reads the message of interface `j`. -/
def DependsOn (b : Block) (g : Graph) (sites : List InterfaceId) (i j : InterfaceId) : Prop :=
  ∃ r l, b.ruleTypeAt g sites i = .ok r ∧ b.dependenciesAt g r i = .ok l ∧ j ∈ l

/-- A set has the messages that a block wants and those that these need. -/
structure Sufficient (b : Block) (g : Graph) (sites : List InterfaceId) (s : Set InterfaceId) :
    Prop where
  targets : ∀ t ∈ b.targets g, t ∈ s
  closed : ∀ i ∈ s, ∀ j, b.DependsOn g sites i j → j ∈ s

/-- `b'` has a valid schedule for what `b` wants. -/
structure Valid (b : Block) (g : Graph) (sites : List InterfaceId) (b' : Block) : Prop where
  /-- Every message is computed once. -/
  nodup : b'.order.Nodup
  /-- Just what is needed is computed. -/
  least : IsLeast {s | b.Sufficient g sites s} {i | i ∈ b'.order}
  /-- The type of every update is known, and what it reads. -/
  defined : ∀ e ∈ b'.schedule, b.ruleTypeAt g sites e.interface = .ok e.ruleType ∧
    ∃ l, b.dependenciesAt g e.ruleType e.interface = .ok l
  /-- What is read is computed, and comes first unless it is that of a loop breaker. -/
  ordered : ∀ i ∈ b'.order, ∀ j, b.DependsOn g sites i j →
    j ∈ b'.order ∧ (j ∉ b'.loopBreakers → Precedes b'.order j i)
  /-- The loop breakers are those that are read before they are computed. -/
  mem_loopBreakers : ∀ j, j ∈ b'.loopBreakers ↔
    ∃ i ∈ b'.order, b.DependsOn g sites i j ∧ ¬ Precedes b'.order j i
  /-- There are none just when no message depends on itself. -/
  acyclic : b'.loopBreakers = [] ↔
    ∀ i ∈ b'.order, ¬ Relation.TransGen (b.DependsOn g sites) i i

variable {b b' : Block} {g : Graph} {sites : List InterfaceId} {i j : InterfaceId} {n : Node}

/-! ## What a node reads -/

theorem ruleTypeAt_of_bound (hn : g.nodeOf? i = some n) (hb : g.checkBound n.interfaces = .ok ()) :
    b.ruleTypeAt g sites i = .ok (b.ruleType g sites i) := by
  have hbound : ∀ k ∈ n.interfaces, (g.edgeAt? k).isSome := by
    intro k hk
    unfold Graph.checkBound at hb
    split at hb
    · contradiction
    · rename_i h
      have := List.find?_eq_none.mp h k hk
      simpa [Option.isSome_iff_ne_none] using this
  have hsib : g.siblings i = n.interfaces := by
    unfold Graph.siblings
    rw [hn]
    rfl
  unfold ruleTypeAt ruleType Graph.nodeOf
  rw [hn, hsib]
  split
  · rfl
  · simp only [Option.any_some]
    change (if n.deterministic then _ else _) = _
    split
    · rfl
    · cases hf : n.interfaces.find? fun k => !b.covers g k with
      | none =>
        have hall : n.interfaces.all (b.covers g) = true := by
          simpa [List.find?_eq_none] using hf
        rw [if_pos hall]
        rfl
      | some k =>
        have hk := hbound k (List.mem_of_find?_eq_some hf)
        have hcov := List.find?_some hf
        have hall : ¬ n.interfaces.all (b.covers g) = true := by
          intro h
          rw [List.all_eq_true] at h
          rw [h k (List.mem_of_find?_eq_some hf)] at hcov
          contradiction
        rw [if_neg hall]
        obtain ⟨e, he⟩ := Option.isSome_iff_exists.mp hk
        change (g.edgeAt k).map _ = _
        rw [Graph.edgeAt, he]
        rfl

theorem dependenciesAt_of_bound (hn : g.nodeOf? i = some n)
    (hb : g.checkBound n.interfaces = .ok ()) (r : RuleType) :
    b.dependenciesAt g r i = .ok (b.dependencies g r i) := by
  unfold dependenciesAt Graph.nodeOf
  rw [hn]
  exact bind_eq_ok.mpr ⟨n, rfl, bind_eq_ok.mpr ⟨(), hb, rfl⟩⟩

/-- At a node that is bound, an update reads what it is found to read. -/
theorem dependsOn_iff_mem_reads (hn : g.nodeOf? i = some n)
    (hb : g.checkBound n.interfaces = .ok ()) :
    b.DependsOn g sites i j ↔ j ∈ b.reads g sites i := by
  unfold DependsOn
  rw [ruleTypeAt_of_bound hn hb]
  constructor
  · rintro ⟨r, l, hr, hl, hj⟩
    cases hr
    rw [dependenciesAt_of_bound hn hb] at hl
    cases hl
    exact hj
  · intro hj
    exact ⟨_, _, rfl, dependenciesAt_of_bound hn hb _, hj⟩

theorem mem_dependencies {r : RuleType} :
    j ∈ b.dependencies g r i ↔
      ∃ k ∈ g.siblings i,
        b.covers g k ∧ (k ≠ i ∨ g.needsOwnInbound i r) ∧ g.partner? k = some j := by
  unfold dependencies
  rw [List.mem_filterMap]
  refine exists_congr fun k => and_congr_right fun _ => ?_
  unfold dependency?
  split
  · rename_i h
    rw [Bool.and_eq_true, Bool.or_eq_true, decide_eq_true_eq] at h
    exact ⟨fun hp => ⟨h.1, h.2, hp⟩, fun hp => hp.2.2⟩
  · rename_i h
    rw [Bool.and_eq_true, Bool.or_eq_true, decide_eq_true_eq] at h
    exact ⟨nofun, fun hp => absurd ⟨hp.1, hp.2.1⟩ h⟩

/-! ## The collected graph -/

theorem lt_length_of_mem_targets (hg : g.Coherent) (h : i ∈ b.targets g) :
    i < g.interfaces.length := by
  obtain ⟨x, -, hi⟩ := List.mem_flatMap.mp (mem_distinct.mp h)
  obtain ⟨e, he, hi⟩ := List.mem_flatMap.mp hi
  obtain ⟨y, hy, -⟩ := hg.owner he
  have hi : i ∈ y.ends := by
    rw [Graph.ends, hy] at hi
    exact hi
  rcases List.mem_cons.mp hi with rfl | hi
  · obtain ⟨z, hz, -⟩ := hg.tail hy
    exact (List.getElem?_eq_some_iff.mp hz).1
  · obtain ⟨z, hz, -⟩ := hg.head hy (by simpa using hi)
    exact (List.getElem?_eq_some_iff.mp hz).1

theorem lt_length_of_mem_reads (hg : g.Coherent) (h : j ∈ b.reads g sites i) :
    j < g.interfaces.length := by
  obtain ⟨k, -, -, -, hp⟩ := mem_dependencies.mp h
  obtain ⟨y, hy, -⟩ := Option.bind_eq_some_iff.mp (hg.partner_symm hp)
  exact (List.getElem?_eq_some_iff.mp hy).1

theorem mem_discovered_iff (hg : g.Coherent) :
    i ∈ b.discovered g sites ↔ ∃ t ∈ b.targets g, Leads (b.reads g sites) t i := by
  unfold discovered
  rw [mem_explore_iff]
  · simp only [List.mem_reverse, Leads]
  · intro t ht
    exact List.mem_range.mpr (lt_length_of_mem_targets hg (List.mem_reverse.mp ht))
  · intro k _ j hj
    exact List.mem_range.mpr (lt_length_of_mem_reads hg (List.mem_reverse.mp hj))

theorem mem_discovered_of_mem_reads (hg : g.Coherent) (hi : i ∈ b.discovered g sites)
    (hj : j ∈ b.reads g sites i) : j ∈ b.discovered g sites := by
  obtain ⟨t, ht, hl⟩ := (mem_discovered_iff hg).mp hi
  exact (mem_discovered_iff hg).mpr ⟨t, ht, Relation.ReflTransGen.tail hl hj⟩

theorem dependencyGraph_proper : (b.dependencyGraph g sites).Proper :=
  Digraph.ofArcs_proper _ _

theorem mem_dependencyGraph_arcs :
    (i, j) ∈ (b.dependencyGraph g sites).arcs ↔
      i ∈ b.discovered g sites ∧ j ∈ b.reads g sites i := by
  unfold dependencyGraph Digraph.ofArcs
  rw [mem_distinct, List.mem_flatMap]
  constructor
  · rintro ⟨k, hk, h⟩
    obtain ⟨l, hl, h⟩ := List.mem_map.mp h
    cases h
    exact ⟨hk, hl⟩
  · rintro ⟨hi, hj⟩
    exact ⟨i, hi, List.mem_map.mpr ⟨j, hj, rfl⟩⟩

theorem mem_dependencyGraph_nodes (hg : g.Coherent) :
    i ∈ (b.dependencyGraph g sites).nodes ↔ i ∈ b.discovered g sites := by
  have hnodes : i ∈ (b.dependencyGraph g sites).nodes ↔ i ∈ b.targets g ∨
      ∃ k l, (k, l) ∈ (b.dependencyGraph g sites).arcs ∧ (i = k ∨ i = l) := by
    unfold dependencyGraph Digraph.ofArcs
    rw [mem_distinct, List.mem_append, List.mem_flatMap]
    simp
  rw [hnodes]
  constructor
  · rintro (h | ⟨k, l, h, rfl | rfl⟩)
    · exact (mem_discovered_iff hg).mpr ⟨i, h, Relation.ReflTransGen.refl⟩
    · exact (mem_dependencyGraph_arcs.mp h).1
    · obtain ⟨hk, hl⟩ := mem_dependencyGraph_arcs.mp h
      exact mem_discovered_of_mem_reads hg hk hl
  · intro h
    obtain ⟨t, ht, hl⟩ := (mem_discovered_iff hg).mp h
    rcases Relation.ReflTransGen.cases_tail hl with rfl | ⟨k, hk, hj⟩
    · exact Or.inl ht
    · have hdiscovered := (mem_discovered_iff hg).mpr ⟨t, ht, hk⟩
      exact Or.inr ⟨k, i, mem_dependencyGraph_arcs.mpr ⟨hdiscovered, hj⟩, Or.inr rfl⟩

/-! ## The schedule of a block -/

/-- A block gets a schedule just when it has edges and every node on the way exists and is bound. -/
theorem withSchedule_eq_ok :
    b.withSchedule g sites = .ok b' ↔ b.isEmpty = false ∧
      (∀ i ∈ b.discovered g sites, ∃ n, g.nodeOf? i = some n ∧ g.checkBound n.interfaces = .ok ()) ∧
      b' = { b with
        schedule := (b.dependencyGraph g sites).postOrder.order.map (b.freshEntry g sites)
        loopBreakers :=
          Ascending.ofList ((b.dependencyGraph g sites).postOrder.back.map (·.2))
        arcs := (b.dependencyGraph g sites).arcs } := by
  have hnode : ∀ i, (g.nodeOf i >>= fun x => g.checkBound x.interfaces) = .ok () ↔
      ∃ n, g.nodeOf? i = some n ∧ g.checkBound n.interfaces = .ok () := by
    intro i
    rw [bind_eq_ok]
    unfold Graph.nodeOf
    cases g.nodeOf? i <;> simp
  unfold withSchedule
  dsimp only
  split
  · rename_i h
    rw [h]
    exact ⟨fun h => absurd h nofun, fun h => absurd h.1 nofun⟩
  · rename_i h
    rw [Bool.not_eq_true] at h
    rw [bind_eq_ok]
    constructor
    · rintro ⟨_, hall, h'⟩
      exact ⟨h, fun i hi => (hnode i).mp (forM_eq_ok.mp hall i hi), (pure_eq_ok.mp h').symm⟩
    · rintro ⟨-, hall, rfl⟩
      exact ⟨(), forM_eq_ok.mpr fun i hi => (hnode i).mpr (hall i hi), rfl⟩

theorem order_of_withSchedule (h : b.withSchedule g sites = .ok b') :
    b'.order = (b.dependencyGraph g sites).postOrder.order := by
  obtain ⟨-, -, rfl⟩ := withSchedule_eq_ok.mp h
  unfold order
  rw [List.map_map]
  exact List.map_id _

theorem mem_order_iff (hg : g.Coherent) (h : b.withSchedule g sites = .ok b') :
    i ∈ b'.order ↔ i ∈ b.discovered g sites := by
  rw [order_of_withSchedule h, Digraph.mem_order_iff, mem_dependencyGraph_nodes hg]

theorem dependsOn_iff_of_mem_order (hg : g.Coherent) (h : b.withSchedule g sites = .ok b')
    (hi : i ∈ b'.order) : b.DependsOn g sites i j ↔ j ∈ b.reads g sites i := by
  obtain ⟨n, hn, hb⟩ := (withSchedule_eq_ok.mp h).2.1 i ((mem_order_iff hg h).mp hi)
  exact dependsOn_iff_mem_reads hn hb

/-- The collected arcs are the dependencies of what is scheduled. -/
theorem mem_arcs_iff (hg : g.Coherent) (h : b.withSchedule g sites = .ok b') :
    (i, j) ∈ (b.dependencyGraph g sites).arcs ↔ i ∈ b'.order ∧ b.DependsOn g sites i j := by
  rw [mem_dependencyGraph_arcs, ← mem_order_iff hg h]
  exact and_congr_right fun hi => (dependsOn_iff_of_mem_order hg h hi).symm

theorem mem_loopBreakers_iff (h : b.withSchedule g sites = .ok b') :
    j ∈ b'.loopBreakers ↔ ∃ i, (i, j) ∈ (b.dependencyGraph g sites).postOrder.back := by
  obtain ⟨-, -, rfl⟩ := withSchedule_eq_ok.mp h
  rw [Ascending.mem_ofList, List.mem_map]
  constructor
  · rintro ⟨⟨i, k⟩, hik, rfl⟩
    exact ⟨i, hik⟩
  · rintro ⟨i, hi⟩
    exact ⟨_, hi, rfl⟩

theorem sufficient_order (hg : g.Coherent) (h : b.withSchedule g sites = .ok b') :
    b.Sufficient g sites {i | i ∈ b'.order} where
  targets t ht := (mem_order_iff hg h).mpr
    ((mem_discovered_iff hg).mpr ⟨t, ht, Relation.ReflTransGen.refl⟩)
  closed _ hi _ hij := (mem_order_iff hg h).mpr
    (mem_discovered_of_mem_reads hg ((mem_order_iff hg h).mp hi)
      ((dependsOn_iff_of_mem_order hg h hi).mp hij))

/-- Every sufficient set has what is scheduled. -/
theorem mem_of_sufficient (hg : g.Coherent) (h : b.withSchedule g sites = .ok b')
    {s : Set InterfaceId} (hs : b.Sufficient g sites s) (hi : i ∈ b'.order) : i ∈ s := by
  obtain ⟨t, ht, hl⟩ := (mem_discovered_iff hg).mp ((mem_order_iff hg h).mp hi)
  have hsched : ∀ k, Leads (b.reads g sites) t k → k ∈ b'.order := fun k hk =>
    (mem_order_iff hg h).mpr ((mem_discovered_iff hg).mpr ⟨t, ht, hk⟩)
  clear hi
  induction hl with
  | refl => exact hs.targets t ht
  | tail hk hj ih =>
    exact hs.closed _ ih _ ((dependsOn_iff_of_mem_order hg h (hsched _ hk)).mpr hj)

/-- What scheduled messages depend on is told by the collected arcs. -/
theorem transGen_arcs_iff (hg : g.Coherent) (h : b.withSchedule g sites = .ok b') :
    Relation.TransGen (fun u v => (u, v) ∈ (b.dependencyGraph g sites).arcs) i j ↔
      i ∈ b'.order ∧ Relation.TransGen (b.DependsOn g sites) i j := by
  constructor
  · intro hij
    refine ⟨?_, Relation.TransGen.mono (fun u v huv => ((mem_arcs_iff hg h).mp huv).2) _ _ hij⟩
    obtain ⟨k, hik, -⟩ := Relation.TransGen.head'_iff.mp hij
    exact ((mem_arcs_iff hg h).mp hik).1
  · rintro ⟨hi, hij⟩
    suffices j ∈ b'.order ∧
        Relation.TransGen (fun u v => (u, v) ∈ (b.dependencyGraph g sites).arcs) i j from this.2
    have hclosed := (sufficient_order hg h).closed
    induction hij with
    | single huv => exact ⟨hclosed i hi _ huv, .single ((mem_arcs_iff hg h).mpr ⟨hi, huv⟩)⟩
    | tail _ huv ih =>
      exact ⟨hclosed _ ih.1 _ huv, ih.2.tail ((mem_arcs_iff hg h).mpr ⟨ih.1, huv⟩)⟩

/-- There are no loop breakers just when no scheduled message depends on itself. -/
theorem loopBreakers_eq_nil_iff (hg : g.Coherent) (h : b.withSchedule g sites = .ok b') :
    b'.loopBreakers = [] ↔ ∀ i ∈ b'.order, ¬ Relation.TransGen (b.DependsOn g sites) i i := by
  have hback : b'.loopBreakers = [] ↔ (b.dependencyGraph g sites).postOrder.back = [] := by
    simp only [List.eq_nil_iff_forall_not_mem, mem_loopBreakers_iff h]
    exact ⟨fun hb a ha => hb a.2 ⟨a.1, ha⟩, fun hb j ⟨i, hi⟩ => hb _ hi⟩
  rw [hback, Digraph.back_eq_nil_iff dependencyGraph_proper]
  refine forall_congr' fun i => ?_
  rw [transGen_arcs_iff hg h, not_and]

/-- What a scheduled message depends on is scheduled, and comes first unless it is that of a loop
breaker. -/
theorem precedes_of_dependsOn (hg : g.Coherent) (h : b.withSchedule g sites = .ok b')
    (hi : i ∈ b'.order) (hij : b.DependsOn g sites i j) (hj : j ∉ b'.loopBreakers) :
    Precedes b'.order j i := by
  rw [mem_loopBreakers_iff h] at hj
  rw [order_of_withSchedule h]
  exact Digraph.precedes_of_mem_arcs dependencyGraph_proper ((mem_arcs_iff hg h).mpr ⟨hi, hij⟩)
    fun hb => hj ⟨i, hb⟩

/-- What the schedule fixes of an entry: its node exists and is bound. -/
theorem exists_node_of_mem_schedule (hg : g.Coherent) (h : b.withSchedule g sites = .ok b')
    {e : ScheduleEntry} (he : e ∈ b'.schedule) :
    e.ruleType = b.ruleType g sites e.interface ∧ ∃ n, g.nodeOf? e.interface = some n ∧
      g.node e.node = .ok n ∧ g.checkBound n.interfaces = .ok () := by
  have hi : e.interface ∈ b'.order := List.mem_map.mpr ⟨e, he, rfl⟩
  obtain ⟨-, hnode, hb'⟩ := withSchedule_eq_ok.mp h
  obtain ⟨n, hn, hb⟩ := hnode _ ((mem_order_iff hg h).mp hi)
  rw [hb'] at he
  obtain ⟨k, -, rfl⟩ := List.mem_map.mp he
  refine ⟨rfl, n, hn, ?_, hb⟩
  obtain ⟨y, -, hy⟩ := Option.bind_eq_some_iff.mp hn
  change g.node (((g.nodeOf? k).map (·.id)).getD 0) = _
  have hn : g.nodeOf? k = some n := hn
  rw [hn, Graph.node_eq_ok, Option.map_some, Option.getD_some, hg.node_id hy]
  exact hy

/-- **A schedule is valid.** -/
theorem valid_of_withSchedule (hg : g.Built) (h : b.withSchedule g sites = .ok b') :
    b.Valid g sites b' := by
  have hc := hg.coherent
  have ho := order_of_withSchedule h
  refine ⟨?_, ⟨sufficient_order hc h, fun s hs i hi => mem_of_sufficient hc h hs hi⟩, ?_, ?_, ?_,
    loopBreakers_eq_nil_iff hc h⟩
  · rw [ho]
    exact Digraph.nodup_order dependencyGraph_proper
  · intro e he
    obtain ⟨hr, n, hn, -, hb⟩ := exists_node_of_mem_schedule hc h he
    rw [hr]
    exact ⟨ruleTypeAt_of_bound hn hb, _, dependenciesAt_of_bound hn hb _⟩
  · exact fun i hi j hij => ⟨(sufficient_order hc h).closed i hi j hij,
      precedes_of_dependsOn hc h hi hij⟩
  · intro j
    rw [mem_loopBreakers_iff h]
    refine exists_congr fun i => ?_
    rw [Digraph.mem_back_iff dependencyGraph_proper, mem_arcs_iff hc h, ho, and_assoc]

/-- Two functions that are joined in a circle. -/
def circleGraph : Graph :=
  let f : NodeRequest := { kind := "equality", interfaces := 2, deterministic := true }
  let g := ((Graph.addNode f).outcome ((Graph.addNode f).outcome ∅).2).2
  let g := ((Graph.connect (.numbered 0) (some (.numbered 2)) (some "a") none).outcome g).2
  ((Graph.connect (.numbered 1) (some (.numbered 3)) (some "b") none).outcome g).2

/-- The block of the circle, asked for one of its variables. -/
def circle : Block :=
  { id := "a", scope := ["a"], internal := [0, 1] }

theorem built_circle : circleGraph.Built :=
  .connect (.connect (.addNode (.addNode .empty _) _) _ _ _ _) _ _ _ _

/-- Around a circle, one message in each direction is read before it is computed. -/
theorem valid_circle :
    circleGraph.Built ∧ ∃ b', circle.withSchedule circleGraph [] = .ok b' ∧
      b'.loopBreakers = [0, 2] ∧ circle.Valid circleGraph [] b' := by
  have h : (circle.withSchedule circleGraph []).map (·.loopBreakers) = .ok [0, 2] := by cbv
  obtain ⟨b', hb, hl⟩ := map_eq_ok.mp h
  exact ⟨built_circle, b', hb, hl, valid_of_withSchedule built_circle hb⟩

end Block

end MessagePassing
