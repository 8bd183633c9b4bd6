import MessagePassing.Proofs.Assembly.Compile
import MessagePassing.Proofs.Assembly.Outline

/-!
# What compiled blocks read

The scheduler and the assembly go through the interfaces of a node on their own, the one to find out
which messages an update depends on, the other to find out where its arguments come from. They have
to agree, and what is read has to be computed in the same block.

Results:
* `message?_of_sourceAt`: an argument is a message just where the scheduler sees a dependency.
* `outside_of_sourceAt`: an argument is a marginal or an observed value only outside the block.
* `mem_targets_of_partner`: the messages at the border of a block are among its targets.
* **`wired_of_compiled`**: a compiled block reads the messages that its schedule is made for, and it
  reads early only what has a seed.
-/

namespace MessagePassing

/-- The message that a source is, if it is one. -/
def Source.message? : Source → Option InterfaceId
  | .message i => some i
  | _ => none

/-- The messages among a list of sources, in order. -/
def messagesOf (l : List Source) : List InterfaceId :=
  l.filterMap Source.message?

theorem mem_messagesOf {i : InterfaceId} {l : List Source} : i ∈ messagesOf l ↔ .message i ∈ l := by
  unfold messagesOf
  rw [List.mem_filterMap]
  constructor
  · rintro ⟨s, hs, hi⟩
    cases s <;> cases hi
    exact hs
  · exact fun h => ⟨_, h, rfl⟩

/-- The source is a marginal or an observed value. -/
def Source.Outside : Source → Prop
  | .marginal _ | .constant _ => True
  | .nothing | .message _ => False

theorem Source.not_outside_iff {s : Source} :
    ¬s.Outside ↔ s = .nothing ∨ ∃ i, s = .message i := by
  cases s <;> simp [Source.Outside]

/-- How the messages that a block reads are related to its schedule. -/
structure Block.Wired (g : Graph) (b : Block) : Prop where
  /-- An observed value reads nothing. -/
  clamp : ∀ e ∈ b.schedule, ∀ n, g.node e.node = .ok n → n.isClamp → messagesOf e.inbounds = []
  /-- Any other entry reads the messages that the scheduler has found for it, in order. -/
  entry : ∀ e ∈ b.schedule, ∀ n, g.node e.node = .ok n → ¬ n.isClamp →
    b.dependenciesAt g e.ruleType e.interface = .ok (messagesOf e.inbounds)
  /-- The marginal of a cluster reads its messages, in order. -/
  cluster : ∀ m ∈ b.marginalTable, m.plan.isJoint → messagesOf m.inbounds = m.plan.interfaces
  /-- What an entry reads is computed in the block. -/
  entry_scheduled : ∀ e ∈ b.schedule, ∀ i ∈ messagesOf e.inbounds, i ∈ b.order
  /-- What a marginal reads is computed in the block. -/
  marginal_scheduled : ∀ m ∈ b.marginalTable, ∀ i ∈ messagesOf m.inbounds, i ∈ b.order
  /-- What an entry reads comes before it, or it is that of a loop breaker and has a seed. -/
  early : ∀ pre e post, b.schedule = pre ++ e :: post → ∀ i ∈ messagesOf e.inbounds,
    i ∉ pre.map (·.interface) → i ∈ b.loopBreakers ∧ b.Seeded i
  /-- Seeds are laid if there are any. -/
  needsSeeds : b.needsSeeds = b.schedule.any (·.seed.isSome)

/-! ## Arguments and dependencies -/

theorem Graph.edgeAt_eq_ok {g : Graph} {i : InterfaceId} {e : EdgeId} :
    g.edgeAt i = .ok e ↔ g.edgeAt? i = some e := by
  unfold Graph.edgeAt
  cases g.edgeAt? i <;> simp

/-- The message that an update for `out`, or for a joint marginal, reads through interface `j`. -/
def Graph.heard? (g : Graph) (internal : List EdgeId) (out : Option InterfaceId) (r : RuleType)
    (j : InterfaceId) : Option InterfaceId :=
  if (g.edgeAt? j).any (· ∈ internal) && (out ≠ some j || g.needsOwnInbound j r) then g.partner? j
  else none

theorem Block.dependency?_eq {b : Block} {g : Graph} {r : RuleType} {i j : InterfaceId} :
    b.dependency? g r i j = g.heard? b.internal (some i) r j := by
  unfold Block.dependency? Graph.heard? Block.covers
  by_cases h : i = j
  · simp [h]
  · simp [h, Ne.symm h]

namespace Posterior

variable {p : Posterior} {g : Graph} {internal : List EdgeId} {n : NodeId}
  {out : Option InterfaceId} {r : RuleType} {j : InterfaceId}

/-- An argument is a message just where the scheduler sees a dependency. -/
theorem message?_of_sourceAt {s : Source} (h : p.sourceAt g internal n out r j = .ok s) :
    s.message? = g.heard? internal out r j := by
  obtain ⟨e, he, h⟩ := bind_eq_ok.mp h
  unfold Graph.heard?
  rw [Graph.edgeAt_eq_ok.mp he, Option.any_some]
  split at h
  · rename_i hown
    cases pure_eq_ok.mp h
    simp only [Bool.and_eq_true, decide_eq_true_eq, Bool.not_eq_true'] at hown
    simp [hown.1, hown.2, Source.message?]
  · rename_i hown
    have hread : (decide (out ≠ some j) || g.needsOwnInbound j r) = true := by
      by_cases ho : out = some j
      · simpa [ho] using hown
      · simp [ho]
    rw [hread, Bool.and_true]
    cases hp : g.partner? j with
    | none =>
      rw [hp] at h
      cases pure_eq_ok.mp h
      rw [ite_self]
      rfl
    | some k =>
      rw [hp] at h
      dsimp only at h
      split at h
      · rename_i hin
        cases pure_eq_ok.mp h
        rw [if_pos (decide_eq_true hin)]
        rfl
      · rename_i hin
        rw [if_neg (by simpa using hin)]
        obtain ⟨far, -, h⟩ := bind_eq_ok.mp h
        split at h <;> cases pure_eq_ok.mp h <;> rfl

/-- An update reads a marginal or an observed value through an edge outside the block. -/
theorem outside_of_sourceAt {s : Source} (h : p.sourceAt g internal n out r j = .ok s)
    (hs : s.Outside) : ∃ e, g.edgeAt? j = some e ∧ e ∉ internal := by
  obtain ⟨e, he, h⟩ := bind_eq_ok.mp h
  refine ⟨e, Graph.edgeAt_eq_ok.mp he, fun hin => ?_⟩
  split at h
  · cases pure_eq_ok.mp h
    exact hs
  · split at h
    · cases pure_eq_ok.mp h
      exact hs
    · cases pure_eq_ok.mp h
      exact hs

theorem exists_outside_of_sources {l : List Source} {s : Source}
    (h : p.sources g internal n out r = .ok l) (hs : s ∈ l) (ho : s.Outside) :
    ∃ j ∈ g.interfacesOf n, ∃ e, g.edgeAt? j = some e ∧ e ∉ internal := by
  obtain ⟨node, hn, hmap⟩ := bind_eq_ok.mp h
  obtain ⟨j, hj, hsource⟩ := exists_of_mem_mapM hmap hs
  refine ⟨j, ?_, outside_of_sourceAt hsource ho⟩
  rwa [Graph.interfacesOf_of_some (Graph.node_eq_ok.mp hn)]

/-- The messages among the sources of an update, interface by interface. -/
theorem messages_of_sources {node : Node} {l : List Source} (hn : g.node n = .ok node)
    (h : p.sources g internal n out r = .ok l) :
    messagesOf l = node.interfaces.filterMap (g.heard? internal out r) := by
  obtain ⟨node', hn', hmap⟩ := bind_eq_ok.mp h
  rw [hn] at hn'
  cases hn'
  have hall := mapM_eq_ok.mp hmap
  clear h hmap
  generalize node.interfaces = interfaces at hall
  unfold messagesOf
  induction hall with
  | nil => rfl
  | cons hs _ ih => rw [List.filterMap_cons, List.filterMap_cons, message?_of_sourceAt hs, ih]

end Posterior

namespace Block

variable {b : Block} {g : Graph} {c : Catalogue} {sites : List InterfaceId}

/-! ## The schedule and the table of a prepared block -/

theorem order_skeleton (b : Block) : b.skeleton.order = b.order := by
  unfold order skeleton
  rw [List.map_map]
  rfl

/-- The schedule is the one that scheduling gives the outline, resolved or not. -/
def Planned (g : Graph) (sites : List InterfaceId) (b : Block) : Prop :=
  ∃ b₁, b.outline.withSchedule g sites = .ok b₁ ∧ b₁.loopBreakers = b.loopBreakers ∧
    b₁.schedule = b.schedule.map (·.bare)

theorem Prepared.planned (h : b.Prepared g sites) : b.Planned g sites := by
  obtain ⟨b₁, hs, hm⟩ := h
  obtain ⟨single, joint, -, -, hb⟩ := withMarginalTable_eq_ok.mp hm
  refine ⟨b₁, hs, ?_, ?_⟩
  · change _ = b.skeleton.loopBreakers
    rw [hb]
  · change _ = b.skeleton.schedule
    rw [hb]

/-- What a block has from its schedule. -/
theorem Planned.exists_schedule (h : b.Planned g sites) :
    ∃ b₁, b.outline.withSchedule g sites = .ok b₁ ∧ b₁.order = b.order ∧
      b₁.loopBreakers = b.loopBreakers ∧ b₁.schedule = b.schedule.map (·.bare) := by
  obtain ⟨b₁, hs, hbreakers, hb₁⟩ := h
  refine ⟨b₁, hs, ?_, hbreakers, hb₁⟩
  unfold order
  rw [hb₁, List.map_map]
  rfl

/-- No message is scheduled twice. -/
theorem Planned.nodup_order (h : b.Planned g sites) : b.order.Nodup := by
  obtain ⟨b₁, hs, horder, -⟩ := h.exists_schedule
  rw [← horder, order_of_withSchedule hs]
  exact Digraph.nodup_order dependencyGraph_proper

/-- The node of an entry exists, and is that of its interface. -/
theorem Planned.exists_node (h : b.Planned g sites) (hg : g.Coherent) {e : ScheduleEntry}
    (he : e ∈ b.schedule) :
    e.ruleType = b.ruleType g sites e.interface ∧ ∃ n, g.nodeOf? e.interface = some n ∧
      g.node e.node = .ok n ∧ g.checkBound n.interfaces = .ok () := by
  obtain ⟨b₁, hs, -, hb₁⟩ := h
  have hmem : e.bare ∈ b₁.schedule := hb₁ ▸ List.mem_map_of_mem he
  exact exists_node_of_mem_schedule (e := e.bare) hg hs hmem

theorem isJoint_of_variableMarginal {x : String} {m : MarginalEntry}
    (h : variableMarginal g x = .ok m) : m.plan.isJoint = false := by
  have hplan : ∀ e plan, variablePlan g e = .ok plan → plan.isJoint = false := by
    intro e plan h
    unfold variablePlan at h
    split at h
    · cases pure_eq_ok.mp h
      rfl
    · obtain ⟨tail, -, h⟩ := bind_eq_ok.mp h
      obtain ⟨head, -, h⟩ := bind_eq_ok.mp h
      split at h
      · cases pure_eq_ok.mp h
        rfl
      · split at h <;> cases pure_eq_ok.mp h <;> rfl
  obtain ⟨_, e, plan, -, -, hp, rfl⟩ := variableMarginal_eq_ok.mp h
  exact hplan e plan hp

/-- A joint marginal of a prepared block is that of a cluster. -/
theorem Prepared.exists_cluster (h : b.Prepared g sites) {m : MarginalEntry} {n : NodeId}
    {l : List InterfaceId} (hm : m ∈ b.marginalTable) (hplan : m.plan = .joint n l) :
    ∃ x ∈ b.clusters, x.node = n ∧
      ((g.interfacesOf n).filter fun i => (g.edgeAt? i).any (· ∈ x.edges)).mapM g.partner =
        .ok l := by
  obtain ⟨b₁, hs, ht⟩ := h
  obtain ⟨single, joint, hsingle, hjoint, hb⟩ := withMarginalTable_eq_ok.mp ht
  have hclusters : b₁.clusters = b.clusters := by
    change b₁.outline.clusters = b.outline.clusters
    rw [outline_of_withSchedule hs]
    rfl
  have hmem : m.bare ∈ single ++ joint := by
    have : m.bare ∈ b.skeleton.marginalTable := List.mem_map_of_mem hm
    rwa [hb] at this
  rcases List.mem_append.mp hmem with hmem | hmem
  · -- the marginal of a variable is a copy or a product
    obtain ⟨x, -, hx⟩ := exists_of_mem_mapM hsingle hmem
    have hj := isJoint_of_variableMarginal hx
    change m.plan.isJoint = false at hj
    rw [hplan] at hj
    contradiction
  · obtain ⟨x, hx, hc⟩ := exists_of_mem_mapM hjoint hmem
    obtain ⟨l', hl', hbare⟩ := clusterMarginal_eq_ok.mp hc
    have hbareplan : m.bare.plan = .joint n l := hplan
    cases hbareplan.symm.trans (congrArg MarginalEntry.plan hbare)
    exact ⟨x, hclusters ▸ hx, rfl, hl'⟩

/-! ## The border of a block -/

/-- A message along an edge of a variable in scope is a target. -/
theorem mem_targets (hg : g.Coherent) {i : InterfaceId} {e : EdgeId} {v : String}
    (he : g.edgeAt? i = some e) (hv : g.ownerOf? e = some v) (hscope : v ∈ b.scope) :
    i ∈ b.targets g :=
  mem_distinct.mpr (List.mem_flatMap.mpr ⟨v, hscope,
    List.mem_flatMap.mpr ⟨e, hg.mem_edgesOf_of_owner hv, hg.mem_ends he⟩⟩)

/-- A message that arrives through an edge of a variable in scope is a target. -/
theorem mem_targets_of_partner (hg : g.Coherent) {i j : InterfaceId} {e : EdgeId} {v : String}
    (hp : g.partner? i = some j) (he : g.edgeAt? i = some e) (hv : g.ownerOf? e = some v)
    (hscope : v ∈ b.scope) : j ∈ b.targets g :=
  mem_targets hg ((hg.edgeAt_partner hp).trans he) hv hscope

/-! ## Compiled blocks -/

theorem partner_eq_ok {i j : InterfaceId} : g.partner i = .ok j ↔ g.partner? i = some j := by
  unfold Graph.partner
  cases g.partner? i <;> simp

/-- The messages that arrive through the edges of a set at a node, if none of them dangles. -/
theorem filterMap_heard?_eq {internal : List EdgeId} {r : RuleType} {I l : List InterfaceId}
    (h : (I.filter fun i => (g.edgeAt? i).any (· ∈ internal)).mapM g.partner = .ok l) :
    I.filterMap (g.heard? internal none r) = l := by
  induction I generalizing l with
  | nil =>
    cases pure_eq_ok.mp h
    rfl
  | cons i I ih =>
    rw [List.filter_cons] at h
    unfold Graph.heard? at ih ⊢
    rw [List.filterMap_cons]
    by_cases hi : (g.edgeAt? i).any (· ∈ internal) = true
    · rw [if_pos hi, List.mapM_cons] at h
      obtain ⟨j, hj, h⟩ := bind_eq_ok.mp h
      obtain ⟨l', hl', h⟩ := bind_eq_ok.mp h
      cases pure_eq_ok.mp h
      rw [ih hl', partner_eq_ok.mp hj]
      simp [hi]
    · rw [if_neg hi] at h
      rw [ih h]
      simp [hi]

theorem mem_clusterEdges {internal : List EdgeId} {n : NodeId} {i : InterfaceId} {e : EdgeId}
    (hi : i ∈ g.interfacesOf n) (he : g.edgeAt? i = some e) :
    e ∈ g.edgesAt n ∧ (e ∈ g.clusterEdges n internal ↔ e ∈ internal) := by
  have hmem : e ∈ g.edgesAt n := List.mem_filterMap.mpr ⟨i, hi, he⟩
  unfold Graph.clusterEdges
  rw [List.mem_filter, decide_eq_true_eq]
  exact ⟨hmem, and_iff_right hmem⟩

/-- The messages of a cluster are those that arrive through its edges. -/
theorem messages_of_cluster {internal : List EdgeId} {x : Cluster} {l : List InterfaceId}
    {node : Node} {r : RuleType} (hn : g.node x.node = .ok node)
    (hx : x.edges = g.clusterEdges x.node internal)
    (hl : ((g.interfacesOf x.node).filter fun i => (g.edgeAt? i).any (· ∈ x.edges)).mapM g.partner =
      .ok l) :
    node.interfaces.filterMap (g.heard? internal none r) = l ∧
      ∀ j ∈ l, ∃ i e, g.partner? i = some j ∧ g.edgeAt? i = some e ∧ e ∈ internal ∧
        e ∈ g.edgesAt x.node := by
  have hfilter : ((g.interfacesOf x.node).filter fun i => (g.edgeAt? i).any (· ∈ x.edges)) =
      (g.interfacesOf x.node).filter fun i => (g.edgeAt? i).any (· ∈ internal) := by
    refine List.filter_congr fun i hi => ?_
    cases he : g.edgeAt? i with
    | none => rfl
    | some e =>
      rw [Option.any_some, Option.any_some, hx]
      exact decide_eq_decide.mpr (mem_clusterEdges hi he).2
  rw [hfilter] at hl
  have hinterfaces := Graph.interfacesOf_of_some (Graph.node_eq_ok.mp hn)
  refine ⟨hinterfaces ▸ filterMap_heard?_eq hl, fun j hj => ?_⟩
  obtain ⟨i, hi, hp⟩ := exists_of_mem_mapM hl hj
  obtain ⟨hi, hin⟩ := List.mem_filter.mp hi
  obtain ⟨e, he, hin⟩ := (Option.any_eq_true _ _).mp hin
  exact ⟨i, e, partner_eq_ok.mp hp, he, of_decide_eq_true hin, List.mem_filterMap.mpr ⟨i, hi, he⟩⟩

/-- What an entry reads, and what the scheduler has found for it. -/
theorem Assembled.messages_of_entry (h : b.Assembled g c) (hb : b.Planned g sites)
    (hg : g.Coherent) {e : ScheduleEntry} (he : e ∈ b.schedule) {n : Node}
    (hn : g.node e.node = .ok n) :
    (n.isClamp → messagesOf e.inbounds = []) ∧
      (¬ n.isClamp → g.nodeOf? e.interface = some n ∧ g.checkBound n.interfaces = .ok () ∧
        e.ruleType = b.ruleType g sites e.interface ∧
        messagesOf e.inbounds = b.dependencies g e.ruleType e.interface) := by
  obtain ⟨hrule, n', hat, hn', hbound⟩ := hb.exists_node hg he
  rw [hn] at hn'
  cases hn'
  obtain ⟨p, hentries⟩ := h.entries
  obtain ⟨pre, post, hsplit⟩ := List.append_of_mem he
  cases hentries pre e post hsplit with
  | observed hnode hvalue hinbounds _ =>
    cases hn.symm.trans hnode
    refine ⟨fun _ => ?_, fun hclamp => absurd ?_ hclamp⟩
    · rw [hinbounds]
      rfl
    · unfold Node.isClamp
      rw [hvalue]
      rfl
  | rule hnode hvalue hsources _ _ _ _ _ =>
    cases hn.symm.trans hnode
    refine ⟨fun hclamp => ?_, fun _ => ⟨hat, hbound, hrule, ?_⟩⟩
    · unfold Node.isClamp at hclamp
      rw [hvalue] at hclamp
      contradiction
    · rw [Posterior.messages_of_sources hn hsources]
      unfold dependencies Graph.siblings
      rw [hat]
      exact List.filterMap_congr fun j _ => dependency?_eq.symm

/-- What an entry reads is what the scheduler has followed. -/
theorem Assembled.dependsOn_of_read (h : b.Assembled g c) (hb : b.Planned g sites)
    (hg : g.Coherent) {e : ScheduleEntry} (he : e ∈ b.schedule) {i : InterfaceId}
    (hi : i ∈ messagesOf e.inbounds) : b.outline.DependsOn g sites e.interface i := by
  obtain ⟨-, n, -, hn, -⟩ := hb.exists_node hg he
  obtain ⟨hclamp, hfree⟩ := h.messages_of_entry hb hg he hn
  by_cases hc : n.isClamp
  · rw [hclamp hc] at hi
    exact absurd hi List.not_mem_nil
  · obtain ⟨hat, hbound, hrule, hmessages⟩ := hfree hc
    rw [hmessages, hrule] at hi
    exact (dependsOn_iff_mem_reads hat hbound).mpr hi

/-- What an entry reads is computed in the block. -/
theorem Assembled.mem_order_of_read (h : b.Assembled g c) (hb : b.Planned g sites)
    (hg : g.Coherent) {e : ScheduleEntry} (he : e ∈ b.schedule) {i : InterfaceId}
    (hi : i ∈ messagesOf e.inbounds) : i ∈ b.order := by
  obtain ⟨b₁, hs, horder, -⟩ := hb.exists_schedule
  exact (horder ▸ sufficient_order hg hs).closed _ (List.mem_map_of_mem he) i
    (h.dependsOn_of_read hb hg he hi)

/-- What an entry reads before it is computed is the message of a loop breaker. -/
theorem Assembled.mem_loopBreakers_of_read (h : b.Assembled g c) (hb : b.Planned g sites)
    (hg : g.Coherent) {pre post : List ScheduleEntry} {e : ScheduleEntry}
    (hsplit : b.schedule = pre ++ e :: post) {i : InterfaceId} (hi : i ∈ messagesOf e.inbounds)
    (hpre : i ∉ pre.map (·.interface)) : i ∈ b.loopBreakers := by
  obtain ⟨b₁, hs, horder, hbreakers, -⟩ := hb.exists_schedule
  have he : e ∈ b.schedule := by simp [hsplit]
  by_contra hi'
  have hbefore := precedes_of_dependsOn hg hs (horder ▸ List.mem_map_of_mem he)
    (h.dependsOn_of_read hb hg he hi) (hbreakers ▸ hi')
  have hsplit' : b.order = pre.map (·.interface) ++ e.interface :: post.map (·.interface) := by
    rw [order, hsplit, List.map_append, List.map_cons]
  rw [horder] at hbefore
  exact hpre (hbefore.mem_of_eq_append hb.nodup_order hsplit')

/-- What a marginal of a compiled block reads is computed in the block, and the marginal of a
cluster reads the messages of its plan. -/
theorem Compiled.messages_of_marginal (h : b.Compiled g c sites) (hg : g.Coherent)
    (hb : b.MadeFor g) (htargets : ∀ i ∈ b.targets g, i ∈ b.order) {m : MarginalEntry}
    (hm : m ∈ b.marginalTable) :
    (m.plan.isJoint → messagesOf m.inbounds = m.plan.interfaces) ∧
      ∀ i ∈ messagesOf m.inbounds, i ∈ b.order := by
  have horder : ∀ {i e}, b.schedule.find? (·.interface = i) = some e → i ∈ b.order := by
    intro i e he
    obtain ⟨hmem, rfl⟩ := mem_of_find? he
    exact List.mem_map_of_mem hmem
  obtain ⟨p, hsettled⟩ := h.assembled.marginals m hm
  cases hsettled with
  | copy hplan hfirst hinbounds _ =>
    rw [hplan, hinbounds]
    refine ⟨nofun, fun i hi => ?_⟩
    obtain rfl := List.mem_singleton.mp hi
    exact horder hfirst
  | product hplan hfirst hsecond _ hinbounds _ _ =>
    rw [hplan, hinbounds]
    refine ⟨nofun, fun i hi => ?_⟩
    split at hi <;> rcases List.mem_pair.mp hi with rfl | rfl <;>
      first | exact horder hfirst | exact horder hsecond
  | @joint n l node _ _ hplan hnode hsources _ _ _ _ =>
    obtain ⟨x, hx, rfl, hl⟩ := h.prepared.exists_cluster hm hplan
    obtain ⟨hedges, hscope⟩ := hb.of_mem_clusters hx
    obtain ⟨hmessages, hpartners⟩ := messages_of_cluster (r := .jointMarginal) hnode hedges hl
    rw [Posterior.messages_of_sources hnode hsources, hplan]
    refine ⟨fun _ => hmessages, fun j hj => htargets j ?_⟩
    obtain ⟨i, e, hp, he, hin, hat⟩ := hpartners j (hmessages ▸ hj)
    obtain ⟨v, hv⟩ := hg.exists_owner_of_edgeAt he
    exact mem_targets_of_partner hg hp he hv (hscope e hat hin v hv)

/-- **A compiled block reads the messages that its schedule is made for.** -/
theorem wired_of_compiled (hg : g.Coherent) (hb : b.MadeFor g) (h : b.Compiled g c sites) :
    b.Wired g := by
  have hp := h.prepared.planned
  have ha := h.assembled
  obtain ⟨b₁, hs, horder, -⟩ := hp.exists_schedule
  have hmarginal := fun m =>
    h.messages_of_marginal hg hb (horder ▸ sufficient_order hg hs).targets (m := m)
  refine ⟨fun e he n hn => (ha.messages_of_entry hp hg he hn).1, fun e he n hn hclamp => ?_,
    fun m hm => (hmarginal m hm).1, fun e he i hi => ha.mem_order_of_read hp hg he hi,
    fun m hm => (hmarginal m hm).2, fun pre e post hsplit i hi hpre => ?_, ha.needsSeeds⟩
  · obtain ⟨hat, hbound, -, hmessages⟩ := (ha.messages_of_entry hp hg he hn).2 hclamp
    rw [dependenciesAt_of_bound hat hbound, hmessages]
  · have hbreaker := ha.mem_loopBreakers_of_read hp hg hsplit hi hpre
    exact ⟨hbreaker, ha.seeded i hbreaker⟩

end Block

end MessagePassing
