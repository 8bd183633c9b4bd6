import MessagePassing.Proofs.Assembly.Completion
import MessagePassing.Proofs.Assembly.Ownership
import MessagePassing.Proofs.Types.Plain

/-!
# What a block learns from the others

A block is put off as long as the type of a marginal that it reads is unknown, and it is tried again
when more types are published. That is sound because types are never taken back or changed: what one
posterior knows, a later one knows as well, and an attempt that does not wait for a type comes to
the same in both. The published type of a variable is even the one that is declared for its oldest
edge, if that is ground, so that it makes no difference which of the two a block has read.

Once the schedule of a block is resolved, its marginals have nothing left to wait for: a joint
marginal reads the marginals that a message out of the same node has read. This needs that there is
such a message, and so that no node at a cluster is observed; observed nodes that are added as
clamps have one interface only.

Results:
* `Informs.resolvedSchedule`: with more knowledge a schedule comes to the same, unless it waited.
* `Prepared.marginalType_of_resolved`: what a joint marginal reads is known once the schedule is
  resolved.
* **`Informs.completed`**: a block whose schedule is resolved is completed in the same way with more
  knowledge.
-/

namespace MessagePassing

/-! ## Computations that may wait -/

/-- The first computation comes to the same as the second, unless it waits for a marginal. -/
def Approximates {α : Type} (x y : Except Failure α) : Prop :=
  x = y ∨ ∃ f, x = .error f ∧ f.kind = .unresolvedMarginal

namespace Approximates

variable {α β : Type} {x y : Except Failure α}

theorem refl (x : Except Failure α) : Approximates x x :=
  Or.inl rfl

theorem eq_of_ok {a : α} (h : Approximates x y) (hx : x = .ok a) : y = .ok a := by
  rcases h with rfl | ⟨f, hf, -⟩
  · exact hx
  · rw [hx] at hf
    contradiction

/-- If the second computation succeeds, then the first one does or waits. -/
theorem of_ok {a : α} (h : Approximates x y) (hy : y = .ok a) :
    x = .ok a ∨ ∃ f, x = .error f ∧ f.kind = .unresolvedMarginal :=
  h.imp_left fun h => h.trans hy

theorem bind {f h : α → Except Failure β} (hx : Approximates x y)
    (hf : ∀ a, Approximates (f a) (h a)) : Approximates (x >>= f) (y >>= h) := by
  rcases hx with rfl | ⟨e, rfl, he⟩
  · cases x with
    | error e => exact refl _
    | ok a => exact hf a
  · exact Or.inr ⟨e, rfl, he⟩

theorem mapM {f h : α → Except Failure β} (hf : ∀ a, Approximates (f a) (h a)) (l : List α) :
    Approximates (l.mapM f) (l.mapM h) := by
  induction l with
  | nil => exact refl _
  | cons a l ih =>
    rw [List.mapM_cons, List.mapM_cons]
    exact (hf a).bind fun _ => ih.bind fun _ => refl _

end Approximates

/-! ## Knowledge -/

/-- The type that is declared for the marginal of a variable, if it is ground. -/
def Graph.declaredMarginal? (g : Graph) (x : String) : Option TypeTerm :=
  (g.oldestDeclared? x).filter (·.isGround)

namespace Posterior

/-- The second posterior has the same clusters as the first, and knows the types that it knows. -/
structure Informs (g : Graph) (p q : Posterior) : Prop where
  clusters : ∀ k, q.clusters.get? k = p.clusters.get? k
  types : ∀ n t τ, p.marginalType g n t = .ok τ → q.marginalType g n t = .ok τ

variable {g : Graph} {c : Catalogue} {p q r : Posterior} {n : NodeId} {t : Target} {τ : TypeTerm}

theorem Informs.refl (p : Posterior) : Informs g p p :=
  ⟨fun _ => rfl, fun _ _ _ h => h⟩

theorem Informs.trans (h : Informs g p q) (h' : Informs g q r) : Informs g p r :=
  ⟨fun k => (h'.clusters k).trans (h.clusters k), fun n t τ ht => h'.types n t τ (h.types n t τ ht)⟩

/-- The type of a marginal, as it is published or declared. -/
theorem marginalType_eq_ok : p.marginalType g n t = .ok τ ↔ p.marginalTypes.get? t = some τ ∨
    p.marginalTypes.get? t = none ∧
      ∃ x, t = .variable x ∧ g.declaredMarginal? x = some τ := by
  have hunknown : ∀ τ, marginalType.unknown g n t ≠ .ok τ := by
    intro τ h
    unfold marginalType.unknown at h
    obtain ⟨_, -, h⟩ := bind_eq_ok.mp h
    contradiction
  unfold marginalType
  cases hp : p.marginalTypes.get? t with
  | some σ => simp
  | none =>
    cases t with
    | cluster k => simp [hunknown]
    | «variable» x =>
      have hfilter : (g.oldestDeclared? x).filter (·.isGround) = g.declaredMarginal? x := rfl
      dsimp only
      rw [hfilter]
      cases hd : g.declaredMarginal? x with
      | some σ => simp [hd]
      | none => simp [hd, hunknown]

/-- A type that is not known is waited for. -/
theorem kind_of_marginalType {node : Node} {f : Failure} (hn : g.node n = .ok node)
    (h : p.marginalType g n t = .error f) : f.kind = .unresolvedMarginal := by
  have hunknown : ∀ {f}, marginalType.unknown g n t = .error f → f.kind = .unresolvedMarginal := by
    intro f h
    unfold marginalType.unknown at h
    rw [hn] at h
    cases h
    rfl
  unfold marginalType at h
  split at h
  · contradiction
  · split at h
    · contradiction
    · exact hunknown h
  · exact hunknown h

theorem sources_eq (h : ∀ k, q.clusters.get? k = p.clusters.get? k) :
    q.sources g = p.sources g := by
  have hkey : q.marginalKey g = p.marginalKey g := by
    funext n e
    unfold marginalKey
    rw [h]
  unfold sources sourceAt
  rw [hkey]

theorem Informs.sourceType {node : Node} (h : Informs g p q) (hn : g.node n = .ok node)
    (known : Table InterfaceId TypeTerm) (s : Source) :
    Approximates (p.sourceType g known n s) (q.sourceType g known n s) := by
  cases s with
  | nothing => exact .refl _
  | message i => exact .refl _
  | constant k => exact .refl _
  | marginal t =>
    change Approximates (p.marginalType g n t) (q.marginalType g n t)
    cases ht : p.marginalType g n t with
    | ok τ => exact Or.inl (h.types n t τ ht).symm
    | error f => exact Or.inr ⟨f, rfl, kind_of_marginalType hn ht⟩

theorem Informs.findings (h : Informs g p q) (internal : List EdgeId)
    (known : Table InterfaceId TypeTerm) (e : ScheduleEntry) :
    Approximates (e.findings ⟨g, c, p, internal⟩ known) (e.findings ⟨g, c, q, internal⟩ known) := by
  unfold ScheduleEntry.findings
  cases hn : g.node e.node with
  | error f => exact .refl _
  | ok node =>
    dsimp only
    rw [ok_bind, ok_bind]
    cases node.observed with
    | some value => exact .refl _
    | none =>
      dsimp only
      rw [sources_eq h.clusters]
      exact (Approximates.refl _).bind fun sources =>
        (Approximates.mapM (h.sourceType hn known) sources).bind fun _ => .refl _

/-- **With more knowledge a schedule comes to the same**, unless it waits. -/
theorem Informs.resolvedSchedule (h : Informs g p q) (b : Block) :
    Approximates (b.resolvedSchedule g c p) (b.resolvedSchedule g c q) := by
  have hentries : ∀ (l : List ScheduleEntry) known place,
      Approximates (resolvedEntries ⟨g, c, p, b.internal⟩ known place l)
        (resolvedEntries ⟨g, c, q, b.internal⟩ known place l) := by
    intro l
    induction l with
    | nil => exact fun _ _ => .refl _
    | cons e l ih =>
      exact fun known place => (h.findings b.internal known e).bind fun f =>
        (ih _ _).bind fun _ => .refl _
  exact hentries b.schedule ∅ 0

/-! ## Publishing -/

theorem get?_publish (types : Table Target TypeTerm) (m : MarginalEntry) (t : Target) :
    (m.publish types).get? t = ((m.publish ∅).get? t).or (types.get? t) := by
  unfold MarginalEntry.publish
  cases m.type with
  | none => rfl
  | some τ =>
    rw [Table.get?_insert, Table.get?_insert]
    split <;> rfl

/-- Publishing adds types to those that are there. -/
theorem get?_foldl_publish (l : List MarginalEntry) (types : Table Target TypeTerm) (t : Target) :
    (l.foldl MarginalEntry.publish types).get? t =
      ((l.foldl MarginalEntry.publish ∅).get? t).or (types.get? t) := by
  induction l generalizing types with
  | nil => rfl
  | cons m l ih =>
    rw [List.foldl_cons, List.foldl_cons, ih, ih (m.publish ∅), get?_publish, Option.or_assoc]

/-- What completing a block publishes comes before what is known already. -/
theorem get?_complete (p : Posterior) (d : Block) (t : Target) :
    (p.complete d).marginalTypes.get? t = (d.published.get? t).or (p.marginalTypes.get? t) :=
  get?_foldl_publish ..

end Posterior

/-! ## What a joint marginal reads -/

section Sources

variable {s : Surroundings} {known : Table InterfaceId TypeTerm} {place : Nat}
  {l l' : List ScheduleEntry} {e : ScheduleEntry} {p : Posterior} {g : Graph}
  {internal : List EdgeId} {n : NodeId} {out : Option InterfaceId} {r r' : RuleType}
  {i j : InterfaceId} {t : Target}

/-- Something is found out about every entry of a schedule that is resolved. -/
theorem exists_findings (h : resolvedEntries s known place l = .ok l') (he : e ∈ l) :
    ∃ known f, e.findings s known = .ok f := by
  induction l generalizing known place l' with
  | nil => exact absurd he List.not_mem_nil
  | cons x l ih =>
    obtain ⟨f, hf, h⟩ := bind_eq_ok.mp h
    obtain ⟨l'', hl, -⟩ := bind_eq_ok.mp h
    rcases List.mem_cons.mp he with rfl | he
    · exact ⟨known, f, hf⟩
    · exact ih hl he

/-- The types of the marginals that an entry reads are known, if something is found out about it. -/
theorem ScheduleEntry.of_findings {node : Node} {f : Finding} (h : e.findings s known = .ok f)
    (hn : s.graph.node e.node = .ok node) (hclamp : node.observed = none) :
    ∃ sources, s.posterior.sources s.graph s.internal e.node (some e.interface) e.ruleType =
        .ok sources ∧
      ∀ t, .marginal t ∈ sources → ∃ τ, s.posterior.marginalType s.graph e.node t = .ok τ := by
  unfold ScheduleEntry.findings at h
  rw [hn, ok_bind, hclamp] at h
  obtain ⟨sources, hsources, h⟩ := bind_eq_ok.mp h
  obtain ⟨types, htypes, -⟩ := bind_eq_ok.mp h
  refine ⟨sources, hsources, fun t ht => ?_⟩
  obtain ⟨τ, -, hτ⟩ := exists_mem_of_mapM htypes ht
  exact ⟨τ, hτ⟩

namespace Posterior

/-- An update reads a marginal through an edge outside the block. -/
theorem not_mem_of_sourceAt (h : p.sourceAt g internal n out r j = .ok (.marginal t)) {e : EdgeId}
    (he : g.edgeAt? j = some e) : e ∉ internal := by
  obtain ⟨f, hf, hout⟩ := outside_of_sourceAt h trivial
  cases he.symm.trans hf
  exact hout

/-- Only at the interface whose message it computes may an update read something else than a joint
marginal does. -/
theorem sourceAt_of_ne (h : j ≠ i) :
    p.sourceAt g internal n (some i) r j = p.sourceAt g internal n none r' j := by
  unfold sourceAt
  have hi : decide (some i = some j) = false := by simpa using h.symm
  have hnone : decide (none = some j) = false := by simp
  rw [hi, hnone]
  rfl

/-- The marginals that a joint marginal at a node reads are read by every message that the node
sends along an edge of the block. -/
theorem mem_sources_of_joint {l l' : List Source}
    (h : p.sources g internal n none r' = .ok l)
    (h' : p.sources g internal n (some i) r = .ok l') {e : EdgeId} (he : g.edgeAt? i = some e)
    (hin : e ∈ internal) (ht : .marginal t ∈ l) : .marginal t ∈ l' := by
  obtain ⟨node, hn, h⟩ := bind_eq_ok.mp h
  obtain ⟨node', hn', h'⟩ := bind_eq_ok.mp h'
  cases hn.symm.trans hn'
  obtain ⟨j, hj, hs⟩ := exists_of_mem_mapM h ht
  obtain ⟨s, hs', hsj⟩ := exists_mem_of_mapM h' hj
  have hji : j ≠ i := by
    rintro rfl
    exact not_mem_of_sourceAt hs he hin
  have hsame : p.sourceAt g internal n (some i) r j = p.sourceAt g internal n none r' j :=
    sourceAt_of_ne hji
  rw [hsame, hs] at hsj
  cases hsj
  exact hs'

end Posterior

end Sources

namespace Block

variable {b : Block} {g : Graph} {c : Catalogue} {p : Posterior} {sites : List InterfaceId}
  {x : Cluster}

/-- A message leaves the node of a cluster along an edge of the block. -/
theorem Prepared.exists_entry (h : b.Prepared g sites) (hb : b.MadeFor g) (hg : g.Coherent)
    (hx : x ∈ b.clusters) : ∃ e ∈ b.schedule, e.node = x.node ∧
      ∃ f, g.edgeAt? e.interface = some f ∧ f ∈ b.internal := by
  obtain ⟨f, hfx, hin⟩ := hb.exists_mem_of_mem_clusters hx
  obtain ⟨hedges, hscope⟩ := hb.of_mem_clusters hx
  rw [hedges] at hfx
  have hat := (List.mem_filter.mp hfx).1
  obtain ⟨i, hi, hf⟩ := List.mem_filterMap.mp hat
  -- the variable of the edge is in scope, so that its ends are scheduled
  obtain ⟨v, hv⟩ := hg.exists_owner_of_edgeAt hf
  have htarget : i ∈ b.outline.targets g := mem_targets hg hf hv (hscope f hat hin v hv)
  obtain ⟨b₁, hs, horder, -⟩ := h.planned.exists_schedule
  obtain ⟨e, he, rfl⟩ := List.mem_map.mp (horder ▸ (sufficient_order hg hs).targets i htarget)
  obtain ⟨-, n, hn, hen, -⟩ := h.planned.exists_node hg he
  refine ⟨e, he, ?_, f, hf, hin⟩
  -- the entry is one of the node that the interface was made for
  obtain ⟨m, hm⟩ := Graph.exists_of_mem_interfacesOf hi
  rw [Graph.interfacesOf_of_some hm] at hi
  obtain ⟨y, hy, hym⟩ := hg.interface_of_node hm hi
  unfold Graph.nodeOf? at hn
  rw [hy, Option.bind_some, hym, hm] at hn
  cases hn
  rw [← hg.node_id (Graph.node_eq_ok.mp hen), hg.node_id hm]

/-- No observed value is at a cluster. -/
theorem MadeFor.observed_of_mem_clusters (hb : b.MadeFor g) (hg : g.ObservedAtOnePlace)
    (hx : x ∈ b.clusters) {node : Node} (hn : g.node x.node = .ok node) : node.observed = none := by
  have hlength := hb.length_of_mem_clusters hx
  rw [(hb.of_mem_clusters hx).1] at hlength
  have hinterfaces := Graph.interfacesOf_of_some (Graph.node_eq_ok.mp hn)
  have hle : (g.clusterEdges x.node b.internal).length ≤ node.interfaces.length := by
    rw [← hinterfaces]
    exact (List.length_filter_le _ _).trans (List.length_filterMap_le _ _)
  by_contra hobserved
  have hone := hg (Graph.node_eq_ok.mp hn) (Option.isSome_iff_ne_none.mpr hobserved)
  omega

/-- **What a joint marginal reads is known once the schedule is resolved.** -/
theorem Prepared.marginalType_of_resolved (h : b.Prepared g sites) (hb : b.MadeFor g)
    (hg : g.Clamped) {l : List ScheduleEntry} (hl : b.resolvedSchedule g c p = .ok l)
    {m : MarginalEntry} (hm : m ∈ b.marginalTable) {n : NodeId} {messages : List InterfaceId}
    (hplan : m.plan = .joint n messages) {sources : List Source}
    (hsources : p.sources g b.internal n none .jointMarginal = .ok sources) {t : Target}
    (ht : .marginal t ∈ sources) : ∃ τ, p.marginalType g n t = .ok τ := by
  obtain ⟨x, hx, rfl, -⟩ := h.exists_cluster hm hplan
  obtain ⟨e, he, hnode, f, hf, hin⟩ := h.exists_entry hb hg.built.coherent hx
  obtain ⟨known, o, ho⟩ := exists_findings hl he
  obtain ⟨node, hn, -⟩ := bind_eq_ok.mp hsources
  obtain ⟨sources', hsources', hknown⟩ := ScheduleEntry.of_findings ho (hnode ▸ hn)
    (hb.observed_of_mem_clusters hg.observedAtOnePlace hx hn)
  rw [hnode] at hsources' hknown
  exact hknown t (Posterior.mem_sources_of_joint hsources hsources' hf hin ht)

end Block

/-! ## Completion with more knowledge -/

section Completion

variable {g : Graph} {c : Catalogue} {p q : Posterior} {b : Block} {l : List MarginalEntry}
  {n : NodeId} {t : Target}

/-- What is published last counts. -/
theorem Posterior.marginalType_publish (p : Posterior) (m : MarginalEntry) :
    (p.publish m).marginalType g n t =
      match (m.publish ∅).get? t with
      | some τ => .ok τ
      | none => p.marginalType g n t := by
  have hget : (p.publish m).marginalTypes.get? t = _ := Posterior.get?_publish p.marginalTypes m t
  unfold Posterior.marginalType
  rw [hget]
  cases (m.publish ∅).get? t <;> rfl

/-- Settling marginals comes to the same if the joint ones among them read the same types. -/
theorem settledEntries_eq (hclusters : ∀ k, q.clusters.get? k = p.clusters.get? k)
    (htypes : ∀ m ∈ l, ∀ n messages, m.plan = .joint n messages → ∀ sources,
      p.sources g b.internal n none .jointMarginal = .ok sources → ∀ t, .marginal t ∈ sources →
        q.marginalType g n t = p.marginalType g n t) :
    settledEntries g c b q l = settledEntries g c b p l := by
  induction l generalizing p q with
  | nil => rfl
  | cons m l ih =>
    obtain ⟨hm, hl⟩ := List.forall_mem_cons.mp htypes
    have hf : m.settlement (b.surroundings g c q) b = m.settlement (b.surroundings g c p) b := by
      unfold MarginalEntry.settlement
      cases hplan : m.plan with
      | copy i => rfl
      | product i j => rfl
      | joint n messages =>
        change (g.node n >>= fun node => q.sources g b.internal n none .jointMarginal >>= _) =
          (g.node n >>= fun node => p.sources g b.internal n none .jointMarginal >>= _)
        rw [Posterior.sources_eq hclusters]
        refine bind_congr fun node => ?_
        cases hs : p.sources g b.internal n none .jointMarginal with
        | error f => rfl
        | ok sources =>
          rw [ok_bind, ok_bind]
          congr 1
          refine mapM_congr fun s hs' => ?_
          cases s with
          | marginal t => exact hm n messages hplan sources hs t hs'
          | nothing => rfl
          | message i => rfl
          | constant k => rfl
    rw [settledEntries, settledEntries, hf]
    refine bind_congr fun f => ?_
    dsimp only
    rw [ih (p := p.publish (m.settledBy f)) (q := q.publish (m.settledBy f)) hclusters]
    intro m' hm' n messages hplan sources hsources t ht
    rw [Posterior.marginalType_publish, Posterior.marginalType_publish,
      hl m' hm' n messages hplan sources hsources t ht]

/-- **A block whose schedule is resolved is completed in the same way with more knowledge.** -/
theorem Posterior.Informs.completed (h : Informs g p q) (hg : g.Clamped) {sites : List InterfaceId}
    (hprepared : b.Prepared g sites) (hb : b.MadeFor g) {l : List ScheduleEntry}
    (hl : b.resolvedSchedule g c p = .ok l) : b.completed g c q = b.completed g c p := by
  unfold Block.completed
  rw [hl, (h.resolvedSchedule b).eq_of_ok hl, ok_bind, ok_bind]
  cases hd : b.seeded g l with
  | error f => rfl
  | ok d =>
    have hinternal : d.internal = b.internal := by
      rw [Block.internal_of_skeleton (Block.of_seeded hd).1]
      rfl
    rw [ok_bind, ok_bind, settledEntries_eq h.clusters]
    intro m hm n messages hplan sources hsources t ht
    rw [hinternal] at hsources
    obtain ⟨τ, hτ⟩ := hprepared.marginalType_of_resolved hb hg hl hm hplan hsources ht
    rw [hτ, h.types n t τ hτ]

end Completion

end MessagePassing
