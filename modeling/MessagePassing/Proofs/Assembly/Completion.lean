import MessagePassing.Proofs.Assembly.Leftovers
import MessagePassing.Proofs.Assembly.Resolution

/-!
# What an attempt to assemble a block comes to

An attempt to assemble a block starts over from its schedule, but it works in place, on what earlier
attempts have left. Nothing of that matters: what the attempt comes to is a function of the skeleton
of the block and of what the blocks share.

* `Block.readied` is what the marginals find: the schedule is resolved and the seeds are laid.
* `Block.completed` is the function. It follows the attempt in its three parts: the schedule, the
  seeds and the marginal table.

Results:
* `Posterior.finish_assemble_of`: an attempt readies the block and settles its marginals.
* **`Posterior.finish_assemble`**: an attempt on a clean block succeeds just when it can be
  completed, with the completed block, and publishes its marginal types.
-/

namespace MessagePassing

open Attempt (Keeps success finish_get_bind finish_set_bind finish_modify_bind
  finish_liftM_bind finish_ofExcept_bind finish_bind)

/-! ## Entries of the schedule -/

/-- What the resolution of an entry finds out. -/
inductive Finding where
  /-- An observed value. -/
  | observed (value : Tensor)
  /-- Where the arguments come from, their types, and the rule. -/
  | rule (sources : List Source) (types : List TypeTerm) (r : Resolution)

namespace ScheduleEntry

/-- What the resolution of an entry finds out, given the types of the messages before it. -/
def findings (s : Surroundings) (known : Table InterfaceId TypeTerm) (e : ScheduleEntry) :
    Except Failure Finding := do
  let node ← s.graph.node e.node
  match node.observed with
  | some value => return .observed value
  | none =>
    let sources ← s.posterior.sources s.graph s.internal e.node (some e.interface) e.ruleType
    let types ← sources.mapM (s.posterior.sourceType s.graph known e.node)
    return .rule sources types (← s.catalogue.resolve (e.bare.request node types))

/-- The entry at a place of the order of execution, with what has been found out. -/
def filled (place : Nat) (e : ScheduleEntry) : Finding → ScheduleEntry
  | .observed value => { e.bare with order := some place }.observed value
  | .rule sources types r =>
    { e.bare with order := some place, inbounds := sources, inboundTypes := types }.resolved r

variable {s : Surroundings} {known : Table InterfaceId TypeTerm} {place : Nat} {e : ScheduleEntry}

/-- The resolution of a clean entry fills in what it finds out. -/
theorem finish_infer (he : e.Clean s.graph) (hseed : e.seed = none) :
    (ScheduleEntry.infer s known place).finish e =
      e.findings s known >>= fun f => .ok ((), e.filled place f) := by
  unfold ScheduleEntry.infer findings
  rw [finish_modify_bind, finish_get_bind, finish_liftM_bind, bind_assoc]
  cases hn : s.graph.node e.node with
  | error f => rfl
  | ok node =>
    obtain ⟨hc, hm, ho⟩ := he
    replace ho := ho node hn
    obtain ⟨i, n, j, t, constraint, method, types, out, approximation, rule, oneByOne, inbounds,
      order, seed⟩ := e
    obtain rfl : constraint = none := hc
    obtain rfl : method = none := hm
    obtain rfl : seed = none := hseed
    change Attempt.finish (match node.observed with | some _ => _ | none => _) _ =
      (match node.observed with | some _ => _ | none => _) >>= _
    cases hv : node.observed with
    | some value =>
      obtain ⟨rfl, rfl⟩ : approximation = none ∧ oneByOne = false := ho (by simp [Node.isClamp, hv])
      rfl
    | none =>
      dsimp only
      rw [finish_liftM_bind, bind_assoc]
      congr 1
      funext sources
      rw [finish_modify_bind, finish_ofExcept_bind, bind_assoc]
      congr 1
      funext types
      rw [finish_modify_bind, finish_liftM_bind, bind_assoc]
      rfl

end ScheduleEntry

/-- What the resolution of a list of entries comes to. -/
def resolvedEntries (s : Surroundings) (known : Table InterfaceId TypeTerm) (place : Nat) :
    List ScheduleEntry → Except Failure (List ScheduleEntry)
  | [] => .ok []
  | e :: l => do
    let e := e.filled place (← e.findings s known)
    return e :: (← resolvedEntries s (e.learn known) (place + 1) l)

section Entries

variable {s : Surroundings} {known : Table InterfaceId TypeTerm} {place : Nat}
  {l : List ScheduleEntry}

/-- A list of entries is resolved one by one, each with the types of the messages before it. -/
theorem success_inferEntries_cons {e : ScheduleEntry} :
    success (inferEntries s known place (e :: l)) =
      (ScheduleEntry.infer s known place).finish e >>= fun r =>
        success (inferEntries s (r.2.learn known) (place + 1) l) >>= fun r' =>
          .ok ((), r.2 :: r'.2) := by
  rw [inferEntries]
  unfold Attempt.finish
  cases ScheduleEntry.infer s known place e with
  | error f e' => rfl
  | ok _ e' =>
    change _ = success (inferEntries s (e'.learn known) (place + 1) l) >>= _
    unfold ScheduleEntry.learn
    dsimp only
    cases inferEntries s _ (place + 1) l <;> rfl

theorem success_inferEntries (hl : ∀ e ∈ l, e.Clean s.graph ∧ e.seed = none) :
    success (inferEntries s known place l) =
      resolvedEntries s known place l >>= fun l => .ok ((), l) := by
  induction l generalizing known place with
  | nil => rfl
  | cons e l ih =>
    obtain ⟨⟨he, hseed⟩, hl⟩ := List.forall_mem_cons.mp hl
    rw [success_inferEntries_cons, ScheduleEntry.finish_infer he hseed, resolvedEntries, bind_assoc,
      bind_assoc]
    refine bind_congr fun f => ?_
    rw [ok_bind, ih hl, bind_assoc, bind_assoc]
    rfl

end Entries

/-! ## Marginals -/

/-- What settling a marginal comes to. -/
structure Settlement where
  /-- Where the arguments come from. -/
  inbounds : List Source
  /-- The type of the marginal. -/
  type : TypeTerm
  /-- The rule; a copy has none. -/
  rule : Option Rule

namespace MarginalEntry

/-- What settling a marginal of a block comes to. -/
def settlement (s : Surroundings) (b : Block) (m : MarginalEntry) : Except Failure Settlement :=
  match m.plan with
  | .copy i => do
    let e ← b.scheduled s.graph i
    s.graph.checkDeclared m.target.id (Block.outboundType e)
    return ⟨[.message i], Block.outboundType e, none⟩
  | .product i j => do
    let first ← b.scheduled s.graph i
    let second ← b.scheduled s.graph j
    let r ← s.catalogue.resolveMarginal s.graph m.target.id (Block.outboundType first)
      (Block.outboundType second)
    return ⟨(if r.swapped then [j, i] else [i, j]).map .message, r.outbound, some r.rule⟩
  | .joint n _ => do
    let node ← s.graph.node n
    let sources ← s.posterior.sources s.graph s.internal n none .jointMarginal
    let types ← sources.mapM (s.posterior.sourceType s.graph (messageTypes b.schedule) n)
    let r ← s.catalogue.resolve
      { key := ⟨node.kind, .jointMarginal, none⟩, inbounds := types, node := some node }
    return ⟨sources, r.outbound, some r.rule⟩

/-- The marginal once it is settled. -/
def settledBy (m : MarginalEntry) (f : Settlement) : MarginalEntry :=
  { m.bare with type := some f.type, rule := f.rule, inbounds := f.inbounds, published := true }

variable {s : Surroundings} {b : Block} {m : MarginalEntry}

/-- Settling a clean marginal puts in what it comes to. -/
theorem finish_settle (hm : m.Clean) :
    (MarginalEntry.settle s b).finish m = m.settlement s b >>= fun f =>
      .ok (f.type, { m.settledBy f with published := m.published }) := by
  obtain ⟨target, plan, type, rule, inbounds, published⟩ := m
  unfold MarginalEntry.settle settlement
  rw [finish_get_bind]
  cases plan with
  | copy i =>
    obtain rfl : rule = none := hm i rfl
    dsimp only
    rw [finish_liftM_bind, bind_assoc]
    congr 1
    funext e
    rw [finish_set_bind, finish_liftM_bind, bind_assoc]
    rfl
  | product i j =>
    dsimp only
    rw [finish_liftM_bind, bind_assoc]
    congr 1
    funext first
    rw [finish_liftM_bind, bind_assoc]
    congr 1
    funext second
    rw [finish_liftM_bind, bind_assoc]
    rfl
  | joint n l =>
    dsimp only
    rw [finish_liftM_bind, bind_assoc]
    congr 1
    funext node
    rw [finish_liftM_bind, bind_assoc]
    congr 1
    funext sources
    rw [finish_ofExcept_bind, bind_assoc]
    congr 1
    funext types
    rw [finish_liftM_bind, bind_assoc]
    rfl

/-- The types of marginals after one more is published. -/
def publish (types : Table Target TypeTerm) (m : MarginalEntry) : Table Target TypeTerm :=
  match m.type with
  | some t => types.insert m.target t
  | none => types

end MarginalEntry

/-- A posterior after one more marginal is published. -/
def Posterior.publish (p : Posterior) (m : MarginalEntry) : Posterior :=
  { p with marginalTypes := m.publish p.marginalTypes }

/-- What settling a list of marginals of a block comes to, each type being published before the next
one is settled. -/
def settledEntries (g : Graph) (c : Catalogue) (b : Block) (p : Posterior) :
    List MarginalEntry → Except Failure (List MarginalEntry)
  | [] => .ok []
  | m :: l => do
    let m := m.settledBy (← m.settlement (b.surroundings g c p) b)
    return m :: (← settledEntries g c b (p.publish m) l)

section Marginals

variable {g : Graph} {c : Catalogue} {b : Block} {p : Posterior} {l : List MarginalEntry}

/-- A list of marginals is settled one by one, each after the types of those before it are
published. -/
theorem success_settleEntries_cons {m : MarginalEntry} :
    success (settleEntries g c b p (m :: l)) =
      (MarginalEntry.settle (b.surroundings g c p) b).finish m >>= fun r =>
        success (settleEntries g c b
          { p with marginalTypes := p.marginalTypes.insert r.2.target r.1 } l) >>= fun r' =>
            .ok ((), { r.2 with published := true } :: r'.2.1, r'.2.2) := by
  rw [settleEntries]
  unfold Attempt.finish
  cases MarginalEntry.settle (b.surroundings g c p) b m with
  | error f m' => rfl
  | ok t m' =>
    change _ = success (settleEntries g c b
      { p with marginalTypes := p.marginalTypes.insert m'.target t } l) >>= _
    dsimp only
    cases settleEntries g c b
      { p with marginalTypes := p.marginalTypes.insert m'.target t } l <;> rfl

theorem success_settleEntries (hl : ∀ m ∈ l, m.Clean) :
    success (settleEntries g c b p l) = settledEntries g c b p l >>= fun l =>
      .ok ((), l, { p with marginalTypes := l.foldl MarginalEntry.publish p.marginalTypes }) := by
  induction l generalizing p with
  | nil => rfl
  | cons m l ih =>
    obtain ⟨hm, hl⟩ := List.forall_mem_cons.mp hl
    rw [success_settleEntries_cons, MarginalEntry.finish_settle hm, settledEntries, bind_assoc,
      bind_assoc]
    refine bind_congr fun f => ?_
    rw [ok_bind]
    change success (settleEntries g c b (p.publish (m.settledBy f)) l) >>= _ = _
    rw [ih hl, bind_assoc, bind_assoc]
    rfl

end Marginals

/-! ## Completed blocks -/

namespace Block

/-- The block with other entries in its schedule. -/
def withEntries (b : Block) (l : List ScheduleEntry) : Block :=
  { b with schedule := l }

/-- The block with other marginals in its table. -/
def withMarginals (b : Block) (l : List MarginalEntry) : Block :=
  { b with marginalTable := l }

/-- The resolved schedule of a block, if it can be resolved. -/
def resolvedSchedule (g : Graph) (c : Catalogue) (p : Posterior) (b : Block) :
    Except Failure (List ScheduleEntry) :=
  resolvedEntries (b.surroundings g c p) ∅ 0 b.schedule

/-- A block with seeds in a resolved schedule, if they can be laid. -/
def seeded (g : Graph) (b : Block) (l : List ScheduleEntry) : Except Failure Block :=
  (designateSeeds g).finish (b.skeleton.withEntries l).index >>= fun r => .ok r.2

/-- The block with a resolved schedule, its seeds and a settled marginal table, if it can be
completed. -/
def completed (g : Graph) (c : Catalogue) (p : Posterior) (b : Block) : Except Failure Block := do
  let d ← b.seeded g (← b.resolvedSchedule g c p)
  return d.withMarginals (← settledEntries g c d p b.marginalTable)

/-- The types of the marginals of a block. -/
def published (b : Block) : Table Target TypeTerm :=
  b.marginalTable.foldl MarginalEntry.publish ∅

variable {g : Graph} {c : Catalogue} {p q : Posterior} {b b' : Block}

theorem resolvedEntries_bare (s : Surroundings) (known : Table InterfaceId TypeTerm) (place : Nat)
    (l : List ScheduleEntry) :
    resolvedEntries s known place (l.map (·.bare)) = resolvedEntries s known place l := by
  induction l generalizing known place with
  | nil => rfl
  | cons e l ih =>
    rw [List.map_cons, resolvedEntries, resolvedEntries]
    refine bind_congr fun f => ?_
    dsimp only
    rw [ih]
    cases f <;> rfl

theorem settledEntries_bare (l : List MarginalEntry) :
    settledEntries g c b p (l.map (·.bare)) = settledEntries g c b p l := by
  induction l generalizing p with
  | nil => rfl
  | cons m l ih =>
    rw [List.map_cons, settledEntries, settledEntries]
    refine bind_congr fun f => ?_
    dsimp only
    rw [ih]
    rfl

/-- **What a block is completed to is told by its skeleton.** -/
theorem completed_of_skeleton (h : b'.skeleton = b.skeleton) :
    b'.resolvedSchedule g c p = b.resolvedSchedule g c p ∧
      b'.completed g c p = b.completed g c p := by
  have hl : b'.schedule.map (·.bare) = b.schedule.map (·.bare) := congrArg Block.schedule h
  have ht : b'.marginalTable.map (·.bare) = b.marginalTable.map (·.bare) :=
    congrArg Block.marginalTable h
  have hschedule : b'.resolvedSchedule g c p = b.resolvedSchedule g c p := by
    unfold resolvedSchedule surroundings
    rw [internal_of_skeleton h, ← resolvedEntries_bare, hl, resolvedEntries_bare]
  refine ⟨hschedule, ?_⟩
  unfold completed seeded
  rw [hschedule, h]
  refine bind_congr fun l => bind_congr fun d => ?_
  rw [← settledEntries_bare b'.marginalTable, ht, settledEntries_bare]

end Block

/-! ## What an attempt comes to -/

section Congruence

variable {s : Surroundings} {p q : Posterior} {g : Graph} {c : Catalogue}

/-- The resolution of an entry depends only on what the blocks share. -/
theorem ScheduleEntry.infer_congr (hs : q.sources = s.posterior.sources)
    (ht : q.sourceType = s.posterior.sourceType) (known : Table InterfaceId TypeTerm)
    (place : Nat) :
    ScheduleEntry.infer { s with posterior := q } known place =
      ScheduleEntry.infer s known place := by
  unfold ScheduleEntry.infer
  dsimp only
  rw [hs, ht]

theorem inferEntries_congr (hs : q.sources = s.posterior.sources)
    (ht : q.sourceType = s.posterior.sourceType) (known : Table InterfaceId TypeTerm) (place : Nat)
    (l : List ScheduleEntry) :
    inferEntries { s with posterior := q } known place l = inferEntries s known place l := by
  induction l generalizing known place with
  | nil => rfl
  | cons e l ih =>
    rw [inferEntries, inferEntries, ScheduleEntry.infer_congr hs ht]
    simp only [ih]

theorem Block.inferSchedule_congr (hs : q.sources = p.sources) (ht : q.sourceType = p.sourceType) :
    Block.inferSchedule g c q = Block.inferSchedule g c p := by
  funext b
  have h : inferEntries (b.surroundings g c q) ∅ 0 b.schedule =
      inferEntries (b.surroundings g c p) ∅ 0 b.schedule :=
    inferEntries_congr (s := b.surroundings g c p) hs ht ∅ 0 b.schedule
  unfold Block.inferSchedule
  rw [h]

/-- Settling marginals depends only on what the blocks share, and not on the marginals of the
block. -/
theorem settledEntries_congr (hclusters : q.clusters = p.clusters)
    (htypes : q.marginalTypes = p.marginalTypes) (b : Block) (table l : List MarginalEntry) :
    settledEntries g c (b.withMarginals table) q l = settledEntries g c b p l := by
  induction l generalizing p q with
  | nil => rfl
  | cons m l ih =>
    have hf : m.settlement ((b.withMarginals table).surroundings g c q) (b.withMarginals table) =
        m.settlement (b.surroundings g c p) b := by
      unfold MarginalEntry.settlement Block.surroundings Posterior.sources Posterior.sourceAt
        Posterior.marginalKey Posterior.sourceType Posterior.marginalType
      dsimp only
      rw [hclusters, htypes]
      rfl
    rw [settledEntries, settledEntries, hf]
    refine bind_congr fun f => ?_
    dsimp only
    rw [ih (p := p.publish (m.settledBy f)) (q := q.publish (m.settledBy f)) hclusters
      (congrArg (MarginalEntry.publish · (m.settledBy f)) htypes)]

end Congruence

namespace Block

variable {g : Graph} {c : Catalogue} {p : Posterior} {b : Block}

/-- The block as an attempt hands it over to its marginals, if it comes that far: the schedule is
resolved and the seeds are laid. -/
def readied (g : Graph) (c : Catalogue) (p : Posterior) (b : Block) : Except Failure Block := do
  let r ← (Block.inferSchedule g c p).finish b.restart
  let r ← (designateSeeds g).finish r.2.index
  return r.2

/-- Up to its marginals, an attempt keeps the skeleton and the marginal table. -/
theorem of_readied {d : Block} (h : b.readied g c p = .ok d) :
    d.skeleton = b.skeleton ∧ d.marginalTable = b.marginalTable := by
  have hinfer : Keeps (fun d : Block => d.skeleton = b.skeleton ∧
      d.marginalTable = b.marginalTable) (inferSchedule g c p) := by
    refine fun d hd => ⟨keeps_inferSchedule g c p _ d hd.1, ?_⟩
    rw [outcome_inferSchedule]
    exact hd.2
  have hseeds : Keeps (fun d : Block => d.skeleton = b.skeleton ∧
      d.marginalTable = b.marginalTable) (designateSeeds g) :=
    keeps_designateSeeds_of g (fun d x hd => ⟨(d.skeleton_lay x).trans hd.1, hd.2⟩) fun _ _ h => h
  obtain ⟨⟨_, d₁⟩, h₁, h⟩ := bind_eq_ok.mp h
  obtain ⟨⟨_, d₂⟩, h₂, h⟩ := bind_eq_ok.mp h
  cases pure_eq_ok.mp h
  have hd₁ := hinfer.of_ok ⟨b.skeleton_restart, rfl⟩ (Attempt.finish_eq_ok.mp h₁)
  exact hseeds.of_ok (s := d₁.index) hd₁ (Attempt.finish_eq_ok.mp h₂)

/-- Seeds make a difference only to the entries that they are laid for. -/
theorem of_seeded {d : Block} {l : List ScheduleEntry} (h : b.seeded g l = .ok d) :
    d.skeleton = (b.skeleton.withEntries l).skeleton ∧
      d.schedule.map ScheduleEntry.unseeded = l.map ScheduleEntry.unseeded := by
  obtain ⟨⟨_, d'⟩, hseeds, hd⟩ := bind_eq_ok.mp h
  cases hd
  replace hseeds := Attempt.finish_eq_ok.mp hseeds
  exact ⟨(keeps_designateSeeds g (b.skeleton.withEntries l).index.skeleton).of_ok rfl hseeds,
    (seeds_of_designateSeeds hseeds).1⟩

theorem id_of_completed {d : Block} (h : b.completed g c p = .ok d) : d.id = b.id := by
  obtain ⟨l, -, h⟩ := bind_eq_ok.mp h
  obtain ⟨d', hd, h⟩ := bind_eq_ok.mp h
  obtain ⟨table, -, h⟩ := bind_eq_ok.mp h
  cases pure_eq_ok.mp h
  have hid : d'.id = (b.skeleton.withEntries l).id :=
    id_of_outline (outline_of_skeleton (of_seeded hd).1)
  exact hid

/-- The marginal table has no part in the laying of seeds. -/
theorem finish_designateSeeds_withMarginals (b : Block) (table : List MarginalEntry) :
    (designateSeeds g).finish (b.withMarginals table) =
      (designateSeeds g).finish b >>= fun r => .ok ((), r.2.withMarginals table) := by
  have hlay : ∀ (l : List (Except Failure (Option Designation))) (b : Block),
      (layAll l).finish (b.withMarginals table) =
        (layAll l).finish b >>= fun r => .ok ((), r.2.withMarginals table) := by
    intro l
    induction l with
    | nil => exact fun _ => rfl
    | cons x l ih =>
      cases x with
      | error f => exact fun _ => rfl
      | ok o =>
        cases o with
        | none => exact ih
        | some d => exact fun b => ih (b.lay d)
  have hl := hlay (b.designations g) b
  have hdesignations : (b.withMarginals table).designations g = b.designations g := rfl
  unfold Attempt.finish designateSeeds at *
  rw [hdesignations]
  revert hl
  cases layAll (b.designations g) (b.withMarginals table) <;>
    cases layAll (b.designations g) b <;> intro hl <;> cases hl <;> rfl

/-- The resolution of a schedule changes the entries only. -/
theorem finish_inferSchedule (b : Block) : (Block.inferSchedule g c p).finish b =
    success (inferEntries (b.surroundings g c p) ∅ 0 b.schedule) >>= fun r =>
      .ok ((), b.withEntries r.2) := by
  unfold Attempt.finish Block.inferSchedule
  cases inferEntries (b.surroundings g c p) ∅ 0 b.schedule <;> rfl

/-- An attempt readies a block from its skeleton and its unseeded schedule. -/
theorem readied_eq (b : Block) : b.readied g c p =
    success (inferEntries (b.surroundings g c p) ∅ 0 b.restart.schedule) >>= fun r =>
      (designateSeeds g).finish
        ({ b.skeleton with schedule := r.2, runnable := b.runnable } : Block).index >>= fun r =>
          .ok (r.2.withMarginals b.marginalTable) := by
  unfold readied
  rw [finish_inferSchedule, bind_assoc]
  refine bind_congr fun r => ?_
  have hindex : (b.restart.withEntries r.2).index =
      ({ b.skeleton with schedule := r.2, runnable := b.runnable } : Block).index.withMarginals
        b.marginalTable := by
    have htargets : b.skeleton.marginalTable.map (·.target) = b.marginalTable.map (·.target) := by
      unfold skeleton
      rw [List.map_map]
      rfl
    unfold index restart withEntries
    dsimp only
    rw [htargets]
    rfl
  rw [ok_bind, hindex, finish_designateSeeds_withMarginals, bind_assoc]
  rfl

/-- A clean block is readied as its skeleton tells. -/
theorem readied_of_clean (hb : b.Clean g) : b.readied g c p =
    b.resolvedSchedule g c p >>= fun l => b.seeded g l >>= fun d =>
      .ok (d.withMarginals b.marginalTable) := by
  have hclean : ∀ e ∈ b.restart.schedule, e.Clean g ∧ e.seed = none := by
    intro e he
    obtain ⟨f, hf, rfl⟩ := List.mem_map.mp he
    obtain ⟨hc, hm, ho⟩ := hb.entries f hf
    exact ⟨⟨hc, hm, ho⟩, rfl⟩
  have hl : success (inferEntries (b.surroundings g c p) ∅ 0 b.restart.schedule) = _ :=
    success_inferEntries hclean
  have hbare : resolvedEntries (b.surroundings g c p) ∅ 0 b.restart.schedule =
      b.resolvedSchedule g c p :=
    (completed_of_skeleton b.skeleton_restart).1
  rw [readied_eq, hl, hbare, bind_assoc, hb.runnable]
  refine bind_congr fun l => ?_
  unfold seeded
  rw [bind_assoc]
  rfl

end Block

namespace Posterior

variable {g : Graph} {c : Catalogue} {id : String} {p q : Posterior} {b b' d : Block} {α β : Type}

theorem finish_onBlock {x : Posterior → Attempt Block α} (hb : p.blocks.get? id = some b) :
    (onBlock id x).finish p = (x p).finish b >>= fun r => .ok (r.1, p.putBlock r.2) := by
  unfold Attempt.finish onBlock
  rw [hb]
  dsimp only
  cases x p b <;> rfl

theorem finish_onBlock_bind {x : Posterior → Attempt Block α} {f : α → Attempt Posterior β}
    (hb : p.blocks.get? id = some b) : (onBlock id x >>= f).finish p =
      (x p).finish b >>= fun r => (f r.1).finish (p.putBlock r.2) := by
  rw [finish_bind, finish_onBlock hb, bind_assoc]
  rfl

theorem finish_replaceBlock_bind {h : Block → Except Failure Block}
    {f : Block → Attempt Posterior β} (hb : p.blocks.get? id = some b) :
    (replaceBlock id h >>= f).finish p =
      h b >>= fun b' => (f b').finish (p.putBlock b') := by
  rw [replaceBlock_eq, finish_onBlock_bind hb]
  unfold Attempt.finish replacement
  cases h b <;> rfl

/-- An attempt up to the marginal table. -/
def assembleSchedule (g : Graph) (c : Catalogue) (id : String) : Attempt Posterior Unit := do
  let _ ← replaceBlock id fun b => .ok b.restart
  modify (forgetPhases id)
  onBlock id fun p => Block.inferSchedule g c p
  let _ ← replaceBlock id fun b => .ok b.index
  onBlock id fun _ => Block.designateSeeds g

theorem assemble_eq :
    assemble g c id = assembleSchedule g c id >>= fun _ => settleMarginals g c id := by
  unfold assemble assembleSchedule
  simp only [bind_assoc]

theorem putBlock_putBlock (h : b.id = b'.id) : (p.putBlock b).putBlock b' = p.putBlock b' := by
  unfold putBlock
  dsimp only
  rw [h, Table.insert_insert]

/-- Up to the marginal table, an attempt readies the block, without a part of the other ones. -/
theorem finish_assembleSchedule_of (hb : p.blocks.get? id = some b) (hid : b.id = id) :
    (assembleSchedule g c id).finish p =
      b.readied g c p >>= fun d => .ok ((), (p.putBlock d).forgetPhases id) := by
  have hat : ∀ {r : Posterior} {d : Block}, d.id = id → (r.putBlock d).blocks.get? id = some d := by
    intro r d hd
    rw [get?_putBlock, if_pos hd]
  -- the posterior in which the schedule is resolved
  obtain ⟨r, hr⟩ : ∃ r, r = (p.putBlock b.restart).forgetPhases id := ⟨_, rfl⟩
  have hbr : r.blocks.get? id = some b.restart := by
    rw [hr]
    exact hat (r := p) hid
  have hinfer : Block.inferSchedule g c r = Block.inferSchedule g c p := by
    rw [hr]
    exact Block.inferSchedule_congr rfl rfl
  unfold assembleSchedule Block.readied
  rw [finish_replaceBlock_bind hb, ok_bind, finish_modify_bind, ← hr, finish_onBlock_bind hbr,
    hinfer, bind_assoc]
  cases hd₁ : (Block.inferSchedule g c p).finish b.restart with
  | error f => rfl
  | ok x =>
    obtain ⟨_, d₁⟩ := x
    have hid₁ : d₁.id = id := (Block.id_of_outline (Block.outline_of_skeleton
      ((Block.keeps_inferSchedule g c p b.restart.skeleton).of_ok rfl
        (Attempt.finish_eq_ok.mp hd₁)))).trans hid
    rw [ok_bind, ok_bind, finish_replaceBlock_bind (hat hid₁), ok_bind,
      finish_onBlock (hat (d := d₁.index) hid₁), bind_assoc]
    cases hd₂ : (Block.designateSeeds g).finish d₁.index with
    | error f => rfl
    | ok x =>
      obtain ⟨_, d⟩ := x
      have hid₂ : d.id = id := (Block.id_of_outline (Block.outline_of_skeleton
        ((Block.keeps_designateSeeds g d₁.index.skeleton).of_ok rfl
          (Attempt.finish_eq_ok.mp hd₂)))).trans hid₁
      have hput : ((r.putBlock d₁).putBlock d₁.index).putBlock d =
          (p.putBlock d).forgetPhases id := by
        rw [putBlock_putBlock (b := d₁.index) (hid₁.trans hid₂.symm),
          putBlock_putBlock (hid₁.trans hid₂.symm), hr]
        change ((p.putBlock b.restart).putBlock d).forgetPhases id = _
        rw [putBlock_putBlock (b := b.restart) (hid.trans hid₂.symm)]
      exact congrArg (fun q => (.ok ((), q) : Except Failure (Unit × Posterior))) hput

/-- Up to the marginal table, an attempt on a clean block resolves its schedule and lays its
seeds. -/
theorem finish_assembleSchedule (hb : p.blocks.get? id = some b) (hid : b.id = id)
    (hclean : b.Clean g) : (assembleSchedule g c id).finish p =
      b.resolvedSchedule g c p >>= fun l => b.seeded g l >>= fun d =>
        .ok ((), (p.putBlock (d.withMarginals b.marginalTable)).forgetPhases id) := by
  rw [finish_assembleSchedule_of hb hid, Block.readied_of_clean hclean]
  simp only [bind_assoc, ok_bind]

/-- A posterior with a completed block, the types of whose marginals are published. -/
def complete (p : Posterior) (b : Block) : Posterior :=
  { p with
    blocks := p.blocks.insert b.id b
    marginalTypes := b.marginalTable.foldl MarginalEntry.publish p.marginalTypes }

/-- The last part of an attempt: the marginal table. -/
theorem finish_settleMarginals (hb : q.blocks.get? id = some b)
    (hclean : ∀ m ∈ b.marginalTable, m.Clean) : (settleMarginals g c id).finish q =
      settledEntries g c b q b.marginalTable >>= fun l =>
        .ok ((), q.complete (b.withMarginals l)) := by
  have hl := success_settleEntries (g := g) (c := c) (b := b) (p := q) hclean
  unfold Attempt.finish settleMarginals
  rw [hb]
  dsimp only
  revert hl
  cases settleEntries g c b q b.marginalTable <;>
    cases settledEntries g c b q b.marginalTable <;> intro hl <;> cases hl <;> rfl

/-- **An attempt readies the block, settles its marginals and publishes them.** -/
theorem finish_assemble_of (hb : p.blocks.get? id = some b) (hid : b.id = id)
    (hclean : ∀ m ∈ b.marginalTable, m.Clean) : (assemble g c id).finish p =
      b.readied g c p >>= fun d => settledEntries g c d p b.marginalTable >>= fun l =>
        .ok ((), (p.complete (d.withMarginals l)).forgetPhases id) := by
  rw [assemble_eq, finish_bind, finish_assembleSchedule_of hb hid, bind_assoc]
  cases hd : b.readied g c p with
  | error f => rfl
  | ok d =>
    obtain ⟨hskeleton, htable⟩ := Block.of_readied hd
    have hid' : d.id = id := (Block.id_of_outline (Block.outline_of_skeleton hskeleton)).trans hid
    obtain ⟨r, hr⟩ : ∃ r, r = (p.putBlock d).forgetPhases id := ⟨_, rfl⟩
    have hbr : r.blocks.get? id = some d := by
      rw [hr]
      change (p.putBlock _).blocks.get? id = _
      rw [get?_putBlock, if_pos hid']
    rw [ok_bind, ok_bind, ok_bind, ← hr, finish_settleMarginals hbr (htable ▸ hclean), htable]
    have hsettled : settledEntries g c d r b.marginalTable =
        settledEntries g c d p b.marginalTable :=
      settledEntries_congr (p := p) (by rw [hr]; rfl) (by rw [hr]; rfl) d d.marginalTable _
    rw [hsettled]
    refine bind_congr fun table => ?_
    have hcomplete : r.complete (d.withMarginals table) =
        (p.complete (d.withMarginals table)).forgetPhases id := by
      rw [hr]
      unfold complete putBlock forgetPhases
      dsimp only
      rw [show d.id = (d.withMarginals table).id from rfl, Table.insert_insert]
    exact congrArg (fun q => (.ok ((), q) : Except Failure (Unit × Posterior))) hcomplete

/-- **An attempt on a clean block succeeds just when the block can be completed**, with the
completed block. -/
theorem finish_assemble (hb : p.blocks.get? id = some b) (hid : b.id = id) (hclean : b.Clean g) :
    (assemble g c id).finish p =
      b.completed g c p >>= fun d => .ok ((), (p.complete d).forgetPhases id) := by
  rw [finish_assemble_of hb hid hclean.marginals, Block.readied_of_clean hclean]
  unfold Block.completed
  simp only [bind_assoc, ok_bind]
  refine bind_congr fun l => bind_congr fun d => ?_
  rw [settledEntries_congr rfl rfl]
  rfl

end Posterior

end MessagePassing
