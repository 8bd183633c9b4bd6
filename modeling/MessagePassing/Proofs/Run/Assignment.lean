import MessagePassing.Proofs.Run.Agreement

/-!
# Messages are sent before they are read

A list of updates is assigned if every update reads only messages that the updates before it are
sure to have sent. That is seen from the compiled blocks alone. A run of such updates never reads a
message that was not sent, however often it fails and goes on, because a seed that is no longer to
be laid has been laid in the same run.

Results:
* `covered_of_assigned`: what assigned updates read has been sent.
* `assigned_actions`: the updates of a compiled block are assigned.
* **`Posterior.covered_of_compile`**: in every run of a compiled posterior, a message that is read
  has been sent before by the same block, and what was there before the run does not show.
-/

namespace MessagePassing

open Attempt (Keeps)

/-! ## Assigned updates -/

/-- What an update is sure to have sent once it has succeeded, now or earlier in the run. -/
def Action.gives : Action → List Access
  | lay id e => if e.seed.isSome then [.write id e.interface] else []
  | replay id e => [.write id e.interface]
  | publish _ _ => []

/-- Every update reads only what is known to be sent before it. -/
def Assigned (known : List Access) : List Action → Prop
  | [] => True
  | a :: l => (∀ i ∈ a.reads, .write a.block i ∈ known) ∧ Assigned (known ++ a.gives) l

section Assigned

variable {known known' : List Access} {l l' : List Action} {id : String}

theorem Assigned.mono (h : Assigned known l) (hk : known ⊆ known') : Assigned known' l := by
  induction l generalizing known known' with
  | nil => trivial
  | cons a l ih =>
    refine ⟨fun i hi => hk (h.1 i hi), ih h.2 fun x hx => ?_⟩
    rcases List.mem_append.mp hx with hx | hx
    · exact List.mem_append_left _ (hk hx)
    · exact List.mem_append_right _ hx

theorem assigned_append :
    Assigned known (l ++ l') ↔
      Assigned known l ∧ Assigned (known ++ l.flatMap Action.gives) l' := by
  induction l generalizing known with
  | nil => simp [Assigned]
  | cons a l ih =>
    rw [List.cons_append, Assigned, Assigned, ih, List.flatMap_cons, List.append_assoc, and_assoc]

theorem assigned_flatMap {α : Type} {f : α → List Action} {l : List α}
    (h : ∀ a ∈ l, Assigned [] (f a)) : Assigned known (l.flatMap f) := by
  induction l generalizing known with
  | nil => trivial
  | cons a l ih =>
    rw [List.flatMap_cons, assigned_append]
    exact ⟨(h a List.mem_cons_self).mono (List.nil_subset _),
      ih fun b hb => h b (List.mem_cons_of_mem _ hb)⟩

/-- Seeds read nothing. -/
theorem assigned_lay (l : List ScheduleEntry) : Assigned known (l.map (.lay id)) := by
  induction l generalizing known with
  | nil => trivial
  | cons e l ih => exact ⟨fun _ h => absurd h List.not_mem_nil, ih⟩

theorem assigned_replay {l : List ScheduleEntry}
    (h : ∀ pre e post, l = pre ++ e :: post → ∀ i ∈ messagesOf e.inbounds,
      i ∈ pre.map (·.interface) ∨ .write id i ∈ known) :
    Assigned known (l.map (.replay id)) := by
  induction l generalizing known with
  | nil => trivial
  | cons e l ih =>
    refine ⟨fun i hi => (h [] e l rfl i hi).resolve_left List.not_mem_nil,
      ih fun pre f post hl i hi => ?_⟩
    rcases h (e :: pre) f post (by rw [hl, List.cons_append]) i hi with hpre | hknown
    · rcases List.mem_cons.mp hpre with rfl | hpre
      · exact Or.inr (List.mem_append_right _ (List.mem_singleton_self _))
      · exact Or.inl hpre
    · exact Or.inr (List.mem_append_left _ hknown)

theorem assigned_publish {l : List MarginalEntry}
    (h : ∀ m ∈ l, ∀ i ∈ messagesOf m.inbounds, .write id i ∈ known) :
    Assigned known (l.map (.publish id)) := by
  induction l generalizing known with
  | nil => trivial
  | cons m l ih =>
    refine ⟨h m List.mem_cons_self, ih fun m' hm i hi => ?_⟩
    exact List.mem_append_left _ (h m' (List.mem_cons_of_mem _ hm) i hi)

/-- **The updates of a compiled block are assigned.** -/
theorem assigned_actions {b : Block} {g : Graph} (h : b.Wired g) : Assigned [] b.actions := by
  have hlay : Assigned [] (if b.needsSeeds then b.schedule.map (.lay b.id) else []) := by
    split
    · exact assigned_lay _
    · trivial
  have hseeded : ∀ i, b.Seeded i → Access.write b.id i ∈
      (if b.needsSeeds then b.schedule.map (.lay b.id) else []).flatMap Action.gives := by
    rintro _ ⟨e, he, rfl, hs⟩
    have hneeds : b.needsSeeds = true := by
      rw [h.needsSeeds, List.any_eq_true]
      exact ⟨e, he, hs⟩
    rw [if_pos hneeds]
    refine List.mem_flatMap.mpr ⟨_, List.mem_map_of_mem he, ?_⟩
    change _ ∈ if e.seed.isSome then _ else _
    rw [if_pos hs]
    exact List.mem_singleton_self _
  have horder : ∀ i ∈ b.order, Access.write b.id i ∈
      (b.schedule.map (Action.replay b.id)).flatMap Action.gives := by
    intro i hi
    obtain ⟨e, he, rfl⟩ := List.mem_map.mp hi
    exact List.mem_flatMap.mpr ⟨_, List.mem_map_of_mem he, List.mem_singleton_self _⟩
  unfold Block.actions
  rw [assigned_append, assigned_append]
  refine ⟨⟨hlay, assigned_replay fun pre e post hsplit i hi => ?_⟩,
    assigned_publish fun m hm i hi => ?_⟩
  · by_cases hpre : i ∈ pre.map (·.interface)
    · exact Or.inl hpre
    · exact Or.inr (List.mem_append_right _ (hseeded i (h.early pre e post hsplit i hi hpre).2))
  · rw [List.flatMap_append]
    have hsent := horder i (h.marginal_scheduled m hm i hi)
    exact List.mem_append_right _ (List.mem_append_right _ hsent)

end Assigned

/-! ## Covered accesses -/

/-- A seed of the block that is no longer to be laid has been laid in the past. -/
def Logged (past : List Access) (m : Memory) (id : String) : Prop :=
  ∀ i, m.phase id i ≠ .uninitialized → .write id i ∈ past

section Covered

variable {past l l' : List Access} {m : Memory} {id : String} {g : Graph} {o : Options}

theorem Logged.mono (h : Logged past m id) (l : List Access) : Logged (past ++ l) m id :=
  fun i hi => List.mem_append_left _ (h i hi)

theorem covered_of_forall (h : ∀ id i, .read id i ∈ l → .write id i ∈ past) : Covered past l := by
  intro pre id i post hl
  exact List.mem_append_left _ (h id i (by simp [hl]))

theorem Action.mem_accesses_read {a : Action} {i : InterfaceId}
    (h : .read id i ∈ a.accesses g o m) : id = a.block ∧ i ∈ a.reads := by
  rcases List.mem_append.mp h with h | h
  · obtain ⟨j, hj, heq⟩ := List.mem_map.mp h
    cases heq
    exact ⟨rfl, hj⟩
  · obtain ⟨j, -, heq⟩ := List.mem_map.mp h
    contradiction

theorem Action.covered_accesses {a : Action} (h : ∀ i ∈ a.reads, .write a.block i ∈ past) :
    Covered past (a.accesses g o m) := by
  refine covered_of_forall fun id i hi => ?_
  obtain ⟨rfl, hread⟩ := mem_accesses_read hi
  exact h i hread

theorem Action.write_mem_accesses {a : Action} {m' : Memory} {i : InterfaceId}
    (hok : a.run g o m = .ok () m') (hi : i ∈ a.sends m) :
    .write a.block i ∈ a.accesses g o m := by
  refine List.mem_append_right _ (List.mem_map_of_mem ?_)
  unfold sent
  rw [hok]
  exact hi

/-- An update that fails changes nothing. -/
theorem Action.eq_of_run_error {a : Action} {f : Failure} {m' : Memory}
    (h : a.run g o m = .error f m') : m' = m := by
  cases a with
  | lay k e => exact Block.eq_of_laySeed_error h
  | replay k e => exact Block.eq_of_replay_error h
  | publish k e => exact Block.eq_of_publish_error h

theorem phase_eq_or_of_putPhase (m : Memory) (k : String) (j : InterfaceId) (p : Phase)
    (id : String) (i : InterfaceId) :
    (m.putPhase k j p).phase id i = m.phase id i ∨ k = id ∧ j = i := by
  rw [Memory.phase_putPhase]
  split
  · rename_i h
    exact Or.inr h
  · exact Or.inl rfl

/-- How far a seed has come changes only when its message is sent. -/
theorem Action.phase_of_run_ok {a : Action} {m' : Memory} (h : a.run g o m = .ok () m')
    (id : String) (i : InterfaceId) :
    m'.phase id i = m.phase id i ∨ .write id i ∈ a.accesses g o m := by
  have hwrite := fun i => write_mem_accesses (i := i) h
  cases a with
  | lay k e =>
    obtain ⟨-, rfl⟩ | ⟨s, v, hs, hp, -, rfl⟩ := Block.laySeed_eq_ok.mp h
    · exact Or.inl rfl
    · refine (phase_eq_or_of_putPhase m k e.interface .seeded id i).imp_right ?_
      rintro ⟨rfl, rfl⟩
      refine hwrite e.interface ?_
      change _ ∈ if _ then _ else _
      rw [if_pos ⟨by rw [hs]; rfl, hp⟩]
      exact List.mem_singleton_self _
  | replay k e =>
    obtain ⟨v, -, ⟨-, rfl⟩ | ⟨-, p, -, rfl⟩⟩ := Block.replay_eq_ok.mp h
    · exact Or.inl rfl
    · refine (phase_eq_or_of_putPhase m k e.interface p id i).imp_right ?_
      rintro ⟨rfl, rfl⟩
      exact hwrite e.interface (List.mem_singleton_self _)
  | publish k e =>
    obtain ⟨v, -, rfl⟩ := Block.publish_eq_ok.mp h
    split
    · rw [Memory.phase_foldl_putEdgeMarginal]
      exact Or.inl rfl
    · exact Or.inl rfl

theorem Action.logged_of_run {a : Action} {m' : Memory} (hok : a.run g o m = .ok () m')
    (h : Logged past m id) : Logged (past ++ a.accesses g o m) m' id := by
  intro i hi
  rcases phase_of_run_ok hok id i with hp | hp
  · rw [hp] at hi
    exact List.mem_append_left _ (h i hi)
  · exact List.mem_append_right _ hp

/-- What an update is sure to have sent has been sent, then or before. -/
theorem Action.gives_of_run {a : Action} {m' : Memory} (h : Logged past m a.block)
    (hok : a.run g o m = .ok () m') : a.gives ⊆ past ++ a.accesses g o m := by
  have hwrite := fun i => write_mem_accesses (i := i) hok
  intro x hx
  cases a with
  | lay k e =>
    change x ∈ if e.seed.isSome then _ else _ at hx
    split at hx
    · rename_i hs
      obtain rfl := List.mem_singleton.mp hx
      by_cases hp : m.phase k e.interface = .uninitialized
      · refine List.mem_append_right _ (hwrite e.interface ?_)
        change _ ∈ if _ then _ else _
        rw [if_pos ⟨hs, hp⟩]
        exact List.mem_singleton_self _
      · exact List.mem_append_left _ (h e.interface hp)
    · exact absurd hx List.not_mem_nil
  | replay k e =>
    obtain rfl := List.mem_singleton.mp hx
    exact List.mem_append_right _ (hwrite e.interface (List.mem_singleton_self _))
  | publish k e => exact absurd hx List.not_mem_nil

/-- **What assigned updates read has been sent.** What is known has to be sent in the past, and the
seeds that are laid too. -/
theorem covered_of_assigned {known : List Access} {ids : List String} {l : List Action}
    (hl : ∀ a ∈ l, a.block ∈ ids) (hassigned : Assigned known l) (hknown : known ⊆ past)
    (hm : ∀ id ∈ ids, Logged past m id) :
    Covered past (Action.trace g o l m) ∧
      ∀ id ∈ ids, Logged (past ++ Action.trace g o l m)
        ((forM l (Action.run g o)).outcome m).2 id := by
  induction l generalizing known past m with
  | nil =>
    refine ⟨covered_nil, fun id hid => ?_⟩
    exact (hm id hid).mono []
  | cons a l ih =>
    have hreads := Action.covered_accesses (g := g) (o := o) (m := m)
      fun i hi => hknown (hassigned.1 i hi)
    unfold Action.trace Attempt.outcome
    rw [List.forM_cons, covered_append, ← List.append_assoc]
    cases hrun : a.run g o m with
    | error f m' =>
      rw [Attempt.bind_of_error hrun, List.append_nil]
      refine ⟨⟨hreads, covered_nil⟩, fun id hid => ?_⟩
      rw [Action.eq_of_run_error hrun]
      exact (hm id hid).mono _
    | ok _ m' =>
      have hgives := Action.gives_of_run (hm _ (hl a List.mem_cons_self)) hrun
      obtain ⟨hcovered, hlogged⟩ := ih (fun b hb => hl b (List.mem_cons_of_mem _ hb)) hassigned.2
        (List.append_subset.mpr ⟨fun x hx => List.mem_append_left _ (hknown hx), hgives⟩)
        fun id hid => Action.logged_of_run hrun (hm id hid)
      rw [Attempt.bind_of_ok hrun]
      exact ⟨⟨hreads, hcovered⟩, hlogged⟩

end Covered

/-! ## Runs -/

namespace Program

variable {p : Program}

/-- The messages are these, and the seeds have come so far. -/
def Standing (t : Table InterfaceId Value) (phases : Table (String × InterfaceId) Phase)
    (m : Memory) : Prop :=
  m.messages = t ∧ m.phases = phases

section Marginals

variable {I : Memory → Prop} (hedge : ∀ m v e, I m → I (Memory.putEdgeMarginal v m e))

include hedge

theorem keeps_ensureMarginal (g : Graph) (e : EdgeId) (type : TypeTerm)
    (make : Except Failure Value) : Keeps I (Memory.ensureMarginal g e type make) := by
  intro m hm
  unfold Attempt.outcome
  rw [Memory.ensureMarginal_make]
  cases g.allow e type with
  | error f => exact hm
  | ok _ =>
    dsimp only
    by_cases h : (m.edgeMarginal e).type? = some type
    · rw [if_pos h]
      exact hm
    · rw [if_neg h]
      cases make with
      | error f => exact hm
      | ok v => exact hedge m v e hm

variable (hput : ∀ m t v, I m → I (Memory.putMarginal m t v))

include hput

theorem keeps_initMarginal (e : MarginalEntry) : Keeps I (p.initMarginal e) := by
  unfold initMarginal
  split
  · exact Keeps.throw _
  · refine Keeps.bind (Keeps.liftM _) fun v => Keeps.bind (Keeps.modify fun m => hput m _ v)
      fun _ => ?_
    split
    · exact Keeps.forM fun i _ => Keeps.bind (keeps_ensureMarginal hedge _ _ _ _) fun _ =>
        Keeps.pure _
    · exact Keeps.pure _

/-- Giving all marginals a value keeps what putting values keeps. -/
theorem keeps_initMarginals : Keeps I p.initMarginals :=
  Keeps.forM fun _ _ => Keeps.forM fun e _ => keeps_initMarginal hedge hput e

end Marginals

section Opening

variable {t : Table InterfaceId Value} {phases : Table (String × InterfaceId) Phase}

/-- Before its updates, a command does nothing to messages or seeds. -/
theorem keeps_opening (c : Command) : Keeps (Standing t phases) (p.opening c) := by
  have hinit : Keeps (Standing t phases) p.initMarginals :=
    keeps_initMarginals (fun _ _ _ h => h) fun _ _ _ h => h
  cases c with
  | initMarginals => exact hinit
  | step => exact Keeps.pure ()
  | execute n =>
    change Keeps _ p.start
    unfold start
    refine Keeps.bind Keeps.get fun m => ?_
    split
    · exact Keeps.bind hinit fun _ => Keeps.modify fun _ h => h
    · exact Keeps.pure _

end Opening

/-- An update of a command belongs to a pass over one of the blocks. -/
theorem exists_of_mem_updates {c : Command} {a : Action} (h : a ∈ p.updates c) :
    ∃ b ∈ p.blocks, a ∈ b.actions := by
  cases c with
  | initMarginals => exact absurd h List.not_mem_nil
  | step => exact List.mem_flatMap.mp h
  | execute n =>
    obtain ⟨l, hl, ha⟩ := List.mem_flatten.mp h
    rw [List.eq_of_mem_replicate hl] at ha
    exact List.mem_flatMap.mp ha

theorem block_of_mem_updates {c : Command} {a : Action} (h : a ∈ p.updates c) :
    a.block ∈ p.blocks.map (·.id) := by
  obtain ⟨b, hb, ha⟩ := exists_of_mem_updates h
  refine List.mem_map.mpr ⟨b, hb, ?_⟩
  rcases Block.mem_actions ha with ⟨e, -, rfl | rfl⟩ | ⟨e, -, rfl⟩ <;> rfl

theorem assigned_updates (h : ∀ b ∈ p.blocks, b.Wired p.graph) (c : Command) :
    Assigned [] (p.updates c) := by
  have hpass : ∀ known, Assigned known p.actions := fun known =>
    assigned_flatMap fun b hb => assigned_actions (h b hb)
  cases c with
  | initMarginals => trivial
  | step => exact hpass []
  | execute n =>
    have hall : Assigned []
        ((List.replicate (n.getD p.options.iterations).toNat p.actions).flatMap fun l => l) :=
      assigned_flatMap fun l hl => List.eq_of_mem_replicate hl ▸ hpass []
    rwa [List.flatMap_id'] at hall

/-- A command reads only what has been sent, and keeps the record of the seeds. -/
theorem covered_accesses (hrun : ∀ b ∈ p.blocks, b.runnable) (h : ∀ b ∈ p.blocks, b.Wired p.graph)
    {past : List Access} {m : Memory} (hm : ∀ id ∈ p.blocks.map (·.id), Logged past m id)
    (c : Command) :
    Covered past (p.accesses c m) ∧ ∀ id ∈ p.blocks.map (·.id),
      Logged (past ++ p.accesses c m) ((p.perform c).outcome m).2 id := by
  have hkeep : Keeps (Standing m.messages m.phases) (p.opening c) := keeps_opening c
  have hlogged : ∀ m' : Memory, Standing m.messages m.phases m' →
      ∀ id ∈ p.blocks.map (·.id), Logged past m' id := by
    intro m' hm' id hid i hi
    refine hm id hid i ?_
    unfold Memory.phase at hi ⊢
    rwa [hm'.2] at hi
  unfold accesses Attempt.outcome
  rw [perform_eq hrun]
  cases hopen : p.opening c m with
  | error f m' =>
    rw [Attempt.bind_of_error hopen]
    refine ⟨covered_nil, fun id hid => ?_⟩
    exact (hlogged m' (hkeep.of_error ⟨rfl, rfl⟩ hopen) id hid).mono []
  | ok _ m' =>
    rw [Attempt.bind_of_ok hopen]
    exact covered_of_assigned (fun a => block_of_mem_updates) (assigned_updates h c)
      (List.nil_subset _) (hlogged m' (hkeep.of_ok ⟨rfl, rfl⟩ hopen))

/-- **In every run, what is read has been sent before**, if it starts with all seeds still to be
laid. -/
theorem covered_trace (hrun : ∀ b ∈ p.blocks, b.runnable) (h : ∀ b ∈ p.blocks, b.Wired p.graph)
    {past : List Access} {m : Memory} (hm : ∀ id ∈ p.blocks.map (·.id), Logged past m id)
    (l : List Command) : Covered past (p.trace l m) := by
  induction l generalizing past m with
  | nil => exact covered_nil
  | cons c l ih =>
    obtain ⟨hcovered, hlogged⟩ := covered_accesses hrun h hm c
    exact covered_append.mpr ⟨hcovered, ih hlogged⟩

/-- After a reset all seeds of the blocks are still to be laid. -/
theorem logged_reset {past : List Access} (m : Memory) {id : String}
    (h : id ∈ p.blocks.map (·.id)) : Logged past (p.reset m) id := by
  intro i hi
  refine absurd ?_ hi
  obtain ⟨b, hb, rfl⟩ := List.mem_map.mp h
  have hall : p.blocks.all (fun c => decide (c.id ≠ b.id)) = false := by
    rw [Bool.eq_false_iff]
    intro hall
    simpa using List.all_eq_true.mp hall b hb
  unfold Memory.phase reset
  rw [Table.get?_filterKeys, hall]
  rfl

end Program

/-! ## Compiled posteriors -/

namespace Posterior

variable {g : Graph} {c : Catalogue} {sites : List InterfaceId} {reject : Option Bool}
  {p q : Posterior} {ids : List String}

/-- **No compiled block reads a message that was not sent.** The blocks read what their schedules
are made for, and in every run that starts from the compiled posterior or from a reset, a message
that is read has been sent before by the block that reads it. The accesses say what the run does to
the memory, so whatever stood in the place of a message before the run does not show. -/
theorem covered_of_compile (hg : g.Built) (hp : Built g p)
    (h : compile g c sites reject p = .ok ids q) :
    ∃ blocks, ids.mapM q.block = .ok blocks ∧ (∀ b ∈ blocks, b.runnable ∧ b.Wired g) ∧
      Program.Traced ⟨g, q.options, blocks⟩ ∧
      ∀ m, (m.phases = q.phases ∨ ∃ m₀, m = Program.reset ⟨g, q.options, blocks⟩ m₀) →
        ∀ commands, Covered [] (Program.trace ⟨g, q.options, blocks⟩ commands m) ∧
          Program.Unseen ⟨g, q.options, blocks⟩ commands m := by
  obtain ⟨blocks, hblocks, hcompiled⟩ := exists_blocks_of_compile hp h
  have hall : ∀ b ∈ blocks, b.id ∈ ids ∧ b.runnable ∧ b.Wired g := by
    intro b hb
    obtain ⟨hid, hmade, hc⟩ := hcompiled b hb
    exact ⟨hid, hc.runnable, Block.wired_of_compiled hg.coherent hmade hc⟩
  have htraced : Program.Traced ⟨g, q.options, blocks⟩ :=
    Program.traced fun b hb => (hall b hb).2.1
  refine ⟨blocks, hblocks, fun b hb => (hall b hb).2, htraced, fun m hm commands => ?_⟩
  suffices hcovered : Covered [] (Program.trace ⟨g, q.options, blocks⟩ commands m) from
    ⟨hcovered, htraced.unseen_of_covered hcovered⟩
  refine Program.covered_trace (fun b hb => (hall b hb).2.1) (fun b hb => (hall b hb).2.2)
    (fun id hid => ?_) commands
  rcases hm with hm | ⟨m₀, rfl⟩
  · intro i hi
    obtain ⟨b, hb, rfl⟩ := List.mem_map.mp hid
    unfold Memory.phase at hi
    rw [hm, unlaid_of_compile h (hall b hb).1 i] at hi
    contradiction
  · exact Program.logged_reset m₀ hid

/-- Two functions that are joined in a circle, with the types of their messages declared. -/
def ringGraph : Graph :=
  let f : NodeRequest := { kind := "equality", interfaces := 2, deterministic := true }
  let t : TypeTerm := .dist "Gaussian" []
  let g := ((Graph.addNode f).outcome ((Graph.addNode f).outcome ∅).2).2
  let g := ((Graph.connect (.numbered 0) (some (.numbered 2)) (some "a") (some t)).outcome g).2
  ((Graph.connect (.numbered 1) (some (.numbered 3)) (some "b") (some t)).outcome g).2

/-- A rule that answers a Gaussian, whatever arrives. -/
def ringRule (kind : String) (r : RuleType) (position : Option Int) : Rule where
  key := ⟨kind, r, position⟩
  inbounds := [.any, .any]
  outbound := .pattern (.dist "Gaussian" [])
  procedure := some fun _ => .ok (.dist "Gaussian" [] ∅)

/-- Rules for both directions of the circle, and for the product of two messages. -/
def ringCatalogue : Catalogue :=
  ⟨[ringRule "equality" .sumProduct (some 0), ringRule "equality" .sumProduct (some 1),
    ringRule "product" .product none]⟩

/-- The posterior with one block, for a variable of the circle. -/
def ringPosterior : Posterior :=
  ((addBlock ringGraph ["a"] (some "a")).outcome { options := wholeOptions }).2

/-- Around a circle, two messages are read before they are computed; they have been seeded. -/
theorem covered_ring :
    ringGraph.Built ∧ Built ringGraph ringPosterior ∧
      ∃ q blocks, compile ringGraph ringCatalogue [] none ringPosterior = .ok ["a"] q ∧
        ["a"].mapM q.block = .ok blocks ∧ Program.Traced ⟨ringGraph, q.options, blocks⟩ ∧
        ∀ commands,
          Covered [] (Program.trace ⟨ringGraph, q.options, blocks⟩ commands
            { phases := q.phases }) ∧
          Program.Unseen ⟨ringGraph, q.options, blocks⟩ commands { phases := q.phases } := by
  have hg : ringGraph.Built := .connect (.connect (.addNode (.addNode .empty _) _) _ _ _ _) _ _ _ _
  have hp : Built ringGraph ringPosterior := .addBlock (.fresh wholeOptions) _ _
  have hc := Attempt.eq_ok_of_outcome (x := compile ringGraph ringCatalogue [] none)
    (s := ringPosterior) (a := ["a"]) (by cbv)
  obtain ⟨blocks, hblocks, -, htraced, hcovered⟩ := covered_of_compile hg hp hc
  exact ⟨hg, hp, _, blocks, hc, hblocks, htraced, hcovered _ (Or.inl rfl)⟩

end Posterior

end MessagePassing
