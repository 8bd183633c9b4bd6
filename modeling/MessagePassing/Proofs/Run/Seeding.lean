import MessagePassing.Proofs.Run.Assignment
import MessagePassing.Proofs.Run.Commutation

/-!
# The life of a seed

A seed is laid before the first pass over its block, it moves on whenever its message is computed,
and a reset takes it up again. Every move is checked: a seed is not laid twice, and it does not move
on before it is laid. The history of a run lists the turns of its updates since the last reset, and
those that failed are among them. It tells the phase of every seed, so no check ever fails, wherever
the commands of the run have been broken off.

Results:
* `Action.moves_of_run`: how an update moves seeds.
* `Recorded.turns`: the history tells the phases, and no seed is laid twice.
* `Program.Ready.laysFirst_updates`: a block lays its seeds before it computes a message.
* `Program.iterating_of_passBlock`: a pass that is completed has moved all seeds of its block on.
* **`Posterior.lifecycle_of_compile`**: the seeds of a compiled posterior, in every run.
-/

namespace MessagePassing

open Attempt (Keeps)

theorem Phase.advance_eq_ok {p q : Phase} :
    p.advance = .ok q ↔ p ≠ .uninitialized ∧ q = .iterating := by
  cases p <;> simp [advance, eq_comm]

/-! ## Turns -/

/-- The turn of an update in a run. -/
structure Turn where
  /-- The update. -/
  action : Action
  /-- The memory that it finds. -/
  found : Memory

namespace Action

variable (g : Graph) (o : Options)

/-- The value that an update computes. A seed that is not to be laid needs none. -/
def value (m : Memory) : Action → Except Failure Value
  | lay id e =>
    match e.seed with
    | some s => if m.phase id e.interface = .uninitialized then s.value o else .ok .absent
    | none => .ok .absent
  | replay _ e => m.entryValue g e
  | publish _ e => m.marginalValue g e

/-- How an update moves the seed of its entry, unless it leaves it where it is. -/
def move (m : Memory) : Action → Option (Except Failure Phase)
  | lay id e =>
    if e.seed.isSome ∧ m.phase id e.interface = .uninitialized then
      some (m.phase id e.interface).seed
    else none
  | replay id e => if e.seed.isSome then some (m.phase id e.interface).advance else none
  | publish _ _ => none

/-- The seed that an update lays. -/
def laid (a : Action) (m : Memory) : List (String × InterfaceId) :=
  match a with
  | lay id _ => (a.sent g o m).map (id, ·)
  | replay _ _ | publish _ _ => []

/-- The seed that an update moves on. -/
def renewed (a : Action) (m : Memory) : List (String × InterfaceId) :=
  match a with
  | replay id e => if e.seed.isSome then (a.sent g o m).map (id, ·) else []
  | lay _ _ | publish _ _ => []

/-- The turns of a list of updates, up to the first that fails. -/
def turns : List Action → Memory → List Turn
  | [], _ => []
  | a :: l, m =>
    ⟨a, m⟩ ::
      match a.run g o m with
      | .ok _ m' => turns l m'
      | .error _ _ => []

end Action

/-- The turns of the updates of a command. -/
def Program.turns (p : Program) (c : Command) (m : Memory) : List Turn :=
  match p.opening c m with
  | .ok _ m' => Action.turns p.graph p.options (p.updates c) m'
  | .error _ _ => []

/-- The seeds that are laid in these turns. -/
def layings (g : Graph) (o : Options) (l : List Turn) : List (String × InterfaceId) :=
  l.flatMap fun t => t.action.laid g o t.found

/-- The seeds that are moved on in these turns. -/
def renewals (g : Graph) (o : Options) (l : List Turn) : List (String × InterfaceId) :=
  l.flatMap fun t => t.action.renewed g o t.found

/-- How far a seed has come in these turns. -/
def phaseAfter (g : Graph) (o : Options) (l : List Turn) (id : String) (i : InterfaceId) : Phase :=
  if (id, i) ∈ renewals g o l then .iterating
  else if (id, i) ∈ layings g o l then .seeded
  else .uninitialized

section Turns

variable {g : Graph} {o : Options} {a : Action} {A : List Action} {m m' : Memory} {f : Failure}
  {l l' : List Turn} {id : String} {i : InterfaceId}

theorem layings_append : layings g o (l ++ l') = layings g o l ++ layings g o l' :=
  List.flatMap_append

theorem renewals_append : renewals g o (l ++ l') = renewals g o l ++ renewals g o l' :=
  List.flatMap_append

theorem layings_snoc : layings g o (l ++ [⟨a, m⟩]) = layings g o l ++ a.laid g o m := by
  rw [layings_append]
  exact congrArg _ (List.append_nil _)

theorem renewals_snoc : renewals g o (l ++ [⟨a, m⟩]) = renewals g o l ++ a.renewed g o m := by
  rw [renewals_append]
  exact congrArg _ (List.append_nil _)

theorem turns_of_ok (h : a.run g o m = .ok () m') :
    Action.turns g o (a :: A) m = ⟨a, m⟩ :: Action.turns g o A m' := by
  rw [Action.turns, h]

theorem turns_of_error (h : a.run g o m = .error f m') :
    Action.turns g o (a :: A) m = [⟨a, m⟩] := by
  rw [Action.turns, h]

/-- The updates before a turn have succeeded. -/
theorem exists_of_turns_eq {pre post : List Turn} {t : Turn}
    (h : Action.turns g o A m = pre ++ t :: post) :
    (∃ A', A = pre.map Turn.action ++ t.action :: A') ∧
      Action.turns g o (pre.map Turn.action) m = pre ∧
      forM (pre.map Turn.action) (Action.run g o) m = .ok () t.found := by
  induction pre generalizing A m with
  | nil =>
    cases A with
    | nil => contradiction
    | cons a A =>
      obtain ⟨rfl, -⟩ := List.cons.inj h
      exact ⟨⟨A, rfl⟩, rfl, rfl⟩
  | cons s pre ih =>
    cases A with
    | nil => contradiction
    | cons a A =>
      obtain ⟨rfl, -⟩ := List.cons.inj h
      cases hrun : a.run g o m with
      | error f m' =>
        rw [turns_of_error hrun] at h
        simp at h
      | ok _ m' =>
        rw [turns_of_ok hrun] at h
        obtain ⟨⟨A', rfl⟩, hturns, hforM⟩ := ih (List.cons.inj h).2
        refine ⟨⟨A', rfl⟩, ?_, ?_⟩
        · rw [List.map_cons, turns_of_ok hrun, hturns]
        · rw [List.map_cons, List.forM_cons, Attempt.bind_of_ok hrun]
          exact hforM

theorem mem_of_mem_turns {t : Turn} (h : t ∈ Action.turns g o A m) : t.action ∈ A := by
  obtain ⟨pre, post, hsplit⟩ := List.append_of_mem h
  obtain ⟨⟨A', rfl⟩, -⟩ := exists_of_turns_eq hsplit
  exact List.mem_append_right _ List.mem_cons_self

/-- Updates fail in a turn of theirs. -/
theorem exists_turn_of_error (h : forM A (Action.run g o) m = .error f m') :
    ∃ t ∈ Action.turns g o A m, t.found = m' ∧ t.action.run g o t.found = .error f m' := by
  induction A generalizing m with
  | nil => contradiction
  | cons a A ih =>
    rw [List.forM_cons] at h
    rcases Attempt.bind_eq_error.mp h with hrun | ⟨_, u, hrun, h⟩
    · rw [turns_of_error hrun]
      exact ⟨_, List.mem_singleton_self _, (Action.eq_of_run_error hrun).symm, hrun⟩
    · obtain ⟨t, ht, hfound, hfail⟩ := ih h
      rw [turns_of_ok hrun]
      exact ⟨t, List.mem_cons_of_mem _ ht, hfound, hfail⟩

/-! ## Moves -/

/-- How an update that succeeds moves seeds. -/
inductive Action.Moves (g : Graph) (o : Options) (a : Action) (m m' : Memory) : Prop
  /-- It moves none. -/
  | none (hlaid : a.laid g o m = []) (hrenewed : a.renewed g o m = []) (hp : m'.phase = m.phase)
  /-- It lays a seed. -/
  | lay (i : InterfaceId) (hlaid : a.laid g o m = [(a.block, i)]) (hrenewed : a.renewed g o m = [])
      (hfresh : m.phase a.block i = .uninitialized)
      (hp : m'.phase = (m.putPhase a.block i .seeded).phase)
  /-- It moves a seed on that has been laid. -/
  | renew (i : InterfaceId) (hlaid : a.laid g o m = [])
      (hrenewed : a.renewed g o m = [(a.block, i)]) (hstarted : m.phase a.block i ≠ .uninitialized)
      (hp : m'.phase = (m.putPhase a.block i .iterating).phase)

theorem Action.sent_of_ok (h : a.run g o m = .ok () m') : a.sent g o m = a.sends m := by
  unfold sent
  rw [h]

theorem Action.sent_of_error (h : a.run g o m = .error f m') : a.sent g o m = [] := by
  unfold sent
  rw [h]

/-- **An update moves one seed at most**: it lays one that is still to be laid, or it moves one on
that has been laid. -/
theorem Action.moves_of_run (h : a.run g o m = .ok () m') : a.Moves g o m m' := by
  have hsent := sent_of_ok h
  cases a with
  | lay id e =>
    obtain ⟨hidle, rfl⟩ | ⟨s, v, hs, hfresh, -, rfl⟩ := Block.laySeed_eq_ok.mp h
    · refine .none ?_ rfl rfl
      have hnone : (lay id e).sends m' = [] := by
        refine if_neg fun ⟨hs, hp⟩ => ?_
        rcases hidle with hnone | hp'
        · rw [hnone] at hs
          contradiction
        · exact hp' hp
      unfold laid
      rw [hsent, hnone]
      rfl
    · refine .lay e.interface ?_ rfl hfresh rfl
      have hone : (lay id e).sends m = [e.interface] := if_pos ⟨by rw [hs]; rfl, hfresh⟩
      unfold laid
      rw [hsent, hone]
      rfl
  | replay id e =>
    obtain ⟨v, -, ⟨hs, rfl⟩ | ⟨hs, p, hadvance, rfl⟩⟩ := Block.replay_eq_ok.mp h
    · refine .none rfl ?_ rfl
      unfold renewed
      dsimp only
      rw [hs]
      rfl
    · obtain ⟨hstarted, rfl⟩ := Phase.advance_eq_ok.mp hadvance
      refine .renew e.interface rfl ?_ hstarted rfl
      unfold renewed
      dsimp only
      rw [hs, if_pos rfl, hsent]
      rfl
  | publish id e =>
    obtain ⟨v, -, rfl⟩ := Block.publish_eq_ok.mp h
    refine .none rfl rfl ?_
    split
    · exact Memory.phase_foldl_putEdgeMarginal _ v _
    · rfl

theorem Action.laid_of_error (h : a.run g o m = .error f m') : a.laid g o m = [] := by
  unfold laid
  rw [sent_of_error h]
  split <;> rfl

theorem Action.renewed_of_error (h : a.run g o m = .error f m') : a.renewed g o m = [] := by
  unfold renewed
  rw [sent_of_error h]
  split
  · split <;> rfl
  · rfl
  · rfl

/-- An update that may move its seed fails only for want of its value. -/
theorem Action.value_of_run_error (h : a.run g o m = .error f m')
    (hmove : ∀ f, a.move m ≠ some (.error f)) : a.value g o m = .error f := by
  cases a with
  | lay id e =>
    obtain ⟨-, s, hs, hfresh, hv⟩ := Block.laySeed_eq_error.mp h
    unfold value
    dsimp only
    rw [hs]
    exact (if_pos hfresh).trans hv
  | replay id e =>
    obtain ⟨-, hv | ⟨-, hs, hadvance⟩⟩ := Block.replay_eq_error.mp h
    · exact hv
    · refine absurd ?_ (hmove f)
      unfold move
      dsimp only
      rw [if_pos hs, hadvance]
  | publish id e => exact (Block.publish_eq_error.mp h).2

/-- A seed that has been laid stays so. -/
theorem Action.keeps_started (id : String) (i : InterfaceId) (a : Action) :
    Keeps (fun m => m.phase id i ≠ .uninitialized) (a.run g o) := by
  refine .intro (fun m _ m' hm h => ?_) fun m f m' hm h => eq_of_run_error h ▸ hm
  have hput : ∀ (j : InterfaceId) (p : Phase), p ≠ .uninitialized →
      (m.putPhase a.block j p).phase id i ≠ .uninitialized := by
    intro j p hp
    rw [Memory.phase_putPhase]
    split
    · exact hp
    · exact hm
  cases moves_of_run h with
  | none _ _ hp => exact hp ▸ hm
  | lay j _ _ _ hp => exact hp ▸ hput j .seeded nofun
  | renew j _ _ _ hp => exact hp ▸ hput j .iterating nofun

/-- A seed for which an update has been made has been laid. -/
theorem Action.started_of_lay {e : ScheduleEntry} (hs : e.seed.isSome)
    (h : (lay id e).run g o m = .ok () m') : m'.phase id e.interface ≠ .uninitialized := by
  obtain ⟨hidle, rfl⟩ | ⟨s, v, -, -, -, rfl⟩ := Block.laySeed_eq_ok.mp h
  · exact hidle.resolve_left (Option.isSome_iff_ne_none.mp hs)
  · change (m.putPhase id e.interface .seeded).phase id e.interface ≠ _
    rw [Memory.phase_putPhase, if_pos ⟨rfl, rfl⟩]
    nofun

/-- Updates that succeed have laid the seeds that they are to lay. -/
theorem started_of_mem {e : ScheduleEntry} (hs : e.seed.isSome)
    (h : forM A (Action.run g o) m = .ok () m') (he : .lay id e ∈ A) :
    m'.phase id e.interface ≠ .uninitialized := by
  rw [← List.forM_eq_forM] at h
  refine Attempt.holds_of_forM (P := fun (a : Action) (m : Memory) =>
    a = .lay id e → m.phase id e.interface ≠ .uninitialized) ?_ ?_ h _ he rfl
  · rintro a - m m' hrun rfl
    exact Action.started_of_lay hs hrun
  · intro a b _ m hm ha
    exact Action.keeps_started id e.interface b m (hm ha)

/-! ## Histories -/

theorem phaseAfter_eq_uninitialized :
    phaseAfter g o l id i = .uninitialized ↔
      (id, i) ∉ renewals g o l ∧ (id, i) ∉ layings g o l := by
  unfold phaseAfter
  by_cases hr : (id, i) ∈ renewals g o l
  · simp [hr]
  · by_cases hl : (id, i) ∈ layings g o l <;> simp [hr, hl]

/-- A turn tells nothing of the seeds that it does not move. -/
theorem phaseAfter_snoc {n : Memory} (hlaid : (id, i) ∉ a.laid g o n)
    (hrenewed : (id, i) ∉ a.renewed g o n) :
    phaseAfter g o (l ++ [⟨a, n⟩]) id i = phaseAfter g o l id i := by
  unfold phaseAfter
  simp [layings_snoc, renewals_snoc, hlaid, hrenewed]

/-- The turns tell how far the seeds of these blocks have come, and in the turns no seed is laid
twice. -/
structure Recorded (g : Graph) (o : Options) (ids : List String) (l : List Turn) (m : Memory) :
    Prop where
  phase : ∀ id ∈ ids, ∀ i, m.phase id i = phaseAfter g o l id i
  subset : renewals g o l ⊆ layings g o l
  nodup : (layings g o l).Nodup

namespace Recorded

variable {ids : List String}

theorem mem_layings (h : Recorded g o ids l m) (hid : id ∈ ids)
    (hp : m.phase id i ≠ .uninitialized) : (id, i) ∈ layings g o l := by
  by_contra hl
  rw [h.phase id hid i] at hp
  exact hp (phaseAfter_eq_uninitialized.mpr ⟨fun hr => hl (h.subset hr), hl⟩)

theorem of_phase (h : Recorded g o ids l m) (hp : m'.phase = m.phase) : Recorded g o ids l m' :=
  ⟨fun id hid i => hp ▸ h.phase id hid i, h.subset, h.nodup⟩

theorem start (hm : ∀ id ∈ ids, ∀ i, m.phase id i = .uninitialized) : Recorded g o ids [] m :=
  ⟨hm, List.nil_subset _, List.nodup_nil⟩

/-- A turn that moves no seed makes no difference. -/
theorem snoc_of_nil (h : Recorded g o ids l m) {n : Memory} (hlaid : a.laid g o n = [])
    (hrenewed : a.renewed g o n = []) : Recorded g o ids (l ++ [⟨a, n⟩]) m := by
  refine ⟨fun id hid i => ?_, ?_, ?_⟩
  · rw [phaseAfter_snoc (by simp [hlaid]) (by simp [hrenewed])]
    exact h.phase id hid i
  · rw [layings_snoc, renewals_snoc, hlaid, hrenewed, List.append_nil, List.append_nil]
    exact h.subset
  · rw [layings_snoc, hlaid, List.append_nil]
    exact h.nodup

/-- The turn of an update that succeeds. -/
theorem snoc (h : Recorded g o ids l m) (ha : a.block ∈ ids) (hmoves : a.Moves g o m m') :
    Recorded g o ids (l ++ [⟨a, m⟩]) m' := by
  cases hmoves with
  | none hlaid hrenewed hp => exact (h.snoc_of_nil hlaid hrenewed).of_phase hp
  | lay i hlaid hrenewed hfresh hp =>
    -- by the record, no turn has laid the seed before
    rw [h.phase a.block ha i] at hfresh
    obtain ⟨hr, hl⟩ := phaseAfter_eq_uninitialized.mp hfresh
    refine ⟨fun id hid j => ?_, ?_, ?_⟩
    · rw [hp, Memory.phase_putPhase]
      by_cases hk : a.block = id ∧ i = j
      · obtain ⟨rfl, rfl⟩ := hk
        unfold phaseAfter
        simp [layings_snoc, renewals_snoc, hlaid, hrenewed, hr]
      · rw [if_neg hk, h.phase id hid j, phaseAfter_snoc _ (by simp [hrenewed])]
        rw [hlaid, List.mem_singleton, Prod.mk.injEq]
        exact fun ⟨hid, hj⟩ => hk ⟨hid.symm, hj.symm⟩
    · rw [layings_snoc, renewals_snoc, hrenewed, List.append_nil]
      exact List.subset_append_of_subset_left _ h.subset
    · rw [layings_snoc, hlaid]
      exact List.nodup_append'.mpr ⟨h.nodup, List.nodup_singleton _, by simpa using hl⟩
  | renew i hlaid hrenewed hstarted hp =>
    have hl := h.mem_layings ha hstarted
    refine ⟨fun id hid j => ?_, ?_, ?_⟩
    · rw [hp, Memory.phase_putPhase]
      by_cases hk : a.block = id ∧ i = j
      · obtain ⟨rfl, rfl⟩ := hk
        unfold phaseAfter
        simp [renewals_snoc, hrenewed]
      · rw [if_neg hk, h.phase id hid j, phaseAfter_snoc (by simp [hlaid])]
        rw [hrenewed, List.mem_singleton, Prod.mk.injEq]
        exact fun ⟨hid, hj⟩ => hk ⟨hid.symm, hj.symm⟩
    · rw [layings_snoc, renewals_snoc, hlaid, hrenewed, List.append_nil]
      exact List.append_subset.mpr ⟨h.subset, by simpa using hl⟩
    · rw [layings_snoc, hlaid, List.append_nil]
      exact h.nodup

/-- **The turns of updates keep the record**, whether the updates succeed or fail. -/
theorem turns (h : Recorded g o ids l m) (hA : ∀ a ∈ A, a.block ∈ ids) :
    Recorded g o ids (l ++ Action.turns g o A m) ((forM A (Action.run g o)).outcome m).2 := by
  induction A generalizing l m with
  | nil =>
    rw [Action.turns, List.append_nil]
    exact h
  | cons a A ih =>
    obtain ⟨ha, hA⟩ := List.forall_mem_cons.mp hA
    rw [List.forM_cons]
    cases hrun : a.run g o m with
    | error f m' =>
      rw [turns_of_error hrun, Attempt.outcome_snd_of_error (Attempt.bind_of_error hrun),
        Action.eq_of_run_error hrun]
      exact h.snoc_of_nil (Action.laid_of_error hrun) (Action.renewed_of_error hrun)
    | ok _ m' =>
      rw [turns_of_ok hrun, List.append_cons]
      unfold Attempt.outcome
      rw [Attempt.bind_of_ok hrun]
      exact ih (h.snoc ha (Action.moves_of_run hrun)) hA

end Recorded

end Turns

/-! ## Seeds come first -/

namespace Block

variable {b b' : Block} {l l' : List Action}

/-- In these updates, the block lays its seeds before it computes a message. -/
def LaysFirst (b : Block) (l : List Action) : Prop :=
  ∀ pre e post, l = pre ++ .replay b.id e :: post →
    ∀ s ∈ b.schedule, s.seed.isSome → .lay b.id s ∈ pre

theorem laysFirst_of_notMem (h : ∀ e, .replay b.id e ∉ l) : b.LaysFirst l := by
  rintro pre e post rfl
  exact absurd (List.mem_append_right _ List.mem_cons_self) (h e)

theorem LaysFirst.append (h : b.LaysFirst l) (h' : b.LaysFirst l') : b.LaysFirst (l ++ l') := by
  intro pre e post hl s hs hseed
  obtain ⟨t, ht⟩ | ⟨t, rfl, ht⟩ := append_eq_append_cons hl
  · exact h pre e t ht s hs hseed
  · exact List.mem_append_right _ (h' t e post ht s hs hseed)

theorem LaysFirst.flatMap {α : Type} {f : α → List Action} {L : List α}
    (h : ∀ a ∈ L, b.LaysFirst (f a)) : b.LaysFirst (L.flatMap f) := by
  induction L with
  | nil => exact laysFirst_of_notMem fun _ => List.not_mem_nil
  | cons a L ih =>
    rw [List.flatMap_cons]
    exact (h a List.mem_cons_self).append (ih fun c hc => h c (List.mem_cons_of_mem _ hc))

/-- A pass over a block lays its seeds first, if there are any. -/
theorem laysFirst_actions (h : b.needsSeeds = b.schedule.any (·.seed.isSome)) :
    b.LaysFirst b.actions := by
  intro pre e post hl s hs hseed
  have hneeds : b.needsSeeds = true := by
    rw [h, List.any_eq_true]
    exact ⟨s, hs, hseed⟩
  unfold actions at hl
  rw [if_pos hneeds, List.append_assoc] at hl
  obtain ⟨t, ht⟩ | ⟨t, rfl, -⟩ := append_eq_append_cons hl
  · have hmem : .replay b.id e ∈ b.schedule.map (Action.lay b.id) := by
      rw [ht]
      exact List.mem_append_right _ List.mem_cons_self
    obtain ⟨_, _, heq⟩ := List.mem_map.mp hmem
    contradiction
  · exact List.mem_append_left _ (List.mem_map_of_mem hs)

/-- The messages of a block are its own. -/
theorem laysFirst_actions_of_ne (h : b.id ≠ b'.id) : b.LaysFirst b'.actions := by
  refine laysFirst_of_notMem fun e he => ?_
  rcases mem_actions he with ⟨_, _, heq | heq⟩ | ⟨_, _, heq⟩
  · contradiction
  · exact h (Action.replay.inj heq).1
  · contradiction

end Block

namespace Program

variable {p : Program} {b : Block} {l : List Turn} {m m' : Memory} {c : Command}

/-- The blocks are ready to run, they tell whether they have seeds, and a seed has one name: that of
its block and the interface of its message. -/
structure Ready (p : Program) : Prop where
  runnable : ∀ b ∈ p.blocks, b.runnable
  needsSeeds : ∀ b ∈ p.blocks, b.needsSeeds = b.schedule.any (·.seed.isSome)
  eq_of_id : ∀ a ∈ p.blocks, ∀ b ∈ p.blocks, a.id = b.id → a = b
  nodup : ∀ b ∈ p.blocks, b.order.Nodup

theorem Ready.laysFirst_actions (h : p.Ready) (hb : b ∈ p.blocks) : b.LaysFirst p.actions := by
  refine .flatMap fun a ha => ?_
  by_cases hid : b.id = a.id
  · rw [← h.eq_of_id b hb a ha hid]
    exact Block.laysFirst_actions (h.needsSeeds b hb)
  · exact Block.laysFirst_actions_of_ne hid

/-- **A block lays its seeds before it computes a message**, in every command. -/
theorem Ready.laysFirst_updates (h : p.Ready) (hb : b ∈ p.blocks) (c : Command) :
    b.LaysFirst (p.updates c) := by
  cases c with
  | initMarginals => exact Block.laysFirst_of_notMem fun _ => List.not_mem_nil
  | step => exact h.laysFirst_actions hb
  | execute n =>
    have hall : b.LaysFirst
        ((List.replicate (n.getD p.options.iterations).toNat p.actions).flatMap fun l => l) :=
      .flatMap fun l hl => List.eq_of_mem_replicate hl ▸ h.laysFirst_actions hb
    rwa [List.flatMap_id'] at hall

/-! ## Passes -/

/-- **A pass that is completed has moved all seeds of its block on**, whatever it began with. -/
theorem iterating_of_passBlock (h : p.passBlock b m = .ok () m') {i : InterfaceId}
    (hi : b.Seeded i) : m'.phase b.id i = .iterating := by
  obtain ⟨e, he, rfl, hs⟩ := hi
  have hkeep : ∀ a : Action,
      Keeps (fun m => m.phase b.id e.interface = .iterating) (a.run p.graph p.options) := by
    intro a
    refine .intro (fun m _ m' hm h => ?_) fun m f m' hm h => Action.eq_of_run_error h ▸ hm
    cases Action.moves_of_run h with
    | none _ _ hp => exact hp ▸ hm
    | lay j _ _ hfresh hp =>
      rw [hp, Memory.phase_putPhase]
      split
      · rename_i hj
        obtain ⟨hid, rfl⟩ := hj
        rw [hid, hm] at hfresh
        contradiction
      · exact hm
    | renew j _ _ _ hp =>
      rw [hp, Memory.phase_putPhase]
      split
      · rfl
      · exact hm
  unfold passBlock at h
  split at h
  · rw [pass_eq, ← List.forM_eq_forM] at h
    refine Attempt.holds_of_forM (P := fun (a : Action) (m : Memory) =>
      a = .replay b.id e → m.phase b.id e.interface = .iterating) ?_ ?_ h (.replay b.id e) ?_ rfl
    · rintro a - m m' hrun rfl
      obtain ⟨v, -, ⟨hnone, -⟩ | ⟨-, q, hadvance, rfl⟩⟩ := Block.replay_eq_ok.mp hrun
      · rw [hs] at hnone
        contradiction
      · obtain ⟨-, rfl⟩ := Phase.advance_eq_ok.mp hadvance
        change (m.putPhase b.id e.interface .iterating).phase b.id e.interface = _
        rw [Memory.phase_putPhase, if_pos ⟨rfl, rfl⟩]
    · intro a a' _ m hm ha
      exact hkeep a' m (hm ha)
    · exact List.mem_append_left _ (List.mem_append_right _ (List.mem_map_of_mem he))
  · contradiction

/-! ## Runs -/

/-- The turns since the run began, or since its last reset, and the memory that they have led to. A
run is made up of commands, which may fail, and of resets; between them, anything may be changed but
the phases of seeds. -/
inductive Since (p : Program) (phases : Table (String × InterfaceId) Phase) :
    List Turn → Memory → Prop
  | start {m : Memory} (hm : m.phases = phases) : Since p phases [] m
  | perform {l : List Turn} {m : Memory} (hm : Since p phases l m) (c : Command) :
      Since p phases (l ++ p.turns c m) ((p.perform c).outcome m).2
  | reset {l : List Turn} {m : Memory} (hm : Since p phases l m) : Since p phases [] (p.reset m)
  | change {l : List Turn} {m m' : Memory} (hm : Since p phases l m) (h : m'.phases = m.phases) :
      Since p phases l m'

/-- What a run keeps: the record of its turns, which all belong to passes, and that a message is
computed only when the seeds of its block have been laid. -/
structure Sound (p : Program) (l : List Turn) (m : Memory) : Prop where
  recorded : Recorded p.graph p.options (p.blocks.map (·.id)) l m
  taken : ∀ t ∈ l, ∃ b ∈ p.blocks, t.action ∈ b.actions
  laid : ∀ pre t post, l = pre ++ t :: post → ∀ b ∈ p.blocks, ∀ e, t.action = .replay b.id e →
    ∀ i, b.Seeded i →
      (b.id, i) ∈ layings p.graph p.options pre ∧ t.found.phase b.id i ≠ .uninitialized

/-- The opening of a command leaves the seeds where they are. -/
theorem recorded_of_opening {ids : List String} (h : Recorded p.graph p.options ids l m)
    (hm : ((p.opening c).outcome m).2 = m') : Recorded p.graph p.options ids l m' := by
  refine h.of_phase ?_
  have hstanding : Standing m.messages m.phases m' :=
    hm ▸ keeps_opening c m ⟨rfl, rfl⟩
  unfold Memory.phase
  rw [hstanding.2]

theorem Sound.perform (h : p.Sound l m) (hp : p.Ready) (c : Command) :
    p.Sound (l ++ p.turns c m) ((p.perform c).outcome m).2 := by
  unfold turns
  rw [perform_eq hp.runnable]
  cases hopen : p.opening c m with
  | error f u =>
    have hu := recorded_of_opening h.recorded (Attempt.outcome_snd_of_error hopen)
    rw [Attempt.outcome_snd_of_error (Attempt.bind_of_error hopen), List.append_nil]
    exact ⟨hu, h.taken, h.laid⟩
  | ok _ u =>
    have hu := recorded_of_opening h.recorded (Attempt.outcome_snd_of_ok hopen)
    have hblock : ∀ a ∈ p.updates c, a.block ∈ p.blocks.map (·.id) := fun a => block_of_mem_updates
    have houtcome : ((p.opening c >>= fun _ =>
        forM (p.updates c) (Action.run p.graph p.options)).outcome m).2 =
        ((forM (p.updates c) (Action.run p.graph p.options)).outcome u).2 := by
      unfold Attempt.outcome
      rw [Attempt.bind_of_ok hopen]
    rw [houtcome]
    refine ⟨hu.turns hblock, fun t ht => ?_, fun pre t post hl b hb e he i hi => ?_⟩
    · rcases List.mem_append.mp ht with ht | ht
      · exact h.taken t ht
      · exact exists_of_mem_updates (mem_of_mem_turns ht)
    · obtain ⟨s, hs⟩ | ⟨s, rfl, hs⟩ := append_eq_append_cons hl
      · exact h.laid pre t s hs b hb e he i hi
      · obtain ⟨⟨A, hA⟩, hturns, hforM⟩ := exists_of_turns_eq hs
        obtain ⟨k, hk, rfl, hseed⟩ := hi
        have hlay : .lay b.id k ∈ s.map Turn.action :=
          hp.laysFirst_updates hb c _ e A (he ▸ hA) k hk hseed
        have hstarted := started_of_mem hseed hforM hlay
        -- the turns so far are those of updates that succeed
        have hrecorded := hu.turns (A := s.map Turn.action) fun a ha =>
          hblock a (hA ▸ List.mem_append_left _ ha)
        rw [hturns, Attempt.outcome_snd_of_ok hforM] at hrecorded
        exact ⟨hrecorded.mem_layings (List.mem_map_of_mem hb) hstarted, hstarted⟩

theorem sound_of_since {phases : Table (String × InterfaceId) Phase} (hp : p.Ready)
    (hphases : ∀ b ∈ p.blocks, ∀ i, phases.get? (b.id, i) = none) (h : p.Since phases l m) :
    p.Sound l m := by
  have hempty : ∀ {m : Memory}, (∀ id ∈ p.blocks.map (·.id), ∀ i, m.phase id i = .uninitialized) →
      p.Sound [] m := by
    refine fun hm => ⟨.start hm, fun t ht => absurd ht List.not_mem_nil, fun pre t post hl => ?_⟩
    simp at hl
  induction h with
  | start hm =>
    refine hempty fun id hid i => ?_
    obtain ⟨b, hb, rfl⟩ := List.mem_map.mp hid
    unfold Memory.phase
    rw [hm, hphases b hb i]
    rfl
  | perform _ c ih => exact ih.perform hp c
  | @reset _ m _ _ =>
    refine hempty fun id hid i => ?_
    have hlogged : Logged [] (p.reset m) id := logged_reset m hid
    by_contra hi
    exact List.not_mem_nil (hlogged i hi)
  | change _ hm ih =>
    refine ⟨ih.recorded.of_phase ?_, ih.taken, ih.laid⟩
    unfold Memory.phase
    rw [hm]

/-- The seeds of a program in a run, of which these are the turns since it began or since the last
reset. -/
structure Lifecycle (p : Program) (l : List Turn) (m : Memory) : Prop where
  /-- How far a seed has come is what the turns have done to it. -/
  phase : ∀ b ∈ p.blocks, ∀ i, m.phase b.id i = phaseAfter p.graph p.options l b.id i
  /-- A seed is laid once at most. -/
  nodup : (layings p.graph p.options l).Nodup
  /-- When a block comes to computing a message, all its seeds have been laid, each once. -/
  laid : ∀ pre t post, l = pre ++ t :: post → ∀ b ∈ p.blocks, ∀ e, t.action = .replay b.id e →
    ∀ i, b.Seeded i → (layings p.graph p.options pre).count (b.id, i) = 1 ∧
      (layings p.graph p.options l).count (b.id, i) = 1
  /-- No move of a seed is refused. -/
  moves : ∀ t ∈ l, ∀ f, t.action.move t.found ≠ some (.error f)
  /-- An update that fails does so for want of its value. -/
  fails : ∀ t ∈ l, ∀ f m', t.action.run p.graph p.options t.found = .error f m' →
    t.action.value p.graph p.options t.found = .error f
  /-- A command that fails does so before its updates, or for want of the value of one. -/
  performs : ∀ c f m', p.perform c m = .error f m' → p.opening c m = .error f m' ∨
    ∃ t ∈ p.turns c m, t.found = m' ∧ t.action.value p.graph p.options m' = .error f

theorem Sound.moves (h : p.Sound l m) {t : Turn} (ht : t ∈ l) (f : Failure) :
    t.action.move t.found ≠ some (.error f) := by
  obtain ⟨b, hb, ha⟩ := h.taken t ht
  rcases Block.mem_actions ha with ⟨e, he, heq | heq⟩ | ⟨e, -, heq⟩
  · rw [heq]
    unfold Action.move
    dsimp only
    by_cases hfresh : t.found.phase b.id e.interface = .uninitialized
    · rw [hfresh]
      split <;> simp [Phase.seed]
    · simp [hfresh]
  · rw [heq]
    unfold Action.move
    dsimp only
    by_cases hs : e.seed.isSome
    · obtain ⟨pre, post, hl⟩ := List.append_of_mem ht
      have hstarted := (h.laid pre t post hl b hb e heq e.interface ⟨e, he, rfl, hs⟩).2
      simp [if_pos hs, Phase.advance_eq_ok.mpr ⟨hstarted, rfl⟩]
    · simp [if_neg hs]
  · simp [heq, Action.move]

theorem Sound.lifecycle (h : p.Sound l m) (hp : p.Ready) : p.Lifecycle l m where
  phase b hb := h.recorded.phase b.id (List.mem_map_of_mem hb)
  nodup := h.recorded.nodup
  laid pre t post hl b hb e he i hi := by
    have hnodup := h.recorded.nodup
    have hmem := (h.laid pre t post hl b hb e he i hi).1
    rw [hl, layings_append] at hnodup ⊢
    exact ⟨List.count_eq_one_of_mem hnodup.of_append_left hmem,
      List.count_eq_one_of_mem hnodup (List.mem_append_left _ hmem)⟩
  moves t ht := h.moves ht
  fails t ht f m' hrun := Action.value_of_run_error hrun (h.moves ht)
  performs c f m' hm := by
    have hnext := h.perform hp c
    rw [perform_eq hp.runnable] at hm
    rcases Attempt.bind_eq_error.mp hm with hopen | ⟨_, u, hopen, hfail⟩
    · exact Or.inl hopen
    · obtain ⟨t, ht, rfl, hrun⟩ := exists_turn_of_error hfail
      have hturns : t ∈ p.turns c m := by
        unfold turns
        rw [hopen]
        exact ht
      exact Or.inr ⟨t, hturns, rfl,
        Action.value_of_run_error hrun (hnext.moves (List.mem_append_right _ hturns))⟩

end Program

/-! ## Compiled posteriors -/

namespace Posterior

variable {g : Graph} {c : Catalogue} {sites : List InterfaceId} {reject : Option Bool}
  {p q : Posterior} {ids : List String}

/-- **The seeds of a compiled posterior come through every run.** However its commands are broken
off, no seed is laid twice between two resets, and every seed of a block has been laid once when the
block comes to computing a message. So no update fails because a seed may not be laid or may not
move on. When a pass over a block is completed, all its seeds have moved on. -/
theorem lifecycle_of_compile (hp : Built g p) (h : compile g c sites reject p = .ok ids q) :
    ∃ blocks, ids.mapM q.block = .ok blocks ∧ Program.Ready ⟨g, q.options, blocks⟩ ∧
      (∀ l m, Program.Since ⟨g, q.options, blocks⟩ q.phases l m →
        Program.Lifecycle ⟨g, q.options, blocks⟩ l m) ∧
      ∀ b ∈ blocks, ∀ m m', Program.passBlock ⟨g, q.options, blocks⟩ b m = .ok () m' →
        ∀ i, b.Seeded i → m'.phase b.id i = .iterating := by
  obtain ⟨blocks, hblocks, hcompiled⟩ := exists_blocks_of_compile hp h
  have hready : Program.Ready ⟨g, q.options, blocks⟩ :=
    { runnable := fun b hb => (hcompiled b hb).2.2.runnable
      needsSeeds := fun b hb => (hcompiled b hb).2.2.assembled.needsSeeds
      eq_of_id := fun a ha b hb hid => eq_of_mem_blocks hp h hblocks ha hb hid
      nodup := fun b hb => (hcompiled b hb).2.2.prepared.planned.nodup_order }
  refine ⟨blocks, hblocks, hready, fun l m hm => ?_, fun b _ m m' hpass i hi => ?_⟩
  · have hphases : ∀ b ∈ blocks, ∀ i, q.phases.get? (b.id, i) = none :=
      fun b hb => unlaid_of_compile h (hcompiled b hb).1
    exact (Program.sound_of_since hready hphases hm).lifecycle hready
  · exact Program.iterating_of_passBlock hpass hi

/-- The posterior of the circle after compiling. -/
def ringCompiled : Posterior :=
  ((compile ringGraph ringCatalogue [] none).outcome ringPosterior).2

/-- The compiled circle. -/
def ringProgram : Program :=
  ⟨ringGraph, ringCompiled.options, [(ringCompiled.blocks.get? "a").getD default]⟩

theorem mapM_block_ring : ["a"].mapM ringCompiled.block = .ok ringProgram.blocks := by
  have hsome : (ringCompiled.blocks.get? "a").isSome := by cbv
  obtain ⟨b, hb⟩ := Option.isSome_iff_exists.mp hsome
  unfold ringProgram
  rw [List.mapM_cons, block_eq_ok.mpr hb, hb]
  rfl

/-- Around a circle, seeds are laid in a pass, and after a reset once more. -/
theorem lifecycle_ring :
    Built ringGraph ringPosterior ∧
      compile ringGraph ringCatalogue [] none ringPosterior = .ok ["a"] ringCompiled ∧
      ["a"].mapM ringCompiled.block = .ok ringProgram.blocks ∧
      ∃ l m, ringProgram.Since ringCompiled.phases l m ∧
        layings ringGraph ringCompiled.options l = [("a", 0), ("a", 2)] ∧
        ringProgram.Lifecycle l m := by
  have hp : Built ringGraph ringPosterior := .addBlock (.fresh wholeOptions) _ _
  have hc : compile ringGraph ringCatalogue [] none ringPosterior = .ok ["a"] ringCompiled :=
    Attempt.eq_ok_of_outcome (by cbv)
  obtain ⟨blocks, hblocks, -, hlife, -⟩ := lifecycle_of_compile hp hc
  cases hblocks.symm.trans mapM_block_ring
  have hstart : ringProgram.Since ringCompiled.phases [] { phases := ringCompiled.phases } :=
    .start rfl
  have hm := ((hstart.perform .step).reset).perform .step
  exact ⟨hp, hc, mapM_block_ring, _, _, hm, by cbv, hlife _ _ hm⟩

end Posterior

end MessagePassing
