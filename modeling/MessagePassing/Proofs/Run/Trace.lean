import MessagePassing.Proofs.Assembly.Reads
import MessagePassing.Run.Program

/-!
# The accesses of a run

A pass is a list of updates: seeds are laid, messages are computed, marginals are published. The
trace of a run lists which messages the updates read and which they send, in order. A run is a
series of commands to a program. A command that fails leaves what it has done so far, and the next
one goes on from there.

Results:
* `pass_eq`, `step_eq`, `steps_eq`, `perform_eq`: the passes of the model make the updates that the
  trace is about.
* **`Action.limited`**: what an update does depends only on the messages that it is said to read,
  and it changes only those that it is said to send.
-/

namespace MessagePassing

open Attempt (Keeps)

/-- An access of a block to the message of an interface. -/
inductive Access where
  /-- The message is read. -/
  | read (block : String) (i : InterfaceId)
  /-- The message is sent. -/
  | write (block : String) (i : InterfaceId)
deriving DecidableEq

/-- An update of a pass over a block. -/
inductive Action where
  /-- The seed of an entry is laid. -/
  | lay (block : String) (e : ScheduleEntry)
  /-- The message of an entry is computed. -/
  | replay (block : String) (e : ScheduleEntry)
  /-- A marginal is computed. -/
  | publish (block : String) (e : MarginalEntry)

namespace Action

variable (g : Graph) (o : Options)

/-- The block that the update is for. -/
def block : Action → String
  | lay id _ | replay id _ | publish id _ => id

/-- Makes an update. -/
def run : Action → Attempt Memory Unit
  | lay id e => Block.laySeed o id e
  | replay id e => Block.replay g id e
  | publish _ e => Block.publish g e

/-- The messages that an update reads. -/
def reads : Action → List InterfaceId
  | lay _ _ => []
  | replay _ e => messagesOf e.inbounds
  | publish _ e => messagesOf e.inbounds

/-- The messages that an update sends, if it succeeds. A seed is laid only once. -/
def sends (m : Memory) : Action → List InterfaceId
  | lay id e =>
    if e.seed.isSome ∧ m.phase id e.interface = .uninitialized then [e.interface] else []
  | replay _ e => [e.interface]
  | publish _ _ => []

/-- The messages that an update sends. -/
def sent (a : Action) (m : Memory) : List InterfaceId :=
  match a.run g o m with
  | .ok _ _ => a.sends m
  | .error _ _ => []

/-- The accesses of an update: what it reads, and then what it sends. -/
def accesses (a : Action) (m : Memory) : List Access :=
  a.reads.map (.read a.block) ++ (a.sent g o m).map (.write a.block)

/-- The accesses of a list of updates, up to the first that fails. -/
def trace : List Action → Memory → List Access
  | [], _ => []
  | a :: l, m =>
    a.accesses g o m ++
      match a.run g o m with
      | .ok _ m' => trace l m'
      | .error _ _ => []

end Action

/-- The updates of a pass over a block. -/
def Block.actions (b : Block) : List Action :=
  (if b.needsSeeds then b.schedule.map (.lay b.id) else []) ++ b.schedule.map (.replay b.id) ++
    b.marginalTable.map (.publish b.id)

/-- What can be asked of a program. -/
inductive Command where
  /-- Every marginal gets a flat value. -/
  | initMarginals
  /-- One pass over all blocks. -/
  | step
  /-- Several passes, after every marginal has got a flat value once. -/
  | execute (n : Option Int)

namespace Program

variable (p : Program)

/-- The updates of a pass over all blocks. -/
def actions : List Action :=
  p.blocks.flatMap Block.actions

/-- Carries out a command. -/
def perform : Command → Attempt Memory Unit
  | .initMarginals => p.initMarginals
  | .step => p.step
  | .execute n => p.execute n

/-- What a command does before its updates. -/
def opening : Command → Attempt Memory Unit
  | .initMarginals => p.initMarginals
  | .step => pure ()
  | .execute _ => p.start

/-- The updates of a command. -/
def updates : Command → List Action
  | .initMarginals => []
  | .step => p.actions
  | .execute n => (List.replicate (n.getD p.options.iterations).toNat p.actions).flatten

/-- The accesses of a command. -/
def accesses (c : Command) (m : Memory) : List Access :=
  match p.opening c m with
  | .ok _ m' => Action.trace p.graph p.options (p.updates c) m'
  | .error _ _ => []

/-- The accesses of a run, which is a series of commands. -/
def trace : List Command → Memory → List Access
  | [], _ => []
  | c :: l, m => p.accesses c m ++ trace l ((p.perform c).outcome m).2

end Program

/-! ## Passes as lists of updates -/

theorem forM_flatMap {m : Type → Type} [Monad m] [LawfulMonad m] {α β : Type} (l : List α)
    (f : α → List β) (x : β → m PUnit) :
    forM (l.flatMap f) x = forM l fun a => forM (f a) x := by
  induction l with
  | nil => rfl
  | cons a l ih => rw [List.flatMap_cons, List.forM_append, List.forM_cons, ih]

theorem pass_eq (g : Graph) (o : Options) (b : Block) :
    b.pass g o = forM b.actions (Action.run g o) := by
  unfold Block.pass Block.actions
  rw [List.forM_append, List.forM_append]
  simp only [List.forM_map, bind_assoc, List.forM_eq_forM]
  cases b.needsSeeds with
  | true =>
    rw [if_pos rfl, if_pos rfl, List.forM_map]
    rfl
  | false =>
    rw [if_neg nofun, if_neg nofun, List.forM_nil, pure_bind]
    rfl

/-- The updates of a pass, by what they are for. -/
theorem Block.mem_actions {b : Block} {x : Action} (h : x ∈ b.actions) :
    (∃ e ∈ b.schedule, x = .lay b.id e ∨ x = .replay b.id e) ∨
      ∃ m ∈ b.marginalTable, x = .publish b.id m := by
  unfold Block.actions at h
  rw [List.mem_append, List.mem_append] at h
  rcases h with (h | h) | h
  · split at h
    · obtain ⟨e, he, rfl⟩ := List.mem_map.mp h
      exact Or.inl ⟨e, he, Or.inl rfl⟩
    · exact absurd h List.not_mem_nil
  · obtain ⟨e, he, rfl⟩ := List.mem_map.mp h
    exact Or.inl ⟨e, he, Or.inr rfl⟩
  · obtain ⟨m, hm, rfl⟩ := List.mem_map.mp h
    exact Or.inr ⟨m, hm, rfl⟩

namespace Program

variable {p : Program} (h : ∀ b ∈ p.blocks, b.runnable)

include h

theorem step_eq : p.step = forM p.actions (Action.run p.graph p.options) := by
  unfold step actions
  rw [forM_flatMap, List.forM_eq_forM]
  generalize p.blocks = l at h
  induction l with
  | nil => rfl
  | cons b l ih =>
    rw [List.forM_cons, List.forM_cons, ih fun c hc => h c (List.mem_cons_of_mem _ hc), ← pass_eq,
      passBlock, if_pos (h b List.mem_cons_self)]

theorem steps_eq (n : Nat) :
    p.steps n = forM (List.replicate n p.actions).flatten (Action.run p.graph p.options) := by
  induction n with
  | zero => rfl
  | succ n ih =>
    rw [List.replicate_succ, List.flatten_cons, List.forM_append, ← ih, ← step_eq h]
    rfl

/-- **A command makes the updates that its accesses are about**, if all blocks are ready to run. -/
theorem perform_eq (c : Command) :
    p.perform c =
      p.opening c >>= fun _ => forM (p.updates c) (Action.run p.graph p.options) := by
  cases c with
  | initMarginals =>
    change p.initMarginals = p.initMarginals >>= fun _ => pure ()
    rw [bind_pure_unit]
  | step =>
    change p.step = pure () >>= fun _ => forM p.actions _
    rw [pure_bind, step_eq h]
  | execute n =>
    change (p.start >>= fun _ => p.steps _) = _
    rw [steps_eq h]
    rfl

end Program

/-! ## Updates and their accesses -/

/-- The memory with other messages. -/
def Memory.withMessages (m : Memory) (t : Table InterfaceId Value) : Memory :=
  { m with messages := t }

section Dependence

variable {m : Memory} {g : Graph} {t : Table InterfaceId Value}

theorem valueOf_withMessages {l : List Source}
    (h : ∀ i ∈ messagesOf l, (m.withMessages t).message i = m.message i) {s : Source}
    (hs : s ∈ l) : (m.withMessages t).valueOf g s = m.valueOf g s := by
  cases s with
  | nothing => rfl
  | constant n => rfl
  | marginal x => rfl
  | message i =>
    have hi : i ∈ messagesOf l := mem_messagesOf.mpr hs
    unfold Memory.valueOf
    dsimp only
    rw [h i hi]

theorem mapM_valueOf_withMessages {l : List Source}
    (h : ∀ i ∈ messagesOf l, (m.withMessages t).message i = m.message i) :
    l.mapM ((m.withMessages t).valueOf g) = l.mapM (m.valueOf g) := by
  have hl : ∀ s ∈ l, (m.withMessages t).valueOf g s = m.valueOf g s := fun s hs =>
    valueOf_withMessages h hs
  clear h
  induction l with
  | nil => rfl
  | cons s l ih =>
    rw [List.mapM_cons, List.mapM_cons, hl s List.mem_cons_self,
      ih fun s hs => hl s (List.mem_cons_of_mem _ hs)]

theorem entryValue_withMessages {e : ScheduleEntry}
    (h : ∀ i ∈ messagesOf e.inbounds, (m.withMessages t).message i = m.message i) :
    (m.withMessages t).entryValue g e = m.entryValue g e := by
  unfold Memory.entryValue
  rw [mapM_valueOf_withMessages h]

theorem marginalValue_withMessages {e : MarginalEntry}
    (h : ∀ i ∈ messagesOf e.inbounds, (m.withMessages t).message i = m.message i) :
    (m.withMessages t).marginalValue g e = m.marginalValue g e := by
  have hone : ∀ i, e.inbounds = [.message i] → (m.withMessages t).message i = m.message i := by
    intro i hi
    exact h i (by rw [hi]; exact List.mem_singleton_self i)
  have htwo : ∀ i j, e.inbounds = [.message i, .message j] →
      (m.withMessages t).message i = m.message i ∧ (m.withMessages t).message j = m.message j := by
    intro i j hij
    exact ⟨h i (by rw [hij]; exact List.mem_cons_self),
      h j (by rw [hij]; exact List.mem_cons_of_mem _ (List.mem_singleton_self j))⟩
  unfold Memory.marginalValue
  split
  · rename_i i _ hi
    rw [hone i hi]
  · rename_i i j _ hij
    rw [(htwo i j hij).1, (htwo i j hij).2]
  · rw [mapM_valueOf_withMessages h]
  · rfl
  · rfl

/-- What an operation does depends on the messages only through those that it reads, and all that it
does to them is to send some. -/
def LimitedTo (reads sent : List InterfaceId) (x : Attempt Memory Unit) (m : Memory) : Prop :=
  ∃ r m', ∃ l : List (InterfaceId × Value), l.map Prod.fst = sent ∧
    ∀ t, (∀ i ∈ reads, (m.withMessages t).message i = m.message i) →
      x.outcome (m.withMessages t) =
        (r, Memory.withMessages m' (l.foldl (fun t x => t.insert x.1 x.2) t))

/-- How far seeds have come is no matter of messages. -/
theorem phase_withMessages : (m.withMessages t).phase = m.phase := rfl

theorem limited_lay (o : Options) (id : String) (e : ScheduleEntry) (m : Memory) :
    LimitedTo [] ((Action.lay id e).sent g o m) (Block.laySeed o id e) m := by
  unfold LimitedTo Attempt.outcome Action.sent Action.run Action.sends Block.laySeed
  simp only [phase_withMessages]
  cases e.seed with
  | none => exact ⟨.ok (), m, [], rfl, fun t _ => rfl⟩
  | some s =>
    by_cases hp : m.phase id e.interface = .uninitialized
    · simp only [hp, if_true, Phase.seed]
      cases s.value o with
      | error f => exact ⟨.error f, m, [], rfl, fun t _ => rfl⟩
      | ok v =>
        exact ⟨.ok (), m.putPhase id e.interface .seeded, [(e.interface, v)], rfl, fun t _ => rfl⟩
    · simp only [hp, if_false]
      exact ⟨.ok (), m, [], by simp, fun t _ => rfl⟩

theorem limited_replay (o : Options) (id : String) (e : ScheduleEntry) (m : Memory) :
    LimitedTo (messagesOf e.inbounds) ((Action.replay id e).sent g o m) (Block.replay g id e)
      m := by
  unfold LimitedTo Attempt.outcome Action.sent Action.run Action.sends Block.replay
  simp only [phase_withMessages]
  cases hv : m.entryValue g e with
  | error f =>
    refine ⟨.error f, m, [], rfl, fun t ht => ?_⟩
    rw [entryValue_withMessages ht, hv]
    rfl
  | ok v =>
    cases e.seed.isSome with
    | false =>
      refine ⟨.ok (), m, [(e.interface, v)], rfl, fun t ht => ?_⟩
      rw [entryValue_withMessages ht, hv]
      rfl
    | true =>
      cases (m.phase id e.interface).advance with
      | error f =>
        refine ⟨.error f, m, [], rfl, fun t ht => ?_⟩
        rw [entryValue_withMessages ht, hv]
        rfl
      | ok p =>
        refine ⟨.ok (), m.putPhase id e.interface p, [(e.interface, v)], rfl, fun t ht => ?_⟩
        rw [entryValue_withMessages ht, hv]
        rfl

theorem foldl_putEdgeMarginal_withMessages (v : Value) (l : List EdgeId) (m : Memory) :
    l.foldl (Memory.putEdgeMarginal v) (m.withMessages t) =
      (l.foldl (Memory.putEdgeMarginal v) m).withMessages t := by
  induction l generalizing m with
  | nil => rfl
  | cons e l ih => exact ih (Memory.putEdgeMarginal v m e)

theorem limited_publish (o : Options) (id : String) (e : MarginalEntry) (m : Memory) :
    LimitedTo (messagesOf e.inbounds) ((Action.publish id e).sent g o m) (Block.publish g e) m := by
  have hsent : (Action.publish id e).sent g o m = [] := by
    unfold Action.sent Action.sends
    split <;> rfl
  rw [hsent]
  unfold LimitedTo Attempt.outcome Block.publish
  cases hv : m.marginalValue g e with
  | error f =>
    refine ⟨.error f, m, [], rfl, fun t ht => ?_⟩
    rw [marginalValue_withMessages ht, hv]
    rfl
  | ok v =>
    rcases e.target with x | x
    · refine ⟨.ok (),
        (g.edgesOf x).foldl (Memory.putEdgeMarginal v) (m.putMarginal (.variable x) v), [], rfl,
        fun t ht => ?_⟩
      rw [marginalValue_withMessages ht, hv]
      exact congrArg (Prod.mk _) (foldl_putEdgeMarginal_withMessages v (g.edgesOf x)
        (m.putMarginal (.variable x) v))
    · refine ⟨.ok (), m.putMarginal (.cluster x) v, [], rfl, fun t ht => ?_⟩
      rw [marginalValue_withMessages ht, hv]
      rfl

/-- **An update depends only on the messages that it reads**, and all that it does to the messages
is to send those that it is said to send. -/
theorem Action.limited (a : Action) (g : Graph) (o : Options) (m : Memory) :
    LimitedTo a.reads (a.sent g o m) (a.run g o) m := by
  cases a with
  | lay id e => exact limited_lay o id e m
  | replay id e => exact limited_replay o id e m
  | publish id e => exact limited_publish o id e m

end Dependence

end MessagePassing
