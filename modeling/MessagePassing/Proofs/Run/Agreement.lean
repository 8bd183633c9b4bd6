import MessagePassing.Proofs.Run.Pass
import MessagePassing.Proofs.Run.Trace

/-!
# Runs that do not show what was there before

The accesses of a run say which messages it reads and which it sends. If every message is sent
before it is read, then it makes no difference what stood in its place before: two memories that are
the same except for messages that have not been sent yet stay so, update by update, and the commands
of the run are answered alike.

Results:
* `Program.lockstep_initMarginals`, `Program.lockstep_start`: first values treat two runs alike if
  putting a marginal does.
* `Program.traced`: the accesses of a program that is ready to run say what its commands do.
* `LimitedTo.agreeOn`: an update treats two memories alike that agree on what it reads.
* **`Program.unseen_of_covered`**: a run that reads only what has been sent does not show what the
  messages were before.
-/

namespace MessagePassing

open Attempt (Lockstep)

/-! ## First values in two runs -/

namespace Program

section FirstValues

variable {p : Program} {R S : Memory → Memory → Prop}

theorem lockstep_ensureMarginal {g : Graph} {e : EdgeId} {t : TypeTerm} {v : Value}
    (h : ∀ m n, R m n →
      R (if (m.edgeMarginal e).type? = some t then m else Memory.putEdgeMarginal v m e)
        (if (n.edgeMarginal e).type? = some t then n else Memory.putEdgeMarginal v n e)) :
    Lockstep R R
      (Memory.ensureMarginal g e t (.ok v) >>= fun _ => pure () : Attempt Memory Unit) := by
  cases hallow : g.allow e t with
  | error f =>
    have herror : ∀ m, Memory.ensureMarginal g e t (.ok v) m = .error f m := by
      intro m
      rw [Memory.ensureMarginal_eq, hallow]
    intro m n hmn
    rw [Attempt.outcome_of_error (Attempt.bind_of_error (herror m)),
      Attempt.outcome_of_error (Attempt.bind_of_error (herror n))]
    exact ⟨rfl, hmn⟩
  | ok _ =>
    have hok : ∀ m, (Memory.ensureMarginal g e t (.ok v) >>= fun _ => pure () :
        Attempt Memory Unit) m =
          .ok () (if (m.edgeMarginal e).type? = some t then m
            else Memory.putEdgeMarginal v m e) := by
      intro m
      change EStateM.bind _ _ m = _
      unfold EStateM.bind
      rw [Memory.ensureMarginal_eq, hallow]
      by_cases hm : (m.edgeMarginal e).type? = some t <;> simp only [hm] <;> rfl
    intro m n hmn
    rw [Attempt.outcome_of_ok (hok m), Attempt.outcome_of_ok (hok n)]
    exact ⟨rfl, h m n hmn⟩

/-- First values treat two runs alike if putting a marginal, and giving one to an edge, does. -/
theorem lockstep_initMarginals (hput : ∀ m n t v, R m n → R (m.putMarginal t v) (n.putMarginal t v))
    (hedge : ∀ e t v, Value.vagueOf p.options t = .ok v → ∀ m n, R m n →
      R (if (m.edgeMarginal e).type? = some t then m else Memory.putEdgeMarginal v m e)
        (if (n.edgeMarginal e).type? = some t then n else Memory.putEdgeMarginal v n e)) :
    Lockstep R R p.initMarginals := by
  refine Lockstep.forM fun b _ => Lockstep.forM fun e _ => ?_
  unfold initMarginal
  split
  · exact Lockstep.throw _
  · refine Lockstep.liftM_bind fun v hv =>
      Lockstep.bind (Lockstep.modify fun m n => hput m n _ v) fun _ => ?_
    split
    · exact Lockstep.forM fun i _ => lockstep_ensureMarginal (hedge i _ v hv)
    · exact Lockstep.pure _

theorem lockstep_start (hinit : Lockstep R R p.initMarginals)
    (hsame : ∀ m n, R m n → n.initialized = m.initialized) (hkeep : ∀ m n, R m n → S m n)
    (hset : ∀ m n, S m n → S { m with initialized := true } { n with initialized := true }) :
    Lockstep R S p.start := by
  have hmake : Lockstep R S (do
      p.initMarginals
      modify fun m => { m with initialized := true } : Attempt Memory Unit) :=
    (hinit.mono (fun _ _ h => h) hkeep).bind fun _ => Lockstep.modify hset
  intro m n h
  have hget : ∀ k : Memory, p.start.outcome k = Attempt.outcome (if !k.initialized then (do
      p.initMarginals
      modify fun m => { m with initialized := true } : Attempt Memory Unit) else pure ()) k :=
    fun _ => rfl
  rw [hget, hget, hsame m n h]
  by_cases hm : m.initialized = true
  · rw [hm]
    exact ⟨rfl, hkeep m n h⟩
  · rw [Bool.eq_false_iff.mpr hm]
    exact hmake m n h

end FirstValues

/-! ## What accesses stand for -/

/-- The accesses of a program say what its commands do to messages. -/
structure Traced (p : Program) : Prop where
  /-- A command makes its updates, after what it does before them. -/
  performs : ∀ c, p.perform c =
    p.opening c >>= fun _ => forM (p.updates c) (Action.run p.graph p.options)
  /-- Before its updates, a command has nothing to do with messages. -/
  opens : ∀ c m, LimitedTo [] [] (p.opening c) m
  /-- An update depends on the messages that it is said to read and on no others, and it sends those
  that it is said to send and no others. -/
  updates : ∀ a m, LimitedTo (Action.reads a) (a.sent p.graph p.options m)
    (a.run p.graph p.options) m

variable {p : Program}

/-- One memory has these messages, and the other one is the same with those. -/
def Apart (t t' : Table InterfaceId Value) (m n : Memory) : Prop :=
  m.messages = t ∧ n = m.withMessages t'

theorem lockstep_opening (t t' : Table InterfaceId Value) (c : Command) :
    Lockstep (Apart t t') (Apart t t') (p.opening c) := by
  have hinit : Lockstep (Apart t t') (Apart t t') p.initMarginals := by
    refine lockstep_initMarginals (fun m n u v h => ⟨h.1, h.2 ▸ rfl⟩) fun e u v _ m n h => ?_
    obtain ⟨ht, rfl⟩ := h
    by_cases hm : (m.edgeMarginal e).type? = some u
    · rw [if_pos hm, if_pos (show ((m.withMessages t').edgeMarginal e).type? = some u from hm)]
      exact ⟨ht, rfl⟩
    · rw [if_neg hm, if_neg (show ((m.withMessages t').edgeMarginal e).type? ≠ some u from hm)]
      exact ⟨ht, rfl⟩
  cases c with
  | initMarginals => exact hinit
  | step => exact Lockstep.pure ()
  | execute k =>
    exact lockstep_start hinit (fun m n h => h.2 ▸ rfl) (fun _ _ h => h) fun m n h =>
      ⟨h.1, h.2 ▸ rfl⟩

theorem limited_opening (c : Command) (m : Memory) : LimitedTo [] [] (p.opening c) m := by
  refine ⟨((p.opening c).outcome m).1, ((p.opening c).outcome m).2, [], rfl, fun t _ => ?_⟩
  obtain ⟨hanswer, -, hstate⟩ := lockstep_opening m.messages t c m (m.withMessages t) ⟨rfl, rfl⟩
  exact Prod.ext hanswer hstate

/-- **The accesses of a program that is ready to run say what its commands do.** -/
theorem traced (h : ∀ b ∈ p.blocks, b.runnable) : p.Traced where
  performs := perform_eq h
  opens := limited_opening
  updates a m := a.limited p.graph p.options m

end Program

/-! ## Memories that agree on what was sent -/

/-- The memories are the same, except for messages that have not been sent. -/
structure Memory.AgreeOn (past : List Access) (m n : Memory) : Prop where
  rest : n = m.withMessages n.messages
  sent : ∀ id i, .write id i ∈ past → n.message i = m.message i

open Memory (AgreeOn)

section AgreeOn

variable {past past' : List Access} {m n : Memory} {i : InterfaceId}

theorem Memory.AgreeOn.mono (h : AgreeOn past m n)
    (hpast : ∀ id i, .write id i ∈ past' → .write id i ∈ past) : AgreeOn past' m n where
  rest := h.rest
  sent id i hi := h.sent id i (hpast id i hi)

/-- Where the same messages are sent, the messages are the same if they were or if they are among
those. -/
theorem message_foldl_insert {l : List (InterfaceId × Value)} {t t' : Table InterfaceId Value}
    (h : i ∈ l.map Prod.fst ∨ (m.withMessages t').message i = (m.withMessages t).message i) :
    (m.withMessages (l.foldl (fun t x => t.insert x.1 x.2) t')).message i =
      (m.withMessages (l.foldl (fun t x => t.insert x.1 x.2) t)).message i := by
  induction l generalizing t t' with
  | nil => exact h.resolve_left List.not_mem_nil
  | cons x l ih =>
    refine ih ?_
    have hsend : ∀ t, (m.withMessages (t.insert x.1 x.2)).message i =
        if x.1 = i then x.2 else (m.withMessages t).message i :=
      fun t => Memory.message_send (m.withMessages t) x.1 i x.2
    rw [hsend, hsend]
    by_cases hx : x.1 = i
    · exact Or.inr (by rw [if_pos hx, if_pos hx])
    · rw [if_neg hx, if_neg hx]
      refine h.imp_left fun hi => (List.mem_cons.mp hi).resolve_left ?_
      exact fun heq => hx heq.symm

/-- **An operation treats memories alike that agree on what it reads**, and they agree on what it
sends then. -/
theorem LimitedTo.agreeOn {reads sent : List InterfaceId} {x : Attempt Memory Unit}
    (hx : LimitedTo reads sent x m) (h : AgreeOn past m n) (id : String)
    (hread : ∀ i ∈ reads, .write id i ∈ past) :
    (x.outcome n).1 = (x.outcome m).1 ∧
      AgreeOn (past ++ sent.map (.write id)) (x.outcome m).2 (x.outcome n).2 := by
  obtain ⟨r, m', l, rfl, hx⟩ := hx
  have hm : x.outcome m = _ := hx m.messages fun _ _ => rfl
  have hn := hx n.messages fun i hi => h.sent id i (hread i hi)
  rw [← h.rest] at hn
  rw [hm, hn]
  refine ⟨rfl, rfl, fun k i hi => message_foldl_insert ?_⟩
  rcases List.mem_append.mp hi with hi | hi
  · exact Or.inr (h.sent k i hi)
  · obtain ⟨j, hj, heq⟩ := List.mem_map.mp hi
    cases heq
    exact Or.inl hj

end AgreeOn

/-! ## Covered accesses -/

/-- A place in two lists, one after the other, is in the first or in the second. -/
theorem append_eq_append_cons {α : Type} {l l' pre post : List α} {a : α}
    (h : l ++ l' = pre ++ a :: post) :
    (∃ t, l = pre ++ a :: t) ∨ ∃ t, pre = l ++ t ∧ l' = t ++ a :: post := by
  obtain ⟨t, hpre, hl'⟩ | ⟨t, hl, hpost⟩ := List.append_eq_append_iff.mp h
  · exact Or.inr ⟨t, hpre, hl'⟩
  · cases t with
    | nil => exact Or.inr ⟨[], by rw [hl, List.append_nil, List.append_nil], hpost.symm⟩
    | cons b t =>
      obtain ⟨rfl, -⟩ := List.cons.inj hpost
      exact Or.inl ⟨t, hl⟩

/-- Every message that is read has been sent before by the block that reads it. -/
def Covered (past l : List Access) : Prop :=
  ∀ pre id i post, l = pre ++ .read id i :: post → .write id i ∈ past ++ pre

section Covered

variable {past l l' : List Access} {m n : Memory} {g : Graph} {o : Options}

theorem covered_nil : Covered past [] := by
  intro pre id i post h
  simp at h

theorem covered_append : Covered past (l ++ l') ↔ Covered past l ∧ Covered (past ++ l) l' := by
  constructor
  · intro h
    refine ⟨fun pre id i post hl => h pre id i (post ++ l') ?_, fun pre id i post hl => ?_⟩
    · rw [hl, List.append_assoc, List.cons_append]
    · have := h (l ++ pre) id i post (by rw [hl, List.append_assoc])
      rwa [← List.append_assoc] at this
  · rintro ⟨h, h'⟩ pre id i post hl
    obtain ⟨t, ht⟩ | ⟨t, rfl, ht⟩ := append_eq_append_cons hl
    · exact h pre id i t ht
    · rw [← List.append_assoc]
      exact h' t id i post ht

/-- What a covered update reads was sent before the update. -/
theorem Action.written_of_covered {a : Action} (h : Covered past (a.accesses g o m))
    {i : InterfaceId} (hi : i ∈ a.reads) : .write a.block i ∈ past := by
  obtain ⟨s, t, hs⟩ := List.append_of_mem hi
  have hpre := h (s.map (.read a.block)) a.block i
    (t.map (.read a.block) ++ (a.sent g o m).map (.write a.block)) (by simp [accesses, hs])
  refine (List.mem_append.mp hpre).resolve_right fun hmem => ?_
  obtain ⟨j, -, heq⟩ := List.mem_map.mp hmem
  contradiction

theorem Action.agreeOn_run {a : Action} (h : AgreeOn past m n)
    (hc : Covered past (a.accesses g o m)) :
    ((a.run g o).outcome n).1 = ((a.run g o).outcome m).1 ∧
      AgreeOn (past ++ a.accesses g o m) ((a.run g o).outcome m).2 ((a.run g o).outcome n).2 := by
  obtain ⟨hanswer, hagree⟩ :=
    (a.limited g o m).agreeOn h a.block fun i hi => written_of_covered hc hi
  refine ⟨hanswer, hagree.mono fun id i hi => ?_⟩
  rcases List.mem_append.mp hi with hi | hi
  · exact List.mem_append_left _ hi
  · refine List.mem_append_right _ ((List.mem_append.mp hi).resolve_left fun hread => ?_)
    obtain ⟨j, -, heq⟩ := List.mem_map.mp hread
    contradiction

/-- Covered updates treat memories alike that agree on what was sent before. -/
theorem Action.agreeOn_forM {l : List Action} (h : AgreeOn past m n)
    (hc : Covered past (trace g o l m)) :
    ((forM l (run g o)).outcome n).1 = ((forM l (run g o)).outcome m).1 ∧
      AgreeOn (past ++ trace g o l m) ((forM l (run g o)).outcome m).2
        ((forM l (run g o)).outcome n).2 := by
  induction l generalizing past m n with
  | nil => exact ⟨rfl, h.mono fun id i hi => (List.append_nil past) ▸ hi⟩
  | cons a l ih =>
    unfold trace at hc ⊢
    obtain ⟨hhead, htail⟩ := covered_append.mp hc
    obtain ⟨hanswer, hagree⟩ := agreeOn_run h hhead
    rw [List.forM_cons, ← List.append_assoc]
    cases hm : a.run g o m with
    | error f m' =>
      have hfails := congrArg Prod.fst (Attempt.outcome_of_error hm)
      rw [Attempt.outcome_bind_of_error hfails,
        Attempt.outcome_bind_of_error (hanswer.trans hfails), List.append_nil]
      exact ⟨rfl, hagree⟩
    | ok _ m' =>
      have hsucceeds := congrArg Prod.fst (Attempt.outcome_of_ok hm)
      rw [Attempt.outcome_bind_of_ok hsucceeds,
        Attempt.outcome_bind_of_ok (hanswer.trans hsucceeds)]
      rw [Attempt.outcome_snd_of_ok hm] at hagree ⊢
      rw [hm] at htail
      exact ih hagree htail

end Covered

/-! ## Runs -/

namespace Program

variable (p : Program)

/-- The answers to a series of commands, and the memory that they leave. -/
def play : List Command → Memory → List (Except Failure Unit) × Memory
  | [], m => ([], m)
  | c :: l, m =>
    let r := (p.perform c).outcome m
    let rest := play l r.2
    (r.1 :: rest.1, rest.2)

/-- The messages that a memory holds before a run do not show. Whatever they are, the commands are
answered alike, and the memories that are left differ only in messages that the run has not sent. -/
def Unseen (l : List Command) (m : Memory) : Prop :=
  ∀ t, (p.play l (m.withMessages t)).1 = (p.play l m).1 ∧
    AgreeOn (p.trace l m) (p.play l m).2 (p.play l (m.withMessages t)).2

variable {p} {past : List Access} {m n : Memory}

theorem Traced.agreeOn_perform (hp : p.Traced) (h : AgreeOn past m n) {c : Command}
    (hc : Covered past (p.accesses c m)) :
    ((p.perform c).outcome n).1 = ((p.perform c).outcome m).1 ∧
      AgreeOn (past ++ p.accesses c m) ((p.perform c).outcome m).2
        ((p.perform c).outcome n).2 := by
  obtain ⟨hanswer, hagree⟩ := (hp.opens c m).agreeOn h "" nofun
  rw [List.map_nil, List.append_nil] at hagree
  rw [hp.performs]
  unfold accesses at hc ⊢
  cases hm : p.opening c m with
  | error f m' =>
    have hfails := congrArg Prod.fst (Attempt.outcome_of_error hm)
    rw [Attempt.outcome_bind_of_error hfails,
      Attempt.outcome_bind_of_error (hanswer.trans hfails), List.append_nil]
    exact ⟨rfl, hagree⟩
  | ok _ m' =>
    have hsucceeds := congrArg Prod.fst (Attempt.outcome_of_ok hm)
    rw [Attempt.outcome_bind_of_ok hsucceeds,
      Attempt.outcome_bind_of_ok (hanswer.trans hsucceeds)]
    rw [Attempt.outcome_snd_of_ok hm] at hagree ⊢
    rw [hm] at hc
    exact Action.agreeOn_forM hagree hc

/-- A run that reads only what was sent treats memories alike that agree on what was sent before. -/
theorem Traced.agreeOn_play (hp : p.Traced) (h : AgreeOn past m n) {l : List Command}
    (hc : Covered past (p.trace l m)) :
    (p.play l n).1 = (p.play l m).1 ∧
      AgreeOn (past ++ p.trace l m) (p.play l m).2 (p.play l n).2 := by
  induction l generalizing past m n with
  | nil => exact ⟨rfl, h.mono fun id i hi => (List.append_nil past) ▸ hi⟩
  | cons c l ih =>
    obtain ⟨hhead, htail⟩ := covered_append.mp hc
    obtain ⟨hanswer, hagree⟩ := hp.agreeOn_perform h hhead
    obtain ⟨hanswers, hrest⟩ := ih hagree htail
    refine ⟨congrArg₂ List.cons hanswer hanswers, ?_⟩
    unfold trace
    rw [← List.append_assoc]
    exact hrest

/-- **A run that reads only what it has sent does not show what the messages were before.** -/
theorem Traced.unseen_of_covered (hp : p.Traced) {l : List Command}
    (hc : Covered [] (p.trace l m)) : p.Unseen l m := by
  intro t
  have hstart : AgreeOn [] m (m.withMessages t) := ⟨rfl, fun _ _ h => absurd h List.not_mem_nil⟩
  exact hp.agreeOn_play hstart hc

end Program

end MessagePassing
