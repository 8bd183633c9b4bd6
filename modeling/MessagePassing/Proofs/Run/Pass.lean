import MessagePassing.Proofs.Outcome
import MessagePassing.Run.Pass

/-!
# What an update does

A pass lays seeds, computes messages and publishes marginals. Each of these updates either fails and
changes nothing, or it sends one message or puts one marginal.

Results:
* `message_send`, `phase_putPhase`: what is read after an update.
* `laySeed_eq_ok`, `replay_eq_ok`, `publish_eq_ok`: what an update that succeeds has done.
* `laySeed_eq_error`, `replay_eq_error`, `publish_eq_error`: when an update fails; it changes
  nothing then.
* `ensureMarginal_make`: an edge takes a value unless the graph refuses it or the edge carries one
  of the type.
-/

namespace MessagePassing

namespace Memory

variable (m : Memory) (i j : InterfaceId) (v : Value)

theorem message_send : (m.send i v).message j = if i = j then v else m.message j := by
  unfold message send
  rw [Table.get?_insert]
  split <;> rfl

theorem phase_putPhase (k id : String) (p : Phase) :
    (m.putPhase k i p).phase id j = if k = id ∧ i = j then p else m.phase id j := by
  unfold phase putPhase
  rw [Table.get?_insert]
  simp only [Prod.mk.injEq]
  split <;> rfl

theorem phase_foldl_putEdgeMarginal (l : List EdgeId) :
    (l.foldl (putEdgeMarginal v) m).phase = m.phase := by
  induction l generalizing m with
  | nil => rfl
  | cons e l ih => exact ih (putEdgeMarginal v m e)

end Memory

namespace Block

variable {g : Graph} {o : Options} {id : String} {m m' : Memory} {f : Failure}

section Entries

variable {e : ScheduleEntry}

theorem laySeed_eq_ok :
    laySeed o id e m = .ok () m' ↔
      (e.seed = none ∨ m.phase id e.interface ≠ .uninitialized) ∧ m' = m ∨
        ∃ s v, e.seed = some s ∧ m.phase id e.interface = .uninitialized ∧ s.value o = .ok v ∧
          m' = (m.putPhase id e.interface .seeded).send e.interface v := by
  unfold laySeed
  cases e.seed with
  | none => simp [eq_comm]
  | some s =>
    by_cases hp : m.phase id e.interface = .uninitialized
    · simp only [hp, if_true, Phase.seed]
      cases hs : s.value o with
      | error f => simp [hs]
      | ok v => simp [hs, eq_comm]
    · simp [hp, eq_comm]

/-- A seed is laid only when its turn has come, so it is refused only if it has no value. -/
theorem laySeed_eq_error :
    laySeed o id e m = .error f m' ↔ m' = m ∧ ∃ s, e.seed = some s ∧
      m.phase id e.interface = .uninitialized ∧ s.value o = .error f := by
  unfold laySeed
  cases e.seed with
  | none => simp
  | some s =>
    by_cases hp : m.phase id e.interface = .uninitialized
    · simp only [hp, if_true, Phase.seed]
      cases hs : s.value o with
      | error f => simp [hs, eq_comm, and_comm]
      | ok v => simp [hs]
    · simp [hp]

theorem eq_of_laySeed_error (h : laySeed o id e m = .error f m') : m' = m :=
  (laySeed_eq_error.mp h).1

theorem replay_eq_ok :
    replay g id e m = .ok () m' ↔
      ∃ v, m.entryValue g e = .ok v ∧
        (e.seed.isSome = false ∧ m' = m.send e.interface v ∨
          e.seed.isSome = true ∧ ∃ p, (m.phase id e.interface).advance = .ok p ∧
            m' = (m.putPhase id e.interface p).send e.interface v) := by
  unfold replay
  cases m.entryValue g e with
  | error f => simp
  | ok v =>
    cases e.seed.isSome with
    | false => simp [eq_comm]
    | true => cases (m.phase id e.interface).advance <;> simp [eq_comm]

/-- An entry fails without a value, or if its seed has not been laid. -/
theorem replay_eq_error :
    replay g id e m = .error f m' ↔ m' = m ∧ (m.entryValue g e = .error f ∨
      (∃ v, m.entryValue g e = .ok v) ∧ e.seed.isSome = true ∧
        (m.phase id e.interface).advance = .error f) := by
  unfold replay
  cases m.entryValue g e with
  | error f' =>
    constructor
    · intro h
      cases h
      exact ⟨rfl, Or.inl rfl⟩
    · rintro ⟨rfl, h | ⟨⟨v, h⟩, -⟩⟩
      · cases h
        rfl
      · contradiction
  | ok v =>
    cases e.seed.isSome with
    | false => simp
    | true => cases (m.phase id e.interface).advance <;> simp [eq_comm, and_comm]

theorem eq_of_replay_error (h : replay g id e m = .error f m') : m' = m :=
  (replay_eq_error.mp h).1

/-- An entry that is replayed sends its value, and it changes no other message and no marginal. -/
theorem message_of_replay (h : replay g id e m = .ok () m') :
    ∃ v, m.entryValue g e = .ok v ∧ m'.marginals = m.marginals ∧
      ∀ i, m'.message i = if e.interface = i then v else m.message i := by
  obtain ⟨v, hv, ⟨-, rfl⟩ | ⟨-, p, -, rfl⟩⟩ := replay_eq_ok.mp h
  · exact ⟨v, hv, rfl, fun i => m.message_send e.interface i v⟩
  · exact ⟨v, hv, rfl, fun i => (m.putPhase id e.interface p).message_send e.interface i v⟩

end Entries

section Marginals

variable {e : MarginalEntry}

theorem publish_eq_ok :
    publish g e m = .ok () m' ↔
      ∃ v, m.marginalValue g e = .ok v ∧ m' = match e.target with
        | .variable x => (g.edgesOf x).foldl (Memory.putEdgeMarginal v) (m.putMarginal e.target v)
        | .cluster _ => m.putMarginal e.target v := by
  unfold publish
  cases m.marginalValue g e with
  | error f => simp
  | ok v => rcases e.target with x | x <;> simp [eq_comm]

theorem publish_eq_error :
    publish g e m = .error f m' ↔ m' = m ∧ m.marginalValue g e = .error f := by
  unfold publish
  cases m.marginalValue g e with
  | error f => simp [eq_comm, and_comm]
  | ok v => rcases e.target with x | x <;> simp

theorem eq_of_publish_error (h : publish g e m = .error f m') : m' = m :=
  (publish_eq_error.mp h).1

end Marginals

end Block

/-! ## The marginal of an edge -/

namespace Graph

variable (g : Graph)

/-- Refuses a marginal of a type on an edge that does not exist, or that is declared to be of
another type. -/
def allow (e : EdgeId) (t : TypeTerm) : Except Failure Unit := do
  let edge ← g.edge e
  match edge.declared with
  | some d => if d.admits t then pure () else throw (.marginalForbidden t e edge.owner d)
  | none => pure ()

end Graph

namespace Memory

variable {g : Graph} {e : EdgeId} {t : TypeTerm} {v : Value} {m : Memory}

/-- **How an edge takes a marginal**: unless the graph refuses it, the edge carries a value that is
made for it afterwards, or the one of the type that it had. -/
theorem ensureMarginal_make (make : Except Failure Value) :
    ensureMarginal g e t make m =
      match g.allow e t with
      | .error f => .error f m
      | .ok () =>
        if (m.edgeMarginal e).type? = some t then .ok false m
        else match make with
          | .error f => .error f m
          | .ok v => .ok true (putEdgeMarginal v m e) := by
  have hrest : (do
      let m ← get
      if (m.edgeMarginal e).type? = some t then return false
      let v ← make
      set (putEdgeMarginal v m e)
      return true : Attempt Memory Bool) m =
        if (m.edgeMarginal e).type? = some t then .ok false m
        else match make with
          | .error f => .error f m
          | .ok v => .ok true (putEdgeMarginal v m e) := by
    change (if _ then (pure false : Attempt Memory Bool) else _) m = _
    split
    · rfl
    · cases make <;> rfl
  unfold ensureMarginal Graph.allow
  cases hedge : g.edge e with
  | error f => rfl
  | ok edge =>
    rw [Attempt.bind_of_ok (Attempt.liftM_eq_ok.mpr ⟨rfl, rfl⟩), ok_bind]
    cases hd : edge.declared with
    | none => exact hrest
    | some d =>
      dsimp only
      cases hadmits : d.admits t with
      | true => exact hrest
      | false => rfl

theorem ensureMarginal_eq :
    ensureMarginal g e t (.ok v) m =
      match g.allow e t with
      | .error f => .error f m
      | .ok () =>
        if (m.edgeMarginal e).type? = some t then .ok false m
        else .ok true (putEdgeMarginal v m e) :=
  ensureMarginal_make (.ok v)

end Memory

end MessagePassing
