import MessagePassing.Proofs.Assembly.Constraints
import MessagePassing.Proofs.Run.FirstValues

/-!
# What a reset restores

A reset takes messages and marginals away and lets all seeds be laid anew, but edges keep what they
carry, and the first values of the next execution replace it only where its type is another one. So
a run that starts over is compared with the first run update by update: both read the same, hence
they answer alike and write the same, and they differ at most in edges that still carry what they
did before the reset. A pass writes to all edges that first values may go to, so it ends the
difference.

Results:
* `Action.lockstep`, `Program.lockstep_renews_start`: updates and first values treat both runs
  alike.
* `Program.carries_of_steps`: after a pass, the edges of a variable carry its marginal.
* `Program.repeats_of_reset`: a reset leaves nothing but what the edges carry.
* **`Posterior.restart_of_compile`**: an execution after a reset does what it would do in a first
  run, except that edges may keep what they carried if no pass completes.
* `Posterior.stale_prior`: without a pass, an edge does keep it.
-/

namespace MessagePassing

open Attempt (Keeps Lockstep)

/-- What an edge may still carry from before. -/
abbrev Stale := EdgeId → Option Cell → Prop

/-- The memory `n` holds what `m` holds, except that an edge may be stale. -/
structure Memory.Repeats (stale : Stale) (m n : Memory) : Prop where
  initialized : n.initialized = m.initialized
  cells : ∀ s, (∀ e, s ≠ .edge e) → n.cell s = m.cell s
  edges : ∀ e, n.cell (.edge e) = m.cell (.edge e) ∨ stale e (n.cell (.edge e))

open Memory (Repeats)

theorem Memory.Repeats.mono {stale stale' : Stale} {m n : Memory} (h : Repeats stale m n)
    (hs : ∀ e, stale e (n.cell (.edge e)) →
      n.cell (.edge e) = m.cell (.edge e) ∨ stale' e (n.cell (.edge e))) : Repeats stale' m n where
  initialized := h.initialized
  cells := h.cells
  edges e := (h.edges e).elim Or.inl (hs e)

/-- No edge is stale. -/
theorem Memory.Repeats.cell_eq {m n : Memory} (h : Repeats (fun _ _ => False) m n) (s : Slot) :
    n.cell s = m.cell s := by
  cases s with
  | edge e => exact (h.edges e).resolve_right id
  | _ => exact h.cells _ nofun

/-! ## Updates -/

namespace Action

variable {g : Graph} {o : Options} {stale : Stale} {m n : Memory} {a : Action}

/-- No update reads what an edge carries. -/
theorem ne_edge_of_mem_readSlots {s : Slot} (h : s ∈ a.readSlots) (e : EdgeId) : s ≠ .edge e := by
  rintro rfl
  cases a with
  | lay id x => exact absurd h nofun
  | replay id x =>
    rcases h with h | h
    · rcases mem_slotsOf h with ⟨i, -, h⟩ | ⟨t, -, h⟩ <;> contradiction
    · exact absurd h nofun
  | publish id x => rcases mem_slotsOf h with ⟨i, -, h⟩ | ⟨t, -, h⟩ <;> contradiction

/-- Whether and how an update fails is told by the places that it reads. -/
theorem answer_congr (h : ∀ s ∈ a.readSlots, m.cell s = n.cell s) :
    ((a.run g o).outcome n).1 = ((a.run g o).outcome m).1 := by
  cases a with
  | lay id e =>
    have hphase : m.phase id e.interface = n.phase id e.interface := Memory.phase_of_cell (h _ rfl)
    change ((Block.laySeed o id e).outcome n).1 = ((Block.laySeed o id e).outcome m).1
    unfold Attempt.outcome Block.laySeed
    cases e.seed with
    | none => rfl
    | some s =>
      by_cases hp : n.phase id e.interface = .uninitialized
      · simp only [hphase, hp, if_true]
        cases s.value o <;> rfl
      · simp only [hphase, hp, if_false]
  | replay id e =>
    have hphase : m.phase id e.interface = n.phase id e.interface :=
      Memory.phase_of_cell (h _ (Or.inr rfl))
    have hvalue : m.entryValue g e = n.entryValue g e :=
      entryValue_congr fun x hx => h x (Or.inl hx)
    change ((Block.replay g id e).outcome n).1 = ((Block.replay g id e).outcome m).1
    unfold Attempt.outcome Block.replay
    simp only [hvalue, hphase]
    cases n.entryValue g e with
    | error f => rfl
    | ok v =>
      cases e.seed.isSome with
      | false => rfl
      | true => cases (n.phase id e.interface).advance <;> rfl
  | publish id e =>
    have hvalue : m.marginalValue g e = n.marginalValue g e := marginalValue_congr h
    change ((Block.publish g e).outcome n).1 = ((Block.publish g e).outcome m).1
    unfold Attempt.outcome Block.publish
    simp only [hvalue]
    cases n.marginalValue g e with
    | error f => rfl
    | ok v => cases e.target <;> rfl

theorem initialized_of_run {m' : Memory} (h : a.run g o m = .ok () m') :
    m'.initialized = m.initialized := by
  have hm := Memory.Extends.refl m
  cases a with
  | lay id e => exact ((keeps_laySeed_extends e).of_ok hm h).initialized
  | replay id e => exact ((keeps_replay_extends e).of_ok hm h).initialized
  | publish id e => exact ((keeps_publish_extends e).of_ok hm h).initialized

/-- Two runs that read the same write the same to an edge, if they write to it. -/
theorem edge_of_run {m' n' : Memory} (hread : ∀ s ∈ a.readSlots, m.cell s = n.cell s)
    (hm : a.run g o m = .ok () m') (hn : a.run g o n = .ok () n') (e : EdgeId) :
    n'.cell (.edge e) = m'.cell (.edge e) ∨ n'.cell (.edge e) = n.cell (.edge e) := by
  by_cases he : .edge e ∈ a.writeSlots g
  · cases a with
    | lay id x => exact absurd he (by simp [writeSlots])
    | replay id x => exact absurd he (by simp [writeSlots])
    | publish id x =>
      obtain ⟨v, hv, hcell⟩ := cell_of_publish hm
      obtain ⟨v', hv', hcell'⟩ := cell_of_publish hn
      cases (marginalValue_congr hread).symm.trans hv |>.symm.trans hv'
      exact Or.inl (((hcell' _).1 he).trans ((hcell _).1 he).symm)
  · exact Or.inr ((confined a).frame hn _ he)

/-- **An update treats both runs alike.** -/
theorem lockstep : Lockstep (Repeats stale) (Repeats stale) (a.run g o) := by
  intro m n h
  have hread : ∀ s ∈ a.readSlots, m.cell s = n.cell s := fun s hs =>
    (h.cells s fun e => ne_edge_of_mem_readSlots hs e).symm
  refine ⟨answer_congr hread, ?_⟩
  have hanswer := answer_congr (g := g) (o := o) hread
  cases hm : a.run g o m with
  | error f m' =>
    cases hn : a.run g o n with
    | ok _ n' =>
      rw [Attempt.outcome_of_error hm, Attempt.outcome_of_ok hn] at hanswer
      contradiction
    | error f' n' =>
      rw [Attempt.outcome_snd_of_error hm, Attempt.outcome_snd_of_error hn, eq_of_run_error hm,
        eq_of_run_error hn]
      exact h
  | ok _ m' =>
    obtain ⟨n', hn, hsame⟩ := (confined a).congr hm hread
    rw [Attempt.outcome_snd_of_ok hm, Attempt.outcome_snd_of_ok hn]
    refine ⟨?_, fun s hs => (hsame s (h.cells s hs).symm).symm, fun e => ?_⟩
    · rw [initialized_of_run hm, initialized_of_run hn, h.initialized]
    · rcases edge_of_run hread hm hn e with he | he
      · exact Or.inl he
      · rcases h.edges e with heq | hstale
        · exact Or.inl (hsame _ heq.symm).symm
        · exact Or.inr (he ▸ hstale)

end Action

/-! ## First values -/

/-- All edges that carry something carry flat values. -/
def Memory.AllVague (o : Options) (m : Memory) : Prop :=
  ∀ e v, m.cell (.edge e) = some (.value v) → ∃ t, Value.vagueOf o t = .ok v

open Memory (AllVague)

namespace Program

variable {p : Program} {stale : Stale} {m n : Memory}

/-- The run `n` starts over where `m` starts. -/
def Renews (p : Program) (stale : Stale) (m n : Memory) : Prop :=
  Repeats stale m n ∧ AllVague p.options m

/-- What an edge carries after it has been given a value. -/
theorem cell_ensured {e : EdgeId} {t : TypeTerm} {v : Value} {s : Slot} :
    (if (m.edgeMarginal e).type? = some t then m else Memory.putEdgeMarginal v m e).cell s =
      if s = .edge e ∧ (m.edgeMarginal e).type? ≠ some t then some (.value v) else m.cell s := by
  by_cases ht : (m.edgeMarginal e).type? = some t
  · simp [ht]
  · simp [ht]

/-- An edge that is stale keeps what it carries, or it gets what the edge of a first run carries. -/
theorem renews_ensured {e : EdgeId} {t : TypeTerm} {v : Value}
    (hv : Value.vagueOf p.options t = .ok v) (h : p.Renews stale m n) :
    p.Renews stale
      (if (m.edgeMarginal e).type? = some t then m else Memory.putEdgeMarginal v m e)
      (if (n.edgeMarginal e).type? = some t then n else Memory.putEdgeMarginal v n e) := by
  refine ⟨⟨?_, fun s hs => ?_, fun f => ?_⟩, fun f u hu => ?_⟩
  · have hinit : ∀ k : Memory, (if (k.edgeMarginal e).type? = some t then k
        else Memory.putEdgeMarginal v k e).initialized = k.initialized := fun k => by split <;> rfl
    rw [hinit, hinit, h.1.initialized]
  · rw [cell_ensured, cell_ensured, if_neg fun hc => hs e hc.1, if_neg fun hc => hs e hc.1,
      h.1.cells s hs]
  · rw [cell_ensured, cell_ensured]
    by_cases hf : f = e
    · subst hf
      by_cases hn : (n.edgeMarginal f).type? = some t
      · rw [if_neg fun hc => hc.2 hn]
        rcases h.1.edges f with heq | hstale
        · rw [if_neg fun hc => hc.2 (Memory.edgeMarginal_of_cell heq ▸ hn)]
          exact Or.inl heq
        · exact Or.inr hstale
      · rw [if_pos ⟨rfl, hn⟩]
        by_cases hm : (m.edgeMarginal f).type? = some t
        · -- the flat value that the edge of the first run carries is the one that is given
          rw [if_neg fun hc => hc.2 hm, Memory.cell_of_type? hm]
          obtain ⟨t₀, ht₀⟩ := h.2 f _ (Memory.cell_of_type? hm)
          cases (vagueOf_type? ht₀ hm).symm.trans hv
          exact Or.inl rfl
        · rw [if_pos ⟨rfl, hm⟩]
          exact Or.inl rfl
    · have hne : Slot.edge f ≠ .edge e := fun hc => hf (Slot.edge.inj hc)
      rw [if_neg fun hc => hne hc.1, if_neg fun hc => hne hc.1]
      exact h.1.edges f
  · rw [cell_ensured] at hu
    split at hu
    · cases hu
      exact ⟨t, hv⟩
    · exact h.2 f u hu

/-- **First values treat both runs alike.** -/
theorem lockstep_renews_start : Lockstep (p.Renews stale) (Repeats stale) p.start := by
  refine lockstep_start (lockstep_initMarginals (fun m n t v h => ?_) fun e t v hv m n =>
    renews_ensured hv) (fun m n h => h.1.initialized) (fun m n h => h.1)
    fun m n h => ⟨rfl, h.cells, h.edges⟩
  have hedge : ∀ f : EdgeId, Slot.edge f ≠ .marginal t := fun f => nofun
  refine ⟨⟨h.1.initialized, fun s hs => ?_, fun f => ?_⟩, fun f u hu => ?_⟩
  · rw [Memory.cell_putMarginal, Memory.cell_putMarginal, h.1.cells s hs]
  · rw [Memory.cell_putMarginal, Memory.cell_putMarginal, if_neg (hedge f), if_neg (hedge f)]
    exact h.1.edges f
  · rw [Memory.cell_putMarginal, if_neg (hedge f)] at hu
    exact h.2 f u hu

/-! ## Executions -/

theorem lockstep_steps (k : Nat) : Lockstep (Repeats stale) (Repeats stale) (p.steps k) := by
  have hpass : ∀ b, Lockstep (Repeats stale) (Repeats stale) (p.passBlock b) := by
    intro b
    unfold passBlock
    rw [pass_eq, ← List.forM_eq_forM]
    split
    · exact Lockstep.forM fun a _ => Action.lockstep
    · exact Lockstep.throw _
  induction k with
  | zero => exact Lockstep.pure _
  | succ k ih => exact Lockstep.bind (Lockstep.forM fun b _ => hpass b) fun _ => ih

theorem lockstep_execute (k : Option Int) :
    Lockstep (p.Renews stale) (Repeats stale) (p.execute k) :=
  lockstep_renews_start.bind fun _ => lockstep_steps _

/-! ## After a pass -/

/-- The edges of a variable carry its marginal. -/
def Carries (p : Program) (x : String) (m : Memory) : Prop :=
  ∀ e ∈ p.graph.edgesOf x, m.cell (.edge e) = m.cell (.marginal (.variable x))

variable {x : String}

theorem keeps_carries (hg : p.graph.Coherent) (a : Action) :
    Keeps (p.Carries x) (a.run p.graph p.options) := by
  refine Keeps.intro (fun m _ m' hm h e he => ?_) fun m f m' hm h => Action.eq_of_run_error h ▸ hm
  have hframe := fun s hs => (Action.confined a).frame h s hs
  cases a with
  | lay id b =>
    rw [hframe _ (by simp [Action.writeSlots]), hframe _ (by simp [Action.writeSlots]), hm e he]
  | replay id b =>
    rw [hframe _ (by simp [Action.writeSlots]), hframe _ (by simp [Action.writeSlots]), hm e he]
  | publish id b =>
    obtain ⟨v, -, hcell⟩ := Action.cell_of_publish h
    by_cases hx : b.target = .variable x
    · rw [(hcell _).1 (Or.inr ⟨x, hx, e, he, rfl⟩), (hcell _).1 (Or.inl (hx ▸ rfl))]
    · -- an edge belongs to one variable
      have hedge : .edge e ∉ b.target.slots p.graph := by
        rintro (h | ⟨y, hy, f, hf, h⟩)
        · contradiction
        · cases h
          cases (hg.owner_of_mem_edgesOf he).symm.trans (hg.owner_of_mem_edgesOf hf)
          exact hx hy
      have hmarginal : .marginal (.variable x) ∉ b.target.slots p.graph := by
        rintro (h | ⟨y, -, f, -, h⟩)
        · exact hx (Slot.marginal.inj h).symm
        · contradiction
      rw [(hcell _).2 hedge, (hcell _).2 hmarginal, hm e he]

theorem carries_of_pass (hg : p.graph.Coherent) {b : Block} {m m' : Memory}
    (h : b.pass p.graph p.options m = .ok () m') (hx : .variable x ∈ b.marginalTargets) :
    p.Carries x m' := by
  obtain ⟨entry, hentry, htarget⟩ := List.mem_map.mp hx
  rw [pass_eq, ← List.forM_eq_forM] at h
  refine Attempt.holds_of_forM
    (P := fun (a : Action) (m : Memory) => a = .publish b.id entry → p.Carries x m)
    (fun a _ m m' h ha => ?_) (fun a c _ m hm ha => ?_) h (.publish b.id entry) ?_ rfl
  · subst ha
    obtain ⟨v, -, hcell⟩ := Action.cell_of_publish h
    intro e he
    rw [(hcell _).1 (Or.inr ⟨x, htarget, e, he, rfl⟩), (hcell _).1 (Or.inl (htarget ▸ rfl))]
  · exact keeps_carries hg c m (hm ha)
  · exact List.mem_append_right _ (List.mem_map_of_mem hentry)

theorem keeps_passBlock_carries (hg : p.graph.Coherent) (b : Block) :
    Keeps (p.Carries x) (p.passBlock b) := by
  unfold passBlock
  rw [pass_eq, ← List.forM_eq_forM]
  split
  · exact Keeps.forM fun a _ => keeps_carries hg a
  · exact Keeps.throw _

theorem keeps_steps_carries (hg : p.graph.Coherent) (k : Nat) :
    Keeps (p.Carries x) (p.steps k) := by
  induction k with
  | zero => exact Keeps.pure _
  | succ k ih => exact Keeps.bind (Keeps.forM fun b _ => keeps_passBlock_carries hg b) fun _ => ih

/-- **After a pass, the edges of a variable carry its marginal**, if a block computes that. -/
theorem carries_of_steps (hg : p.graph.Coherent) {k : Nat} (hk : 0 < k) {m m' : Memory}
    (h : p.steps k m = .ok () m') (hx : .variable x ∈ p.targets) : p.Carries x m' := by
  obtain ⟨k, rfl⟩ := Nat.exists_eq_succ_of_ne_zero hk.ne'
  obtain ⟨_, u, hstep, hrest⟩ := Attempt.bind_eq_ok.mp h
  obtain ⟨b, hb, hx⟩ := List.mem_flatMap.mp hx
  refine (keeps_steps_carries hg k).of_ok ?_ hrest
  refine Attempt.holds_of_forM (P := fun (b : Block) m => .variable x ∈ b.marginalTargets →
    p.Carries x m) (fun b _ m m' h hx => ?_) (fun b c _ m hm hx => ?_) hstep b hb hx
  · unfold passBlock at h
    split at h
    · exact carries_of_pass hg h hx
    · contradiction
  · exact keeps_passBlock_carries hg c m (hm hx)

/-! ## Places that a run leaves alone -/

/-- The place is a seed of another block, or an edge of a variable that no block computes. -/
def Foreign (p : Program) : Slot → Prop
  | .phase id _ => id ∉ p.blocks.map (·.id)
  | .edge e => ∀ x, .variable x ∈ p.targets → e ∉ p.graph.edgesOf x
  | _ => False

variable {s : Slot} {c : Option Cell}

theorem Foreign.not_mem_slots (hs : p.Foreign s) {b : Block} (hb : b ∈ p.blocks)
    {e : MarginalEntry} (he : e ∈ b.marginalTable) : s ∉ e.target.slots p.graph := by
  rintro (rfl | ⟨x, hx, f, hf, rfl⟩)
  · exact hs
  · exact hs x (List.mem_flatMap.mpr ⟨b, hb, List.mem_map.mpr ⟨e, he, hx⟩⟩) hf

theorem keeps_passBlock_foreign (hs : p.Foreign s) {b : Block} (hb : b ∈ p.blocks) :
    Keeps (fun m => m.cell s = c) (p.passBlock b) := by
  unfold passBlock
  rw [pass_eq, ← List.forM_eq_forM]
  split
  · refine Keeps.forM fun a ha => Keeps.intro (fun m _ m' hm h => ?_)
      fun m f m' hm h => Action.eq_of_run_error h ▸ hm
    have hentry : ∀ i, s ∉ ({.message i, .phase b.id i} : Set Slot) := by
      rintro i (rfl | rfl)
      · exact hs
      · exact hs (List.mem_map_of_mem hb)
    refine ((Action.confined a).frame h s ?_).trans hm
    rcases Block.mem_actions ha with ⟨e, -, rfl | rfl⟩ | ⟨e, he, rfl⟩
    · exact hentry e.interface
    · exact hentry e.interface
    · exact hs.not_mem_slots hb he
  · exact Keeps.throw _

/-- A run leaves foreign places alone. -/
theorem keeps_execute_foreign (hs : p.Foreign s) (k : Option Int) :
    Keeps (fun m => m.cell s = c) (p.execute k) := by
  have hsteps : ∀ k, Keeps (fun m => m.cell s = c) (p.steps k) := by
    intro k
    induction k with
    | zero => exact Keeps.pure _
    | succ k ih =>
      exact Keeps.bind (Keeps.forM fun b hb => keeps_passBlock_foreign hs hb) fun _ => ih
  refine Keeps.bind ?_ fun _ => hsteps _
  unfold start
  refine Keeps.bind Keeps.get fun m => ?_
  split
  · exact Keeps.bind (Keeps.forM fun b hb => Keeps.forM fun e he =>
      keeps_initMarginal_cell (hs.not_mem_slots hb he)) fun _ => Keeps.modify fun _ h => h
  · exact Keeps.pure _

/-! ## Starting over -/

/-- The number of passes of an execution. -/
def passes (p : Program) (k : Option Int) : Nat :=
  (k.getD p.options.iterations).toNat

/-- The memory that a first run starts with. -/
def blank (phases : Table (String × InterfaceId) Phase) : Memory :=
  { phases }

theorem allVague_blank {phases : Table (String × InterfaceId) Phase} (o : Options) :
    AllVague o (blank phases) := fun _ _ h => nomatch h

section History

variable {phases : Table (String × InterfaceId) Phase} {past : List (Option Int)}
  (hseeds : ∀ b ∈ p.blocks, ∀ i, phases.get? (b.id, i) = none)
  (hpast : past.forM p.execute (blank phases) = .ok () m)

include hpast in
theorem cell_of_past (hs : p.Foreign s) : m.cell s = (blank phases).cell s :=
  (Keeps.forM fun k _ => keeps_execute_foreign hs k).of_ok
    (I := fun m => m.cell s = (blank phases).cell s) rfl hpast

include hseeds hpast

/-- **A reset leaves nothing but what the edges carry.** -/
theorem repeats_of_reset :
    Repeats (fun e c => c = m.cell (.edge e)) (blank phases) (p.reset m) where
  initialized := rfl
  cells s hs := by
    cases s with
    | message i => rfl
    | marginal t => rfl
    | edge e => exact absurd rfl (hs e)
    | phase id i =>
      change ((m.phases.filterKeys _).get? (id, i)).map Cell.phase = (phases.get? (id, i)).map _
      rw [Table.get?_filterKeys]
      by_cases hid : id ∈ p.blocks.map (·.id)
      · obtain ⟨b, hb, rfl⟩ := List.mem_map.mp hid
        rw [if_neg, hseeds b hb i]
        intro hall
        simpa using List.all_eq_true.mp hall b hb
      · have hall : (p.blocks.all fun b => decide (b.id ≠ id)) = true :=
          List.all_eq_true.mpr fun b hb => decide_eq_true fun h => hid (List.mem_map.mpr ⟨b, hb, h⟩)
        rw [if_pos hall]
        exact cell_of_past hpast (s := .phase id i) hid
  edges e := Or.inr rfl

end History

theorem initialized_of_start {m' : Memory} (h : p.start m = .ok () m') : m'.initialized = true := by
  rw [start_eq] at h
  split at h
  · cases h
    assumption
  · split at h
    · cases h
      rfl
    · contradiction

/-- Without a pass, nothing but first values is given, and that only once. -/
theorem start_of_past {u : Memory} {past : List (Option Int)} (hnone : ∀ k ∈ past, p.passes k = 0)
    (hu : n = u ∨ p.start n = .ok () u) (hpast : past.forM p.execute u = .ok () m) :
    n = m ∨ p.start n = .ok () m := by
  induction past generalizing u with
  | nil =>
    obtain ⟨-, rfl⟩ := Attempt.pure_eq_ok.mp hpast
    exact hu
  | cons k past ih =>
    obtain ⟨_, w, hk, hrest⟩ := Attempt.bind_eq_ok.mp hpast
    obtain ⟨_, w', hstart, hsteps⟩ := Attempt.bind_eq_ok.mp hk
    change p.steps (p.passes k) w' = _ at hsteps
    rw [hnone k List.mem_cons_self] at hsteps
    obtain ⟨-, rfl⟩ := Attempt.pure_eq_ok.mp hsteps
    refine ih (fun k hk => hnone k (List.mem_cons_of_mem _ hk)) (Or.inr ?_) hrest
    rcases hu with rfl | hu
    · exact hstart
    · rw [start_eq, if_pos (initialized_of_start hu)] at hstart
      cases hstart
      exact hu

section Outcome

variable {phases : Table (String × InterfaceId) Phase} {past : List (Option Int)}
  (hg : p.graph.Coherent) (hseeds : ∀ b ∈ p.blocks, ∀ i, phases.get? (b.id, i) = none)
  (hpast : past.forM p.execute (blank phases) = .ok () m)

include hseeds hpast

/-- An execution after a reset answers as in a first run. -/
theorem repeats_of_execute (k : Option Int) :
    ((p.execute k).outcome (p.reset m)).1 = ((p.execute k).outcome (blank phases)).1 ∧
      Repeats (fun e c => c = m.cell (.edge e)) ((p.execute k).outcome (blank phases)).2
        ((p.execute k).outcome (p.reset m)).2 :=
  lockstep_execute k _ _ ⟨repeats_of_reset hseeds hpast, allVague_blank p.options⟩

/-- If there has been no pass, a reset restores everything. -/
theorem cell_eq_of_no_pass (hnone : ∀ k ∈ past, p.passes k = 0) (k : Option Int) (s : Slot) :
    ((p.execute k).outcome (p.reset m)).2.cell s =
      ((p.execute k).outcome (blank phases)).2.cell s := by
  have hreset := repeats_of_reset hseeds hpast
  have hstart : Lockstep (fun a b => a = blank phases ∧ b = p.reset m)
      (Repeats fun _ _ => False) p.start := by
    rintro _ _ ⟨rfl, rfl⟩
    rcases start_of_past hnone (Or.inl rfl) hpast with h | h
    · -- not even first values have been given
      refine lockstep_renews_start _ _ ⟨hreset.mono fun e he => Or.inl ?_, allVague_blank p.options⟩
      rw [he, h]
    · -- an edge keeps the first value that it would be given
      obtain ⟨hanswer, hstate⟩ := lockstep_renews_start _ _ ⟨hreset, allVague_blank p.options⟩
      refine ⟨hanswer, hstate.mono fun e he => Or.inl ?_⟩
      rw [he, Attempt.outcome_snd_of_ok h]
  have hexecute := hstart.bind (f := fun _ => p.steps (p.passes k)) fun _ => lockstep_steps _
  exact (hexecute _ _ ⟨rfl, rfl⟩).2.cell_eq s

include hg

/-- A pass puts the same on the edges as in a first run. -/
theorem cell_eq_of_passes {k : Option Int} (hk : 0 < p.passes k)
    (hok : ((p.execute k).outcome (blank phases)).1 = .ok ()) (s : Slot) :
    ((p.execute k).outcome (p.reset m)).2.cell s =
      ((p.execute k).outcome (blank phases)).2.cell s := by
  obtain ⟨hanswer, hrepeats⟩ := repeats_of_execute hseeds hpast k
  have hfirst := Attempt.eq_ok_of_outcome hok
  have hagain := Attempt.eq_ok_of_outcome (hanswer.trans hok)
  cases s with
  | edge e =>
    by_cases he : ∃ x, .variable x ∈ p.targets ∧ e ∈ p.graph.edgesOf x
    · obtain ⟨x, hx, he⟩ := he
      obtain ⟨_, u, -, hu⟩ := Attempt.bind_eq_ok.mp hfirst
      obtain ⟨_, w, -, hw⟩ := Attempt.bind_eq_ok.mp hagain
      rw [carries_of_steps hg hk hu hx e he, carries_of_steps hg hk hw hx e he]
      exact hrepeats.cells _ nofun
    · -- no run of the program writes to the edge
      have hforeign : p.Foreign (.edge e) := fun x hx hmem => he ⟨x, hx, hmem⟩
      have hm : m.cell (.edge e) = (blank phases).cell (.edge e) := cell_of_past hpast hforeign
      have hlast : ∀ u u', p.execute k u = .ok () u' → u'.cell (.edge e) = u.cell (.edge e) :=
        fun u u' h => (keeps_execute_foreign hforeign k).of_ok
          (I := fun m => m.cell (.edge e) = u.cell (.edge e)) rfl h
      rw [hlast _ _ hagain, hlast _ _ hfirst, ← hm]
      rfl
  | _ => exact hrepeats.cells _ nofun

end Outcome

end Program

/-! ## Compiled posteriors -/

namespace Posterior

variable {g : Graph} {c : Catalogue} {sites : List InterfaceId} {reject : Option Bool}
  {p q : Posterior} {ids : List String}

/-- **What a reset restores.** Let executions of a compiled posterior complete, the first of them
without messages and marginals, and let a reset follow. Then every further execution answers as it
would have done in their place, and leaves the same messages, marginals and seeds. An edge carries
what it would have carried then or what it carried before the reset; the latter makes a difference
only if there has been a pass, and none is completed after the reset. -/
theorem restart_of_compile (hg : g.Built) (hp : Built g p)
    (h : compile g c sites reject p = .ok ids q) :
    ∃ blocks, ids.mapM q.block = .ok blocks ∧ ∀ (past : List (Option Int)) (m : Memory),
      past.forM (Program.execute ⟨g, q.options, blocks⟩) (Program.blank q.phases) = .ok () m →
      ∀ k,
        let r : Program := ⟨g, q.options, blocks⟩
        let first := (r.execute k).outcome (Program.blank q.phases)
        let again := (r.execute k).outcome (r.reset m)
        again.1 = first.1 ∧ Repeats (fun e c => c = m.cell (.edge e)) first.2 again.2 ∧
          ((first.1 = .ok () ∧ 0 < r.passes k) ∨ (∀ k ∈ past, r.passes k = 0) →
            ∀ s, again.2.cell s = first.2.cell s) := by
  obtain ⟨blocks, hblocks, hcompiled⟩ := exists_blocks_of_compile hp h
  have hseeds : ∀ b ∈ blocks, ∀ i, q.phases.get? (b.id, i) = none := fun b hb =>
    unlaid_of_compile h (hcompiled b hb).1
  refine ⟨blocks, hblocks, fun past m hpast k => ?_⟩
  obtain ⟨hanswer, hrepeats⟩ := Program.repeats_of_execute hseeds hpast k
  refine ⟨hanswer, hrepeats, ?_⟩
  rintro (⟨hok, hk⟩ | hnone)
  · exact Program.cell_eq_of_passes hg.coherent hseeds hpast hk hok
  · exact Program.cell_eq_of_no_pass hseeds hpast hnone k

/-- The posterior with a block for the variable of a prior. -/
def freshPrior : Posterior :=
  ((addBlock priorGraph ["x"] (some "x")).outcome { options := wholeOptions }).2

/-- The compiled posterior. -/
def compiledPrior : Posterior :=
  ((compile priorGraph ⟨[priorRule none]⟩ [] none).outcome freshPrior).2

theorem built_freshPrior : Built priorGraph freshPrior :=
  .addBlock (.fresh _) _ _

theorem compile_freshPrior :
    compile priorGraph ⟨[priorRule none]⟩ [] none freshPrior = .ok ["x"] compiledPrior :=
  Attempt.eq_ok_of_outcome (by cbv)

/-- The program of a prior runs, and a reset does not restore the edge of the variable. -/
theorem exists_prior : ∃ b m first again, ["x"].mapM compiledPrior.block = .ok [b] ∧
    [some 1].forM (Program.execute ⟨priorGraph, compiledPrior.options, [b]⟩)
      (Program.blank compiledPrior.phases) = .ok () m ∧
    Program.execute ⟨priorGraph, compiledPrior.options, [b]⟩ (some 0)
      (Program.blank compiledPrior.phases) = .ok () first ∧
    Program.execute ⟨priorGraph, compiledPrior.options, [b]⟩ (some 0)
      (Program.reset ⟨priorGraph, compiledPrior.options, [b]⟩ m) = .ok () again ∧
    (first.edgeMarginal 0).render = "Distribution(Gaussian; m, v)" ∧
    (again.edgeMarginal 0).render = "Distribution(Gaussian; )" := by
  have hrun : (compiledPrior.blocks.get? "x").map (fun b =>
      let r : Program := ⟨priorGraph, compiledPrior.options, [b]⟩
      let u := Program.blank compiledPrior.phases
      let past := Attempt.outcome ([some 1].forM r.execute) u
      let first := Attempt.outcome (r.execute (some 0)) u
      let again := Attempt.outcome (r.execute (some 0)) (r.reset past.2)
      (past.1, first.1, again.1, (first.2.edgeMarginal 0).render,
        (again.2.edgeMarginal 0).render)) =
        some (.ok (), .ok (), .ok (), "Distribution(Gaussian; m, v)",
          "Distribution(Gaussian; )") := by cbv
  obtain ⟨b, hb, heq⟩ := Option.map_eq_some_iff.mp hrun
  simp only [Prod.mk.injEq] at heq
  obtain ⟨hpast, hfirst, hagain, hflat, hstale⟩ := heq
  exact ⟨b, _, _, _, mapM_eq_ok.mpr (.cons (block_eq_ok.mpr hb) .nil),
    Attempt.eq_ok_of_outcome hpast, Attempt.eq_ok_of_outcome hfirst,
    Attempt.eq_ok_of_outcome hagain, hflat, hstale⟩

/-- After a pass and a reset, an execution with a pass does the same as in a first run. -/
theorem restart_prior : priorGraph.Built ∧ Built priorGraph freshPrior ∧
    compile priorGraph ⟨[priorRule none]⟩ [] none freshPrior = .ok ["x"] compiledPrior ∧
    ∃ b m, ["x"].mapM compiledPrior.block = .ok [b] ∧
      [some 1].forM (Program.execute ⟨priorGraph, compiledPrior.options, [b]⟩)
        (Program.blank compiledPrior.phases) = .ok () m ∧
      ∃ first again,
        Program.execute ⟨priorGraph, compiledPrior.options, [b]⟩ (some 1)
          (Program.blank compiledPrior.phases) = .ok () first ∧
        Program.execute ⟨priorGraph, compiledPrior.options, [b]⟩ (some 1)
          (Program.reset ⟨priorGraph, compiledPrior.options, [b]⟩ m) = .ok () again ∧
        ∀ s, again.cell s = first.cell s := by
  obtain ⟨b, m, -, -, hblocks, hpast, -⟩ := exists_prior
  refine ⟨built_priorGraph, built_freshPrior, compile_freshPrior, b, m, hblocks, hpast, ?_⟩
  obtain ⟨blocks, hblocks', hrestart⟩ :=
    restart_of_compile built_priorGraph built_freshPrior compile_freshPrior
  cases hblocks.symm.trans hblocks'
  obtain ⟨hanswer, -, hall⟩ := hrestart [some 1] m hpast (some 1)
  have hfirst : (Attempt.outcome (Program.execute ⟨priorGraph, compiledPrior.options, [b]⟩
      (some 1)) (Program.blank compiledPrior.phases)).1 = .ok () := by
    obtain ⟨_, u, hu, hnil⟩ := Attempt.bind_eq_ok.mp hpast
    rw [Attempt.outcome_of_ok hu]
  exact ⟨_, _, Attempt.eq_ok_of_outcome hfirst, Attempt.eq_ok_of_outcome (hanswer.trans hfirst),
    hall (Or.inl ⟨hfirst, Nat.one_pos⟩)⟩

/-- **A reset does not restore what edges carry**: without a pass after it, the edge of a variable
keeps the marginal of the run before. -/
theorem stale_prior : priorGraph.Built ∧ Built priorGraph freshPrior ∧
    compile priorGraph ⟨[priorRule none]⟩ [] none freshPrior = .ok ["x"] compiledPrior ∧
    ∃ b m first again, ["x"].mapM compiledPrior.block = .ok [b] ∧
      [some 1].forM (Program.execute ⟨priorGraph, compiledPrior.options, [b]⟩)
        (Program.blank compiledPrior.phases) = .ok () m ∧
      Program.execute ⟨priorGraph, compiledPrior.options, [b]⟩ (some 0)
        (Program.blank compiledPrior.phases) = .ok () first ∧
      Program.execute ⟨priorGraph, compiledPrior.options, [b]⟩ (some 0)
        (Program.reset ⟨priorGraph, compiledPrior.options, [b]⟩ m) = .ok () again ∧
      again.edgeMarginal 0 ≠ first.edgeMarginal 0 := by
  obtain ⟨b, m, first, again, hblocks, hpast, hfirst, hagain, hflat, hstale⟩ := exists_prior
  refine ⟨built_priorGraph, built_freshPrior, compile_freshPrior, b, m, first, again, hblocks,
    hpast, hfirst, hagain, fun h => ?_⟩
  rw [h, hflat] at hstale
  exact absurd hstale (by decide)

end Posterior

end MessagePassing
