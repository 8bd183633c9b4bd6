import MessagePassing.Proofs.Assembly.Coverage
import MessagePassing.Proofs.Run.Assignment

/-!
# Which marginals are missing in a run

An execution gives every marginal of a marginal table a first value, and nothing but a reset takes
a marginal away again. So a run that fails because a marginal has no value was after one that is in
no table, unless a procedure has failed in this way by itself.

Results:
* `Program.Reached.covers`: in every state that commands lead to, the marginals of all tables have
  values once a first value has been given.
* `Program.missing_of_execute`: an execution fails for want of a marginal only if a block reads one
  that is in no table, or a procedure says so.
* **`Posterior.missing_of_compile`**: after compiling, such a marginal is that of a variable which
  is in no block and the type of which is declared.
* `Posterior.not_closed_presumed`: such a variable may be read, and then the run fails.
-/

namespace MessagePassing

open Attempt (Keeps FailsFrom)

/-- The rules by which a block computes. -/
def Block.rules (b : Block) : List Rule :=
  b.schedule.filterMap (·.rule) ++ b.marginalTable.filterMap (·.rule)

/-- A procedure of the block may fail as if a marginal of this name had no value. -/
def Block.Raises (b : Block) (s : String) : Prop :=
  ∃ r ∈ b.rules, ∃ f, r.procedure = some f ∧ ∃ l, f l = .error (.marginalMissing s)

/-- If a marginal is missing, its name has the property. -/
def Failure.Wants (P : String → Prop) (f : Failure) : Prop :=
  ∀ s, f = .marginalMissing s → P s

theorem Failure.OfValue.wants {P : String → Prop} {f : Failure} (h : f.OfValue) : f.Wants P :=
  fun _ hs => absurd (hs ▸ rfl) h.2

namespace Memory

/-- These marginals have values. -/
def Covers (T : List Target) (m : Memory) : Prop :=
  ∀ t ∈ T, (m.marginals.get? t).isSome

/-- A marginal is read that has no value, or a procedure says so. -/
inductive Missing (m : Memory) (l : List Source) (r : Option Rule) (s : String) : Prop
  /-- A source has no value. -/
  | absent {t : Target} (ht : t ∈ targetsOf l) (hm : m.marginals.get? t = none) (hs : s = t.id)
  /-- The procedure of the rule fails. -/
  | raised {rule : Rule} {f : Procedure} {args : List Argument} (hr : r = some rule)
      (hf : rule.procedure = some f) (h : f args = .error (.marginalMissing s))

end Memory

/-! ## What is computed -/

section Computed

variable {m : Memory} {g : Graph} {P : String → Prop}

theorem failsOnly_entryAt {α : Type} (l : List α) (i : Nat) :
    FailsOnly (Failure.Wants P) (entryAt l i) := by
  unfold entryAt
  split
  · exact .ok _
  · exact .error nofun

theorem failsOnly_valueOf {l : List Source} {r : Option Rule} {source : Source}
    (h : source ∈ l) : FailsOnly (Failure.Wants (m.Missing l r)) (m.valueOf g source) := by
  cases source with
  | nothing => exact .ok _
  | message i => exact .ok _
  | constant n => exact (failsOnly_entryAt _ n).bind fun _ => .ok _
  | marginal t =>
    unfold Memory.valueOf
    dsimp only
    cases hm : m.marginals.get? t with
    | some v => exact .ok v
    | none =>
      refine .error fun s hs => ?_
      cases hs
      exact .absent (mem_targetsOf.mpr h) hm rfl

theorem failsOnly_procedureOf {l : List Source} {r : Option Rule} (args : List Argument) :
    FailsOnly (Failure.Wants (m.Missing l r)) (Memory.procedureOf r args) := by
  unfold Memory.procedureOf
  cases hf : r.bind (·.procedure) with
  | none => exact .error nofun
  | some f =>
    obtain ⟨rule, hr, hf⟩ := Option.bind_eq_some_iff.mp hf
    intro e he s hs
    exact .raised hr hf (hs ▸ he)

theorem failsOnly_factorCounts (args : List Value) :
    FailsOnly (Failure.Wants P) (factorCounts args) := by
  fun_induction factorCounts args with
  | case1 => exact .ok _
  | case2 _ _ ih => exact ih.map
  | case3 _ ih => exact ih
  | case4 => exact .error nofun

theorem failsOnly_applyOneByOne {f : Procedure} (hf : ∀ l, FailsOnly (Failure.Wants P) (f l))
    (lead : Argument) (args : List Value) :
    FailsOnly (Failure.Wants P) (applyOneByOne f lead args) := by
  unfold applyOneByOne
  refine (failsOnly_factorCounts args).bind fun counts => ?_
  dsimp only
  split
  · refine (FailsOnly.mapM fun _ _ => hf _).bind fun outs => ?_
    cases outs with
    | nil => exact .error nofun
    | cons _ _ => exact .ok _
  · exact .error nofun

/-- The message of an entry can be computed unless a marginal that it reads is missing. -/
theorem failsOnly_entryValue (e : ScheduleEntry) :
    FailsOnly (Failure.Wants (m.Missing e.inbounds e.rule)) (m.entryValue g e) := by
  unfold Memory.entryValue
  refine (failsOnly_entryAt _ e.node).bind fun node => ?_
  cases node.observed with
  | some value => exact .ok _
  | none =>
    refine (FailsOnly.mapM fun _ hs => failsOnly_valueOf hs).bind fun args => ?_
    exact .ite (fun _ => failsOnly_applyOneByOne failsOnly_procedureOf _ _)
      fun _ => failsOnly_procedureOf _

/-- A marginal can be computed unless another one that it reads is missing. -/
theorem failsOnly_marginalValue (e : MarginalEntry) :
    FailsOnly (Failure.Wants (m.Missing e.inbounds e.rule)) (m.marginalValue g e) := by
  unfold Memory.marginalValue
  split
  · exact .ok _
  · exact failsOnly_procedureOf _
  · exact (FailsOnly.mapM fun _ hs => failsOnly_valueOf hs).bind fun _ => failsOnly_procedureOf _
  · exact .error nofun
  · exact .error nofun

theorem FailsOnly.wants {α : Type} {x : Except Failure α} (h : FailsOnly Failure.OfValue x) :
    FailsOnly (Failure.Wants P) x := fun f hf => (h f hf).wants

theorem failsOnly_sizes (memory : Nat) (dims : List Int) :
    FailsOnly Failure.OfValue (Tensor.sizes memory dims) := by
  have hgrow : ∀ bytes size, FailsOnly Failure.OfValue (Tensor.growBytes bytes size) := by
    intro bytes size
    exact .ite (fun _ => .ok _) fun _ => .ite (fun _ => .error ⟨nofun, nofun⟩) fun _ =>
      .ite (fun _ => .error ⟨nofun, nofun⟩) fun _ => .ok _
  exact .guard ⟨nofun, nofun⟩ <| .guard ⟨nofun, nofun⟩ <|
    .bind (.foldlM (fun bytes size _ => hgrow bytes size) _) fun _ =>
      .guard ⟨nofun, nofun⟩ (.ok _)

/-- A seed fails for reasons of values, also one that is registered by a caller. -/
theorem failsOnly_params (o : Options) (family : String) (dims : List Int) (seed : FlatSeed) :
    FailsOnly Failure.OfValue (seed.params o family dims) := by
  have hone : FailsOnly Failure.OfValue (oneDimension family dims) := by
    unfold oneDimension
    split
    · exact .ok _
    · exact .error ⟨nofun, nofun⟩
  have hreal : ∀ x : Number, FailsOnly Failure.OfValue x.inDouble := by
    intro x
    cases x with
    | real x => exact .ok x
    | whole n => exact .ite (fun _ => .ok _) fun _ => .error ⟨nofun, nofun⟩
  cases seed with
  | pair first second => exact (failsOnly_sizes _ dims).map
  | square =>
    exact hone.bind fun n => (failsOnly_sizes _ _).bind fun _ => (failsOnly_sizes _ _).bind fun _ =>
      (hreal _).bind fun _ => .ok _
  | shares =>
    exact hone.bind fun n => .guard ⟨nofun, nofun⟩ <| (hreal _).bind fun _ =>
      (failsOnly_sizes _ _).bind fun _ => .ok _
  | computed f h => exact h o.toSettings dims

theorem failsOnly_vagueParams (o : Options) (family : String) (dims : List Int) :
    FailsOnly Failure.OfValue (Value.vagueParams o family dims) := by
  unfold Value.vagueParams
  split
  · exact failsOnly_params o family dims _
  · exact .ok _

/-- Flat values are made without reading a marginal. -/
theorem failsOnly_vagueOf (o : Options) (t : TypeTerm) :
    FailsOnly Failure.OfValue (Value.vagueOf o t) := by
  have hbelow : ∀ whole t, FailsOnly Failure.OfValue (Value.vagueBelow o whole t) := by
    intro whole t
    fun_induction Value.vagueBelow o whole t with
    | case1 _ _ ih => exact ih
    | case2 _ _ _ ih => exact ih
    | case3 => exact .error ⟨nofun, nofun⟩
    | case4 _ _ _ _ ih => exact ih.map
    | case5 => exact .error ⟨nofun, nofun⟩
    | case6 => exact (failsOnly_vagueParams o _ _).map
    | case7 => exact .error ⟨nofun, nofun⟩
  exact hbelow t t

end Computed

/-! ## Marginals stay -/

namespace Memory

variable {m m' : Memory} {T : List Target}

/-- The memory has a value for every marginal that another one has a value for, and is as far in its
run. -/
structure Extends (m₀ m : Memory) : Prop where
  initialized : m.initialized = m₀.initialized
  marginals : ∀ t, (m₀.marginals.get? t).isSome → (m.marginals.get? t).isSome

theorem Extends.refl (m : Memory) : Extends m m :=
  ⟨rfl, fun _ h => h⟩

theorem Extends.of_eq {m₀ : Memory} (h : Extends m₀ m) (hi : m'.initialized = m.initialized)
    (hm : m'.marginals = m.marginals) : Extends m₀ m' :=
  ⟨hi.trans h.initialized, fun t ht => hm ▸ h.marginals t ht⟩

theorem Extends.putMarginal {m₀ : Memory} (h : Extends m₀ m) (t : Target) (v : Value) :
    Extends m₀ (m.putMarginal t v) := by
  refine ⟨h.initialized, fun u hu => ?_⟩
  unfold Memory.putMarginal
  rw [Table.get?_insert]
  split
  · rfl
  · exact h.marginals u hu

theorem Extends.foldl_putEdgeMarginal {m₀ : Memory} (h : Extends m₀ m) (v : Value)
    (l : List EdgeId) : Extends m₀ (l.foldl (putEdgeMarginal v) m) := by
  induction l generalizing m with
  | nil => exact h
  | cons e l ih => exact ih (h.of_eq rfl rfl)

theorem Extends.covers (h : Extends m m') (hm : m.Covers T) : m'.Covers T :=
  fun t ht => h.marginals t (hm t ht)

end Memory

open Memory (Extends Covers)

section Updates

variable {g : Graph} {o : Options} {id : String} {m₀ : Memory}

theorem keeps_laySeed_extends (e : ScheduleEntry) : Keeps (Extends m₀) (Block.laySeed o id e) :=
  .intro
    (fun m _ m' hm h => by
      rcases Block.laySeed_eq_ok.mp h with ⟨-, rfl⟩ | ⟨s, v, -, -, -, rfl⟩
      · exact hm
      · exact hm.of_eq rfl rfl)
    fun m f m' hm h => Block.eq_of_laySeed_error h ▸ hm

theorem keeps_replay_extends (e : ScheduleEntry) : Keeps (Extends m₀) (Block.replay g id e) :=
  .intro
    (fun m _ m' hm h => by
      obtain ⟨v, -, ⟨-, rfl⟩ | ⟨-, p, -, rfl⟩⟩ := Block.replay_eq_ok.mp h
      · exact hm.of_eq rfl rfl
      · exact hm.of_eq rfl rfl)
    fun m f m' hm h => Block.eq_of_replay_error h ▸ hm

theorem keeps_publish_extends (e : MarginalEntry) : Keeps (Extends m₀) (Block.publish g e) :=
  .intro
    (fun m _ m' hm h => by
      obtain ⟨v, -, rfl⟩ := Block.publish_eq_ok.mp h
      split
      · exact (hm.putMarginal _ v).foldl_putEdgeMarginal v _
      · exact hm.putMarginal _ v)
    fun m f m' hm h => Block.eq_of_publish_error h ▸ hm

end Updates

namespace Program

variable {p : Program} {m₀ m m' : Memory}

/-- The targets of all marginal tables. -/
def targets (p : Program) : List Target :=
  p.blocks.flatMap Block.marginalTargets

theorem keeps_passBlock_extends (b : Block) : Keeps (Extends m₀) (p.passBlock b) := by
  unfold passBlock Block.pass
  have hreplay : Keeps (Extends m₀) (b.schedule.forM (Block.replay p.graph b.id)) :=
    Keeps.forM fun e _ => keeps_replay_extends e
  have hpublish : Keeps (Extends m₀) (b.marginalTable.forM (Block.publish p.graph)) :=
    Keeps.forM fun e _ => keeps_publish_extends e
  split
  · dsimp only
    split
    · exact Keeps.bind (Keeps.forM fun e _ => keeps_laySeed_extends e) fun _ =>
        Keeps.bind hreplay fun _ => hpublish
    · exact Keeps.bind hreplay fun _ => hpublish
  · exact Keeps.throw _

theorem keeps_steps_extends (n : Nat) : Keeps (Extends m₀) (p.steps n) := by
  induction n with
  | zero => exact Keeps.pure _
  | succ n ih => exact Keeps.bind (Keeps.forM fun b _ => keeps_passBlock_extends b) fun _ => ih

theorem keeps_initMarginals_extends : Keeps (Extends m₀) p.initMarginals :=
  keeps_initMarginals (fun _ _ _ h => h.of_eq rfl rfl) fun _ t v h => h.putMarginal t v

/-! ## First values -/

theorem keeps_initMarginal_isSome (t : Target) (e : MarginalEntry) :
    Keeps (fun m : Memory => (m.marginals.get? t).isSome) (p.initMarginal e) :=
  keeps_initMarginal (fun _ _ _ h => h)
    (fun m u v => ((Extends.refl m).putMarginal u v).marginals t) e

theorem isSome_of_initMarginal {e : MarginalEntry} (h : p.initMarginal e m = .ok () m') :
    (m'.marginals.get? e.target).isSome := by
  unfold initMarginal at h
  cases ht : e.type with
  | none => rw [ht] at h; contradiction
  | some t =>
    rw [ht] at h
    obtain ⟨v, m₁, hv, h⟩ := Attempt.bind_eq_ok.mp h
    obtain ⟨-, rfl⟩ := Attempt.liftM_eq_ok.mp hv
    obtain ⟨_, m₂, hput, h⟩ := Attempt.bind_eq_ok.mp h
    obtain rfl := Attempt.modify_eq_ok.mp hput
    have hsome : ((m.putMarginal e.target v).marginals.get? e.target).isSome := by
      unfold Memory.putMarginal
      rw [Table.get?_insert, if_pos rfl]
      rfl
    -- what is left concerns the edges of a variable
    refine Keeps.of_ok (I := fun m : Memory => (m.marginals.get? e.target).isSome) ?_ hsome h
    split
    · exact Keeps.forM fun i _ =>
        Keeps.bind (keeps_ensureMarginal (fun _ _ _ h => h) _ _ _ _) fun _ => Keeps.pure _
    · exact Keeps.pure _

/-- Once every marginal has been given a value, all of them have one. -/
theorem covers_of_initMarginals (h : p.initMarginals m = .ok () m') : m'.Covers p.targets := by
  have h : p.blocks.forM (fun b => b.marginalTable.forM p.initMarginal) m = .ok () m' := h
  have hblocks : ∀ b ∈ p.blocks, ∀ e ∈ b.marginalTable, (m'.marginals.get? e.target).isSome := by
    refine Attempt.holds_of_forM (P := fun (b : Block) (m : Memory) =>
      ∀ e ∈ b.marginalTable, (m.marginals.get? e.target).isSome) (fun b _ m m' h => ?_)
      (fun b b' _ => Keeps.forM fun f _ m hm e he =>
        keeps_initMarginal_isSome e.target f m (hm e he)) h
    exact Attempt.holds_of_forM (P := fun (e : MarginalEntry) (m : Memory) =>
      (m.marginals.get? e.target).isSome) (fun e _ _ _ => isSome_of_initMarginal)
      (fun e f _ => keeps_initMarginal_isSome e.target f) h
  intro t ht
  obtain ⟨b, hb, ht⟩ := List.mem_flatMap.mp ht
  obtain ⟨e, he, rfl⟩ := List.mem_map.mp ht
  exact hblocks b hb e he

/-- A start gives all marginals a value, unless that has been done. -/
theorem start_eq (m : Memory) : p.start m =
    if m.initialized then .ok () m else
      match p.initMarginals m with
      | .ok _ m' => .ok () { m' with initialized := true }
      | .error f m' => .error f m' := by
  have hget : p.start m = (if !m.initialized then (do
      p.initMarginals
      modify fun m => { m with initialized := true } : Attempt Memory Unit) else pure ()) m := rfl
  rw [hget]
  cases m.initialized with
  | true => rfl
  | false =>
    change EStateM.bind p.initMarginals _ m = _
    unfold EStateM.bind
    cases p.initMarginals m <;> rfl

/-- After a start all marginals have values. -/
theorem covers_of_start (hm : m.initialized = true → m.Covers p.targets)
    (h : p.start m = .ok () m') : m'.initialized = true ∧ m'.Covers p.targets := by
  rw [start_eq] at h
  cases hi : m.initialized with
  | true =>
    rw [hi, if_pos rfl] at h
    cases h
    exact ⟨hi, hm hi⟩
  | false =>
    rw [hi, if_neg nofun] at h
    cases hinit : p.initMarginals m with
    | error f m₁ => rw [hinit] at h; contradiction
    | ok _ m₁ =>
      rw [hinit] at h
      cases h
      exact ⟨rfl, fun t => covers_of_initMarginals hinit t⟩

/-- A start that fails is to be made again. -/
theorem initialized_of_start_error {f : Failure} (h : p.start m = .error f m') :
    m'.initialized = false := by
  rw [start_eq] at h
  cases hi : m.initialized with
  | true => rw [hi, if_pos rfl] at h; contradiction
  | false =>
    rw [hi, if_neg nofun] at h
    cases hinit : p.initMarginals m with
    | ok _ m₁ => rw [hinit] at h; contradiction
    | error f m₁ =>
      rw [hinit] at h
      cases h
      exact (keeps_initMarginals_extends.of_error (.refl m) hinit).initialized.trans hi

/-! ## States of a run -/

/-- The states that commands lead to, whether they succeed or fail. Between commands the messages
and the marginals of edges may be changed. -/
inductive Reached (p : Program) : Memory → Prop
  | fresh {m : Memory} (hm : m.initialized = false) : Reached p m
  | perform {m : Memory} (hm : Reached p m) (c : Command) :
      Reached p ((p.perform c).outcome m).2
  | reset {m : Memory} (hm : Reached p m) : Reached p (p.reset m)
  | change {m m' : Memory} (hm : Reached p m) (hi : m'.initialized = m.initialized)
      (hmarginals : m'.marginals = m.marginals) : Reached p m'

/-- A command keeps the marginals of the tables, once they have values. -/
theorem keeps_perform (c : Command) :
    Keeps (fun m => m.initialized = true → m.Covers p.targets) (p.perform c) := by
  have hextends : ∀ {x : Attempt Memory Unit}, (∀ m, Keeps (Extends m) x) →
      Keeps (fun m => m.initialized = true → m.Covers p.targets) x := fun hx m hm hi =>
    have hm' := hx m m (.refl m)
    hm'.covers (hm (hm'.initialized.symm.trans hi))
  cases c with
  | initMarginals => exact hextends fun _ => keeps_initMarginals_extends
  | step => exact hextends fun _ => Keeps.forM fun b _ => keeps_passBlock_extends b
  | execute n =>
    refine Keeps.bind (Keeps.intro (fun m _ m' hm h _ => (covers_of_start hm h).2)
      fun m f m' _ h hi => ?_) fun _ => hextends fun _ => keeps_steps_extends _
    rw [initialized_of_start_error h] at hi
    contradiction

/-- **Once first values have been given, the marginals of all tables have values.** -/
theorem Reached.covers (h : p.Reached m) : m.initialized = true → m.Covers p.targets := by
  induction h with
  | fresh hm =>
    intro hi
    rw [hm] at hi
    contradiction
  | perform _ c ih => exact keeps_perform c _ ih
  | reset _ _ => exact nofun
  | change _ hi hmarginals ih =>
    intro hi' t ht
    rw [hmarginals]
    exact ih (hi.symm.trans hi') t ht

end Program

/-! ## Updates that fail -/

section Failing

variable {g : Graph} {o : Options} {b : Block} {T : List Target} {m : Memory} {P : String → Prop}

/-- The block reads a marginal of this name that is not among these, or a procedure says so. -/
def Block.Lacks (b : Block) (T : List Target) (s : String) : Prop :=
  b.Raises s ∨ ∃ t ∈ b.marginalReads, t ∉ T ∧ s = t.id

theorem lacks_of_missing {l : List Source} {r : Option Rule} {s : String} (hm : m.Covers T)
    (hl : ∀ t ∈ targetsOf l, t ∈ b.marginalReads) (hr : ∀ rule, r = some rule → rule ∈ b.rules)
    (h : m.Missing l r s) : b.Lacks T s := by
  cases h with
  | absent ht hnone hs =>
    refine Or.inr ⟨_, hl _ ht, fun hT => ?_, hs⟩
    have := hm _ hT
    rw [hnone] at this
    contradiction
  | raised hrule hf h => exact Or.inl ⟨_, hr _ hrule, _, hf, _, h⟩

theorem failsOnly_advance (phase : Phase) : FailsOnly (Failure.Wants P) phase.advance := by
  cases phase
  · exact .error nofun
  · exact .ok _
  · exact .ok _

theorem failsFrom_laySeed (id : String) (e : ScheduleEntry) :
    FailsFrom (Covers T) (Failure.Wants P) (Block.laySeed o id e) := by
  have hvague : ∀ family dims, FailsOnly (Failure.Wants P) (Value.vague o family dims) :=
    fun family dims => (failsOnly_vagueParams o family dims).wants.map
  have hvalue : ∀ s : Seed, FailsOnly (Failure.Wants P) (s.value o) := by
    intro s
    unfold Seed.value
    split
    · exact hvague _ _
    · exact .ite (fun _ => .error nofun) fun _ => (hvague _ _).map
    · exact .error nofun
  intro m f m' _ h
  obtain ⟨-, s, -, -, hs⟩ := Block.laySeed_eq_error.mp h
  exact hvalue s f hs

theorem failsFrom_replay {e : ScheduleEntry} (he : e ∈ b.schedule) :
    FailsFrom (Covers T) (Failure.Wants (b.Lacks T)) (Block.replay g b.id e) := by
  intro m f m' hm h s hs
  obtain ⟨-, hv | ⟨-, -, hphase⟩⟩ := Block.replay_eq_error.mp h
  · refine lacks_of_missing hm (fun t ht => List.mem_append_left _ ?_) (fun r hr => ?_)
      (failsOnly_entryValue e f hv s hs)
    · exact List.mem_flatMap.mpr ⟨e, he, ht⟩
    · exact List.mem_append_left _ (List.mem_filterMap.mpr ⟨e, he, hr⟩)
  · exact failsOnly_advance _ f hphase s hs

theorem failsFrom_publish {e : MarginalEntry} (he : e ∈ b.marginalTable) :
    FailsFrom (Covers T) (Failure.Wants (b.Lacks T)) (Block.publish g e) := by
  intro m f m' hm h s hs
  unfold Block.publish at h
  split at h
  · rename_i hv
    cases h
    refine lacks_of_missing hm (fun t ht => List.mem_append_right _ ?_) (fun r hr => ?_)
      (failsOnly_marginalValue e f hv s hs)
    · exact List.mem_flatMap.mpr ⟨e, he, ht⟩
    · exact List.mem_append_right _ (List.mem_filterMap.mpr ⟨e, he, hr⟩)
  · dsimp only at h
    split at h <;> contradiction

end Failing

namespace Program

variable {p : Program} {m m' : Memory} {P : String → Prop}

theorem keeps_covers {x : Attempt Memory Unit} (h : ∀ m, Keeps (Extends m) x) {T : List Target} :
    Keeps (Covers T) x := fun m hm => (h m m (.refl m)).covers hm

/-- A pass fails for want of a marginal only if a block lacks it. -/
theorem failsFrom_passBlock {b : Block} {T : List Target} :
    FailsFrom (Covers T) (Failure.Wants (b.Lacks T)) (p.passBlock b) := by
  have hreplay : Keeps (Covers T) (b.schedule.forM (Block.replay p.graph b.id)) :=
    Keeps.forM fun e _ => keeps_covers fun _ => keeps_replay_extends e
  have hrest : FailsFrom (Covers T) (Failure.Wants (b.Lacks T)) (do
      b.schedule.forM (Block.replay p.graph b.id)
      b.marginalTable.forM (Block.publish p.graph) : Attempt Memory Unit) :=
    FailsFrom.bind hreplay (FailsFrom.forM (fun e _ => keeps_covers fun m =>
      keeps_replay_extends e) fun e he => failsFrom_replay he) fun _ =>
      FailsFrom.forM (fun e _ => keeps_covers fun m => keeps_publish_extends e) fun e he =>
        failsFrom_publish he
  unfold passBlock Block.pass
  split
  · dsimp only
    split
    · exact FailsFrom.bind (Keeps.forM fun e _ => keeps_covers fun m => keeps_laySeed_extends e)
        (FailsFrom.forM (fun e _ => keeps_covers fun m => keeps_laySeed_extends e)
          fun e _ => failsFrom_laySeed b.id e) fun _ => hrest
    · exact hrest
  · exact FailsFrom.throw nofun

theorem failsFrom_ensureMarginal (e : EdgeId) (t : TypeTerm) (v : Value) :
    FailsFrom (fun _ => True) (Failure.Wants P)
      (Memory.ensureMarginal p.graph e t (.ok v)) := by
  unfold Memory.ensureMarginal
  have hrest : FailsFrom (fun _ => True) (Failure.Wants P) (do
      let m ← get
      if (m.edgeMarginal e).type? = some t then return false
      let v ← (.ok v : Except Failure Value)
      set (Memory.putEdgeMarginal v m e)
      return true : Attempt Memory Bool) := by
    refine FailsFrom.bind (Keeps.always _) FailsFrom.get fun m => ?_
    split
    · exact FailsFrom.pure _
    · exact FailsFrom.bind (Keeps.always _) (FailsFrom.liftM (.ok v)) fun v =>
        FailsFrom.bind (Keeps.always _) (FailsFrom.set _) fun _ => FailsFrom.pure _
  refine FailsFrom.bind (Keeps.always _) (FailsFrom.liftM (failsOnly_entryAt _ e)) fun edge => ?_
  split
  · split
    · exact FailsFrom.bind (Keeps.always _) (FailsFrom.throw nofun) fun _ => hrest
    · exact hrest
  · exact hrest

/-- First values are given without reading a marginal. -/
theorem failsFrom_initMarginal (e : MarginalEntry) :
    FailsFrom (fun _ => True) (Failure.Wants P) (p.initMarginal e) := by
  unfold initMarginal
  split
  · exact FailsFrom.throw nofun
  · refine FailsFrom.bind (Keeps.always _) (FailsFrom.liftM (failsOnly_vagueOf _ _).wants) fun v =>
      FailsFrom.bind (Keeps.always _) (FailsFrom.modify _) fun _ => ?_
    split
    · exact FailsFrom.forM (fun _ _ => Keeps.always _) fun i _ =>
        FailsFrom.bind (Keeps.always _) (failsFrom_ensureMarginal _ _ _) fun _ => FailsFrom.pure _
    · exact FailsFrom.pure _

/-- A start does not fail for want of a marginal. -/
theorem failsFrom_start : FailsFrom (fun _ => True) (Failure.Wants P) p.start := by
  unfold start
  refine FailsFrom.bind (Keeps.always _) FailsFrom.get fun m => ?_
  split
  · exact FailsFrom.bind (Keeps.always _) (FailsFrom.forM (fun _ _ => Keeps.always _) fun b _ =>
      FailsFrom.forM (fun _ _ => Keeps.always _) fun e _ => failsFrom_initMarginal e) fun _ =>
        FailsFrom.modify _
  · exact FailsFrom.pure _

/-- **An execution fails for want of a marginal only if a block lacks it.** -/
theorem missing_of_execute (hm : p.Reached m) {n : Option Int} {s : String}
    (h : p.execute n m = .error (.marginalMissing s) m') :
    ∃ b ∈ p.blocks, b.Lacks p.targets s := by
  have hsteps : ∀ k, FailsFrom (Covers p.targets)
      (Failure.Wants fun s => ∃ b ∈ p.blocks, b.Lacks p.targets s) (p.steps k) := by
    intro k
    induction k with
    | zero => exact FailsFrom.pure _
    | succ k ih =>
      have hpass : ∀ b ∈ p.blocks, Keeps (Covers p.targets) (p.passBlock b) := fun b _ =>
        keeps_covers fun _ => keeps_passBlock_extends b
      refine FailsFrom.bind (Keeps.forM hpass) (FailsFrom.forM hpass fun b hb => ?_) fun _ => ih
      exact fun m f m' hm h s hs => ⟨b, hb, failsFrom_passBlock m f m' hm h s hs⟩
  rcases Attempt.bind_eq_error.mp h with h | ⟨_, m₁, hstart, h⟩
  · exact (failsFrom_start (P := fun _ => False) m _ m' trivial h s rfl).elim
  · exact hsteps _ m₁ _ m' (covers_of_start hm.covers hstart).2 h s rfl

end Program

/-! ## Compiled posteriors -/

namespace Posterior

variable {g : Graph} {c : Catalogue} {sites : List InterfaceId} {reject : Option Bool}
  {p q : Posterior} {ids : List String}

/-- **Which marginals are missing after compiling.** What compiled blocks read is in the marginal
table of one of them, unless it is the marginal of a variable that is in no block and the type of
which is declared. So in every state that commands lead to, an execution that fails for want of a
marginal has read that of such a variable, if no procedure says so by itself. -/
theorem missing_of_compile (hg : g.Built) (hp : Built g p)
    (h : compile g c sites reject p = .ok ids q) :
    ∃ blocks, ids.mapM q.block = .ok blocks ∧
      (∀ b ∈ blocks, ∀ t ∈ b.marginalReads,
        (∃ b' ∈ blocks, t ∈ b'.marginalTargets) ∨ ∃ x, t = .variable x ∧ q.Presumed g x) ∧
      ∀ m, Program.Reached ⟨g, q.options, blocks⟩ m → ∀ n s m',
        Program.execute ⟨g, q.options, blocks⟩ n m = .error (.marginalMissing s) m' →
          ∃ b ∈ blocks, b.Raises s ∨ .variable s ∈ b.marginalReads ∧ q.Presumed g s := by
  obtain ⟨blocks, hblocks, hclosed⟩ := closed_of_compile hg hp h
  refine ⟨blocks, hblocks, hclosed, fun m hm n s m' herror => ?_⟩
  obtain ⟨b, hb, hraises | ⟨t, ht, habsent, rfl⟩⟩ := Program.missing_of_execute hm herror
  · exact ⟨b, hb, Or.inl hraises⟩
  · rcases hclosed b hb t ht with ⟨b', hb', ht'⟩ | ⟨x, rfl, hx⟩
    · exact absurd (List.mem_flatMap.mpr ⟨b', hb', ht'⟩) habsent
    · exact ⟨b, hb, Or.inr ⟨ht, hx⟩⟩

/-- A soft node between a variable that dangles and one with a prior, the type of which is
declared. -/
def presumedGraph : Graph :=
  let g := ((Graph.addNode { kind := "pair", interfaces := 2 }).outcome ∅).2
  let g := ((Graph.addNode { kind := "prior", interfaces := 1 }).outcome g).2
  let g := ((Graph.connect (.numbered 0) none (some "x") none).outcome g).2
  ((Graph.connect (.numbered 1) (some (.numbered 2)) (some "y")
    (some (.dist "Gaussian" []))).outcome g).2

theorem built_presumedGraph : presumedGraph.Built :=
  .connect (.connect (.addNode (.addNode .empty _) _) _ _ _ _) _ _ _ _

/-- A rule for the message to the first variable, given the marginal of the second. -/
def presumedRule : Rule where
  key := ⟨"pair", .variational, some 0⟩
  inbounds := [.void, .dist "Gaussian" []]
  outbound := .pattern (.dist "Gaussian" [])
  procedure := some fun _ => .ok (.dist "Gaussian" [] ∅)

/-- The posterior with a block for the first variable only. -/
def presumedPosterior : Posterior :=
  ((addBlock presumedGraph ["x"] (some "x")).outcome { options := wholeOptions }).2

theorem built_presumedPosterior : Built presumedGraph presumedPosterior :=
  .addBlock (.fresh _) _ _

/-- The compiled posterior. -/
def presumedCompiled : Posterior :=
  ((compile presumedGraph ⟨[presumedRule]⟩ [] none).outcome presumedPosterior).2

theorem compile_presumed :
    compile presumedGraph ⟨[presumedRule]⟩ [] none presumedPosterior =
      .ok ["x"] presumedCompiled :=
  Attempt.eq_ok_of_outcome (by cbv)

/-- The block reads the marginal of the second variable, and a pass over it fails. -/
theorem exists_presumed : ∃ b m, ["x"].mapM presumedCompiled.block = .ok [b] ∧
    b.marginalReads = [.variable "y"] ∧ b.marginalTargets = [.variable "x"] ∧
    b.rules = [presumedRule] ∧
    Program.execute ⟨presumedGraph, presumedCompiled.options, [b]⟩ (some 1) ∅ =
      .error (.marginalMissing "y") m := by
  have hblock : (presumedCompiled.blocks.get? "x").map
      (fun b => (b.marginalReads, b.marginalTargets, b.rules)) =
        some ([.variable "y"], [.variable "x"], [presumedRule]) := by cbv
  have hrun : (presumedCompiled.blocks.get? "x").map (fun b => (Attempt.outcome
      (Program.execute ⟨presumedGraph, presumedCompiled.options, [b]⟩ (some 1)) ∅).1) =
        some (.error (.marginalMissing "y")) := by cbv
  obtain ⟨b, hb, heq⟩ := Option.map_eq_some_iff.mp hblock
  simp only [Prod.mk.injEq] at heq
  obtain ⟨hreads, htargets, hrules⟩ := heq
  rw [hb, Option.map_some, Option.some.injEq] at hrun
  refine ⟨b, _, ?_, hreads, htargets, hrules, Attempt.eq_error_of_outcome hrun⟩
  exact mapM_eq_ok.mpr (.cons (block_eq_ok.mpr hb) .nil)

/-- The pass fails because the second variable is in no block. -/
theorem missing_presumed : presumedGraph.Built ∧ Built presumedGraph presumedPosterior ∧
    compile presumedGraph ⟨[presumedRule]⟩ [] none presumedPosterior =
      .ok ["x"] presumedCompiled ∧
    ∃ b m, ["x"].mapM presumedCompiled.block = .ok [b] ∧
      Program.Reached ⟨presumedGraph, presumedCompiled.options, [b]⟩ ∅ ∧
      Program.execute ⟨presumedGraph, presumedCompiled.options, [b]⟩ (some 1) ∅ =
        .error (.marginalMissing "y") m ∧
      .variable "y" ∈ b.marginalReads ∧ presumedCompiled.Presumed presumedGraph "y" := by
  obtain ⟨b, m, hblocks, -, -, hrules, hrun⟩ := exists_presumed
  have hreached : Program.Reached ⟨presumedGraph, presumedCompiled.options, [b]⟩ ∅ := .fresh rfl
  refine ⟨built_presumedGraph, built_presumedPosterior, compile_presumed, b, m, hblocks, hreached,
    hrun, ?_⟩
  obtain ⟨blocks, hblocks', -, hmissing⟩ :=
    missing_of_compile built_presumedGraph built_presumedPosterior compile_presumed
  cases hblocks.symm.trans hblocks'
  obtain ⟨b', hb', hraises | hpresumed⟩ := hmissing ∅ hreached (some 1) "y" m hrun
  · -- the procedure of the rule never fails
    obtain rfl := List.mem_singleton.mp hb'
    obtain ⟨r, hr, f, hf, l, hl⟩ := hraises
    rw [hrules] at hr
    obtain rfl := List.mem_singleton.mp hr
    cases hf
    contradiction
  · obtain rfl := List.mem_singleton.mp hb'
    exact hpresumed

/-- **A compiled block may read what no block computes**, and then a run fails for want of it. -/
theorem not_closed_presumed : ∃ blocks m, presumedGraph.Built ∧
    Built presumedGraph presumedPosterior ∧
    compile presumedGraph ⟨[presumedRule]⟩ [] none presumedPosterior =
      .ok ["x"] presumedCompiled ∧
    ["x"].mapM presumedCompiled.block = .ok blocks ∧
    (∃ b ∈ blocks, ∃ t ∈ b.marginalReads, ∀ b' ∈ blocks, t ∉ b'.marginalTargets) ∧
    Program.execute ⟨presumedGraph, presumedCompiled.options, blocks⟩ (some 1) ∅ =
      .error (.marginalMissing "y") m := by
  obtain ⟨b, m, hblocks, hreads, htargets, -, hrun⟩ := exists_presumed
  refine ⟨[b], m, built_presumedGraph, built_presumedPosterior, compile_presumed, hblocks,
    ⟨b, List.mem_singleton_self b, .variable "y", by rw [hreads]; exact List.mem_singleton_self _,
      fun b' hb' => ?_⟩, hrun⟩
  obtain rfl := List.mem_singleton.mp hb'
  rw [htargets]
  decide

end Posterior

end MessagePassing
