import Mathlib.Data.List.Perm.Basic
import MessagePassing.Failure

/-!
# When computations succeed

A sequence of computations succeeds just when each part does, and it fails as one of its parts does.
These laws take runs of `Except` and of `Attempt` apart, part by part.

* `FailsOnly` is said of a computation all failures of which have a property.
* `FailsFirst` is said of a computation that fails because of the first of a list of objections. A
  sequence of such computations fails because of the first objection of all.
* `Attempt.Keeps` is said of an operation that keeps a property of the state even when it fails. A
  sequence of such operations keeps it too.
* `Attempt.Lockstep` is said of an operation that answers alike from states that are related, and
  leaves them related. So does a sequence of such operations.
-/

namespace MessagePassing

variable {ε σ α β : Type}

/-! ## Computations without a state -/

theorem bind_eq_ok {x : Except ε α} {f : α → Except ε β} {b : β} :
    (x >>= f) = .ok b ↔ ∃ a, x = .ok a ∧ f a = .ok b := by
  cases x with
  | error e => exact ⟨fun h => absurd h nofun, fun ⟨_, h, _⟩ => absurd h nofun⟩
  | ok a => exact ⟨fun h => ⟨a, rfl, h⟩, fun ⟨_, h, hb⟩ => by cases h; exact hb⟩

theorem ok_bind (a : α) (f : α → Except ε β) : (Except.ok a >>= f) = f a := rfl

theorem map_eq_ok {x : Except ε α} {f : α → β} {b : β} :
    x.map f = .ok b ↔ ∃ a, x = .ok a ∧ f a = b := by
  cases x <;> simp [Except.map]

theorem pure_eq_ok {a b : α} : (pure a : Except ε α) = .ok b ↔ a = b := by
  simp [pure, Except.pure]

/-- A computation that is refused in one case. -/
theorem guard_eq_ok {c : Prop} [Decidable c] {e : ε} {x : Except ε α} {a : α} :
    (if c then (throw e >>= fun _ : PUnit => x) else x) = .ok a ↔ ¬c ∧ x = .ok a := by
  by_cases h : c
  · rw [if_pos h]
    exact ⟨nofun, fun ⟨hc, _⟩ => absurd h hc⟩
  · simp [h]

/-- Every item has an answer, and the answers are listed in order. -/
theorem mapM_eq_ok {f : α → Except ε β} {l : List α} {l' : List β} :
    l.mapM f = .ok l' ↔ List.Forall₂ (fun a b => f a = .ok b) l l' := by
  induction l generalizing l' with
  | nil => cases l' <;> simp [pure, Except.pure]
  | cons a l ih =>
    rw [List.mapM_cons, bind_eq_ok]
    constructor
    · rintro ⟨b, hb, h⟩
      obtain ⟨bs, hbs, h⟩ := bind_eq_ok.mp h
      rw [← pure_eq_ok.mp h]
      exact .cons hb (ih.mp hbs)
    · intro h
      cases h with
      | cons hb hbs => exact ⟨_, hb, bind_eq_ok.mpr ⟨_, ih.mpr hbs, rfl⟩⟩

theorem exists_of_mem_mapM {f : α → Except ε β} {l : List α} {l' : List β} {b : β}
    (h : l.mapM f = .ok l') (hb : b ∈ l') : ∃ a ∈ l, f a = .ok b := by
  replace h := mapM_eq_ok.mp h
  induction h with
  | nil => exact absurd hb List.not_mem_nil
  | cons ha _ ih =>
    rcases List.mem_cons.mp hb with rfl | hb
    · exact ⟨_, List.mem_cons_self, ha⟩
    · obtain ⟨a, hmem, h⟩ := ih hb
      exact ⟨a, List.mem_cons_of_mem _ hmem, h⟩

theorem exists_mem_of_mapM {f : α → Except ε β} {l : List α} {l' : List β} {a : α}
    (h : l.mapM f = .ok l') (ha : a ∈ l) : ∃ b ∈ l', f a = .ok b := by
  replace h := mapM_eq_ok.mp h
  induction h with
  | nil => exact absurd ha List.not_mem_nil
  | cons hb _ ih =>
    rcases List.mem_cons.mp ha with rfl | ha
    · exact ⟨_, List.mem_cons_self, hb⟩
    · obtain ⟨b, hmem, h⟩ := ih ha
      exact ⟨b, List.mem_cons_of_mem _ hmem, h⟩

/-- The order of a list makes no difference to whether all its members are mapped. -/
theorem mapM_of_perm {f : α → Except ε β} {l l' : List α} {r : List β} (hl : l'.Perm l)
    (h : l.mapM f = .ok r) : ∃ r', l'.mapM f = .ok r' ∧ r'.Perm r := by
  obtain ⟨r', hr', hperm⟩ := List.perm_comp_forall₂ hl (mapM_eq_ok.mp h)
  exact ⟨r', mapM_eq_ok.mpr hr', hperm⟩

theorem mapM_congr {f h : α → Except ε β} {l : List α} (hf : ∀ a ∈ l, f a = h a) :
    l.mapM f = l.mapM h := by
  induction l with
  | nil => rfl
  | cons a l ih =>
    obtain ⟨ha, hl⟩ := List.forall_mem_cons.mp hf
    rw [List.mapM_cons, List.mapM_cons, ha, ih hl]

theorem forM_eq_ok {f : α → Except ε Unit} {l : List α} :
    l.forM f = .ok () ↔ ∀ a ∈ l, f a = .ok () := by
  induction l with
  | nil => simp [List.forM, pure, Except.pure]
  | cons a l ih =>
    change (f a >>= fun _ => l.forM f) = _ ↔ _
    rw [bind_eq_ok, List.forall_mem_cons]
    constructor
    · rintro ⟨_, ha, hl⟩
      exact ⟨ha, ih.mp hl⟩
    · rintro ⟨ha, hl⟩
      exact ⟨_, ha, ih.mpr hl⟩

/-! ## How computations fail -/

/-- A computation fails only in these ways. -/
def FailsOnly (E : ε → Prop) (x : Except ε α) : Prop :=
  ∀ e, x = .error e → E e

namespace FailsOnly

variable {E : ε → Prop} {x : Except ε α}

theorem ok (a : α) : FailsOnly E (.ok a : Except ε α) := nofun

theorem error {e : ε} (h : E e) : FailsOnly E (.error e : Except ε α) := fun _ he => by
  cases he
  exact h

theorem bind {f : α → Except ε β} (hx : FailsOnly E x) (hf : ∀ a, FailsOnly E (f a)) :
    FailsOnly E (x >>= f) := by
  cases x with
  | error e => exact error (hx e rfl)
  | ok a => exact hf a

theorem map {f : α → β} (hx : FailsOnly E x) : FailsOnly E (x.map f) := by
  cases x with
  | error e => exact error (hx e rfl)
  | ok a => exact ok (f a)

theorem ite {c : Prop} [Decidable c] {y : Except ε α} (hx : c → FailsOnly E x)
    (hy : ¬ c → FailsOnly E y) : FailsOnly E (if c then x else y) := by
  split
  · exact hx ‹_›
  · exact hy ‹_›

/-- A computation that is refused in one case. -/
theorem guard {c : Prop} [Decidable c] {e : ε} (he : E e) (hx : FailsOnly E x) :
    FailsOnly E (if c then (throw e >>= fun _ : PUnit => x) else x) :=
  ite (fun _ => bind (error he) fun _ => hx) fun _ => hx

theorem mapM {f : α → Except ε β} {l : List α} (hf : ∀ a ∈ l, FailsOnly E (f a)) :
    FailsOnly E (l.mapM f) := by
  induction l with
  | nil => exact ok []
  | cons a l ih =>
    rw [List.mapM_cons]
    exact (hf a List.mem_cons_self).bind fun _ =>
      (ih fun b hb => hf b (List.mem_cons_of_mem _ hb)).bind fun _ => ok _

theorem foldlM {f : β → α → Except ε β} {l : List α} (hf : ∀ b, ∀ a ∈ l, FailsOnly E (f b a))
    (b : β) : FailsOnly E (l.foldlM f b) := by
  induction l generalizing b with
  | nil => exact ok b
  | cons a l ih =>
    rw [List.foldlM_cons]
    exact (hf b a List.mem_cons_self).bind
      (ih fun b c hc => hf b c (List.mem_cons_of_mem _ hc))

end FailsOnly

/-- A computation fails because of the first of these objections, and succeeds if there are none. -/
structure FailsFirst {γ : Type} (because : γ → ε) (objections : List γ) (x : Except ε α) :
    Prop where
  succeeds : objections = [] → ∃ a, x = .ok a
  fails : ∀ c, objections.head? = some c → x = .error (because c)

namespace FailsFirst

variable {γ : Type} {because : γ → ε} {l₁ l₂ : List γ} {x : Except ε α}

theorem ok (a : α) : FailsFirst because [] (.ok a : Except ε α) :=
  ⟨fun _ => ⟨a, rfl⟩, nofun⟩

theorem error (c : γ) (l : List γ) :
    FailsFirst because (c :: l) (.error (because c) : Except ε α) :=
  ⟨nofun, fun _ hc => by cases hc; rfl⟩

theorem bind {f : α → Except ε β} (hx : FailsFirst because l₁ x)
    (hf : ∀ a, FailsFirst because l₂ (f a)) : FailsFirst because (l₁ ++ l₂) (x >>= f) := by
  cases l₁ with
  | nil =>
    obtain ⟨a, rfl⟩ := hx.succeeds rfl
    exact hf a
  | cons c l₁ =>
    rw [hx.fails c rfl]
    exact error c _

theorem map {f : α → β} (hx : FailsFirst because l₁ x) : FailsFirst because l₁ (x.map f) where
  succeeds hnil := by
    obtain ⟨a, rfl⟩ := hx.succeeds hnil
    exact ⟨f a, rfl⟩
  fails c hc := by
    rw [hx.fails c hc]
    rfl

theorem mapM {f : α → Except ε β} {objections : α → List γ} {l : List α}
    (hf : ∀ a ∈ l, FailsFirst because (objections a) (f a)) :
    FailsFirst because (l.flatMap objections) (l.mapM f) := by
  induction l with
  | nil => exact ok []
  | cons a l ih =>
    have hl := ih fun b hb => hf b (List.mem_cons_of_mem _ hb)
    rw [List.mapM_cons, List.flatMap_cons]
    refine (hf a List.mem_cons_self).bind fun b => ?_
    exact (List.append_nil (l.flatMap objections)) ▸ hl.bind fun l' => ok (b :: l')

end FailsFirst

/-! ## Computations on a state -/

namespace Attempt

variable {s t : σ}

theorem bind_eq_ok {x : Attempt σ α} {f : α → Attempt σ β} {b : β} :
    (x >>= f) s = .ok b t ↔ ∃ a u, x s = .ok a u ∧ f a u = .ok b t := by
  change EStateM.bind x f s = _ ↔ _
  unfold EStateM.bind
  cases x s with
  | error e u => exact ⟨fun h => absurd h nofun, fun ⟨_, _, h, _⟩ => absurd h nofun⟩
  | ok a u => exact ⟨fun h => ⟨a, u, rfl, h⟩, fun ⟨_, _, h, hb⟩ => by cases h; exact hb⟩

theorem bind_eq_error {x : Attempt σ α} {f : α → Attempt σ β} {e : Failure} :
    (x >>= f) s = .error e t ↔ x s = .error e t ∨ ∃ a u, x s = .ok a u ∧ f a u = .error e t := by
  change EStateM.bind x f s = _ ↔ _
  unfold EStateM.bind
  cases x s with
  | error e' u => simp
  | ok a u => simp

theorem bind_of_ok {x : Attempt σ α} {f : α → Attempt σ β} {a : α} (h : x s = .ok a t) :
    (x >>= f) s = f a t := by
  change EStateM.bind x f s = _
  unfold EStateM.bind
  rw [h]

theorem bind_of_error {x : Attempt σ α} {f : α → Attempt σ β} {e : Failure}
    (h : x s = .error e t) : (x >>= f) s = .error e t :=
  bind_eq_error.mpr (Or.inl h)

theorem outcome_of_ok {x : Attempt σ α} {a : α} (h : x s = .ok a t) :
    x.outcome s = (.ok a, t) := by
  unfold outcome
  rw [h]

theorem outcome_of_error {x : Attempt σ α} {e : Failure} (h : x s = .error e t) :
    x.outcome s = (.error e, t) := by
  unfold outcome
  rw [h]

theorem outcome_snd_of_ok {x : Attempt σ α} {a : α} (h : x s = .ok a t) :
    (x.outcome s).2 = t := by
  unfold outcome
  rw [h]

theorem outcome_snd_of_error {x : Attempt σ α} {e : Failure} (h : x s = .error e t) :
    (x.outcome s).2 = t := by
  unfold outcome
  rw [h]

theorem eq_ok_of_outcome {x : Attempt σ α} {a : α} (h : (x.outcome s).1 = .ok a) :
    x s = .ok a (x.outcome s).2 := by
  unfold outcome at h ⊢
  cases hx : x s with
  | error e u => rw [hx] at h; contradiction
  | ok b u => rw [hx] at h; cases h; rfl

theorem eq_error_of_outcome {x : Attempt σ α} {e : Failure} (h : (x.outcome s).1 = .error e) :
    x s = .error e (x.outcome s).2 := by
  unfold outcome at h ⊢
  cases hx : x s with
  | error f u => rw [hx] at h; cases h; rfl
  | ok b u => rw [hx] at h; contradiction

theorem outcome_bind_of_ok {x : Attempt σ α} {f : α → Attempt σ β} {a : α}
    (h : (x.outcome s).1 = .ok a) : (x >>= f).outcome s = (f a).outcome (x.outcome s).2 := by
  unfold outcome
  rw [bind_of_ok (eq_ok_of_outcome h)]
  rfl

theorem outcome_bind_of_error {x : Attempt σ α} {f : α → Attempt σ β} {e : Failure}
    (h : (x.outcome s).1 = .error e) : (x >>= f).outcome s = (.error e, (x.outcome s).2) :=
  outcome_of_error (bind_of_error (eq_error_of_outcome h))

theorem ofExcept_eq_ok {x : Except Failure α} {a : α} :
    (ofExcept x : Attempt σ α) s = .ok a t ↔ x = .ok a ∧ s = t := by
  unfold ofExcept
  cases x <;> simp

theorem liftM_eq_ok {x : Except Failure α} {a : α} :
    (liftM x : Attempt σ α) s = .ok a t ↔ x = .ok a ∧ s = t :=
  ofExcept_eq_ok

theorem get_eq_ok {u : σ} : (get : Attempt σ σ) s = .ok u t ↔ s = u ∧ s = t := by
  change EStateM.Result.ok s s = _ ↔ _
  rw [EStateM.Result.ok.injEq]

theorem modify_eq_ok {f : σ → σ} : (modify f : Attempt σ Unit) s = .ok () t ↔ f s = t := by
  change EStateM.Result.ok () (f s) = _ ↔ _
  simp

theorem pure_eq_ok {a b : α} : (pure a : Attempt σ α) s = .ok b t ↔ a = b ∧ s = t := by
  change EStateM.Result.ok a s = _ ↔ _
  rw [EStateM.Result.ok.injEq]

/-! ## Operations that succeed -/

/-- The answer and the state of a result that is no failure. -/
def success : EStateM.Result Failure σ α → Except Failure (α × σ)
  | .ok a t => .ok (a, t)
  | .error e _ => .error e

/-- The answer of an operation and the state that it leaves, if it succeeds. -/
def finish (x : Attempt σ α) (s : σ) : Except Failure (α × σ) :=
  success (x s)

theorem finish_eq_ok {x : Attempt σ α} {a : α} : x.finish s = .ok (a, t) ↔ x s = .ok a t := by
  unfold finish success
  cases x s <;> simp

theorem finish_eq_error {x : Attempt σ α} {e : Failure} :
    x.finish s = .error e ↔ ∃ t, x s = .error e t := by
  unfold finish success
  cases x s <;> simp

theorem finish_bind (x : Attempt σ α) (f : α → Attempt σ β) :
    (x >>= f).finish s = x.finish s >>= fun r => (f r.1).finish r.2 := by
  change Attempt.finish (EStateM.bind x f) s = _
  unfold finish EStateM.bind
  cases x s <;> rfl

theorem finish_get_bind (f : σ → Attempt σ β) : (get >>= f).finish s = (f s).finish s := rfl

theorem finish_set_bind (u : σ) (f : PUnit → Attempt σ β) :
    (set u >>= f).finish s = (f ()).finish u := rfl

theorem finish_modify_bind (h : σ → σ) (f : PUnit → Attempt σ β) :
    (modify h >>= f).finish s = (f ()).finish (h s) := rfl

theorem finish_ofExcept_bind (x : Except Failure α) (f : α → Attempt σ β) :
    (ofExcept x >>= f).finish s = x >>= fun a => (f a).finish s := by
  change Attempt.finish (EStateM.bind (ofExcept x) f) s = _
  unfold finish EStateM.bind ofExcept
  cases x <;> rfl

theorem finish_liftM_bind (x : Except Failure α) (f : α → Attempt σ β) :
    (liftM x >>= f).finish s = x >>= fun a => (f a).finish s :=
  finish_ofExcept_bind x f

/-! ## What operations keep -/

/-- An operation keeps a property of the state, whether it succeeds or fails. -/
def Keeps (I : σ → Prop) (x : Attempt σ α) : Prop :=
  ∀ s, I s → I (x.outcome s).2

namespace Keeps

variable {I : σ → Prop} {x : Attempt σ α} {a : α}

theorem of_ok (h : Keeps I x) (hs : I s) (hx : x s = .ok a t) : I t :=
  outcome_snd_of_ok hx ▸ h s hs

theorem of_error {e : Failure} (h : Keeps I x) (hs : I s) (hx : x s = .error e t) : I t :=
  outcome_snd_of_error hx ▸ h s hs

theorem intro (hok : ∀ s a t, I s → x s = .ok a t → I t)
    (herror : ∀ s e t, I s → x s = .error e t → I t) : Keeps I x := by
  intro s hs
  unfold outcome
  cases hx : x s with
  | ok a t => exact hok s a t hs hx
  | error e t => exact herror s e t hs hx

theorem always (x : Attempt σ α) : Keeps (fun _ => True) x := fun _ _ => trivial

theorem pure (a : α) : Keeps I (Pure.pure a : Attempt σ α) := fun _ hs => hs

theorem throw (e : Failure) : Keeps I (MonadExcept.throw e : Attempt σ α) := fun _ hs => hs

theorem get : Keeps I (MonadState.get : Attempt σ σ) := fun _ hs => hs

theorem modify {f : σ → σ} (hf : ∀ s, I s → I (f s)) : Keeps I (modify f : Attempt σ Unit) := hf

theorem set {u : σ} (hu : I u) : Keeps I (MonadStateOf.set u : Attempt σ PUnit) := fun _ _ => hu

theorem ofExcept (x : Except Failure α) : Keeps I (Attempt.ofExcept x : Attempt σ α) := by
  intro s hs
  unfold outcome Attempt.ofExcept
  cases x <;> exact hs

theorem liftM (x : Except Failure α) : Keeps I (liftM x : Attempt σ α) :=
  ofExcept x

/-- What is computed without the state may be taken to be known. -/
theorem liftM_bind {x : Except Failure α} {f : α → Attempt σ β}
    (hf : ∀ a, x = .ok a → Keeps I (f a)) : Keeps I (MonadLiftT.monadLift x >>= f) := by
  refine intro (fun s b t hs h => ?_) (fun s e t hs h => ?_)
  · obtain ⟨a, u, hx, h⟩ := bind_eq_ok.mp h
    obtain ⟨ha, rfl⟩ := liftM_eq_ok.mp hx
    exact (hf a ha).of_ok hs h
  · rcases bind_eq_error.mp h with h | ⟨a, u, hx, h⟩
    · exact (liftM x).of_error hs h
    · obtain ⟨ha, rfl⟩ := liftM_eq_ok.mp hx
      exact (hf a ha).of_error hs h

theorem bind {f : α → Attempt σ β} (hx : Keeps I x) (hf : ∀ a, Keeps I (f a)) :
    Keeps I (x >>= f) := by
  refine intro (fun s b t hs h => ?_) (fun s e t hs h => ?_)
  · obtain ⟨a, u, hxa, h⟩ := bind_eq_ok.mp h
    exact (hf a).of_ok (hx.of_ok hs hxa) h
  · rcases bind_eq_error.mp h with h | ⟨a, u, hxa, h⟩
    · exact hx.of_error hs h
    · exact (hf a).of_error (hx.of_ok hs hxa) h

/-- What is read off the state may be taken to have the property. -/
theorem get_bind {f : σ → Attempt σ β} (hf : ∀ u, I u → Keeps I (f u)) :
    Keeps I (MonadState.get >>= f) := fun s hs => hf s hs s hs

theorem forM {f : β → Attempt σ PUnit} {l : List β} (hf : ∀ b ∈ l, Keeps I (f b)) :
    Keeps I (l.forM f) := by
  induction l with
  | nil => exact pure ()
  | cons b l ih =>
    exact bind (hf b List.mem_cons_self) fun _ => ih fun c hc => hf c (List.mem_cons_of_mem _ hc)

end Keeps

/-- What each operation of a list brings about, and no other takes away, holds in the end. -/
theorem holds_of_forM {f : β → Attempt σ PUnit} {l : List β} {P : β → σ → Prop}
    (hgives : ∀ b ∈ l, ∀ s t, f b s = .ok () t → P b t)
    (hkeep : ∀ b, ∀ c ∈ l, Keeps (P b) (f c)) (h : l.forM f s = .ok () t) : ∀ b ∈ l, P b t := by
  induction l generalizing s with
  | nil => exact fun _ hb => absurd hb List.not_mem_nil
  | cons c l ih =>
    obtain ⟨_, u, hc, hl⟩ := bind_eq_ok.mp h
    have hgives' := fun b hb => hgives b (List.mem_cons_of_mem c hb)
    have hkeep' := fun b d hd => hkeep b d (List.mem_cons_of_mem c hd)
    intro b hb
    rcases List.mem_cons.mp hb with rfl | hb
    · exact (Keeps.forM (hkeep' b)).of_ok (hgives b List.mem_cons_self s u hc) hl
    · exact ih hgives' hkeep' hl b hb

/-! ## How operations fail -/

/-- From states with a property, an operation fails only in these ways. -/
def FailsFrom (I : σ → Prop) (E : Failure → Prop) (x : Attempt σ α) : Prop :=
  ∀ s e t, I s → x s = .error e t → E e

namespace FailsFrom

variable {I : σ → Prop} {E : Failure → Prop} {x : Attempt σ α}

theorem pure (a : α) : FailsFrom I E (Pure.pure a : Attempt σ α) := fun _ _ _ _ h => nomatch h

theorem throw {e : Failure} (h : E e) : FailsFrom I E (MonadExcept.throw e : Attempt σ α) :=
  fun _ _ _ _ he => by
    cases he
    exact h

theorem modify (f : σ → σ) : FailsFrom I E (modify f : Attempt σ Unit) :=
  fun _ _ _ _ h => nomatch h

theorem set (u : σ) : FailsFrom I E (MonadStateOf.set u : Attempt σ PUnit) :=
  fun _ _ _ _ h => nomatch h

theorem get : FailsFrom I E (MonadState.get : Attempt σ σ) := fun _ _ _ _ h => nomatch h

theorem liftM {y : Except Failure α} (h : FailsOnly E y) :
    FailsFrom I E (liftM y : Attempt σ α) := by
  intro s e t _ he
  cases y with
  | ok a => contradiction
  | error f =>
    cases he
    exact h _ rfl

theorem bind {f : α → Attempt σ β} (hkeep : Keeps I x) (hx : FailsFrom I E x)
    (hf : ∀ a, FailsFrom I E (f a)) : FailsFrom I E (x >>= f) := by
  intro s e t hs h
  rcases bind_eq_error.mp h with h | ⟨a, u, ha, h⟩
  · exact hx s e t hs h
  · exact hf a u e t (hkeep.of_ok hs ha) h

theorem forM {f : β → Attempt σ PUnit} {l : List β} (hkeep : ∀ b ∈ l, Keeps I (f b))
    (hf : ∀ b ∈ l, FailsFrom I E (f b)) : FailsFrom I E (l.forM f) := by
  induction l with
  | nil => exact pure ()
  | cons b l ih =>
    exact bind (hkeep b List.mem_cons_self) (hf b List.mem_cons_self) fun _ =>
      ih (fun c hc => hkeep c (List.mem_cons_of_mem _ hc))
        fun c hc => hf c (List.mem_cons_of_mem _ hc)

end FailsFrom

/-! ## Two runs side by side -/

/-- From states that are related, an operation answers alike, and it leaves related states whether
it succeeds or fails. -/
def Lockstep (R S : σ → σ → Prop) (x : Attempt σ α) : Prop :=
  ∀ s t, R s t → (x.outcome t).1 = (x.outcome s).1 ∧ S (x.outcome s).2 (x.outcome t).2

namespace Lockstep

variable {R S : σ → σ → Prop} {x : Attempt σ α}

theorem pure (a : α) : Lockstep R R (Pure.pure a : Attempt σ α) := fun _ _ h => ⟨rfl, h⟩

theorem throw (e : Failure) : Lockstep R R (MonadExcept.throw e : Attempt σ α) :=
  fun _ _ h => ⟨rfl, h⟩

theorem modify {f : σ → σ} (hf : ∀ s t, R s t → S (f s) (f t)) :
    Lockstep R S (modify f : Attempt σ Unit) := fun s t h => ⟨rfl, hf s t h⟩

theorem liftM_bind {y : Except Failure α} {f : α → Attempt σ β}
    (hf : ∀ a, y = .ok a → Lockstep R R (f a)) :
    Lockstep R R (MonadLiftT.monadLift y >>= f) := by
  cases y with
  | error e => exact fun _ _ h => ⟨rfl, h⟩
  | ok a => exact hf a rfl

theorem bind {f : α → Attempt σ β} (hx : Lockstep R S x) (hf : ∀ a, Lockstep S S (f a)) :
    Lockstep R S (x >>= f) := by
  intro s t h
  obtain ⟨hanswer, hstate⟩ := hx s t h
  cases hs : (x.outcome s).1 with
  | error e =>
    rw [outcome_bind_of_error hs, outcome_bind_of_error (hanswer.trans hs)]
    exact ⟨rfl, hstate⟩
  | ok a =>
    rw [outcome_bind_of_ok hs, outcome_bind_of_ok (hanswer.trans hs)]
    exact hf a _ _ hstate

theorem forM {f : β → Attempt σ PUnit} {l : List β} (hf : ∀ b ∈ l, Lockstep R R (f b)) :
    Lockstep R R (l.forM f) := by
  induction l with
  | nil => exact pure ()
  | cons b l ih =>
    exact bind (hf b List.mem_cons_self) fun _ => ih fun c hc => hf c (List.mem_cons_of_mem _ hc)

theorem mono {R' S' : σ → σ → Prop} (h : Lockstep R S x) (hR : ∀ s t, R' s t → R s t)
    (hS : ∀ s t, S s t → S' s t) : Lockstep R' S' x := fun s t hst =>
  have ⟨hanswer, hstate⟩ := h s t (hR s t hst)
  ⟨hanswer, hS _ _ hstate⟩

end Lockstep

end Attempt

end MessagePassing
