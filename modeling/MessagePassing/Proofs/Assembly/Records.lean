import MessagePassing.Proofs.Assembly.Resolution

/-!
# What is on record

Assembling writes down what it finds out: in the entries of schedules and marginal tables, and in
the table of types that the blocks share. One record is read to make the next, in this block or in
another one, so what is said of all records has to be said of blocks and types together.

* `Posterior.Recorded` is said of a posterior whose blocks have one property and whose published
  types have another.

Results:
* `keeps_forall_inferEntries_of`: what each entry of a schedule takes over from those before it.
* `Posterior.keeps_assemble_recorded`: assembling keeps what each of its parts keeps.
* **`Posterior.Built.recorded`**: what holds of the blocks that are made, and is kept by each
  operation, holds of all posteriors that are built.
-/

namespace MessagePassing

open Attempt (Keeps)

/-- What the resolution of an entry keeps is kept of all entries of a list, if the entries also hand
on what it needs of the types of messages. -/
theorem keeps_forall_inferEntries_of {P : ScheduleEntry → Prop}
    {K : Table InterfaceId TypeTerm → Prop} {s : Surroundings}
    (hP : ∀ known place, K known → Keeps P (ScheduleEntry.infer s known place))
    (hK : ∀ known e, K known → P e → K (e.learn known)) {known : Table InterfaceId TypeTerm}
    (hknown : K known) (place : Nat) :
    Keeps (fun l : List ScheduleEntry => ∀ e ∈ l, P e) (inferEntries s known place) := by
  intro l hl
  induction l generalizing known place with
  | nil => exact hl
  | cons e l ih =>
    obtain ⟨he, hl⟩ := List.forall_mem_cons.mp hl
    unfold Attempt.outcome
    rw [inferEntries]
    cases hi : ScheduleEntry.infer s known place e with
    | error f e' => exact List.forall_mem_cons.mpr ⟨(hP known place hknown).of_error he hi, hl⟩
    | ok _ e' =>
      have he' := (hP known place hknown).of_ok he hi
      have h := ih (hK known e' hknown he') (place + 1) hl
      unfold ScheduleEntry.learn Attempt.outcome at h
      dsimp only
      revert h
      cases inferEntries s _ (place + 1) l with
      | ok _ l' => exact fun h => List.forall_mem_cons.mpr ⟨he', h⟩
      | error f l' => exact fun h => List.forall_mem_cons.mpr ⟨he', h⟩

namespace Posterior

/-- Every block stands under its name and has a property, and so have the published types. -/
structure Recorded (B : Block → Prop) (T : Table Target TypeTerm → Prop) (p : Posterior) :
    Prop where
  blocks : p.Each B
  types : T p.marginalTypes

variable {B : Block → Prop} {T : Table Target TypeTerm → Prop} {g : Graph} {c : Catalogue}
  {id : String} {α : Type}

theorem keeps_onBlock_recorded {x : Posterior → Attempt Block α}
    (hx : ∀ p b, T p.marginalTypes → B b → B ((x p).outcome b).2) :
    Keeps (Recorded B T) (onBlock id x) :=
  keeps_onBlock_of fun p b hp hb =>
    ⟨hp.blocks.putBlock (hx p b hp.types (hp.blocks id b hb).2), hp.types⟩

theorem keeps_replaceBlock_recorded {f : Block → Except Failure Block}
    (hf : ∀ b b', B b → f b = .ok b' → B b') : Keeps (Recorded B T) (replaceBlock id f) := by
  rw [replaceBlock_eq]
  refine keeps_onBlock_recorded fun p b _ hb => ?_
  unfold Attempt.outcome replacement
  cases hfb : f b with
  | ok b' => exact hf b b' hb hfb
  | error e => exact hb

/-- **Assembling keeps what each of its parts keeps**, where the published types may be relied on.
-/
theorem keeps_assemble_recorded (hrestart : ∀ b : Block, B b → B b.restart)
    (hinfer : ∀ p b, T p.marginalTypes → B b → B ((Block.inferSchedule g c p).outcome b).2)
    (hindex : ∀ b : Block, B b → B b.index)
    (hseeds : ∀ b : Block, B b → B ((Block.designateSeeds g).outcome b).2)
    (hsettle : ∀ p b r, T p.marginalTypes → B b →
      (settleEntries g c b p b.marginalTable = .ok () r ∨
        ∃ f, settleEntries g c b p b.marginalTable = .error f r) →
      B { b with marginalTable := r.1 } ∧ T r.2.marginalTypes) :
    Keeps (Recorded B T) (assemble g c id) := by
  unfold assemble
  refine Keeps.bind (keeps_replaceBlock_recorded fun b b' hb h => ?_) fun _ =>
    Keeps.bind (Keeps.modify fun p hp => ⟨hp.blocks, hp.types⟩) fun _ =>
    Keeps.bind (keeps_onBlock_recorded hinfer) fun _ =>
    Keeps.bind (keeps_replaceBlock_recorded fun b b' hb h => ?_) fun _ =>
    Keeps.bind (keeps_onBlock_recorded fun _ b _ => hseeds b) fun _ =>
    keeps_settleMarginals_of fun p b r hp hb hr => ?_
  · cases h
    exact hrestart b hb
  · cases h
    exact hindex b hb
  · obtain ⟨hB, hT⟩ := hsettle p b r hp.types (hp.blocks id b hb).2 hr
    obtain ⟨-, t, hq⟩ := bare_settleEntries hr
    have hblocks : Each B r.2 := by
      rw [hq]
      exact hp.blocks
    exact ⟨hblocks.putBlock hB, hT⟩

/-- **What holds of the blocks that are made, and is kept by each operation, holds of all posteriors
that are built.** -/
theorem Built.recorded {p : Posterior} (h : Built g p)
    (hmade : ∀ b requested, Block.ofVariables g b.id requested = .ok b → B b)
    (hschedule : ∀ (b b' : Block) sites, B b → b.withSchedule g sites = .ok b' → B b')
    (htabulate : ∀ b b' : Block, B b → b.withMarginalTable g = .ok b' → B b')
    (hconstrain : ∀ b i type method, B b → B ((Block.constrain i type method).outcome b).2)
    (hready : ∀ b : Block, B b → B { b with runnable := true }) (hempty : T ∅)
    (hassemble : ∀ c id, Keeps (Recorded B T) (Posterior.assemble g c id)) : Recorded B T p := by
  have hscheduled : ∀ sites id, Keeps (Recorded B T) (scheduleBlock g sites id) :=
    fun sites id => Keeps.bind (keeps_replaceBlock_recorded fun b b' => hschedule b b' sites)
      fun _ => Keeps.bind (Keeps.modify fun p hp => ⟨hp.blocks, hp.types⟩) fun _ => Keeps.pure _
  have htabulated : ∀ id, Keeps (Recorded B T) (tabulateBlock g id) :=
    fun id => keeps_replaceBlock_recorded htabulate
  have hrunnable : ∀ id, Keeps (Recorded B T) (Posterior.makeRunnable id) := fun id =>
    Keeps.bind (keeps_replaceBlock_recorded fun b b' hb hb' => by
      obtain ⟨_, -, rfl⟩ := map_eq_ok.mp hb'
      exact hready b hb) fun _ => Keeps.pure _
  have hadd : ∀ requested id, Keeps (Recorded B T) (Posterior.addBlock g requested id) := by
    intro requested id p hp
    refine ⟨keeps_addBlock hmade requested id p hp.blocks, ?_⟩
    obtain ⟨ids, ⟨f, h⟩ | ⟨b, -, -, h⟩⟩ := addBlock_cases g requested id p
    · rw [Attempt.outcome_snd_of_error h]
      exact hp.types
    · obtain ⟨owners, warnings, hregister⟩ := register_eq g { p with ids } b
      rw [Attempt.outcome_snd_of_ok h, hregister]
      exact hp.types
  exact h.of_keeps (fun _ => ⟨fun _ _ h => (nomatch h), hempty⟩) hadd hscheduled htabulated
    (fun _ i type method => keeps_onBlock_recorded fun _ b _ hb => hconstrain b i type method hb)
    hassemble hrunnable fun _ _ _ hp => ⟨hp.blocks, hp.types⟩

end Posterior

end MessagePassing
