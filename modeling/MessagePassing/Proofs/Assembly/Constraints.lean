import MessagePassing.Proofs.Assembly.Ownership
import MessagePassing.Proofs.Types.Choice

/-!
# What becomes of a caller's constraints

A caller may ask for a type or for a method of a message that is scheduled. The wish is kept with
the entry of the schedule, and the resolver narrows its choice by it. Assembling a block resolves
the entries that are there, so it honours what was asked for. Compiling makes the schedules anew
before it assembles them, and so forgets it.

Results:
* `Block.Assembled.honours`: an assembled entry is resolved by the constraint that it carries.
* `keeps_assemble_wishes`: assembling keeps the constraints.
* `unconstrained_of_compile`: no compiled entry has a constraint.
* **`Posterior.honours_of_constrain`**: assembling honours a constraint, and compiling does so
  only if nothing was asked for.
* `not_honours_prior`: a method that is asked for is not used by what is compiled.
-/

namespace MessagePassing

open Attempt (Keeps)

/-- The entry carries what a caller asks for, and its rule is chosen by that. -/
structure ScheduleEntry.Honours (e : ScheduleEntry) (d : Option TypeTerm) (m : Option String) :
    Prop where
  /-- The type is kept. -/
  constraint : e.constraint = d
  /-- The method is kept. -/
  method : e.method = m
  /-- The rule has the method. -/
  approximation : ∀ name, m = some name → ∃ r, e.rule = some r ∧ r.approximation = some name
  /-- A rule that works on whole values computes what the type admits. -/
  admits : ∀ t, d = some t → e.oneByOne = false →
    ∃ out, e.outbound = some out ∧ t.admits out = true

namespace Block

variable {b b' : Block} {g : Graph} {c : Catalogue} {e : ScheduleEntry}

/-- What is asked for, entry by entry. -/
def wishes (b : Block) : List (InterfaceId × Option TypeTerm × Option String) :=
  b.schedule.map fun e => (e.interface, e.constraint, e.method)

/-- Nothing is asked for. -/
def Unconstrained (b : Block) : Prop :=
  ∀ x ∈ b.wishes, x.2 = (none, none)

/-- **An assembled entry honours the constraint that it carries**, unless it is that of an observed
value. -/
theorem Assembled.honours (h : b.Assembled g c) (he : e ∈ b.schedule)
    (hfree : ∀ n, g.node e.node = .ok n → ¬ n.isClamp) : e.Honours e.constraint e.method := by
  obtain ⟨p, hentries⟩ := h.entries
  obtain ⟨pre, post, hsplit⟩ := List.append_of_mem he
  cases hentries pre e post hsplit with
  | observed hnode hvalue _ _ =>
    refine absurd ?_ (hfree _ hnode)
    unfold Node.isClamp
    rw [hvalue]
    rfl
  | @rule node r hnode _ _ _ hrule houtbound hchosen honeByOne =>
    refine ⟨rfl, rfl, fun name hname => ⟨r.rule, hchosen, ?_⟩, fun d hd hwhole => ?_⟩
    · exact approximation_of_resolve (q := e.request node e.inboundTypes) hname hrule
    · have hwhole := resolveWhole_of_whole hrule (honeByOne ▸ hwhole)
      exact ⟨r.outbound, houtbound,
        admits_of_resolveWhole (q := e.request node e.inboundTypes) hd hwhole⟩

/-- A new schedule asks for nothing. -/
theorem unconstrained_of_withSchedule {sites : List InterfaceId}
    (h : b.withSchedule g sites = .ok b') : b'.Unconstrained := by
  obtain ⟨-, -, rfl⟩ := withSchedule_eq_ok.mp h
  intro x hx
  obtain ⟨e, he, rfl⟩ := List.mem_map.mp hx
  obtain ⟨i, -, rfl⟩ := List.mem_map.mp he
  rfl

/-- What is asked for is found where the message is scheduled. -/
theorem constrain_eq_ok {i : Int} {type : Option TypeTerm} {method : Option String}
    (h : Block.constrain i type method b = .ok e b') :
    b'.outline = b.outline ∧ (∃ f ∈ b.schedule, f.interface = e.interface) ∧
      (e.interface, type, method) ∈ b'.wishes := by
  unfold Block.constrain at h
  cases hf : b.schedule.find? fun e => Int.ofNat e.interface = i with
  | none =>
    rw [hf] at h
    contradiction
  | some f =>
    rw [hf] at h
    cases h
    have hmem := List.mem_of_find?_eq_some hf
    refine ⟨rfl, ⟨f, hmem, rfl⟩, List.mem_map.mpr ⟨_, List.mem_map.mpr ⟨f, hmem, rfl⟩, ?_⟩⟩
    rw [if_pos rfl]

/-- A block with a schedule has edges. -/
theorem Laid.isEmpty_eq_false (h : b.Laid g) (he : e ∈ b.schedule) : b.isEmpty = false := by
  rcases h.schedule with hnil | ⟨sites, d, hd, -⟩
  · rw [hnil] at he
    exact absurd he List.not_mem_nil
  · exact (withSchedule_eq_ok.mp hd).1

end Block

namespace Posterior

variable {g : Graph} {c : Catalogue} {sites : List InterfaceId} {reject : Option Bool}
  {p p₁ q : Posterior} {ids : List String} {id : String} {b : Block} {e : ScheduleEntry}

/-- **Assembling keeps what is asked for.** -/
theorem keeps_assemble_wishes {P : Block → Prop}
    (hP : ∀ b b' : Block, b'.id = b.id → b'.wishes = b.wishes → P b → P b') :
    Keeps (Each P) (assemble g c id) := by
  refine keeps_assemble_of_parts (fun b _ hb => hP b _ rfl ?_ hb) (fun p b _ hb => ?_)
    (fun b _ hb => hP b _ rfl rfl hb) (fun b _ hb => ?_) fun _ b _ _ hb _ => hP b _ rfl rfl hb
  · unfold Block.wishes Block.restart
    rw [List.map_map]
    rfl
  · rw [Block.outcome_inferSchedule]
    refine hP b _ rfl ?_ hb
    exact map_inferEntries (fun known place k =>
      ScheduleEntry.keeps_infer_of (fun _ _ _ _ _ _ _ _ h => h) _ known place) ∅ 0 b.schedule
  · have hkeep : Keeps (fun d : Block => d.id = b.id ∧ d.wishes = b.wishes)
        (Block.designateSeeds g) := by
      refine Block.keeps_designateSeeds_of g (fun d x hd => ⟨hd.1, ?_⟩) fun _ _ h => h
      rw [← hd.2]
      unfold Block.wishes Block.lay
      rw [List.map_map]
      refine List.map_congr_left fun e _ => ?_
      rw [Function.comp_apply]
      split <;> rfl
    obtain ⟨hid, hwishes⟩ := hkeep b ⟨rfl, rfl⟩
    exact hP b _ hid hwishes hb

theorem wishes_of_assemble (hp : Each (fun _ => True) p) (hb : p.blocks.get? id = some b)
    (h : assemble g c id p = .ok () q) {d : Block} (hd : q.blocks.get? id = some d) :
    d.wishes = b.wishes := by
  have hkeep : Keeps (Each fun d => d.id = id → d.wishes = b.wishes) (assemble g c id) :=
    keeps_assemble_wishes fun _ _ hid hw hd hk => hw.trans (hd (hid ▸ hk))
  have hfirst : Each (fun d => d.id = id → d.wishes = b.wishes) p := by
    refine fun k a ha => ⟨(hp k a ha).1, fun hk => ?_⟩
    rw [← (hp k a ha).1, hk, hb] at ha
    rw [Option.some.inj ha]
  obtain ⟨hid, hwishes⟩ := hkeep.of_ok hfirst h id d hd
  exact hwishes hid

/-- **Nothing is asked for in a compiled block.** -/
theorem unconstrained_of_compile (hp : Each (fun _ => True) p)
    (h : compile g c sites reject p = .ok ids q) :
    Each (fun b => b.id ∈ ids → b.Unconstrained) q := by
  obtain ⟨rfl, p₁, p₂, hprepare, hassemble, hrun⟩ := compile_eq_ok.mp h
  obtain ⟨hp₁, hprepared⟩ := holds_of_forM_prepare (A := Block.Unconstrained)
    (fun b b₁ b₂ hs ht x hx => Block.unconstrained_of_withSchedule hs x (by
      obtain ⟨single, joint, -, -, rfl⟩ := Block.withMarginalTable_eq_ok.mp ht
      exact hx)) hp hprepare
  have h₁ : Each (fun b => b.id ∈ p.inhabited → b.Unconstrained) p₁ := fun k b hb =>
    ⟨(hp₁ k b hb).1, fun hk => hprepared k b (Or.inl ((hp₁ k b hb).1 ▸ hk)) hb⟩
  have h₂ := (keeps_assembleAll (fun _ => keeps_assemble_wishes
    (P := fun b => b.id ∈ p.inhabited → b.Unconstrained) fun b b' hid hw hb hk => by
      unfold Block.Unconstrained
      rw [hw]
      exact hb (hid ▸ hk)) _).of_ok h₁ hassemble
  exact (Keeps.forM fun _ _ => keeps_makeRunnable fun _ _ hb => hb).of_ok h₂ hrun

/-- **Assembling honours what is asked for, and compiling does so only if nothing is.** After a
caller has constrained a message that is scheduled, the block may be assembled, and then the entry
for this message honours the constraint, unless the message is an observed value. If the posterior
is compiled, then an entry for this message honours the constraint just when it is void. -/
theorem honours_of_constrain {i : Int} {type : Option TypeTerm} {method : Option String}
    (hp : Built g p)
    (h : onBlock id (fun _ => Block.constrain i type method) p = .ok e p₁) :
    (∀ c q, assemble g c id p₁ = .ok () q → ∃ b, q.blocks.get? id = some b ∧
      ∃ e' ∈ b.schedule, e'.interface = e.interface ∧
        ((∀ n, g.node e'.node = .ok n → ¬ n.isClamp) → e'.Honours type method)) ∧
    ∀ c sites reject ids q, compile g c sites reject p₁ = .ok ids q →
      ∃ b, q.blocks.get? id = some b ∧ b.Compiled g c sites ∧
        ∀ e' ∈ b.schedule, e'.interface = e.interface →
          (e'.Honours type method ↔ type = none ∧ method = none) := by
  have hp₁ : Built g p₁ := Attempt.outcome_snd_of_ok h ▸ Built.constrain hp id i type method
  have hnamed : Each (fun _ => True) p₁ := hp₁.madeFor.mono fun _ _ => trivial
  obtain ⟨b, b₁, hb, hconstrain, rfl⟩ := onBlock_eq_ok.mp h
  obtain ⟨houtline, ⟨f, hf, -⟩, hwish⟩ := Block.constrain_eq_ok hconstrain
  have hid : b₁.id = id := (Block.id_of_outline houtline).trans (hp.madeFor id b hb).1
  have hb₁ : (p.putBlock b₁).blocks.get? id = some b₁ := by rw [get?_putBlock, if_pos hid]
  refine ⟨fun c q hq => ?_, fun c sites reject ids q hq => ?_⟩
  · obtain ⟨d, hd, hassembled⟩ := assembled_of_assemble hnamed hq
    rw [← wishes_of_assemble hnamed hb₁ hq hd] at hwish
    obtain ⟨e', he', heq⟩ := List.mem_map.mp hwish
    simp only [Prod.mk.injEq] at heq
    obtain ⟨hi, rfl, rfl⟩ := heq
    exact ⟨d, hd, e', he', hi, fun hfree => hassembled.honours he' hfree⟩
  · -- the block has a schedule, so it is compiled
    have hne : b₁.isEmpty = false := by
      change b₁.outline.isEmpty = false
      rw [houtline]
      exact (hp.laid id b hb).2.isEmpty_eq_false hf
    have hmem : id ∈ ids := (compile_eq_ok.mp hq).1 ▸ mem_inhabited hb₁ hne
    obtain ⟨d, hd, hcompiled⟩ := compiled_of_compile hnamed hq hmem
    refine ⟨d, hd, hcompiled, fun e' he' _ => ?_⟩
    obtain ⟨hdid, hfree⟩ := unconstrained_of_compile hnamed hq id d hd
    have hnone := hfree (hdid ▸ hmem) _ (List.mem_map_of_mem he')
    simp only [Prod.mk.injEq] at hnone
    constructor
    · exact fun hh => ⟨hh.constraint.symm.trans hnone.1, hh.method.symm.trans hnone.2⟩
    · rintro ⟨rfl, rfl⟩
      exact ⟨hnone.1, hnone.2, nofun, nofun⟩

/-- A variable with a prior. -/
def priorGraph : Graph :=
  let g := ((Graph.addNode { kind := "prior", interfaces := 1 }).outcome ∅).2
  ((Graph.connect (.numbered 0) none (some "x") none).outcome g).2

theorem built_priorGraph : priorGraph.Built :=
  .connect (.addNode .empty _) _ _ _ _

/-- An exact or approximate rule for the prior. -/
def priorRule (approximation : Option String) : Rule where
  key := ⟨"prior", .sumProduct, some 0⟩
  inbounds := [.void]
  outbound := .pattern (.dist "Gaussian" [])
  approximation
  procedure := some fun _ => .ok (.dist "Gaussian" [] ∅)

/-- The two rules, of which the exact one comes first. -/
def priorCatalogue : Catalogue :=
  ⟨[priorRule none, priorRule (some "laplace")]⟩

/-- The posterior with a block for the variable, which is scheduled and tabulated. -/
def priorPosterior : Posterior :=
  let p : Posterior := { options := wholeOptions }
  let p := ((addBlock priorGraph ["x"] (some "x")).outcome p).2
  ((layOut priorGraph [] ["x"]).outcome p).2

theorem built_priorPosterior : Built priorGraph priorPosterior :=
  keeps_layOut [] ["x"] _ (.addBlock (.fresh _) _ _)

/-- A caller asks for the approximate rule. -/
def constrainPrior : Attempt Posterior ScheduleEntry :=
  onBlock "x" fun _ => Block.constrain 0 (some (.dist "Gaussian" [])) (some "laplace")

/-- The posterior after that. -/
def priorConstrained : Posterior :=
  (constrainPrior.outcome priorPosterior).2

theorem exists_constrainPrior : ∃ e, e.interface = 0 ∧
    constrainPrior priorPosterior = .ok e priorConstrained := by
  have h : (constrainPrior.outcome priorPosterior).1.map (·.interface) = .ok 0 := by cbv
  obtain ⟨e, he, hi⟩ := map_eq_ok.mp h
  exact ⟨e, hi, Attempt.eq_ok_of_outcome he⟩

theorem not_isClamp_prior {n : NodeId} {node : Node} (h : priorGraph.node n = .ok node) :
    ¬ node.isClamp := by
  have hall : (priorGraph.nodes.all fun n => !n.isClamp) = true := by cbv
  have := List.all_eq_true.mp hall node (List.mem_of_getElem? (Graph.node_eq_ok.mp h))
  simpa using this

/-- The block may be assembled by the approximate rule, and it is compiled without. -/
theorem honours_prior : Built priorGraph priorPosterior ∧ ∃ e,
    constrainPrior priorPosterior = .ok e priorConstrained ∧
    (∃ q b, assemble priorGraph priorCatalogue "x" priorConstrained = .ok () q ∧
      q.blocks.get? "x" = some b ∧ ∃ e' ∈ b.schedule, e'.interface = 0 ∧
        e'.Honours (some (.dist "Gaussian" [])) (some "laplace")) ∧
    ∃ q b, compile priorGraph priorCatalogue [] none priorConstrained = .ok ["x"] q ∧
      q.blocks.get? "x" = some b ∧ ∀ e' ∈ b.schedule, e'.interface = 0 →
        ¬ e'.Honours (some (.dist "Gaussian" [])) (some "laplace") := by
  obtain ⟨e, hi, he⟩ := exists_constrainPrior
  have hassemble := Attempt.eq_ok_of_outcome (s := priorConstrained) (a := ())
    (x := assemble priorGraph priorCatalogue "x") (by cbv)
  have hcompile := Attempt.eq_ok_of_outcome (s := priorConstrained) (a := ["x"])
    (x := compile priorGraph priorCatalogue [] none) (by cbv)
  obtain ⟨hassembled, hcompiled⟩ := honours_of_constrain built_priorPosterior he
  obtain ⟨b, hb, e', he', hi', hhonours⟩ := hassembled _ _ hassemble
  obtain ⟨d, hd, -, hnone⟩ := hcompiled _ _ _ _ _ hcompile
  refine ⟨built_priorPosterior, e, he, ⟨_, b, hassemble, hb, e', he', hi'.trans hi,
    hhonours fun _ => not_isClamp_prior⟩, _, d, hcompile, hd, fun f hf hfi h => ?_⟩
  exact absurd ((hnone f hf (hfi.trans hi.symm)).mp h).1 (Option.some_ne_none _)

/-- **What a caller asks for is not in what is compiled**, which uses the exact rule. -/
theorem not_honours_prior : ∃ e q b, priorGraph.Built ∧ Built priorGraph priorPosterior ∧
    constrainPrior priorPosterior = .ok e priorConstrained ∧
    compile priorGraph priorCatalogue [] none priorConstrained = .ok ["x"] q ∧
    q.blocks.get? "x" = some b ∧ ∃ e' ∈ b.schedule, e'.interface = e.interface ∧
      (∀ n, priorGraph.node e'.node = .ok n → ¬ n.isClamp) ∧
      e'.constraint = none ∧ e'.method = none ∧ (∃ r, e'.rule = some r ∧ r.approximation = none) ∧
      ¬ e'.Honours (some (.dist "Gaussian" [])) (some "laplace") := by
  obtain ⟨e, hi, he⟩ := exists_constrainPrior
  have hcompile := Attempt.eq_ok_of_outcome (s := priorConstrained) (a := ["x"])
    (x := compile priorGraph priorCatalogue [] none) (by cbv)
  have hentries : (((compile priorGraph priorCatalogue [] none).outcome
      priorConstrained).2.blocks.get? "x").map (·.schedule.map fun e =>
        (e.interface, e.constraint, e.method, e.rule.map (·.approximation))) =
      some [(0, none, none, some none)] := by cbv
  obtain ⟨b, hb, hschedule⟩ := Option.map_eq_some_iff.mp hentries
  obtain ⟨e', rest, hl, he', -⟩ := List.map_eq_cons_iff.mp hschedule
  simp only [Prod.mk.injEq, Option.map_eq_some_iff] at he'
  obtain ⟨hi', hconstraint, hmethod, hrule⟩ := he'
  refine ⟨e, _, b, built_priorGraph, built_priorPosterior, he, hcompile, hb, e',
    hl ▸ List.mem_cons_self, hi'.trans hi.symm, fun _ => not_isClamp_prior, hconstraint, hmethod,
    hrule, fun h => ?_⟩
  rw [h.constraint] at hconstraint
  contradiction

end Posterior

end MessagePassing
