import MessagePassing.Proofs.Assembly.Ownership
import MessagePassing.Proofs.Assembly.Records
import MessagePassing.Proofs.Types.Ground

/-!
# All types on record are ground

A pattern with variables or wildcards may be declared for an edge, and a rule may be written with
one. None of them gets on record: the types that arrive at an entry, the type of its message, the
type of a marginal and the types that are published are ground, at any time.

Results:
* `ScheduleEntry.keeps_infer_grounded`, `MarginalEntry.keeps_settle_grounded`: from ground types
  only ground types are recorded, also by an attempt that fails.
* **`Posterior.Built.grounded`**: whatever is assembled, in whatever order and with whatever rules,
  all types on record are ground.
-/

namespace MessagePassing

open Attempt (Keeps)
open TypeTerm (Ground)

/-! ## Entries -/

/-- The types on record at an entry of a schedule are ground. -/
structure ScheduleEntry.Grounded (e : ScheduleEntry) : Prop where
  inbound : ∀ t ∈ e.inboundTypes, t.Ground
  outbound : ∀ t, e.outbound = some t → t.Ground

/-- The type on record at a marginal is ground. -/
def MarginalEntry.Grounded (m : MarginalEntry) : Prop :=
  ∀ t, m.type = some t → t.Ground

/-- The types on record in a block are ground. -/
structure Block.Grounded (b : Block) : Prop where
  entries : ∀ e ∈ b.schedule, e.Grounded
  marginals : ∀ m ∈ b.marginalTable, m.Grounded

section Entries

variable {s : Surroundings} {b : Block} {known : Table InterfaceId TypeTerm}
  {l : List ScheduleEntry}

/-- The types of sources are ground, if the known types are. -/
theorem ground_of_sourceTypes {n : NodeId} {sources : List Source} {types : List TypeTerm}
    (hs : GroundTable s.posterior.marginalTypes) (hknown : GroundTable known)
    (h : sources.mapM (s.posterior.sourceType s.graph known n) = .ok types) :
    ∀ t ∈ types, t.Ground := by
  intro t ht
  obtain ⟨x, -, hx⟩ := exists_of_mem_mapM h ht
  exact Posterior.ground_of_sourceType hknown hs hx

/-- From ground types only ground types are recorded at an entry. -/
theorem ScheduleEntry.keeps_infer_grounded (hs : GroundTable s.posterior.marginalTypes)
    (hknown : GroundTable known) (place : Nat) :
    Keeps Grounded (ScheduleEntry.infer s known place) := by
  unfold ScheduleEntry.infer
  refine Keeps.bind (Keeps.modify fun _ h => ⟨h.1, h.2⟩) fun _ => Keeps.bind Keeps.get fun e =>
    Keeps.bind (Keeps.liftM _) fun node => ?_
  split
  · refine Keeps.modify fun e _ => ⟨fun t ht => ?_, fun t ht => ?_⟩
    · obtain rfl := List.mem_singleton.mp ht
      exact TypeTerm.ground_void
    · cases ht
      exact TypeTerm.ground_ofDims _ _
  · refine Keeps.bind (Keeps.liftM _) fun sources =>
      Keeps.bind (Keeps.modify fun _ h => ⟨h.1, h.2⟩) fun _ =>
      Keeps.liftM_bind fun types htypes => ?_
    have hground := ground_of_sourceTypes hs hknown htypes
    refine Keeps.bind (Keeps.modify fun _ h => ⟨hground, h.2⟩) fun _ =>
      Keeps.liftM_bind fun r hr => Keeps.modify fun _ h => ⟨h.1, fun t ht => ?_⟩
    cases ht
    exact ground_of_resolve (q := e.request node types) hground hr

/-- What an entry tells of its message is ground. -/
theorem ScheduleEntry.Grounded.learn {e : ScheduleEntry} (he : e.Grounded)
    (hknown : GroundTable known) : GroundTable (e.learn known) := by
  unfold ScheduleEntry.learn
  split
  · rename_i t ht
    exact hknown.insert e.interface (he.outbound t ht)
  · exact hknown

theorem groundTable_messageTypes (hl : ∀ e ∈ l, e.Grounded) : GroundTable (messageTypes l) := by
  rw [messageTypes_eq]
  have hfold : ∀ known, GroundTable known → GroundTable (l.foldl ScheduleEntry.learn known) := by
    induction l with
    | nil => exact fun _ h => h
    | cons e l ih =>
      obtain ⟨he, hl⟩ := List.forall_mem_cons.mp hl
      exact fun known hknown => ih hl _ (he.learn hknown)
  exact hfold ∅ groundTable_empty

/-- The types of scheduled messages are ground, also where there is none yet. -/
theorem Block.Grounded.outboundType {e : ScheduleEntry} {g : Graph} {i : InterfaceId}
    (hb : b.Grounded) (h : b.scheduled g i = .ok e) : (Block.outboundType e).Ground := by
  unfold Block.outboundType
  cases ho : e.outbound with
  | none => exact TypeTerm.ground_void
  | some t =>
    exact (hb.entries e (List.mem_of_find?_eq_some (Block.scheduled_eq_ok.mp h))).outbound t ho

/-- From ground types only a ground type is recorded at a marginal. -/
theorem MarginalEntry.keeps_settle_grounded (hs : GroundTable s.posterior.marginalTypes)
    (hb : b.Grounded) : Keeps Grounded (MarginalEntry.settle s b) := by
  have hset : ∀ {m : MarginalEntry} {t : TypeTerm}, t.Ground → m.type = some t → m.Grounded := by
    intro m t ht hm u hu
    rw [hm] at hu
    cases hu
    exact ht
  unfold MarginalEntry.settle
  refine Keeps.bind Keeps.get fun m => ?_
  split
  · exact Keeps.liftM_bind fun e he =>
      Keeps.bind (Keeps.set (hset (hb.outboundType he) rfl)) fun _ =>
      Keeps.bind (Keeps.liftM _) fun _ => Keeps.pure _
  · exact Keeps.liftM_bind fun e he => Keeps.liftM_bind fun f hf => Keeps.liftM_bind fun r hr =>
      Keeps.bind (Keeps.set (hset (ground_of_resolveMarginal (hb.outboundType he)
        (hb.outboundType hf) hr) rfl)) fun _ => Keeps.pure _
  · refine Keeps.bind (Keeps.liftM _) fun node => Keeps.bind (Keeps.liftM _) fun sources =>
      Keeps.liftM_bind fun types htypes => Keeps.liftM_bind fun r hr =>
      Keeps.bind (Keeps.set (hset (ground_of_resolve ?_ hr) rfl)) fun _ => Keeps.pure _
    exact ground_of_sourceTypes hs (groundTable_messageTypes hb.entries) htypes

/-- From ground types only ground types are recorded at marginals, and published. -/
theorem grounded_of_settleEntries {g : Graph} {c : Catalogue} {p : Posterior}
    {l : List MarginalEntry} {r : List MarginalEntry × Posterior} (hb : b.Grounded)
    (hp : GroundTable p.marginalTypes) (hl : ∀ m ∈ l, m.Grounded)
    (h : settleEntries g c b p l = .ok () r ∨ ∃ f, settleEntries g c b p l = .error f r) :
    (∀ m ∈ r.1, m.Grounded) ∧ GroundTable r.2.marginalTypes := by
  induction l generalizing p r with
  | nil =>
    rcases h with h | ⟨f, h⟩
    · cases h
      exact ⟨hl, hp⟩
    · contradiction
  | cons m l ih =>
    obtain ⟨hm, hl⟩ := List.forall_mem_cons.mp hl
    have hkeep : Keeps MarginalEntry.Grounded (MarginalEntry.settle (b.surroundings g c p) b) :=
      MarginalEntry.keeps_settle_grounded hp hb
    rcases settleEntries_cons h with ⟨f, m', hs, rfl⟩ | ⟨t, m', r', hs, hr, rfl⟩
    · exact ⟨List.forall_mem_cons.mpr ⟨hkeep.of_error hm hs, hl⟩, hp⟩
    · have hm' := hkeep.of_ok hm hs
      obtain ⟨hr', hpublished⟩ :=
        ih (hp.insert m'.target (hm' t (MarginalEntry.settled_of_settle hs).2)) hl hr
      exact ⟨List.forall_mem_cons.mpr ⟨hm', hr'⟩, hpublished⟩

end Entries

/-! ## Posteriors -/

namespace Posterior

variable {g : Graph} {c : Catalogue} {id : String} {p : Posterior}

/-- **An attempt records only ground types**, if there were only ground types before. -/
theorem keeps_assemble_grounded :
    Keeps (Recorded Block.Grounded GroundTable) (assemble g c id) := by
  refine keeps_assemble_recorded (fun b hb => ⟨fun e he => ?_, hb.marginals⟩)
    (fun p b hp hb => ?_) (fun b hb => ⟨hb.entries, hb.marginals⟩) (fun b hb => ?_)
    fun p b r hp hb hr => ?_
  · obtain ⟨f, hf, rfl⟩ := List.mem_map.mp he
    exact ⟨(hb.entries f hf).1, (hb.entries f hf).2⟩
  · rw [Block.outcome_inferSchedule]
    refine ⟨?_, hb.marginals⟩
    exact keeps_forall_inferEntries_of (K := GroundTable) (s := b.surroundings g c p)
      (fun known place hknown => ScheduleEntry.keeps_infer_grounded hp hknown place)
      (fun known e hknown he => he.learn hknown) groundTable_empty 0 b.schedule hb.entries
  · refine Block.keeps_designateSeeds_of (I := Block.Grounded) g (fun d x hd => ?_)
      (fun _ _ hd => ⟨hd.entries, hd.marginals⟩) b hb
    refine ⟨fun e he => ?_, hd.marginals⟩
    obtain ⟨f, hf, rfl⟩ := List.mem_map.mp he
    split
    · exact ⟨(hd.entries f hf).1, (hd.entries f hf).2⟩
    · exact hd.entries f hf
  · obtain ⟨hmarginals, htypes⟩ := grounded_of_settleEntries hb hp hb.marginals hr
    exact ⟨⟨hb.entries, hmarginals⟩, htypes⟩

/-- **All types on record are ground**, in every posterior that is built: whatever has been
assembled, in whatever order and with whatever rules, whether it succeeded or not, and whatever is
declared for the edges of the graph. -/
theorem Built.grounded (h : Built g p) : Recorded Block.Grounded GroundTable p := by
  refine h.recorded (fun b _ hb => ?_) (fun b b' sites hb hb' => ?_) (fun b b' hb hb' => ?_)
    (fun b i type method hb => ?_) (fun b hb => ⟨hb.entries, hb.marginals⟩) groundTable_empty
    fun _ _ => keeps_assemble_grounded
  · rw [← (Block.of_ofVariables hb).2]
    exact ⟨fun _ he => absurd he List.not_mem_nil, fun _ hm => absurd hm List.not_mem_nil⟩
  · obtain ⟨-, -, rfl⟩ := Block.withSchedule_eq_ok.mp hb'
    refine ⟨fun e he => ?_, hb.marginals⟩
    obtain ⟨i, -, rfl⟩ := List.mem_map.mp he
    exact ⟨fun _ ht => absurd ht List.not_mem_nil, nofun⟩
  · have hmarginals : ∀ m ∈ b'.marginalTable, m.Grounded := by
      rw [← Block.bare_of_withMarginalTable hb']
      intro m hm
      obtain ⟨n, -, rfl⟩ := List.mem_map.mp hm
      exact nofun
    obtain ⟨single, joint, -, -, rfl⟩ := Block.withMarginalTable_eq_ok.mp hb'
    exact ⟨hb.entries, hmarginals⟩
  · unfold Attempt.outcome Block.constrain
    cases hf : b.schedule.find? fun e => Int.ofNat e.interface = i with
    | none => exact hb
    | some e =>
      have he := hb.entries e (List.mem_of_find?_eq_some hf)
      refine ⟨fun x hx => ?_, hb.marginals⟩
      obtain ⟨y, hy, rfl⟩ := List.mem_map.mp hx
      split
      · exact ⟨he.inbound, he.outbound⟩
      · exact hb.entries y hy

/-- Two priors of one variable, for whose edge a pattern with a variable and a wildcard is
declared. -/
def patternGraph : Graph :=
  let prior : NodeRequest := { kind := "prior", interfaces := 1 }
  let g := ((Graph.addNode prior).outcome ((Graph.addNode prior).outcome ∅).2).2
  ((Graph.connect (.numbered 0) (some (.numbered 1)) (some "x")
    (some (.dist "Gaussian" [.var "n", .any]))).outcome g).2

/-- A prior that computes its type, and products of Gaussians of any dimensions. -/
def patternCatalogue : Catalogue :=
  ⟨[{ key := ⟨"prior", .sumProduct, some 0⟩
      inbounds := [.void]
      outbound := .computed (.constant 0 "gaussian" (.dist "Gaussian" [.num 2, .num 3])) },
    { key := Catalogue.productKey
      inbounds := List.replicate 2 (.message (.dist "Gaussian" [.var "n", .var "m"]))
      outbound := .pattern (.dist "Gaussian" [.var "n", .var "m"]) }]⟩

/-- The posterior with a block for the variable that has been assembled. -/
def patternPosterior : Posterior :=
  let p := ((addBlock patternGraph ["x"] (some "x")).outcome { options := wholeOptions }).2
  ((assemble patternGraph patternCatalogue "x").outcome
    ((layOut patternGraph [] ["x"]).outcome p).2).2

/-- The marginal has a type that the pattern admits, and the pattern itself is on record nowhere. -/
theorem grounded_pattern : Built patternGraph patternPosterior ∧
    patternGraph.declared? 0 = some (.dist "Gaussian" [.var "n", .any]) ∧
    patternPosterior.marginalTypes.get? (.variable "x") =
      some (.dist "Gaussian" [.num 2, .num 3]) ∧
    Recorded Block.Grounded GroundTable patternPosterior := by
  have hbuilt : Built patternGraph patternPosterior :=
    .assemble (keeps_layOut [] ["x"] _ (.addBlock (.fresh wholeOptions) ["x"] (some "x"))) _ _
  refine ⟨hbuilt, by cbv, by cbv, hbuilt.grounded⟩

end Posterior

end MessagePassing
