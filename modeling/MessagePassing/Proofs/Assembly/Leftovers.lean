import MessagePassing.Proofs.Assembly.Skeleton

/-!
# What attempts leave behind

An attempt to assemble a block works in place and may stop anywhere. What it leaves behind is not
taken away before the next attempt: that one overwrites it, field by field, as far as it comes.

* The task of a block is what an attempt has to do: the skeleton, with what a caller asks for. No
  attempt changes it.
* `Block.Tidy` is said of a block whose attempts have left nothing where the next one does not
  overwrite it. That concerns observed values, which have no rule, and marginals that are copies.
* `Block.Clean` is said of a block that has been through nothing but attempts.

Results:
* **`keeps_assemble_task`**: an attempt keeps the tasks of all blocks, and leaves tidy blocks tidy,
  also when it fails and when the graph has grown since.
* `keeps_assemble_clean`: an attempt leaves clean blocks clean.
-/

namespace MessagePassing

open Attempt (Keeps)

/-- The nodes of a graph are those of another one, which may have more. -/
def Graph.Within (h g : Graph) : Prop :=
  ∀ n x, h.node n = .ok x → g.node n = .ok x

/-! ## Entries of the schedule -/

namespace ScheduleEntry

/-- The entry as it is before it is resolved, with what a caller asks for. -/
def asked (e : ScheduleEntry) : ScheduleEntry :=
  { e.bare with constraint := e.constraint, method := e.method }

/-- An observed value has never been taken for the outcome of a rule. -/
def Tidy (g : Graph) (e : ScheduleEntry) : Prop :=
  ∀ n, g.node e.node = .ok n → n.isClamp → e.approximation = none ∧ e.oneByOne = false

/-- The entry of a schedule after attempts to resolve it: a caller has set nothing, and an observed
value has never been taken for the outcome of a rule. -/
structure Clean (g : Graph) (e : ScheduleEntry) : Prop where
  constraint : e.constraint = none
  method : e.method = none
  observed : ∀ n, g.node e.node = .ok n → n.isClamp → e.approximation = none ∧ e.oneByOne = false

variable {s : Surroundings} {g : Graph} {known : Table InterfaceId TypeTerm} {place : Nat}

/-- The resolution of an entry keeps what is asked for. -/
theorem keeps_infer_asked (k : ScheduleEntry) :
    Keeps (fun e : ScheduleEntry => e.asked = k) (ScheduleEntry.infer s known place) :=
  keeps_infer_of (fun _ _ _ _ _ _ _ _ h => h) s known place

/-- An attempt leaves an entry tidy, also in a graph that has grown since. -/
theorem keeps_infer_tidy (hg : s.graph.Within g) :
    Keeps (Tidy g) (ScheduleEntry.infer s known place) := by
  -- the node stays the one that is looked up
  have hat : ∀ k, Keeps (fun e : ScheduleEntry => e.Tidy g ∧ e.node = k)
      (ScheduleEntry.infer s known place) := by
    intro k
    unfold ScheduleEntry.infer
    refine Keeps.bind (Keeps.modify fun _ h => h) fun _ => Keeps.get_bind fun e he =>
      Keeps.liftM_bind fun node hn => ?_
    split
    · exact Keeps.modify fun _ h => h
    · rename_i hv
      refine Keeps.bind (Keeps.liftM _) fun _ => Keeps.bind (Keeps.modify fun _ h => h) fun _ =>
        Keeps.bind (Keeps.ofExcept _) fun _ => Keeps.bind (Keeps.modify fun _ h => h) fun _ =>
        Keeps.bind (Keeps.liftM _) fun r => Keeps.modify fun f hf => ⟨fun n hfn hclamp => ?_, hf.2⟩
      -- an entry with a rule has no observed value
      have hfn : g.node f.node = .ok n := hfn
      rw [hf.2, ← he.2, hg _ _ hn] at hfn
      cases hfn
      simp [Node.isClamp, hv] at hclamp
  exact fun e he => (hat e.node e ⟨he, rfl⟩).1

end ScheduleEntry

/-! ## Marginals -/

/-- A copy has no rule. -/
def MarginalEntry.Clean (m : MarginalEntry) : Prop :=
  ∀ i, m.plan = .copy i → m.rule = none

/-- An attempt leaves a marginal clean. -/
theorem MarginalEntry.keeps_settle_clean {s : Surroundings} {b : Block} :
    Keeps Clean (MarginalEntry.settle s b) := by
  unfold MarginalEntry.settle
  refine Keeps.get_bind fun m hm => ?_
  split
  · exact Keeps.bind (Keeps.liftM _) fun _ => Keeps.bind (Keeps.set hm) fun _ =>
      Keeps.bind (Keeps.liftM _) fun _ => Keeps.pure _
  · rename_i hplan
    exact Keeps.bind (Keeps.liftM _) fun _ => Keeps.bind (Keeps.liftM _) fun _ =>
      Keeps.bind (Keeps.liftM _) fun _ =>
      Keeps.bind (Keeps.set fun i hi => absurd (hplan.symm.trans hi) nofun) fun _ => Keeps.pure _
  · rename_i hplan
    exact Keeps.bind (Keeps.liftM _) fun _ => Keeps.bind (Keeps.liftM _) fun _ =>
      Keeps.bind (Keeps.ofExcept _) fun _ => Keeps.bind (Keeps.liftM _) fun _ =>
      Keeps.bind (Keeps.set fun i hi => absurd (hplan.symm.trans hi) nofun) fun _ => Keeps.pure _

/-- An attempt leaves all marginals clean. -/
theorem clean_of_settleEntries {g : Graph} {c : Catalogue} {b : Block} {p : Posterior}
    {l : List MarginalEntry} {r : List MarginalEntry × Posterior} (hl : ∀ m ∈ l, m.Clean)
    (h : settleEntries g c b p l = .ok () r ∨ ∃ f, settleEntries g c b p l = .error f r) :
    ∀ m ∈ r.1, m.Clean := by
  induction l generalizing p r with
  | nil =>
    rcases h with h | ⟨f, h⟩
    · cases h
      exact hl
    · contradiction
  | cons m l ih =>
    obtain ⟨hm, hl⟩ := List.forall_mem_cons.mp hl
    rcases settleEntries_cons h with ⟨f, m', hs, rfl⟩ | ⟨t, m', r', hs, hr, rfl⟩
    · exact List.forall_mem_cons.mpr ⟨MarginalEntry.keeps_settle_clean.of_error hm hs, hl⟩
    · have hm' : m'.Clean := MarginalEntry.keeps_settle_clean.of_ok hm hs
      exact List.forall_mem_cons.mpr ⟨hm', ih hl hr⟩

/-! ## Blocks -/

namespace Block

/-- What an attempt has to do: the skeleton of the block, with what a caller asks for. That it was
ready to run is no concern of an attempt. -/
def task (b : Block) : Block :=
  { b.skeleton with schedule := b.schedule.map (·.asked), runnable := b.runnable }

/-- Earlier attempts have left nothing where the next one does not overwrite it. -/
structure Tidy (g : Graph) (b : Block) : Prop where
  entries : ∀ e ∈ b.schedule, e.Tidy g
  marginals : ∀ m ∈ b.marginalTable, m.Clean

/-- A block that has been through nothing but attempts to assemble it. -/
structure Clean (g : Graph) (b : Block) : Prop where
  entries : ∀ e ∈ b.schedule, e.Clean g
  marginals : ∀ m ∈ b.marginalTable, m.Clean
  runnable : b.runnable = false

variable {g h : Graph} {c : Catalogue} {p : Posterior} {b b' : Block}

theorem id_of_task (h : b'.task = b.task) : b'.id = b.id := by
  change b'.task.id = b.task.id
  rw [h]

theorem task_eq (hs : b'.skeleton = b.skeleton)
    (ha : b'.schedule.map (·.asked) = b.schedule.map (·.asked)) (hr : b'.runnable = b.runnable) :
    b'.task = b.task := by
  unfold task
  rw [hs, ha, hr]

/-- A block that is cleaner than tidy is told by its task. -/
theorem clean_iff : b.Clean g ↔
    b.Tidy g ∧ (∀ e ∈ b.task.schedule, e.constraint = none ∧ e.method = none) ∧
      b.task.runnable = false := by
  constructor
  · intro h
    refine ⟨⟨fun e he => (h.entries e he).observed, h.marginals⟩, fun e he => ?_, h.runnable⟩
    obtain ⟨f, hf, rfl⟩ := List.mem_map.mp he
    exact ⟨(h.entries f hf).constraint, (h.entries f hf).method⟩
  · rintro ⟨htidy, hasked, hrunnable⟩
    refine ⟨fun e he => ?_, htidy.marginals, hrunnable⟩
    have he' := hasked e.asked (List.mem_map_of_mem he)
    exact ⟨he'.1, he'.2, htidy.entries e he⟩

/-! ### What the parts of an attempt keep -/

theorem task_restart (b : Block) : b.restart.task = b.task := by
  refine task_eq b.skeleton_restart ?_ rfl
  unfold restart
  rw [List.map_map]
  rfl

theorem Tidy.restart (hb : b.Tidy g) : b.restart.Tidy g := by
  refine ⟨fun e he => ?_, hb.marginals⟩
  obtain ⟨f, hf, rfl⟩ := List.mem_map.mp he
  exact hb.entries f hf

theorem task_inferSchedule : ((Block.inferSchedule h c p).outcome b).2.task = b.task := by
  refine task_eq (keeps_inferSchedule h c p _ b rfl) ?_ ?_ <;> rw [outcome_inferSchedule]
  exact map_inferEntries (fun _ _ => ScheduleEntry.keeps_infer_asked) ∅ 0 b.schedule

theorem Tidy.inferSchedule (hg : h.Within g) (hb : b.Tidy g) :
    ((Block.inferSchedule h c p).outcome b).2.Tidy g := by
  rw [outcome_inferSchedule]
  exact ⟨keeps_forall_inferEntries (fun _ _ => ScheduleEntry.keeps_infer_tidy hg) ∅ 0 b.schedule
    hb.entries, hb.marginals⟩

theorem task_lay (b : Block) (d : Designation) : (b.lay d).task = b.task := by
  refine task_eq (b.skeleton_lay d) ?_ rfl
  unfold lay
  rw [List.map_map]
  refine List.map_congr_left fun e _ => ?_
  rw [Function.comp_apply]
  split <;> rfl

theorem Tidy.lay (hb : b.Tidy g) (d : Designation) : (b.lay d).Tidy g := by
  refine ⟨fun e he => ?_, hb.marginals⟩
  obtain ⟨f, hf, rfl⟩ := List.mem_map.mp he
  split
  · exact hb.entries f hf
  · exact hb.entries f hf

theorem task_designateSeeds : ((Block.designateSeeds h).outcome b).2.task = b.task :=
  keeps_designateSeeds_of (I := fun d => d.task = b.task) h
    (fun d x hd => (d.task_lay x).trans hd) (fun _ _ hd => hd) b rfl

theorem Tidy.designateSeeds (hb : b.Tidy g) : ((Block.designateSeeds h).outcome b).2.Tidy g :=
  keeps_designateSeeds_of h (fun _ d hd => hd.lay d) (fun _ _ hd => ⟨hd.entries, hd.marginals⟩) b hb

end Block

/-! ## Posteriors -/

namespace Posterior

variable {g h : Graph} {c : Catalogue} {id : String} {P : Block → Prop}

/-- **An attempt keeps the task of the block, and leaves a tidy block tidy**, also when it fails. -/
theorem keeps_assemble_task (hg : h.Within g)
    (hP : ∀ b b' : Block, b'.task = b.task → (b.Tidy g → b'.Tidy g) → P b → P b') :
    Keeps (Each P) (assemble h c id) :=
  keeps_assemble_of_parts
    (fun b _ hb => hP b _ b.task_restart (fun ht => ht.restart) hb)
    (fun _ b _ hb => hP b _ Block.task_inferSchedule (fun ht => ht.inferSchedule hg) hb)
    (fun b _ hb => hP b _ rfl (fun ht => ⟨ht.entries, ht.marginals⟩) hb)
    (fun b _ hb => hP b _ Block.task_designateSeeds (fun ht => ht.designateSeeds) hb)
    fun _ b _ _ hb hr => hP b _
      (Block.task_eq (Block.skeleton_eq rfl rfl rfl rfl (bare_settleEntries hr).1) rfl rfl)
      (fun ht => ⟨ht.entries, clean_of_settleEntries ht.marginals hr⟩) hb

/-- **An attempt leaves a block clean**, also when it fails. -/
theorem keeps_assemble_clean : Keeps (Each (Block.Clean g)) (assemble g c id) := by
  refine keeps_assemble_task (g := g) (fun _ _ hn => hn) fun b b' htask htidy hb => ?_
  rw [Block.clean_iff] at hb ⊢
  rw [htask]
  exact ⟨htidy hb.1, hb.2⟩

end Posterior

end MessagePassing
