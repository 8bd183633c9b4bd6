import MessagePassing.Proofs.Assembly.Completion
import MessagePassing.Proofs.Assembly.Constraints
import MessagePassing.Proofs.Assembly.Records
import MessagePassing.Proofs.Graph.Calls

/-!
# Trying again

A block may be assembled as often as a caller likes, with different rules and while the graph grows,
and each attempt may stop anywhere. The last one comes to the same as if it were the first.

The proof compares two blocks, one of which has been through attempts (`Block.Retried`). They have
the same task, and the attempts have left the second one tidy. Whatever an attempt comes to on a
tidy block, it comes to on its task alone (`finish_assemble_task`), so it cannot tell the two apart.

Results:
* `Block.Retried.same`: blocks that differ by attempts only have the same task and are tidy.
* `Posterior.Built.retried`: every block of a posterior that is built differs by attempts only from
  one without any.
* **`Posterior.startsOver_of_retried`**: an attempt starts over, whatever earlier ones have left.
-/

namespace MessagePassing

open Attempt (Keeps success finish_get_bind finish_modify_bind finish_liftM_bind
  finish_ofExcept_bind finish_bind)

/-! ## What an attempt reads of a tidy block -/

namespace ScheduleEntry

variable {s : Surroundings} {known : Table InterfaceId TypeTerm} {place : Nat} {e : ScheduleEntry}

/-- The resolution of a tidy entry comes to what it comes to from what is asked for. -/
theorem finish_infer_asked (he : e.Tidy s.graph) (hseed : e.seed = none) :
    (ScheduleEntry.infer s known place).finish e =
      (ScheduleEntry.infer s known place).finish e.asked := by
  unfold ScheduleEntry.infer
  rw [finish_modify_bind, finish_modify_bind, finish_get_bind, finish_get_bind, finish_liftM_bind,
    finish_liftM_bind]
  change (s.graph.node e.node >>= _) = (s.graph.node e.node >>= _)
  cases hn : s.graph.node e.node with
  | error f => rfl
  | ok node =>
    replace he := he node hn
    obtain ⟨i, n, j, t, constraint, method, types, out, approximation, rule, oneByOne, inbounds,
      order, seed⟩ := e
    obtain rfl : seed = none := hseed
    rw [ok_bind, ok_bind]
    cases hv : node.observed with
    | some value =>
      -- an observed value overwrites all but what belongs to a rule
      obtain ⟨rfl, rfl⟩ : approximation = none ∧ oneByOne = false := he (by simp [Node.isClamp, hv])
      rfl
    | none =>
      dsimp only
      rw [finish_liftM_bind, finish_liftM_bind]
      refine bind_congr fun sources => ?_
      rw [finish_modify_bind, finish_modify_bind, finish_ofExcept_bind, finish_ofExcept_bind]
      refine bind_congr fun types => ?_
      rw [finish_modify_bind, finish_modify_bind, finish_liftM_bind, finish_liftM_bind]
      rfl

/-- So does the resolution of a list of them. -/
theorem success_inferEntries_asked {l : List ScheduleEntry}
    (hl : ∀ e ∈ l, e.Tidy s.graph ∧ e.seed = none) :
    success (inferEntries s known place l) =
      success (inferEntries s known place (l.map (·.asked))) := by
  induction l generalizing known place with
  | nil => rfl
  | cons e l ih =>
    obtain ⟨⟨he, hseed⟩, hl⟩ := List.forall_mem_cons.mp hl
    rw [List.map_cons, success_inferEntries_cons, success_inferEntries_cons,
      finish_infer_asked he hseed]
    refine bind_congr fun r => ?_
    rw [ih hl]

end ScheduleEntry

namespace Block

variable {g : Graph} {c : Catalogue} {p : Posterior} {b : Block}

/-- A tidy block is readied as its task is. -/
theorem readied_task (hb : b.Tidy g) : b.readied g c p =
    b.task.readied g c p >>= fun d => .ok (d.withMarginals b.marginalTable) := by
  have htidy : ∀ e ∈ b.restart.schedule, e.Tidy g ∧ e.seed = none := by
    intro e he
    refine ⟨hb.restart.entries e he, ?_⟩
    obtain ⟨f, -, rfl⟩ := List.mem_map.mp he
    rfl
  have hasked : b.restart.schedule.map (·.asked) = b.task.restart.schedule := by
    unfold restart task
    rw [List.map_map, List.map_map]
    rfl
  have hl : success (inferEntries (b.surroundings g c p) ∅ 0 b.restart.schedule) =
      success (inferEntries (b.task.surroundings g c p) ∅ 0 b.task.restart.schedule) := by
    rw [← hasked]
    exact ScheduleEntry.success_inferEntries_asked (s := b.surroundings g c p) htidy
  have hblank : ∀ l : List ScheduleEntry,
      ({ b.task.skeleton with schedule := l, runnable := b.task.runnable } : Block) =
        { b.skeleton with schedule := l, runnable := b.runnable } := by
    intro l
    unfold task skeleton
    dsimp only
    rw [List.map_map]
    rfl
  rw [readied_eq, readied_eq, hl, bind_assoc]
  refine bind_congr fun r => ?_
  rw [hblank, bind_assoc]
  rfl

theorem readied_congr {q : Posterior} (hs : q.sources = p.sources)
    (ht : q.sourceType = p.sourceType) : b.readied g c q = b.readied g c p := by
  unfold readied
  rw [inferSchedule_congr hs ht]

end Block

namespace Posterior

variable {g : Graph} {c : Catalogue} {p : Posterior} {b b₀ : Block} {id : String}

/-- **What an attempt comes to on a tidy block, it comes to on the task of the block.** -/
theorem finish_assemble_task (hb : p.blocks.get? b.id = some b) (htidy : b.Tidy g) :
    (assemble g c b.id).finish p = (assemble g c b.id).finish (p.putBlock b.task) := by
  have hclean : ∀ m ∈ b.task.marginalTable, m.Clean := by
    intro m hm
    obtain ⟨n, -, rfl⟩ := List.mem_map.mp hm
    exact fun _ _ => rfl
  have htask : (p.putBlock b.task).blocks.get? b.id = some b.task := by
    rw [get?_putBlock, if_pos (show b.task.id = b.id from rfl)]
  have hcongr : b.task.readied g c (p.putBlock b.task) = b.task.readied g c p :=
    Block.readied_congr rfl rfl
  rw [finish_assemble_of hb rfl htidy.marginals, finish_assemble_of htask rfl hclean,
    Block.readied_task htidy, bind_assoc, hcongr]
  cases hd : b.task.readied g c p with
  | error f => rfl
  | ok d =>
    have hid : d.id = b.task.id :=
      Block.id_of_outline (Block.outline_of_skeleton (Block.of_readied hd).1)
    have hsettled : settledEntries g c (d.withMarginals b.marginalTable) p b.marginalTable =
        settledEntries g c d (p.putBlock b.task) b.task.marginalTable := by
      change _ = settledEntries g c (d.withMarginals d.marginalTable) (p.putBlock b.task)
        (b.marginalTable.map (·.bare))
      rw [Block.settledEntries_bare, settledEntries_congr (q := p) (p := p) rfl rfl,
        settledEntries_congr (q := p.putBlock b.task) (p := p) rfl rfl]
    rw [ok_bind, ok_bind, ok_bind, hsettled]
    refine bind_congr fun l => ?_
    have hcomplete : p.complete ((d.withMarginals b.marginalTable).withMarginals l) =
        (p.putBlock b.task).complete (d.withMarginals l) := by
      unfold complete putBlock
      dsimp only
      rw [show b.task.id = (d.withMarginals l).id from hid.symm, Table.insert_insert]
      rfl
    rw [hcomplete]

end Posterior

/-! ## Blocks that differ by attempts -/

/-- No call takes a node away, and none changes one. -/
theorem Graph.within_after (c : Call) (g : Graph) : g.Within (c.after g) := by
  have hkeep : ∀ {h : Graph} (r : NodeRequest), h.nodes = g.nodes →
      g.Within ((Graph.addNode r).outcome h).2 := by
    intro h r hh n x hn
    have hx : h.nodes[n]? = some x := hh ▸ node_eq_ok.mp hn
    refine node_eq_ok.mpr ?_
    rcases nodes_addNode h r with hnodes | ⟨-, name, observed, -, hnodes⟩
    · rw [hnodes, hx]
    · rw [hnodes, getElem?_append_of_some hx]
  unfold Call.after
  cases c with
  | addNode r => exact hkeep r rfl
  | addClamp value name =>
    change g.Within ((Graph.addClamp value name).outcome g).2
    unfold Attempt.outcome Graph.addClamp
    cases Tensor.ofNested value with
    | error f => exact fun _ _ hn => hn
    | ok t => exact hkeep _ rfl
  | connect tail head owner declared =>
    change g.Within ((Graph.connect tail head owner declared).outcome g).2
    unfold Attempt.outcome Graph.connect
    cases g.joinedEnds tail head with
    | error f => exact fun _ _ hn => hn
    | ok ends => exact fun _ _ hn => hn

namespace Block

/-- Two blocks have come about from the same calls, but for attempts to assemble the second one. The
calls may have found other graphs, those of the attempts within the graph `g` of today. -/
inductive Retried (g : Graph) : Block → Block → Prop
  /-- There is nothing but what the block is made with. -/
  | made {b : Block} (hb : b.outline = b) : Retried g b b
  | schedule {b₀ b b₀' b' : Block} (hr : Retried g b₀ b) {k : Graph} {sites : List InterfaceId}
      (h₀ : b₀.withSchedule k sites = .ok b₀') (h : b.withSchedule k sites = .ok b') :
      Retried g b₀' b'
  | tabulate {b₀ b b₀' b' : Block} (hr : Retried g b₀ b) {k : Graph}
      (h₀ : b₀.withMarginalTable k = .ok b₀') (h : b.withMarginalTable k = .ok b') :
      Retried g b₀' b'
  | constrain {b₀ b : Block} (hr : Retried g b₀ b) (i : Int) (type : Option TypeTerm)
      (method : Option String) :
      Retried g ((Block.constrain i type method).outcome b₀).2
        ((Block.constrain i type method).outcome b).2
  | makeRunnable {b₀ b : Block} (hr : Retried g b₀ b) :
      Retried g { b₀ with runnable := true } { b with runnable := true }
  /-- An attempt on the second block alone, in whatever posterior, may fail or succeed. -/
  | assemble {b₀ b b' : Block} (hr : Retried g b₀ b) {k : Graph} (hk : k.Within g) (c : Catalogue)
      {p : Posterior} (hp : p.Each fun _ => True) (hb : p.blocks.get? b.id = some b)
      (hb' : ((Posterior.assemble k c b.id).outcome p).2.blocks.get? b.id = some b') :
      Retried g b₀ b'

variable {g g' k : Graph} {b b' b₀ : Block} {sites : List InterfaceId}

/-- The graph may grow. -/
theorem Retried.mono (h : Retried g b₀ b) (hg : g.Within g') : Retried g' b₀ b := by
  induction h with
  | made hb => exact .made hb
  | schedule _ h₀ h ih => exact ih.schedule h₀ h
  | tabulate _ h₀ h ih => exact ih.tabulate h₀ h
  | constrain _ i type method ih => exact ih.constrain i type method
  | makeRunnable _ ih => exact ih.makeRunnable
  | assemble _ hk c hp hb hb' ih =>
    exact ih.assemble (fun n x hn => hg n x (hk n x hn)) c hp hb hb'

theorem outline_of_task (h : b'.task = b.task) : b'.outline = b.outline := by
  change b'.task.outline = b.task.outline
  rw [h]

/-- The task of a block that is scheduled anew, but for its marginals. -/
theorem task_of_withSchedule (h : b.withSchedule k sites = .ok b') :
    b'.task =
      { b.task with
        schedule := (b.outline.dependencyGraph k sites).postOrder.order.map
          (b.outline.freshEntry k sites)
        loopBreakers :=
          Ascending.ofList ((b.outline.dependencyGraph k sites).postOrder.back.map (·.2))
        arcs := (b.outline.dependencyGraph k sites).arcs } := by
  obtain ⟨-, -, rfl⟩ := withSchedule_eq_ok.mp h
  unfold task skeleton
  dsimp only
  rw [List.map_map]
  rfl

/-- The task of a block whose marginal table is made anew, but for its schedule. -/
theorem task_of_withMarginalTable (h : b.withMarginalTable k = .ok b') :
    ∃ table, b.outline.withMarginalTable k = .ok (b.outline.withMarginals table) ∧
      b'.task = { b.task with marginalTable := table } := by
  have hbare := bare_of_withMarginalTable h
  obtain ⟨single, joint, hsingle, hjoint, rfl⟩ := withMarginalTable_eq_ok.mp h
  refine ⟨single ++ joint, withMarginalTable_eq_ok.mpr ⟨single, joint, hsingle, hjoint, rfl⟩, ?_⟩
  unfold task skeleton
  dsimp only
  rw [show (single ++ joint).map (·.bare) = single ++ joint from hbare]
  rfl

/-- The task is told by what the entries ask for. -/
theorem task_withEntries {l l' : List ScheduleEntry} (h : l.map (·.asked) = l'.map (·.asked)) :
    (b.withEntries l).task = (b.task.withEntries l').task := by
  unfold task skeleton withEntries
  dsimp only
  rw [h, List.map_map]
  rfl

/-- A constraint is set on the task of the block. -/
theorem task_constrain (i : Int) (type : Option TypeTerm) (method : Option String) (b : Block) :
    ((Block.constrain i type method).outcome b).2.task =
      ((Block.constrain i type method).outcome b.task).2.task := by
  have hfind : b.task.schedule.find? (fun e => Int.ofNat e.interface = i) =
      (b.schedule.find? fun e => Int.ofNat e.interface = i).map (·.asked) := by
    unfold task
    dsimp only
    rw [List.find?_map]
    rfl
  unfold Attempt.outcome Block.constrain
  rw [hfind]
  cases b.schedule.find? fun e => Int.ofNat e.interface = i with
  | none =>
    have hsame : b.schedule.map (·.asked) = b.task.schedule.map (·.asked) := by
      unfold task
      rw [List.map_map]
      rfl
    exact task_withEntries hsame
  | some e =>
    refine task_withEntries ?_
    unfold task
    rw [List.map_map, List.map_map, List.map_map]
    refine List.map_congr_left fun f _ => ?_
    change (if f.interface = e.interface then _ else f).asked =
      (if f.interface = e.interface then _ else f.asked).asked
    split <;> rfl

theorem Tidy.constrain (hb : b.Tidy g) (i : Int) (type : Option TypeTerm)
    (method : Option String) : ((Block.constrain i type method).outcome b).2.Tidy g := by
  unfold Attempt.outcome Block.constrain
  cases hf : b.schedule.find? fun e => Int.ofNat e.interface = i with
  | none => exact hb
  | some e =>
    refine ⟨fun f hf' => ?_, hb.marginals⟩
    obtain ⟨x, hx, rfl⟩ := List.mem_map.mp hf'
    split
    · exact hb.entries e (List.mem_of_find?_eq_some hf)
    · exact hb.entries x hx

theorem Tidy.withSchedule (hb : b.Tidy g) (h : b.withSchedule k sites = .ok b') : b'.Tidy g := by
  obtain ⟨-, -, rfl⟩ := withSchedule_eq_ok.mp h
  refine ⟨fun e he => ?_, hb.marginals⟩
  obtain ⟨i, -, rfl⟩ := List.mem_map.mp he
  exact fun _ _ _ => ⟨rfl, rfl⟩

theorem Tidy.withMarginalTable (hb : b.Tidy g) (h : b.withMarginalTable k = .ok b') :
    b'.Tidy g := by
  refine ⟨?_, clean_of_withMarginalTable h⟩
  obtain ⟨single, joint, -, -, rfl⟩ := withMarginalTable_eq_ok.mp h
  exact hb.entries

/-- Whether a block can be scheduled is told by its outline. -/
theorem exists_withSchedule (ho : b₀.outline = b.outline) (h : b.withSchedule k sites = .ok b') :
    ∃ b₀', b₀.withSchedule k sites = .ok b₀' := by
  obtain ⟨hne, hbound, -⟩ := withSchedule_eq_ok.mp h
  refine ⟨_, withSchedule_eq_ok.mpr ⟨?_, ?_, rfl⟩⟩
  · change b₀.outline.isEmpty = false
    rw [ho]
    exact hne
  · change ∀ i ∈ b₀.outline.discovered k sites, _
    rw [ho]
    exact hbound

/-- Whether a marginal table can be made is told by the outline. -/
theorem exists_withMarginalTable (ho : b₀.outline = b.outline)
    (h : b.withMarginalTable k = .ok b') : ∃ b₀', b₀.withMarginalTable k = .ok b₀' := by
  obtain ⟨single, joint, hsingle, hjoint, -⟩ := withMarginalTable_eq_ok.mp h
  refine ⟨_, withMarginalTable_eq_ok.mpr ⟨single, joint, ?_, ?_, rfl⟩⟩
  · change b₀.outline.scope.mapM _ = _
    rw [ho]
    exact hsingle
  · change b₀.outline.clusters.mapM _ = _
    rw [ho]
    exact hjoint

/-- **Blocks that differ by attempts only have the same task, and are tidy.** -/
theorem Retried.same (h : Retried g b₀ b) : b.task = b₀.task ∧ b₀.Tidy g ∧ b.Tidy g := by
  induction h with
  | @made b hb =>
    have htidy : b.Tidy g := by
      rw [← hb]
      exact ⟨fun _ he => absurd he List.not_mem_nil, fun _ hm => absurd hm List.not_mem_nil⟩
    exact ⟨rfl, htidy, htidy⟩
  | schedule hr h₀ h ih =>
    refine ⟨?_, ih.2.1.withSchedule h₀, ih.2.2.withSchedule h⟩
    rw [task_of_withSchedule h, task_of_withSchedule h₀, outline_of_task ih.1, ih.1]
  | tabulate hr h₀ h ih =>
    refine ⟨?_, ih.2.1.withMarginalTable h₀, ih.2.2.withMarginalTable h⟩
    obtain ⟨table₀, htable₀, htask₀⟩ := task_of_withMarginalTable h₀
    obtain ⟨table, htable, htask⟩ := task_of_withMarginalTable h
    rw [outline_of_task ih.1, htable₀, Except.ok.injEq] at htable
    have hsame : table₀ = table := congrArg Block.marginalTable htable
    rw [htask, htask₀, ih.1, hsame]
  | constrain hr i type method ih =>
    refine ⟨?_, ih.2.1.constrain i type method, ih.2.2.constrain i type method⟩
    rw [task_constrain, ih.1, ← task_constrain]
  | @makeRunnable b₀ b hr ih =>
    refine ⟨?_, ⟨ih.2.1.entries, ih.2.1.marginals⟩, ⟨ih.2.2.entries, ih.2.2.marginals⟩⟩
    change ({ b.task with runnable := true } : Block) = { b₀.task with runnable := true }
    rw [ih.1]
  | @assemble b₀ b b' hr k hk c p hp hb hb' ih =>
    have hkeep : Keeps (Posterior.Each fun d => d.id = b.id → d.task = b₀.task ∧ d.Tidy g)
        (Posterior.assemble k c b.id) :=
      Posterior.keeps_assemble_task hk fun d d' htask htidy hd hid =>
        have hdid := hd ((id_of_task htask).symm.trans hid)
        ⟨htask.trans hdid.1, htidy hdid.2⟩
    obtain ⟨hid, hsame⟩ := hkeep p (fun j d hd => ⟨(hp j d hd).1, fun hdid => by
      rw [← (hp j d hd).1, hdid, hb] at hd
      cases hd
      exact ⟨ih.1, ih.2.2⟩⟩) b.id b' hb'
    exact ⟨(hsame hid).1, ih.2.1, (hsame hid).2⟩

end Block

namespace Posterior

variable {g : Graph} {c : Catalogue} {p : Posterior} {b b₀ : Block} {id : String}

/-! ### Posteriors that are built -/

/-- An attempt on one block adds an attempt to what that block has been through. -/
theorem keeps_assemble_retried (c : Catalogue) (id : String) :
    Keeps (Each fun b => ∃ b₀, Block.Retried g b₀ b) (assemble g c id) := by
  intro p hp k d hd
  have hnamed : Each (fun _ => True) p := hp.mono fun _ _ => trivial
  have hid : d.id = k :=
    (keeps_assemble (P := fun _ => True) (fun _ _ _ _ _ => trivial) p hnamed k d hd).1
  by_cases hk : k = id
  · subst hk
    cases hb : p.blocks.get? k with
    | none =>
      have hfail : assemble g c k p = .error (.missing k) p := by
        unfold assemble replaceBlock
        refine Attempt.bind_of_error ?_
        unfold onBlock
        rw [hb]
      rw [Attempt.outcome_snd_of_error hfail, hb] at hd
      contradiction
    | some b =>
      obtain ⟨rfl, b₀, hr⟩ := hp k b hb
      exact ⟨hid, b₀, hr.assemble (fun _ _ hn => hn) c hnamed hb hd⟩
  · rw [get?_of_assemble hnamed hk] at hd
    exact hp k d hd

/-- **Every block of a posterior that is built differs by attempts only from one without any.** -/
theorem Built.retried (h : Built g p) : Each (fun b => ∃ b₀, Block.Retried g b₀ b) p := by
  refine (h.recorded (B := fun b => ∃ b₀, Block.Retried g b₀ b) (T := fun _ => True)
    (fun b _ h => ⟨b, .made (Block.of_ofVariables h).2⟩) (fun b b' sites ⟨b₀, hr⟩ hb' => ?_)
    (fun b b' ⟨b₀, hr⟩ hb' => ?_) (fun _ i type method ⟨_, hr⟩ => ⟨_, hr.constrain i type method⟩)
    (fun _ ⟨_, hr⟩ => ⟨_, hr.makeRunnable⟩) trivial
    fun c id p hp => ⟨keeps_assemble_retried c id p hp.blocks, trivial⟩).blocks
  · obtain ⟨b₀', h₀⟩ := Block.exists_withSchedule (Block.outline_of_task hr.same.1).symm hb'
    exact ⟨b₀', hr.schedule h₀ hb'⟩
  · obtain ⟨b₀', h₀⟩ := Block.exists_withMarginalTable (Block.outline_of_task hr.same.1).symm hb'
    exact ⟨b₀', hr.tabulate h₀ hb'⟩

/-! ### Starting over -/

/-- An attempt on the block comes to the same as an attempt on the other one, in its place. -/
structure StartsOver (g : Graph) (c : Catalogue) (p : Posterior) (b₀ b : Block) : Prop where
  /-- Both succeed with the same posterior, or neither does. -/
  succeeds : ∀ q, assemble g c b.id p = .ok () q ↔
    assemble g c b.id (p.putBlock b₀) = .ok () q
  /-- They fail for the same reason. -/
  fails : ∀ f, (∃ q, assemble g c b.id p = .error f q) ↔
    ∃ q, assemble g c b.id (p.putBlock b₀) = .error f q
  /-- After a success, the seeds are still to be laid. -/
  uninitialized : ∀ q, assemble g c b.id p = .ok () q → ∀ i, q.phase b.id i = .uninitialized

/-- **An attempt starts over.** Take a block and what it would be without the attempts to assemble
it so far. In any posterior that holds the block, and with any rules, assembling succeeds just when
it does with the other one in its place, and everything is the same then: the entries of the
schedule, what is recorded to be covered, the seeds, the marginals and what they publish. -/
theorem startsOver_of_retried (hr : Block.Retried g b₀ b) (hb : p.blocks.get? b.id = some b) :
    StartsOver g c p b₀ b := by
  obtain ⟨htask, htidy₀, htidy⟩ := hr.same
  have hid : b₀.id = b.id := (Block.id_of_task htask).symm
  have hb₀ : (p.putBlock b₀).blocks.get? b₀.id = some b₀ := by rw [get?_putBlock, if_pos rfl]
  have hfinish : (assemble g c b.id).finish p = (assemble g c b.id).finish (p.putBlock b₀) := by
    rw [finish_assemble_task hb htidy, ← hid, finish_assemble_task hb₀ htidy₀,
      putBlock_putBlock (show b₀.id = b₀.task.id from rfl), htask]
  refine ⟨fun q => ?_, fun f => ?_, fun q hq i => ?_⟩
  · rw [← Attempt.finish_eq_ok, ← Attempt.finish_eq_ok, hfinish]
  · rw [← Attempt.finish_eq_error, ← Attempt.finish_eq_error, hfinish]
  · replace hq := Attempt.finish_eq_ok.mpr hq
    rw [finish_assemble_of hb rfl htidy.marginals] at hq
    obtain ⟨d, -, hq⟩ := bind_eq_ok.mp hq
    obtain ⟨l, -, hq⟩ := bind_eq_ok.mp hq
    cases hq
    unfold phase forgetPhases
    simp

/-- The prior's graph with one more node. -/
def grownPriorGraph : Graph :=
  (Graph.Call.addNode { kind := "prior", interfaces := 1 }).after priorGraph

/-- The posterior after two attempts. The first one uses the approximate rule, and the second one,
in the larger graph, has no rules. -/
def priorRetried : Posterior :=
  let p := ((assemble priorGraph ⟨[priorRule (some "laplace")]⟩ "x").outcome priorPosterior).2
  ((assemble grownPriorGraph ∅ "x").outcome p).2

theorem retried_prior : Each (fun b => ∃ b₀, Block.Retried grownPriorGraph b₀ b) priorRetried := by
  refine keeps_assemble_retried ∅ "x" _ fun id b hb => ?_
  obtain ⟨hid, b₀, hr⟩ := (Built.assemble built_priorPosterior
    ⟨[priorRule (some "laplace")]⟩ "x").retried id b hb
  exact ⟨hid, b₀, hr.mono (Graph.within_after _ _)⟩

/-- The third attempt finds the method of the first one, and uses the exact rule. -/
theorem startsOver_prior : ∃ b₀ b q, Block.Retried grownPriorGraph b₀ b ∧
    priorRetried.blocks.get? b.id = some b ∧
    b.schedule.map (·.approximation) = [some "laplace"] ∧
    assemble grownPriorGraph priorCatalogue b.id priorRetried = .ok () q ∧
    assemble grownPriorGraph priorCatalogue b.id (priorRetried.putBlock b₀) = .ok () q ∧
    (q.blocks.get? b.id).map (·.schedule.map (·.approximation)) = some [none] := by
  have hentries : (priorRetried.blocks.get? "x").map (·.schedule.map (·.approximation)) =
      some [some "laplace"] := by cbv
  obtain ⟨b, hb, happroximation⟩ := Option.map_eq_some_iff.mp hentries
  obtain ⟨hid, b₀, hr⟩ := retried_prior "x" b hb
  rw [← hid] at hb
  have hassemble := Attempt.eq_ok_of_outcome (s := priorRetried) (a := ())
    (x := assemble grownPriorGraph priorCatalogue "x") (by cbv)
  rw [← hid] at hassemble
  refine ⟨b₀, b, _, hr, hb, happroximation, hassemble,
    ((startsOver_of_retried hr hb).succeeds _).mp hassemble, ?_⟩
  rw [hid]
  cbv

end Posterior

end MessagePassing
