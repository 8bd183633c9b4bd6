import Mathlib.Data.List.Induction
import MessagePassing.Proofs.Assembly.Registry
import MessagePassing.Proofs.Run.Footprint

/-!
# A pass without loops computes everything anew

If every entry of a schedule reads only messages of entries before it, then a replay leaves messages
each of which is what its entry computes from the others. That is an equation for every message, and
such a system has one solution: neither the order of the entries nor what was sent before makes a
difference. The marginals follow from these messages.

Results:
* `solves_of_forM_replay`: a replay leaves a solution.
* `cell_eq_of_solves`: there is one solution.
* `cell_of_forM_publish`: publishing hides what marginals were there before.
* **`Posterior.recomputes_of_compile`**: in a compiled block without loop breakers, the outcome of a
  pass depends neither on the order of the schedule nor on messages and seeds from before.
-/

namespace MessagePassing

/-! ## Equations of a schedule -/

/-- Every entry reads only messages of entries before it. -/
def Ordered (l : List ScheduleEntry) : Prop :=
  ∀ pre e post, l = pre ++ e :: post → ∀ i ∈ messagesOf e.inbounds, i ∈ pre.map (·.interface)

/-- Every message of a list of entries is what its entry computes. -/
def Memory.Solves (g : Graph) (m : Memory) (l : List ScheduleEntry) : Prop :=
  ∀ e ∈ l, ∃ v, m.entryValue g e = .ok v ∧ m.cell (.message e.interface) = some (.value v)

section Solutions

variable {g : Graph} {id : String} {l : List ScheduleEntry} {e : ScheduleEntry} {m m' n : Memory}

theorem Ordered.init (h : Ordered (l ++ [e])) : Ordered l := fun pre f post hl =>
  h pre f (post ++ [e]) (by rw [hl, List.append_assoc, List.cons_append])

theorem Ordered.mem_of_last (h : Ordered (l ++ [e])) {i : InterfaceId}
    (hi : i ∈ messagesOf e.inbounds) : i ∈ l.map (·.interface) :=
  h l e [] rfl i hi

/-- What an entry of an ordered list reads is a message of the list or a marginal. -/
theorem Ordered.mem_of_mem_slotsOf (h : Ordered l) (he : e ∈ l) {s : Slot}
    (hs : s ∈ slotsOf e.inbounds) :
    (∃ i ∈ l.map (·.interface), s = .message i) ∨ ∃ t, s = .marginal t := by
  rcases mem_slotsOf hs with ⟨i, hi, rfl⟩ | ⟨t, -, rfl⟩
  · obtain ⟨pre, post, rfl⟩ := List.append_of_mem he
    refine Or.inl ⟨i, ?_, rfl⟩
    rw [List.map_append]
    exact List.mem_append_left _ (h pre e post rfl i hi)
  · exact Or.inr ⟨t, rfl⟩

/-- **A replay leaves a solution**, and marginals as they are. -/
theorem solves_of_forM_replay (hn : (l.map (·.interface)).Nodup) (ho : Ordered l)
    (h : l.forM (Block.replay g id) m = .ok () m') :
    m'.Solves g l ∧ ∀ t, m'.cell (.marginal t) = m.cell (.marginal t) := by
  induction l using List.reverseRecOn generalizing m' with
  | nil =>
    obtain ⟨-, rfl⟩ := Attempt.pure_eq_ok.mp h
    exact ⟨fun _ he => absurd he List.not_mem_nil, fun _ => rfl⟩
  | append_singleton l e ih =>
    rw [List.forM_eq_forM, List.forM_append, List.forM_cons, List.forM_nil, bind_pure_unit] at h
    obtain ⟨_, u, hu, hlast⟩ := Attempt.bind_eq_ok.mp h
    rw [List.map_append, List.map_singleton, List.nodup_append] at hn
    have hfresh : e.interface ∉ l.map (·.interface) := fun hi =>
      hn.2.2 _ hi _ (List.mem_singleton_self _) rfl
    obtain ⟨hsolves, hmarginals⟩ := ih hn.1 ho.init hu
    obtain ⟨v, hv, hsent, hframe⟩ := Action.cell_of_replay hlast
    -- the last message is read by no entry
    have hold : ∀ i ∈ l.map (·.interface), m'.cell (.message i) = u.cell (.message i) := by
      refine fun i hi => hframe _ ?_
      rintro (h | h)
      · cases h
        exact hfresh hi
      · cases h
    have hmarginal : ∀ t, m'.cell (.marginal t) = u.cell (.marginal t) := fun t =>
      hframe _ (by rintro (h | h) <;> cases h)
    refine ⟨fun f hf => ?_, fun t => (hmarginal t).trans (hmarginals t)⟩
    rcases List.mem_append.mp hf with hf | hf
    · obtain ⟨w, hw, hcell⟩ := hsolves f hf
      refine ⟨w, ?_, (hold _ (List.mem_map_of_mem hf)).trans hcell⟩
      rw [← hw]
      refine entryValue_congr fun s hs => ?_
      rcases ho.init.mem_of_mem_slotsOf hf hs with ⟨i, hi, rfl⟩ | ⟨t, rfl⟩
      · exact hold i hi
      · exact hmarginal t
    · obtain rfl := List.mem_singleton.mp hf
      refine ⟨v, ?_, hsent⟩
      rw [← hv]
      refine entryValue_congr fun s hs => ?_
      rcases mem_slotsOf hs with ⟨i, hi, rfl⟩ | ⟨t, -, rfl⟩
      · exact hold i (ho.mem_of_last hi)
      · exact hmarginal t

/-- **There is one solution** for given marginals. -/
theorem cell_eq_of_solves (ho : Ordered l) (hm : m.Solves g l) (hn : n.Solves g l)
    (hmarginals : ∀ t, m.cell (.marginal t) = n.cell (.marginal t)) :
    ∀ i ∈ l.map (·.interface), m.cell (.message i) = n.cell (.message i) := by
  induction l using List.reverseRecOn with
  | nil => exact fun _ hi => absurd hi List.not_mem_nil
  | append_singleton l e ih =>
    have hinit := ih ho.init (fun f hf => hm f (List.mem_append_left _ hf)) fun f hf =>
      hn f (List.mem_append_left _ hf)
    intro i hi
    rw [List.map_append, List.mem_append] at hi
    rcases hi with hi | hi
    · exact hinit i hi
    · obtain rfl := List.mem_singleton.mp hi
      have he : e ∈ l ++ [e] := List.mem_append_right _ (List.mem_singleton_self e)
      obtain ⟨v, hv, hmv⟩ := hm e he
      obtain ⟨w, hw, hnw⟩ := hn e he
      have hvalue : m.entryValue g e = n.entryValue g e := by
        refine entryValue_congr fun s hs => ?_
        rcases mem_slotsOf hs with ⟨i, hi, rfl⟩ | ⟨t, -, rfl⟩
        · exact hinit i (ho.mem_of_last hi)
        · exact hmarginals t
      cases hv.symm.trans (hvalue.trans hw)
      rw [hmv, hnw]

theorem Memory.Solves.of_perm {l' : List ScheduleEntry} (h : m.Solves g l') (hl : l.Perm l') :
    m.Solves g l := fun e he => h e (hl.mem_iff.mp he)

end Solutions

/-! ## Marginals -/

/-- Publishing puts what is computed from what is read, whatever was there before. -/
theorem cell_of_forM_publish {g : Graph} {l : List MarginalEntry} {m n m' n' : Memory}
    (hread : ∀ e ∈ l, ∀ s ∈ slotsOf e.inbounds, m.cell s = n.cell s)
    (hm : l.forM (Block.publish g) m = .ok () m') (hn : l.forM (Block.publish g) n = .ok () n') :
    ∀ s, (m.cell s = n.cell s ∨ ∃ e ∈ l, s ∈ e.target.slots g) → m'.cell s = n'.cell s := by
  induction l generalizing m n with
  | nil =>
    obtain ⟨-, rfl⟩ := Attempt.pure_eq_ok.mp hm
    obtain ⟨-, rfl⟩ := Attempt.pure_eq_ok.mp hn
    exact fun s hs => hs.resolve_right fun ⟨_, he, _⟩ => absurd he List.not_mem_nil
  | cons e l ih =>
    obtain ⟨_, u, hu, hm⟩ := Attempt.bind_eq_ok.mp hm
    obtain ⟨_, w, hw, hn⟩ := Attempt.bind_eq_ok.mp hn
    obtain ⟨v, hv, hcell⟩ := Action.cell_of_publish hu
    obtain ⟨v', hv', hcell'⟩ := Action.cell_of_publish hw
    have hvalue := marginalValue_congr (g := g) (hread e List.mem_cons_self)
    cases hv.symm.trans (hvalue.trans hv')
    have hfirst : ∀ s, (m.cell s = n.cell s ∨ s ∈ e.target.slots g) → u.cell s = w.cell s := by
      intro s hs
      by_cases hwritten : s ∈ e.target.slots g
      · rw [(hcell s).1 hwritten, (hcell' s).1 hwritten]
      · rw [(hcell s).2 hwritten, (hcell' s).2 hwritten, hs.resolve_right hwritten]
    refine fun s hs => ih (fun f hf s hs => hfirst s (Or.inl ?_)) hm hn s ?_
    · exact hread f (List.mem_cons_of_mem _ hf) s hs
    · rcases hs with hs | ⟨f, hf, hs⟩
      · exact Or.inl (hfirst s (Or.inl hs))
      · rcases List.mem_cons.mp hf with rfl | hf
        · exact Or.inl (hfirst s (Or.inr hs))
        · exact Or.inr ⟨f, hf, hs⟩

/-! ## Compiled blocks without loop breakers -/

namespace Block

variable {b : Block} {g : Graph} {c : Catalogue} {sites : List InterfaceId} {i j : InterfaceId}
  {l : List ScheduleEntry}

/-- A list has the entries of the schedule, each after those whose messages it needs. -/
structure Reordering (b : Block) (l : List ScheduleEntry) : Prop where
  perm : l.Perm b.schedule
  precedes : ∀ i j, (i, j) ∈ b.arcs → Precedes (l.map (·.interface)) j i

/-- The arcs of a prepared block are the dependencies of what it schedules. -/
theorem Prepared.mem_arcs_iff (h : b.Prepared g sites) (hg : g.Coherent) :
    (i, j) ∈ b.arcs ↔ i ∈ b.order ∧ b.outline.DependsOn g sites i j := by
  obtain ⟨b₁, hs, hm⟩ := h
  obtain ⟨single, joint, -, -, hb⟩ := withMarginalTable_eq_ok.mp hm
  have harcs : b₁.arcs = (b.outline.dependencyGraph g sites).arcs := by
    rw [(withSchedule_eq_ok.mp hs).2.2]
  have horder : b₁.order = b.order := by
    rw [← order_skeleton b, hb]
    rfl
  rw [← horder, ← Block.mem_arcs_iff hg hs, ← harcs]
  change (i, j) ∈ b.skeleton.arcs ↔ _
  rw [hb]

/-- Without loop breakers, the schedule is in order as it is. -/
theorem Prepared.reordering_schedule (h : b.Prepared g sites) (hg : g.Coherent)
    (hl : b.loopBreakers = []) : b.Reordering b.schedule where
  perm := List.Perm.refl _
  precedes i j hij := by
    obtain ⟨hi, hij⟩ := (h.mem_arcs_iff hg).mp hij
    obtain ⟨b₁, hs, horder, hbreakers, -⟩ := h.planned.exists_schedule
    change Precedes b.order j i
    rw [← horder] at hi ⊢
    exact precedes_of_dependsOn hg hs hi hij (by rw [hbreakers, hl]; exact List.not_mem_nil)

/-- What an entry of a compiled block reads, it depends on. -/
theorem Compiled.mem_arcs_of_read (h : b.Compiled g c sites) (hg : g.Coherent)
    {e : ScheduleEntry} (he : e ∈ b.schedule) (hi : i ∈ messagesOf e.inbounds) :
    (e.interface, i) ∈ b.arcs := by
  exact (h.prepared.mem_arcs_iff hg).mpr
    ⟨List.mem_map_of_mem he, h.assembled.dependsOn_of_read h.prepared.planned hg he hi⟩

theorem Reordering.nodup (h : b.Reordering l) (hb : b.Prepared g sites) :
    (l.map (·.interface)).Nodup :=
  (h.perm.map _).nodup_iff.mpr hb.planned.nodup_order

theorem Reordering.ordered (h : b.Reordering l) (hb : b.Compiled g c sites) (hg : g.Coherent) :
    Ordered l := by
  intro pre e post hl i hi
  have he : e ∈ b.schedule := h.perm.mem_iff.mp (by simp [hl])
  have hbefore := h.precedes _ _ (hb.mem_arcs_of_read hg he hi)
  have hsplit : l.map (·.interface) =
      pre.map (·.interface) ++ e.interface :: post.map (·.interface) := by
    rw [hl, List.map_append, List.map_cons]
  exact hbefore.mem_of_eq_append (h.nodup hb.prepared) hsplit

/-- Seeds are no marginals. -/
theorem cell_of_forM_laySeed {o : Options} {id : String} {m m' : Memory}
    (h : l.forM (laySeed o id) m = .ok () m') (t : Target) :
    m'.cell (.marginal t) = m.cell (.marginal t) := by
  refine (Action.confined_forM_lay l).frame h _ ?_
  rintro ⟨e, -, hs | hs⟩ <;> contradiction

/-- The parts of a pass: after the replay, the messages solve the equations of the schedule. -/
theorem Reordering.exists_of_pass (h : b.Reordering l) (hb : b.Compiled g c sites)
    (hg : g.Coherent) {o : Options} {m m' : Memory}
    (hpass : ({ b with schedule := l } : Block).pass g o m = .ok () m') :
    ∃ u : Memory, u.Solves g l ∧ (∀ t, u.cell (.marginal t) = m.cell (.marginal t)) ∧
      b.marginalTable.forM (publish g) u = .ok () m' := by
  have hrest : ∀ m₁, (∀ t, m₁.cell (.marginal t) = m.cell (.marginal t)) →
      (do l.forM (replay g b.id); b.marginalTable.forM (publish g) : Attempt Memory Unit) m₁ =
        .ok () m' → ∃ u : Memory, u.Solves g l ∧
          (∀ t, u.cell (.marginal t) = m.cell (.marginal t)) ∧
            b.marginalTable.forM (publish g) u = .ok () m' := by
    intro m₁ hm₁ hrun
    obtain ⟨_, u, hu, hpublish⟩ := Attempt.bind_eq_ok.mp hrun
    obtain ⟨hsolves, hmarginals⟩ :=
      solves_of_forM_replay (h.nodup hb.prepared) (h.ordered hb hg) hu
    exact ⟨u, hsolves, fun t => (hmarginals t).trans (hm₁ t), hpublish⟩
  unfold pass at hpass
  dsimp only at hpass
  split at hpass
  · obtain ⟨_, m₁, hlay, hrun⟩ := Attempt.bind_eq_ok.mp hpass
    exact hrest m₁ (cell_of_forM_laySeed hlay) hrun
  · exact hrest m (fun _ => rfl) hpass

end Block

namespace Posterior

variable {g : Graph} {c : Catalogue} {sites : List InterfaceId} {reject : Option Bool}
  {p q : Posterior} {ids : List String}

/-- **A pass over a compiled block without loop breakers computes everything anew.** From the same
marginals, whatever messages and seeds there are and in whichever order the schedule is worked off,
passes that succeed leave the same messages, the same marginals and the same marginals on the edges
of the variables of the block. The schedule is in such an order itself. -/
theorem recomputes_of_compile (hg : g.Built) (hp : Built g p)
    (h : compile g c sites reject p = .ok ids q) :
    ∃ blocks, ids.mapM q.block = .ok blocks ∧ ∀ b ∈ blocks, b.loopBreakers = [] →
      b.Reordering b.schedule ∧ ∀ l₁ l₂, b.Reordering l₁ → b.Reordering l₂ →
        ∀ o (m₁ m₂ m₁' m₂' : Memory), (∀ t, m₁.marginals.get? t = m₂.marginals.get? t) →
          ({ b with schedule := l₁ } : Block).pass g o m₁ = .ok () m₁' →
          ({ b with schedule := l₂ } : Block).pass g o m₂ = .ok () m₂' →
            (∀ i ∈ b.order, m₁'.messages.get? i = m₂'.messages.get? i) ∧
            (∀ t, m₁'.marginals.get? t = m₂'.marginals.get? t) ∧
            ∀ x ∈ b.scope, ∀ e ∈ g.edgesOf x,
              m₁'.edgeMarginals.get? e = m₂'.edgeMarginals.get? e := by
  have hc := hg.coherent
  obtain ⟨blocks, hblocks, hcompiled⟩ := exists_blocks_of_compile hp h
  refine ⟨blocks, hblocks, fun b hb hl => ?_⟩
  obtain ⟨-, hmade, hb⟩ := hcompiled b hb
  have hwired := Block.wired_of_compiled hc hmade hb
  refine ⟨hb.prepared.reordering_schedule hc hl, ?_⟩
  intro l₁ l₂ h₁ h₂ o m₁ m₂ m₁' m₂' hmarginals hpass₁ hpass₂
  obtain ⟨u₁, hsolves₁, hmarginals₁, hpublish₁⟩ := h₁.exists_of_pass hb hc hpass₁
  obtain ⟨u₂, hsolves₂, hmarginals₂, hpublish₂⟩ := h₂.exists_of_pass hb hc hpass₂
  have hmarginal : ∀ t, u₁.cell (.marginal t) = u₂.cell (.marginal t) := fun t => by
    rw [hmarginals₁, hmarginals₂]
    exact congrArg (Option.map Cell.value) (hmarginals t)
  have hmessage : ∀ i ∈ b.order, u₁.cell (.message i) = u₂.cell (.message i) := by
    intro i hi
    refine cell_eq_of_solves (h₁.ordered hb hc) hsolves₁
      (hsolves₂.of_perm (h₁.perm.trans h₂.perm.symm)) hmarginal i ?_
    exact (h₁.perm.map _).mem_iff.mpr hi
  have hcell := cell_of_forM_publish (fun e he s hs => ?_) hpublish₁ hpublish₂
  · refine ⟨fun i hi => ?_, fun t => ?_, fun x hx e he => ?_⟩
    · exact map_value_injective (hcell (.message i) (Or.inl (hmessage i hi)))
    · exact map_value_injective (hcell (.marginal t) (Or.inl (hmarginal t)))
    · obtain ⟨m, hm, htarget⟩ :=
        List.mem_map.mp (hb.prepared.mem_marginalTargets (t := .variable x) hx)
      exact map_value_injective
        (hcell (.edge e) (Or.inr ⟨m, hm, Or.inr ⟨x, htarget, e, he, rfl⟩⟩))
  · rcases mem_slotsOf hs with ⟨i, hi, rfl⟩ | ⟨t, -, rfl⟩
    · exact hmessage i (hwired.marginal_scheduled e he i hi)
    · exact hmarginal t

/-- A function of two sources. -/
def joinGraph : Graph :=
  let s : NodeRequest := { kind := "source", interfaces := 1 }
  let f : NodeRequest := { kind := "join", interfaces := 3, deterministic := true }
  let g := ((Graph.addNode s).outcome ((Graph.addNode f).outcome ∅).2).2
  let g := ((Graph.addNode s).outcome g).2
  let g := ((Graph.connect (.numbered 3) (some (.numbered 0)) (some "a") none).outcome g).2
  let g := ((Graph.connect (.numbered 4) (some (.numbered 1)) (some "b") none).outcome g).2
  ((Graph.connect (.numbered 2) none (some "c") none).outcome g).2

theorem built_joinGraph : joinGraph.Built :=
  .connect (.connect (.connect (.addNode (.addNode (.addNode .empty _) _) _)
    _ _ _ _) _ _ _ _) _ _ _ _

/-- The function hands on what comes from the first source. -/
def joinRule : Rule where
  key := ⟨"join", .sumProduct, some 2⟩
  inbounds := [.any, .any, .any]
  outbound := .pattern (.dist "Gaussian" [])
  procedure := some fun
    | [_, .value v, _, _] => .ok v
    | _ => .error .illTyped

/-- A source of Gaussians. -/
def sourceRule : Rule where
  key := ⟨"source", .sumProduct, some 0⟩
  inbounds := [.void]
  outbound := .pattern (.dist "Gaussian" [])
  procedure := some fun _ => .ok (.dist "Gaussian" [] ∅)

/-- The posterior with one block, for what the function answers. -/
def joinPosterior : Posterior :=
  ((addBlock joinGraph ["c"] (some "c")).outcome { options := wholeOptions }).2

/-- The compiled posterior. -/
def joinCompiled : Posterior :=
  ((compile joinGraph ⟨[joinRule, sourceRule]⟩ [] none).outcome joinPosterior).2

/-- The compiled block. -/
def joinBlock : Block :=
  (joinCompiled.blocks.get? "c").getD default

/-- The schedule with the sources in reverse. -/
def joinReversed : List ScheduleEntry :=
  match joinBlock.schedule with
  | [e, f, j] => [f, e, j]
  | l => l

theorem block_join : joinCompiled.block "c" = .ok joinBlock := by
  have h : (joinCompiled.blocks.get? "c").isSome := by cbv
  obtain ⟨b, hb⟩ := Option.isSome_iff_exists.mp h
  unfold block joinBlock
  rw [hb, Option.getD_some]

theorem order_join : joinBlock.order = [3, 4, 2] ∧ joinBlock.arcs = [(2, 3), (2, 4)] ∧
    joinBlock.loopBreakers = [] := by
  have h : (joinBlock.order, joinBlock.arcs, joinBlock.loopBreakers) =
      ([3, 4, 2], [(2, 3), (2, 4)], []) := by cbv
  simpa using h

theorem reordering_join :
    joinBlock.Reordering joinReversed ∧ joinBlock.schedule ≠ joinReversed := by
  obtain ⟨horder, harcs, -⟩ := order_join
  obtain ⟨e, rest, hl, he, hrest⟩ := List.map_eq_cons_iff.mp horder
  obtain ⟨f, rest, rfl, hf, hrest⟩ := List.map_eq_cons_iff.mp hrest
  obtain ⟨j, rest, rfl, hj, hrest⟩ := List.map_eq_cons_iff.mp hrest
  obtain rfl := List.map_eq_nil_iff.mp hrest
  have hreversed : joinReversed = [f, e, j] := by
    unfold joinReversed
    rw [hl]
  refine ⟨⟨?_, fun i k hik => ?_⟩, fun h => ?_⟩
  · rw [hreversed, hl]
    exact List.Perm.swap e f [j]
  · rw [hreversed, List.map_cons, List.map_cons, List.map_cons, List.map_nil, he, hf, hj]
    rw [harcs] at hik
    unfold Precedes
    rcases List.mem_pair.mp hik with h | h <;> cases h <;> decide
  · rw [hreversed, hl] at h
    cases h
    exact absurd (he.symm.trans hf) (by decide)

/-- The sources may be taken in any order, and an old message is forgotten. -/
theorem recomputes_join : joinGraph.Built ∧ Built joinGraph joinPosterior ∧
    ∃ q b l m m₁' m₂', compile joinGraph ⟨[joinRule, sourceRule]⟩ [] none joinPosterior =
        .ok ["c"] q ∧ ["c"].mapM q.block = .ok [b] ∧ b.loopBreakers = [] ∧
      b.Reordering b.schedule ∧ b.Reordering l ∧ b.schedule ≠ l ∧
      b.pass joinGraph wholeOptions ∅ = .ok () m₁' ∧
      ({ b with schedule := l } : Block).pass joinGraph wholeOptions m = .ok () m₂' ∧
      (∀ i ∈ b.order, m₁'.messages.get? i = m₂'.messages.get? i) ∧
      (∀ t, m₁'.marginals.get? t = m₂'.marginals.get? t) ∧
      ∀ x ∈ b.scope, ∀ e ∈ joinGraph.edgesOf x,
        m₁'.edgeMarginals.get? e = m₂'.edgeMarginals.get? e := by
  have hp : Built joinGraph joinPosterior := .addBlock (.fresh _) _ _
  have hc := Attempt.eq_ok_of_outcome (x := compile joinGraph ⟨[joinRule, sourceRule]⟩ [] none)
    (s := joinPosterior) (a := ["c"]) (by cbv)
  have hb : ["c"].mapM joinCompiled.block = .ok [joinBlock] := by
    rw [List.mapM_cons, block_join]
    rfl
  have hpass₁ := Attempt.eq_ok_of_outcome (x := joinBlock.pass joinGraph wholeOptions) (s := ∅)
    (a := ()) (by cbv)
  have hpass₂ := Attempt.eq_ok_of_outcome
    (x := ({ joinBlock with schedule := joinReversed } : Block).pass joinGraph wholeOptions)
    (s := Memory.send ∅ 2 (.dist "Gamma" [] ∅)) (a := ()) (by cbv)
  obtain ⟨blocks, hblocks, hrecomputes⟩ := recomputes_of_compile built_joinGraph hp hc
  cases hblocks.symm.trans hb
  have hl := order_join.2.2
  obtain ⟨hreordering, hne⟩ := reordering_join
  obtain ⟨hschedule, hall⟩ := hrecomputes joinBlock (List.mem_singleton_self _) hl
  exact ⟨built_joinGraph, hp, _, joinBlock, joinReversed, _, _, _, hc, hb, hl, hschedule,
    hreordering, hne, hpass₁, hpass₂, hall joinBlock.schedule joinReversed hschedule hreordering
      wholeOptions ∅ (Memory.send ∅ 2 (.dist "Gamma" [] ∅)) _ _ (fun _ => rfl) hpass₁ hpass₂⟩

end Posterior

end MessagePassing
