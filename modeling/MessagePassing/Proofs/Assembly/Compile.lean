import MessagePassing.Proofs.Assembly.Leftovers
import MessagePassing.Proofs.Assembly.Resolution
import MessagePassing.Proofs.Schedule.Validity

/-!
# What compiled blocks are like

Compiling schedules every block with edges and then assembles them, in rounds. A block that is put
off keeps its skeleton, and a block that is assembled is not touched again, so in the end every one
of them has the skeleton that scheduling gave it and is assembled.

Results:
* `exists_block_of_prepare`: what preparing a block does.
* `holds_of_assembleAll`: once the rounds end well, every block has what assembling gives it.
* `compile_eq_ok`: the stages of compiling.
* `unlaid_of_compile`: compiling forgets which seeds have been laid.
* **`exists_blocks_of_compile`**: the blocks that compiling answers are prepared, assembled and
  ready to run.
-/

namespace MessagePassing

open Attempt (Keeps)

/-! ## Scheduled blocks -/

namespace Block

variable {b b' b₁ b₂ : Block} {g : Graph} {sites : List InterfaceId}

/-- The skeleton is the one that scheduling and tabulating give the outline. -/
def Prepared (g : Graph) (sites : List InterfaceId) (b : Block) : Prop :=
  ∃ b₁, b.outline.withSchedule g sites = .ok b₁ ∧ b₁.withMarginalTable g = .ok b.skeleton

theorem prepared_ofSkeleton (g : Graph) (sites : List InterfaceId) :
    OfSkeleton (Prepared g sites) := by
  rintro b b' h ⟨b₁, hs, hm⟩
  refine ⟨b₁, ?_, ?_⟩
  · rw [outline_of_skeleton h, hs]
  · rw [h, hm]

theorem withMarginalTable_eq_ok :
    b.withMarginalTable g = .ok b' ↔
      ∃ single joint, b.scope.mapM (variableMarginal g) = .ok single ∧
        b.clusters.mapM (clusterMarginal g) = .ok joint ∧
        b' = { b with marginalTable := single ++ joint } := by
  unfold withMarginalTable
  rw [bind_eq_ok]
  refine exists_congr fun single => ?_
  rw [bind_eq_ok]
  constructor
  · rintro ⟨hs, joint, hj, h⟩
    exact ⟨joint, hs, hj, (pure_eq_ok.mp h).symm⟩
  · rintro ⟨joint, hs, hj, rfl⟩
    exact ⟨hs, joint, hj, rfl⟩

theorem variableMarginal_eq_ok {x : String} {m : MarginalEntry} :
    variableMarginal g x = .ok m ↔
      ∃ i e plan, (g.edgesOf x).min? = some i ∧ g.edge i = .ok e ∧
        variablePlan g e = .ok plan ∧ m = { target := .variable x, plan } := by
  unfold variableMarginal
  constructor
  · intro h
    split at h
    · contradiction
    · rename_i i hi
      obtain ⟨e, he, h⟩ := bind_eq_ok.mp h
      obtain ⟨plan, hplan, h⟩ := bind_eq_ok.mp h
      exact ⟨i, e, plan, hi, he, hplan, (pure_eq_ok.mp h).symm⟩
  · rintro ⟨i, e, plan, hi, he, hplan, rfl⟩
    rw [hi]
    exact bind_eq_ok.mpr ⟨e, he, bind_eq_ok.mpr ⟨plan, hplan, rfl⟩⟩

theorem clusterMarginal_eq_ok {c : Cluster} {m : MarginalEntry} :
    clusterMarginal g c = .ok m ↔
      ∃ l, ((g.interfacesOf c.node).filter fun i => (g.edgeAt? i).any (· ∈ c.edges)).mapM
          g.partner = .ok l ∧
        m = { target := .cluster c, plan := .joint c.node l } := by
  unfold clusterMarginal
  dsimp only
  rw [bind_eq_ok]
  refine exists_congr fun l => and_congr_right fun _ => ?_
  rw [pure_eq_ok, eq_comm]

/-- The entry of a variable is not resolved yet. -/
theorem bare_of_variableMarginal {x : String} {m : MarginalEntry}
    (h : variableMarginal g x = .ok m) : m.bare = m := by
  obtain ⟨_, _, _, -, -, -, rfl⟩ := variableMarginal_eq_ok.mp h
  rfl

/-- The entry of a cluster is not resolved yet. -/
theorem bare_of_clusterMarginal {c : Cluster} {m : MarginalEntry}
    (h : clusterMarginal g c = .ok m) : m.bare = m := by
  obtain ⟨_, -, rfl⟩ := clusterMarginal_eq_ok.mp h
  rfl

theorem map_bare_of_mapM {α : Type} {f : α → Except Failure MarginalEntry} {l : List α}
    {l' : List MarginalEntry} (hf : ∀ a m, f a = .ok m → m.bare = m) (h : l.mapM f = .ok l') :
    l'.map (·.bare) = l' := by
  replace h := mapM_eq_ok.mp h
  induction h with
  | nil => rfl
  | cons hm _ ih => rw [List.map_cons, ih, hf _ _ hm]

/-- No entry of a new marginal table is resolved yet. -/
theorem bare_of_withMarginalTable (h : b.withMarginalTable g = .ok b') :
    b'.marginalTable.map (·.bare) = b'.marginalTable := by
  obtain ⟨single, joint, hsingle, hjoint, rfl⟩ := withMarginalTable_eq_ok.mp h
  rw [List.map_append, map_bare_of_mapM (fun _ _ => bare_of_variableMarginal) hsingle,
    map_bare_of_mapM (fun _ _ => bare_of_clusterMarginal) hjoint]

/-- A new marginal table holds nothing of earlier attempts. -/
theorem clean_of_withMarginalTable (h : b.withMarginalTable g = .ok b') :
    ∀ m ∈ b'.marginalTable, m.Clean := by
  rw [← bare_of_withMarginalTable h]
  intro m hm
  obtain ⟨n, -, rfl⟩ := List.mem_map.mp hm
  exact fun _ _ => rfl

/-- A block as compiling leaves it. -/
structure Compiled (g : Graph) (c : Catalogue) (sites : List InterfaceId) (b : Block) : Prop where
  prepared : b.Prepared g sites
  assembled : b.Assembled g c
  runnable : b.runnable = true
  procedures : b.checkProcedures = .ok ()

theorem prepared_of_scheduled (hs : b.withSchedule g sites = .ok b₁)
    (hm : b₁.withMarginalTable g = .ok b₂) : b₂.Prepared g sites := by
  have hbare := bare_of_withMarginalTable hm
  obtain ⟨hne, hnode, rfl⟩ := withSchedule_eq_ok.mp hs
  obtain ⟨single, joint, hsingle, hjoint, rfl⟩ := withMarginalTable_eq_ok.mp hm
  refine ⟨_, withSchedule_eq_ok.mpr ⟨hne, hnode, rfl⟩,
    withMarginalTable_eq_ok.mpr ⟨single, joint, hsingle, hjoint, ?_⟩⟩
  unfold skeleton
  rw [hbare, List.map_map]
  rfl

end Block

/-! ## Preparing blocks -/

namespace Posterior

variable {g : Graph} {c : Catalogue} {sites : List InterfaceId} {reject : Bool} {id : String}
  {p q : Posterior} {ids : List String}

/-- Preparing a block schedules and tabulates it, after a warning perhaps. -/
theorem exists_of_prepare (h : prepare g sites reject id p = .ok () q) :
    ∃ r b₁ p₁ b₂, (r = p ∨ r = p.warn (.collider id)) ∧ scheduleBlock g sites id r = .ok b₁ p₁ ∧
      tabulateBlock g id p₁ = .ok b₂ q := by
  have hrest : ∀ r, (do
      let _ ← scheduleBlock g sites id
      let _ ← tabulateBlock g id : Attempt Posterior Unit) r = .ok () q →
      ∃ b₁ p₁ b₂, scheduleBlock g sites id r = .ok b₁ p₁ ∧ tabulateBlock g id p₁ = .ok b₂ q := by
    intro r h
    obtain ⟨b₁, p₁, hs, h⟩ := Attempt.bind_eq_ok.mp h
    obtain ⟨b₂, p₂, ht, h⟩ := Attempt.bind_eq_ok.mp h
    obtain ⟨-, rfl⟩ := Attempt.pure_eq_ok.mp h
    exact ⟨b₁, p₁, b₂, hs, ht⟩
  unfold prepare at h
  obtain ⟨p₁, p₂, hget, h⟩ := Attempt.bind_eq_ok.mp h
  obtain ⟨rfl, rfl⟩ := Attempt.get_eq_ok.mp hget
  obtain ⟨b, p₃, hb, h⟩ := Attempt.bind_eq_ok.mp h
  obtain ⟨-, rfl⟩ := Attempt.ofExcept_eq_ok.mp hb
  dsimp only at h
  split at h
  · split at h
    · obtain ⟨_, _, hthrow, -⟩ := Attempt.bind_eq_ok.mp h
      contradiction
    · obtain ⟨_, p₄, hwarn, h⟩ := Attempt.bind_eq_ok.mp h
      obtain rfl := Attempt.modify_eq_ok.mp hwarn
      exact ⟨_, _, _, _, Or.inr rfl, (hrest _ h).choose_spec.choose_spec.choose_spec⟩
  · exact ⟨_, _, _, _, Or.inl rfl, (hrest _ h).choose_spec.choose_spec.choose_spec⟩

theorem scheduleBlock_eq_ok {b₁ : Block} :
    scheduleBlock g sites id p = .ok b₁ q ↔ ∃ b, p.blocks.get? id = some b ∧
      b.withSchedule g sites = .ok b₁ ∧ q = (p.putBlock b₁).forgetPhases id := by
  unfold scheduleBlock
  rw [Attempt.bind_eq_ok]
  constructor
  · rintro ⟨b', r, hs, h⟩
    obtain ⟨b, hb, hf, rfl⟩ := replaceBlock_eq_ok.mp hs
    obtain ⟨_, r, hr, h⟩ := Attempt.bind_eq_ok.mp h
    obtain rfl := Attempt.modify_eq_ok.mp hr
    obtain ⟨rfl, rfl⟩ := Attempt.pure_eq_ok.mp h
    exact ⟨b, hb, hf, rfl⟩
  · rintro ⟨b, hb, hf, rfl⟩
    exact ⟨_, _, replaceBlock_eq_ok.mpr ⟨b, hb, hf, rfl⟩,
      Attempt.bind_eq_ok.mpr ⟨(), _, rfl, Attempt.pure_eq_ok.mpr ⟨rfl, rfl⟩⟩⟩

/-- Preparing a block schedules and tabulates it, and touches no other. -/
theorem exists_block_of_prepare (hp : Each (fun _ => True) p)
    (h : prepare g sites reject id p = .ok () q) :
    ∃ b b₁ b₂, p.blocks.get? id = some b ∧ b.withSchedule g sites = .ok b₁ ∧
      b₁.withMarginalTable g = .ok b₂ ∧ q.blocks.get? id = some b₂ ∧
      ∀ k, k ≠ id → q.blocks.get? k = p.blocks.get? k := by
  obtain ⟨r, b₁, p₁, b₂, hr, hs, ht⟩ := exists_of_prepare h
  have hr : r.blocks = p.blocks := by
    rcases hr with rfl | rfl <;> rfl
  obtain ⟨b, hb, hb₁, rfl⟩ := scheduleBlock_eq_ok.mp hs
  obtain ⟨b₁', hb₁', hb₂, rfl⟩ := replaceBlock_eq_ok.mp ht
  rw [hr] at hb
  have hid₁ : b₁.id = id :=
    (Block.id_of_outline (Block.outline_of_withSchedule hb₁)).trans (hp id b hb).1
  obtain rfl := get?_of_putBlock hid₁ hb₁'
  have hid₂ : b₂.id = id :=
    (Block.id_of_outline (Block.outline_of_withMarginalTable hb₂)).trans hid₁
  refine ⟨b, b₁', b₂, hb, hb₁, hb₂, ?_, fun k hk => ?_⟩
  · rw [get?_putBlock, if_pos hid₂]
  · rw [get?_putBlock, if_neg fun h => hk (h.symm.trans hid₂)]
    change (r.putBlock b₁').blocks.get? k = _
    rw [get?_putBlock, if_neg fun h => hk (h.symm.trans hid₁), hr]

/-- All blocks of a list are prepared in turn, and keep what that gives them. -/
theorem holds_of_forM_prepare {A : Block → Prop}
    (hA : ∀ b b₁ b₂ : Block, b.withSchedule g sites = .ok b₁ → b₁.withMarginalTable g = .ok b₂ →
      A b₂)
    (hp : Each (fun _ => True) p) (h : ids.forM (prepare g sites reject) p = .ok () q) :
    Each (fun _ => True) q ∧ ∀ id b, (id ∈ ids ∨ ∃ b, p.blocks.get? id = some b ∧ A b) →
      q.blocks.get? id = some b → A b := by
  induction ids generalizing p with
  | nil =>
    obtain ⟨-, rfl⟩ := Attempt.pure_eq_ok.mp h
    refine ⟨hp, fun id b hid hb => ?_⟩
    rcases hid with hid | ⟨b', hb', hA⟩
    · exact absurd hid List.not_mem_nil
    · rw [hb] at hb'
      cases hb'
      exact hA
  | cons k ids ih =>
    obtain ⟨_, r, hk, h⟩ := Attempt.bind_eq_ok.mp h
    obtain ⟨b, b₁, b₂, -, hs, ht, hb₂, hother⟩ := exists_block_of_prepare hp hk
    have hr : Each (fun _ => True) r :=
      (keeps_prepare_ofOutline (P := fun _ => True) (fun _ _ _ h => h) sites reject).of_ok hp hk
    obtain ⟨hq, hall⟩ := ih hr h
    refine ⟨hq, fun id b hid hb => hall id b ?_ hb⟩
    by_cases hik : id = k
    · subst hik
      exact Or.inr ⟨b₂, hb₂, hA _ _ _ hs ht⟩
    · rcases hid with hid | ⟨b', hb', hA'⟩
      · exact Or.inl ((List.mem_cons.mp hid).resolve_left hik)
      · exact Or.inr ⟨b', (hother id hik).trans hb', hA'⟩

/-! ## Assembling blocks in rounds -/

section Rounds

variable {A : Block → Prop} {I : Posterior → Prop} {D : String → Prop}
  (hkeeps : ∀ id, Keeps I (assemble g c id))
  (hassembled : ∀ p q id, I p → assemble g c id p = .ok () q →
    ∃ b, q.blocks.get? id = some b ∧ A b)

include hkeeps hassembled

/-- If assembling a block gives it a property, then a round leaves every block of its list with this
property or waiting, and it assembles no other block anew. -/
theorem holds_of_assembleRound {waiting : List (String × Failure)} (hi : I p)
    (hp : Each (fun b => D b.id → b.id ∈ ids ∨ A b) p)
    (h : assembleRound g c ids p = .ok waiting q) :
    Each (fun b => D b.id → b.id ∈ waiting.map (·.1) ∨ A b) q := by
  induction ids generalizing p waiting D with
  | nil =>
    obtain ⟨rfl, rfl⟩ := Attempt.pure_eq_ok.mp h
    exact hp
  | cons id ids ih =>
    -- other blocks keep what is known of them
    have hkeep : Keeps (Each fun b => b.id ≠ id → D b.id → b.id ∈ ids ∨ A b)
        (assemble g c id) := keeps_assemble fun b b' hid hs _ hne =>
      absurd ((Block.id_of_outline (Block.outline_of_skeleton hs)).trans hid) hne
    have hp' : Each (fun b => b.id ≠ id → D b.id → b.id ∈ ids ∨ A b) p := by
      refine hp.mono fun b hb hne hD => (hb hD).imp_left fun h => ?_
      exact (List.mem_cons.mp h).resolve_left hne
    unfold assembleRound at h
    cases ha : assemble g c id p with
    | ok _ r =>
      rw [ha] at h
      refine ih (p := r) (D := D) ((hkeeps id).of_ok hi ha) ?_ h
      obtain ⟨b, hb, hassembled⟩ := hassembled p r id hi ha
      intro k b' hb'
      obtain ⟨hid, hb''⟩ := hkeep.of_ok hp' ha k b' hb'
      refine ⟨hid, fun hD => ?_⟩
      by_cases hk : k = id
      · subst hk
        rw [hb] at hb'
        cases hb'
        exact Or.inr hassembled
      · exact hb'' (hid ▸ hk) hD
    | error f r =>
      rw [ha] at h
      dsimp only at h
      split at h
      · split at h
        · rename_i waiting' q' hr
          cases h
          have hrest := ih (D := fun k => k ≠ id ∧ D k) ((hkeeps id).of_error hi ha)
            ((hkeep.of_error hp' ha).mono fun b hb hD => hb hD.1 hD.2) hr
          refine hrest.mono fun b hb hD => ?_
          rw [List.map_cons, List.mem_cons]
          by_cases hid : b.id = id
          · exact Or.inl (Or.inl hid)
          · exact (hb ⟨hid, hD⟩).imp_left Or.inr
        · contradiction
      · contradiction

/-- Once the rounds end well, every block has the property. -/
theorem holds_of_assembleAll (hi : I p) (hp : Each (fun b => D b.id → b.id ∈ ids ∨ A b) p)
    (h : assembleAll g c ids p = .ok () q) : Each (fun b => D b.id → A b) q := by
  revert hi hp h
  fun_induction assembleAll g c ids p with
  | case1 l p f r hr =>
    intro _ _ h
    contradiction
  | case2 l p waiting r hr hw =>
    intro hi hp h
    cases h
    obtain rfl := List.getLast?_eq_none_iff.mp hw
    refine (holds_of_assembleRound hkeeps hassembled hi hp hr).mono fun b hb hD => ?_
    exact (hb hD).resolve_left List.not_mem_nil
  | case3 l p waiting r hr id f hw hlt ih =>
    intro hi hp h
    exact ih ((keeps_assembleRound hkeeps l).of_ok hi hr)
      (holds_of_assembleRound hkeeps hassembled hi hp hr) h
  | case4 l p waiting r hr id f hw hlt =>
    intro _ _ h
    contradiction

end Rounds

/-! ## The stages of compiling -/

/-- Compiling prepares all blocks with edges, assembles them in rounds, and makes them runnable. -/
theorem compile_eq_ok {reject : Option Bool} : compile g c sites reject p = .ok ids q ↔
    ids = p.inhabited ∧ ∃ p₁ p₂,
      ids.forM (prepare g sites (reject.getD p.options.rejectColliders)) p = .ok () p₁ ∧
      assembleAll g c ids p₁ = .ok () p₂ ∧ ids.forM makeRunnable p₂ = .ok () q := by
  constructor
  · intro h
    obtain ⟨p₀, p₁, hget, h⟩ := Attempt.bind_eq_ok.mp h
    obtain ⟨rfl, rfl⟩ := Attempt.get_eq_ok.mp hget
    obtain ⟨_, p₂, hprepare, h⟩ := Attempt.bind_eq_ok.mp h
    obtain ⟨_, p₃, hassemble, h⟩ := Attempt.bind_eq_ok.mp h
    obtain ⟨_, p₄, hrun, h⟩ := Attempt.bind_eq_ok.mp h
    obtain ⟨rfl, rfl⟩ := Attempt.pure_eq_ok.mp h
    exact ⟨rfl, p₂, p₃, hprepare, hassemble, hrun⟩
  · rintro ⟨rfl, p₁, p₂, hprepare, hassemble, hrun⟩
    refine Attempt.bind_eq_ok.mpr ⟨p, p, Attempt.get_eq_ok.mpr ⟨rfl, rfl⟩, ?_⟩
    exact Attempt.bind_eq_ok.mpr ⟨(), p₁, hprepare, Attempt.bind_eq_ok.mpr ⟨(), p₂, hassemble,
      Attempt.bind_eq_ok.mpr ⟨(), q, hrun, Attempt.pure_eq_ok.mpr ⟨rfl, rfl⟩⟩⟩⟩

theorem mem_inhabited {b : Block} (hb : p.blocks.get? id = some b) (hne : b.isEmpty = false) :
    id ∈ p.inhabited :=
  List.mem_map.mpr ⟨(id, b), List.mem_filter.mpr ⟨Table.mem_of_find? hb, by simp [hne]⟩, rfl⟩

/-! ## Seeds that are still to be laid -/

/-- No seed of a block has been laid. -/
def Unlaid (id : String) (p : Posterior) : Prop :=
  ∀ i, p.phases.get? (id, i) = none

section Unlaid

variable {k : String}

theorem unlaid_forgetPhases (id : String) (p : Posterior) : Unlaid id (p.forgetPhases id) := by
  intro i
  unfold forgetPhases
  rw [Table.get?_filterKeys, if_neg (by simp)]

theorem Unlaid.forgetPhases (h : Unlaid k p) (id : String) : Unlaid k (p.forgetPhases id) := by
  intro i
  unfold Posterior.forgetPhases
  rw [Table.get?_filterKeys, h i, ite_self]

theorem keeps_onBlock_unlaid {α : Type} {x : Posterior → Attempt Block α} :
    Keeps (Unlaid k) (onBlock id x) :=
  keeps_onBlock_shared fun _ _ h => h

theorem keeps_assemble_unlaid : Keeps (Unlaid k) (assemble g c id) :=
  keeps_assemble_shared (fun _ _ h => h) (fun _ h => h.forgetPhases id) fun _ _ h => h

theorem keeps_tabulateBlock_unlaid : Keeps (Unlaid k) (tabulateBlock g id) :=
  keeps_onBlock_unlaid

theorem keeps_prepare_unlaid : Keeps (Unlaid k) (prepare g sites reject id) :=
  keeps_prepare (Keeps.bind keeps_onBlock_unlaid fun _ =>
      Keeps.bind (Keeps.modify fun _ h => h.forgetPhases id) fun _ => Keeps.pure _)
    keeps_tabulateBlock_unlaid (fun _ _ h => h) reject

theorem keeps_makeRunnable_unlaid : Keeps (Unlaid k) (makeRunnable id) :=
  Keeps.bind keeps_onBlock_unlaid fun _ => Keeps.pure _

end Unlaid

/-- Preparing a block forgets its seeds. -/
theorem unlaid_of_prepare (h : prepare g sites reject id p = .ok () q) : Unlaid id q := by
  obtain ⟨r, b₁, p₁, b₂, -, hs, ht⟩ := exists_of_prepare h
  obtain ⟨b, -, -, rfl⟩ := scheduleBlock_eq_ok.mp hs
  exact keeps_tabulateBlock_unlaid.of_ok (unlaid_forgetPhases id _) ht

theorem unlaid_of_forM_prepare (h : ids.forM (prepare g sites reject) p = .ok () q)
    (hid : id ∈ ids) : Unlaid id q := by
  induction ids generalizing p with
  | nil => exact absurd hid List.not_mem_nil
  | cons k ids ih =>
    obtain ⟨_, r, hk, hrest⟩ := Attempt.bind_eq_ok.mp h
    rcases List.mem_cons.mp hid with rfl | hid
    · have hkeep : Keeps (Unlaid id) (ids.forM (prepare g sites reject)) :=
        Keeps.forM fun _ _ => keeps_prepare_unlaid
      exact hkeep.of_ok (unlaid_of_prepare hk) hrest
    · exact ih hrest hid

/-- Compiling forgets the seeds of all blocks that it compiles. -/
theorem unlaid_of_compile {reject : Option Bool} (h : compile g c sites reject p = .ok ids q)
    (hid : id ∈ ids) : Unlaid id q := by
  obtain ⟨rfl, p₂, p₃, hprepare, hassemble, hrun⟩ := compile_eq_ok.mp h
  have h₂ := unlaid_of_forM_prepare hprepare hid
  have h₃ := (keeps_assembleAll (fun _ => keeps_assemble_unlaid) _).of_ok h₂ hassemble
  exact (Keeps.forM fun _ _ => keeps_makeRunnable_unlaid).of_ok h₃ hrun

/-! ## Compiled blocks -/

theorem makeRunnable_eq_ok :
    makeRunnable id p = .ok () q ↔ ∃ b, p.blocks.get? id = some b ∧ b.checkProcedures = .ok () ∧
      q = p.putBlock { b with runnable := true } := by
  unfold makeRunnable
  rw [Attempt.bind_eq_ok]
  constructor
  · rintro ⟨b', r, h, h'⟩
    obtain ⟨b, hb, hf, rfl⟩ := replaceBlock_eq_ok.mp h
    obtain ⟨-, rfl⟩ := Attempt.pure_eq_ok.mp h'
    obtain ⟨_, hc, rfl⟩ := map_eq_ok.mp hf
    exact ⟨b, hb, hc, rfl⟩
  · rintro ⟨b, hb, hc, rfl⟩
    exact ⟨_, _, replaceBlock_eq_ok.mpr ⟨b, hb, map_eq_ok.mpr ⟨(), hc, rfl⟩, rfl⟩,
      Attempt.pure_eq_ok.mpr ⟨rfl, rfl⟩⟩

/-- Each block of a list is made runnable in turn, and stays so. -/
theorem runnable_of_forM_makeRunnable (hp : Each (fun _ => True) p)
    (h : ids.forM makeRunnable p = .ok () q) (hid : id ∈ ids ∨
      ∃ b, p.blocks.get? id = some b ∧ b.runnable = true ∧ b.checkProcedures = .ok ()) :
    ∃ b, q.blocks.get? id = some b ∧ b.runnable = true ∧ b.checkProcedures = .ok () := by
  induction ids generalizing p with
  | nil =>
    obtain ⟨-, rfl⟩ := Attempt.pure_eq_ok.mp h
    exact hid.resolve_left List.not_mem_nil
  | cons k ids ih =>
    obtain ⟨_, r, hk, h⟩ := Attempt.bind_eq_ok.mp h
    obtain ⟨b, hb, hc, rfl⟩ := makeRunnable_eq_ok.mp hk
    have hbk : b.id = k := (hp k b hb).1
    refine ih (hp.putBlock trivial) h ?_
    by_cases hik : id = k
    · refine Or.inr ⟨{ b with runnable := true }, ?_, rfl, hc⟩
      rw [get?_putBlock, if_pos (hbk.trans hik.symm)]
    · refine hid.imp (fun hid => (List.mem_cons.mp hid).resolve_left hik) ?_
      rintro ⟨b', hb', hrun⟩
      exact ⟨b', by rw [get?_putBlock, if_neg fun h => hik (h.symm.trans hbk)]; exact hb', hrun⟩

/-- **Compiled blocks are prepared, assembled and ready to run.** -/
theorem compiled_of_compile {reject : Option Bool} (hp : Each (fun _ => True) p)
    (h : compile g c sites reject p = .ok ids q) (hid : id ∈ ids) :
    ∃ b, q.blocks.get? id = some b ∧ b.Compiled g c sites := by
  obtain ⟨rfl, p₂, p₃, hprepare, hassemble, hrun⟩ := compile_eq_ok.mp h
  obtain ⟨hp₂, hprepared⟩ :=
    holds_of_forM_prepare (fun _ _ _ => Block.prepared_of_scheduled) hp hprepare
  have hprep₂ : Each (fun b => b.id ∈ p.inhabited → b.Prepared g sites) p₂ := fun k b hb =>
    ⟨(hp₂ k b hb).1, fun hk => hprepared k b (Or.inl ((hp₂ k b hb).1 ▸ hk)) hb⟩
  have hskeleton : Block.OfSkeleton fun b => b.id ∈ p.inhabited → b.Prepared g sites :=
    fun b b' hs hb hk => Block.prepared_ofSkeleton g sites b b' hs
      (hb (Block.id_of_outline (Block.outline_of_skeleton hs) ▸ hk))
  have hprep₃ : Each (fun b => b.id ∈ p.inhabited → b.Prepared g sites) p₃ :=
    (keeps_assembleAll (fun _ => keeps_assemble fun b b' _ => hskeleton b b') _).of_ok hprep₂
      hassemble
  have hass₃ : Each (fun b => b.id ∈ p.inhabited → b.Assembled g c) p₃ :=
    holds_of_assembleAll (fun _ => keeps_assemble fun _ _ _ _ _ => trivial)
      (fun _ _ _ => assembled_of_assemble) hp₂ (hp₂.mono fun b _ hk => Or.inl hk) hassemble
  have hboth₃ : Each (fun b => b.id ∈ p.inhabited → b.Prepared g sites ∧ b.Assembled g c) p₃ :=
    fun k b hb => ⟨(hass₃ k b hb).1, fun hk => ⟨(hprep₃ k b hb).2 hk, (hass₃ k b hb).2 hk⟩⟩
  have hboth₄ : Each (fun b => b.id ∈ p.inhabited → b.Prepared g sites ∧ b.Assembled g c) q := by
    refine (Keeps.forM fun k _ => keeps_makeRunnable fun b _ hb hk => ?_).of_ok hboth₃ hrun
    obtain ⟨hprep, ⟨hentries, hseeded, hneeds, hmarginals⟩⟩ := hb hk
    exact ⟨hprep, ⟨hentries, hseeded, hneeds, hmarginals⟩⟩
  obtain ⟨b, hb, hrunnable, hprocedures⟩ :=
    runnable_of_forM_makeRunnable (hass₃.mono fun _ _ => trivial) hrun (Or.inl hid)
  obtain ⟨hbid, hb'⟩ := hboth₄ id b hb
  obtain ⟨hprep, hassembled⟩ := hb' (hbid ▸ hid)
  exact ⟨b, hb, hprep, hassembled, hrunnable, hprocedures⟩

theorem block_eq_ok {b : Block} : p.block id = .ok b ↔ p.blocks.get? id = some b := by
  unfold block
  cases p.blocks.get? id <;> simp

theorem exists_mapM_block (h : ∀ id ∈ ids, ∃ b, q.blocks.get? id = some b) :
    ∃ blocks, ids.mapM q.block = .ok blocks := by
  induction ids with
  | nil => exact ⟨[], rfl⟩
  | cons id ids ih =>
    obtain ⟨b, hb⟩ := h id List.mem_cons_self
    obtain ⟨blocks, hblocks⟩ := ih fun k hk => h k (List.mem_cons_of_mem _ hk)
    refine ⟨b :: blocks, ?_⟩
    rw [List.mapM_cons]
    exact bind_eq_ok.mpr ⟨b, block_eq_ok.mpr hb, bind_eq_ok.mpr ⟨blocks, hblocks, rfl⟩⟩

/-- Compiling succeeds with one block, of which something is known, as its outcome shows. -/
theorem exists_block_of_outcome {reject : Option Bool} {α : Type} {f : Block → α} {a : α}
    (hok : ((compile g c sites reject).outcome p).1 = .ok [id])
    (hblock : (((compile g c sites reject).outcome p).2.blocks.get? id).map f = some a) :
    ∃ q b, compile g c sites reject p = .ok [id] q ∧ [id].mapM q.block = .ok [b] ∧ f b = a := by
  obtain ⟨b, hb, hf⟩ := Option.map_eq_some_iff.mp hblock
  exact ⟨_, b, Attempt.eq_ok_of_outcome hok, mapM_eq_ok.mpr (.cons (block_eq_ok.mpr hb) .nil), hf⟩

/-- **The blocks that compiling answers are compiled**, and they are made for the graph. -/
theorem exists_blocks_of_compile {reject : Option Bool} (hp : Built g p)
    (h : compile g c sites reject p = .ok ids q) :
    ∃ blocks, ids.mapM q.block = .ok blocks ∧
      ∀ b ∈ blocks, b.id ∈ ids ∧ b.MadeFor g ∧ b.Compiled g c sites := by
  have hcompiled : ∀ id ∈ ids, ∃ b, q.blocks.get? id = some b ∧ b.Compiled g c sites :=
    fun _ hid => compiled_of_compile (hp.madeFor.mono fun _ _ => trivial) h hid
  obtain ⟨blocks, hblocks⟩ := exists_mapM_block fun id hid => (hcompiled id hid).imp fun _ h => h.1
  have hq : Built g q := Attempt.outcome_snd_of_ok h ▸ Built.compile hp c sites reject
  refine ⟨blocks, hblocks, fun b hb => ?_⟩
  obtain ⟨id, hid, hb⟩ := exists_of_mem_mapM hblocks hb
  obtain ⟨b', hb', hc⟩ := hcompiled id hid
  cases hb'.symm.trans (block_eq_ok.mp hb)
  obtain ⟨hbid, hmade⟩ := hq.madeFor id b hb'
  exact ⟨hbid ▸ hid, hmade, hc⟩

/-- Settings without fractions, which are easy to calculate with. -/
def wholeOptions : Options :=
  { huge := .whole 1, tiny := .whole 1 }

end Posterior

end MessagePassing
