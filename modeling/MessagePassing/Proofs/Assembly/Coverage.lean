import MessagePassing.Proofs.Assembly.Knowledge
import MessagePassing.Proofs.Assembly.Registry

/-!
# Which marginals blocks read

A block reads marginals at its border. The type of such a marginal has to be known before the block
can be assembled. It is published by the block that computes the marginal, or it is the one that is
declared for a variable. A declaration says nothing about who computes the marginal, and so a
variable with a declaration may be read though it is in no block.

Results:
* `Block.MadeFor.internal_ne_nil`: a block without edges has no targets.
* **`Posterior.closed_of_compile`**: what compiled blocks read is in the marginal table of one of
  them, or it is the marginal of a variable of no block the type of which is declared.
-/

namespace MessagePassing

open Attempt (Keeps)

/-- The target that a source reads, if it reads one. -/
def Source.target? : Source → Option Target
  | .marginal t => some t
  | _ => none

/-- The targets among a list of sources, in order. -/
def targetsOf (l : List Source) : List Target :=
  l.filterMap Source.target?

theorem mem_targetsOf {t : Target} {l : List Source} : t ∈ targetsOf l ↔ .marginal t ∈ l := by
  unfold targetsOf
  rw [List.mem_filterMap]
  constructor
  · rintro ⟨s, hs, ht⟩
    cases s <;> cases ht
    exact hs
  · exact fun h => ⟨_, h, rfl⟩

/-- The targets that the entries of a block read. -/
def Block.marginalReads (b : Block) : List Target :=
  b.schedule.flatMap (fun e => targetsOf e.inbounds) ++
    b.marginalTable.flatMap fun m => targetsOf m.inbounds

/-- The variable is in no block, and the type of its marginal is declared. -/
structure Posterior.Presumed (g : Graph) (p : Posterior) (x : String) : Prop where
  /-- No block has the variable. -/
  absent : ∀ k b, p.blocks.get? k = some b → x ∉ b.scope
  /-- The oldest edge of the variable has a type without variables. -/
  declared : ∃ t, g.declaredMarginal? x = some t

/-- The target is among these, or it is a variable with a declared type. -/
def Graph.Backed (g : Graph) (o : Target → Prop) (t : Target) : Prop :=
  o t ∨ ∃ x, t = .variable x ∧ ∃ τ, g.declaredMarginal? x = some τ

/-- Types are published for these targets only. -/
def Posterior.Typed (o : Target → Prop) (p : Posterior) : Prop :=
  ∀ t τ, p.marginalTypes.get? t = some τ → o t

/-! ## What entries read -/

section Entries

variable {s : Surroundings} {o : Target → Prop} {known : Table InterfaceId TypeTerm} {t : Target}

/-- A target that is read with a type is among those that have one, or its type is declared. -/
theorem backed_of_sourceTypes {n : NodeId} {l : List Source} {types : List TypeTerm}
    (hs : s.posterior.Typed o)
    (htypes : l.mapM (s.posterior.sourceType s.graph known n) = .ok types)
    (ht : t ∈ targetsOf l) : s.graph.Backed o t := by
  obtain ⟨τ, -, hτ⟩ := exists_mem_of_mapM htypes (mem_targetsOf.mp ht)
  have hτ : s.posterior.marginalType s.graph n t = .ok τ := hτ
  rcases Posterior.marginalType_eq_ok.mp hτ with hτ | ⟨-, x, rfl, hx⟩
  · exact Or.inl (hs t τ hτ)
  · exact Or.inr ⟨x, rfl, τ, hx⟩

theorem ScheduleEntry.Resolved.backed {e : ScheduleEntry} (h : e.Resolved s known)
    (hs : s.posterior.Typed o) (ht : t ∈ targetsOf e.inbounds) : s.graph.Backed o t := by
  cases h with
  | observed _ _ hinbounds _ =>
    rw [hinbounds] at ht
    exact absurd ht List.not_mem_nil
  | rule _ _ _ htypes _ _ _ _ => exact backed_of_sourceTypes hs htypes ht

theorem MarginalEntry.Settled.backed {l : List ScheduleEntry} {m : MarginalEntry}
    (h : m.Settled s l) (hs : s.posterior.Typed o) (ht : t ∈ targetsOf m.inbounds) :
    s.graph.Backed o t := by
  cases h with
  | copy _ _ hinbounds _ =>
    rw [hinbounds] at ht
    exact absurd ht List.not_mem_nil
  | product _ _ _ _ hinbounds _ _ =>
    rw [hinbounds] at ht
    split at ht <;> exact absurd ht List.not_mem_nil
  | joint _ _ _ htypes _ _ _ => exact backed_of_sourceTypes hs htypes ht

end Entries

/-! ## What blocks have -/

namespace Block

variable {b : Block} {g : Graph} {t : Target}

/-- A block without edges has no targets. -/
theorem MadeFor.internal_ne_nil (h : b.MadeFor g) (hg : g.Built) (ht : b.Owns t) :
    b.internal ≠ [] := by
  cases t with
  | cluster c =>
    obtain ⟨e, -, he⟩ := h.exists_mem_of_mem_clusters ht
    exact List.ne_nil_of_mem he
  | «variable» x =>
    obtain ⟨e, he⟩ := h.exists_edge hg ht
    obtain ⟨f, hf, -⟩ := h.holds_of_mem_scope hg.coherent ht he
    exact List.ne_nil_of_mem hf

end Block

/-! ## Compiled blocks -/

namespace Posterior

variable {g : Graph} {c : Catalogue} {o : Target → Prop} {sites : List InterfaceId}
  {reject : Option Bool} {p q : Posterior} {ids : List String} {id : String} {t : Target}

/-- What an assembled block reads is the target of some block, or its type is declared. -/
theorem Registry.exists_backed (h : Registry g o p) (ha : assemble g c id p = .ok () q) :
    ∃ b, q.blocks.get? id = some b ∧ ∀ t ∈ b.marginalReads, g.Backed o t := by
  obtain ⟨b, l, b', p₁, p₂, r, h₁, hinfer, hseeds, h₂, hb', hsettle, hq⟩ :=
    exists_parts_of_assemble (I := Registry g o)
      (fun p b b' hp hb hs => hp.putBlock hb (Block.outline_of_skeleton hs)
        (Block.laid_ofSkeleton g _ _ hs (hp.laid id b hb).2))
      (fun p hp => hp.congr rfl rfl rfl) (h.laid.mono fun _ _ => trivial) h ha
  refine ⟨_, hq, fun t ht => ?_⟩
  rcases List.mem_append.mp ht with ht | ht
  · obtain ⟨e, he, ht⟩ := List.mem_flatMap.mp ht
    -- laying seeds has not changed what the entry reads
    obtain ⟨hunseeded, -, -⟩ := Block.seeds_of_designateSeeds hseeds
    have hmem : e.unseeded ∈ l.map ScheduleEntry.unseeded := hunseeded ▸ List.mem_map_of_mem he
    obtain ⟨e', he', heq⟩ := List.mem_map.mp hmem
    have hinbounds : e'.unseeded.inbounds = e.unseeded.inbounds := by rw [heq]
    change e'.inbounds = e.inbounds at hinbounds
    obtain ⟨pre, post, hsplit⟩ := List.append_of_mem he'
    exact (resolved_of_inferEntries hinfer pre e' post hsplit).backed h₁.typed (hinbounds ▸ ht)
  · obtain ⟨m, hm, ht⟩ := List.mem_flatMap.mp ht
    have howned : ∀ t ∈ b'.marginalTargets, o t := fun t ht =>
      (h₂.owned t).mp ⟨id, b', hb', (h₂.laid id b' hb').2.owns ht⟩
    obtain ⟨p', hp', hsettled⟩ := settled_of_settleEntries (J := Typed o)
      (fun p t τ hp ht u σ hu => by
        rw [Table.get?_insert] at hu
        split at hu
        · rename_i htu
          exact htu ▸ howned t ht
        · exact hp u σ hu) h₂.typed hsettle m hm
    exact hsettled.backed hp' ht

/-- Every block with edges is compiled. -/
theorem mem_of_compile (hp : Each (fun _ => True) p) (h : compile g c sites reject p = .ok ids q)
    {b : Block} (hb : q.blocks.get? id = some b) (hne : b.internal ≠ []) : id ∈ ids := by
  have houtline : Block.OfOutline fun b => b.internal ≠ [] → b.id ∈ ids := fun b b' ho hb hne => by
    have hinternal : b'.outline.internal = b.outline.internal := by rw [ho]
    rw [Block.id_of_outline ho]
    exact hb (hinternal ▸ hne)
  have hfirst : Each (fun b => b.internal ≠ [] → b.id ∈ ids) p := fun k d hd =>
    ⟨(hp k d hd).1, fun hne => by
      rw [(hp k d hd).1, (compile_eq_ok.mp h).1]
      exact mem_inhabited hd (by simpa [Block.isEmpty] using hne)⟩
  have hkeep := keeps_compile (g := g) (c := c) houtline (fun _ hb => hb) sites reject
  obtain ⟨hid, hmem⟩ := hkeep.of_ok hfirst h id b hb
  exact hid ▸ hmem hne

/-- Once a posterior is compiled, what a block reads is the target of some block, or its type is
declared. -/
theorem Registry.backed_of_compile (hr : Registry g o p)
    (h : compile g c sites reject p = .ok ids q) :
    Each (fun b => b.id ∈ ids → ∀ t ∈ b.marginalReads, g.Backed o t) q := by
  obtain ⟨rfl, p₁, p₂, hprepare, hassemble, hrun⟩ := compile_eq_ok.mp h
  have hr₁ : Registry g o p₁ := (Keeps.forM fun _ _ => keeps_prepare Registry.keeps_scheduleBlock
    Registry.keeps_tabulateBlock (fun _ _ h => h.congr rfl rfl rfl) _).of_ok hr hprepare
  have h₂ := holds_of_assembleAll (A := fun b => ∀ t ∈ b.marginalReads, g.Backed o t)
    (D := (· ∈ p.inhabited)) (fun _ => Registry.keeps_assemble)
    (fun _ _ _ => Registry.exists_backed) hr₁ (hr₁.laid.mono fun _ _ hid => Or.inl hid) hassemble
  exact (Keeps.forM fun _ _ => Posterior.keeps_makeRunnable fun _ _ hb => hb).of_ok h₂ hrun

/-- **What compiled blocks read is in the marginal table of one of them**, unless it is the marginal
of a variable that is in no block and the type of which is declared. -/
theorem closed_of_compile (hg : g.Built) (hp : Built g p)
    (h : compile g c sites reject p = .ok ids q) :
    ∃ blocks, ids.mapM q.block = .ok blocks ∧ ∀ b ∈ blocks, ∀ t ∈ b.marginalReads,
      (∃ b' ∈ blocks, t ∈ b'.marginalTargets) ∨ ∃ x, t = .variable x ∧ q.Presumed g x := by
  obtain ⟨blocks, hblocks, hcompiled⟩ := exists_blocks_of_compile hp h
  have hnamed : Each (fun _ => True) p := hp.madeFor.mono fun _ _ => trivial
  have hq : Built g q := Attempt.outcome_snd_of_ok h ▸ Built.compile hp c sites reject
  obtain ⟨o, hr⟩ := hp.exists_registry
  have hrq : Registry g o q := (Registry.keeps_compile reject).of_ok hr h
  -- a target of a block is in the table of that block
  have htable : ∀ t, o t → ∃ b ∈ blocks, t ∈ b.marginalTargets := by
    intro t ht
    obtain ⟨k, b, hb, ht⟩ := (hrq.owned t).mpr ht
    have hk := mem_of_compile hnamed h hb ((hq.madeFor k b hb).2.internal_ne_nil hg ht)
    obtain ⟨b', hb', hbk⟩ := exists_mem_of_mapM hblocks hk
    cases hb.symm.trans (block_eq_ok.mp hbk)
    exact ⟨b, hb', (hcompiled b hb').2.2.prepared.mem_marginalTargets ht⟩
  refine ⟨blocks, hblocks, fun b hb t ht => ?_⟩
  obtain ⟨k, -, hbk⟩ := exists_of_mem_mapM hblocks hb
  have hbacked := (hr.backed_of_compile h k b (block_eq_ok.mp hbk)).2 (hcompiled b hb).1 t ht
  by_cases hown : o t
  · exact Or.inl (htable t hown)
  · obtain ⟨x, rfl, hx⟩ := hbacked.resolve_left hown
    refine Or.inr ⟨x, rfl, fun k d hd hxd => hown ?_, hx⟩
    exact (hrq.owned _).mp ⟨k, d, hd, hxd⟩

end Posterior

end MessagePassing
