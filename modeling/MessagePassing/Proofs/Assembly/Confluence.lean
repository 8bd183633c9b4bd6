import MessagePassing.Proofs.Assembly.Publication

/-!
# Rounds of assembly in any order

The rounds of assembly take the blocks in the order of registration, and a block that waits for a
type is tried again in the next round. The order makes no difference: types are only added, so that
the rounds compute the least set of types that is closed under completing blocks, and in the end
every block is completed with the types of that set.

The one thing in the way is that an attempt that fails may have published some types. In rounds that
end well no such attempt occurs, because a block whose schedule is resolved is completed in the same
way with more knowledge: had that failed once, then the block would never have been completed.

Results:
* `Attempts`: rounds as one queue of attempts.
* `Progress.of_attempts`: what rounds that end well come to, and that it is the least.
* `Progress.exists_assembleAll`: the rounds end well if the blocks can be completed at all.
* **`assembleAll_of_perm`**: rounds that end well in one order do so in any other, with the same
  blocks and the same types.
-/

namespace MessagePassing

open Attempt (Keeps)

/-- Blocks that are scheduled and tabulated for a graph, no two of which have a marginal in common,
where no type is made of factors. -/
structure Family (g : Graph) (c : Catalogue) (sites : List InterfaceId) (ids : List String)
    (b : String → Block) : Prop where
  clamped : g.Clamped
  plain : g.Plain
  catalogue : c.Plain
  id : ∀ k ∈ ids, (b k).id = k
  prepared : ∀ k ∈ ids, (b k).Prepared g sites
  madeFor : ∀ k ∈ ids, (b k).MadeFor g
  apart : ∀ j ∈ ids, ∀ k ∈ ids, j ≠ k → ∀ t ∈ (b j).marginalTargets, t ∉ (b k).marginalTargets

theorem Family.mono {g : Graph} {c : Catalogue} {sites : List InterfaceId} {ids l : List String}
    {b : String → Block} (h : Family g c sites ids b) (hl : ∀ k ∈ l, k ∈ ids) :
    Family g c sites l b :=
  ⟨h.clamped, h.plain, h.catalogue, fun k hk => h.id k (hl k hk),
    fun k hk => h.prepared k (hl k hk), fun k hk => h.madeFor k (hl k hk),
    fun j hj k hk => h.apart j (hl j hj) k (hl k hk)⟩

namespace Posterior

variable {g : Graph} {c : Catalogue} {sites : List InterfaceId} {ids l l' : List String}
  {b : String → Block} {p p₀ q r : Posterior} {id k : String} {d : Block} {t : Target}

/-- All types that the block publishes are published. -/
def Includes (p : Posterior) (d : Block) : Prop :=
  ∀ t τ, d.published.get? t = some τ → p.marginalTypes.get? t = some τ

/-- Whatever can be completed is published. -/
def Closed (g : Graph) (c : Catalogue) (b : String → Block) (ids : List String)
    (p : Posterior) : Prop :=
  ∀ k ∈ ids, ∀ d, (b k).completed g c p = .ok d → p.Includes d

/-- Two posteriors have the same blocks, and these share the same. -/
structure Alike (p q : Posterior) : Prop where
  blocks : ∀ k, q.blocks.get? k = p.blocks.get? k
  clusters : ∀ k, q.clusters.get? k = p.clusters.get? k
  types : ∀ t, q.marginalTypes.get? t = p.marginalTypes.get? t

theorem Alike.symm (h : Alike p q) : Alike q p :=
  ⟨fun k => (h.blocks k).symm, fun k => (h.clusters k).symm, fun t => (h.types t).symm⟩

theorem Alike.each {P : Block → Prop} (h : Alike p q) (hp : Each P p) : Each P q :=
  fun k d hd => hp k d ((h.blocks k).symm.trans hd)

/-! ## More knowledge -/

/-- Sound knowledge that has all types of another posterior informs it. -/
theorem Informs.of_types (hclusters : ∀ k, q.clusters.get? k = p.clusters.get? k)
    (htypes : ∀ t τ, p.marginalTypes.get? t = some τ → q.marginalTypes.get? t = some τ)
    (hq : q.Sound g) : Informs g p q := by
  refine ⟨hclusters, fun n t τ h => ?_⟩
  rcases marginalType_eq_ok.mp h with h | ⟨-, x, rfl, hd⟩
  · exact marginalType_eq_ok.mpr (Or.inl (htypes t τ h))
  · refine marginalType_eq_ok.mpr ?_
    cases hτ : q.marginalTypes.get? (.variable x) with
    | none => exact Or.inr ⟨rfl, x, rfl, hd⟩
    | some σ => exact Or.inl (congrArg some ((hq _ σ hτ).2 x τ rfl hd))

/-- A block that is completed is completed in the same way with more knowledge. -/
theorem Informs.completed_eq_ok (h : Informs g p q) (hf : Family g c sites ids b) (hk : k ∈ ids)
    (hd : (b k).completed g c p = .ok d) : (b k).completed g c q = .ok d := by
  obtain ⟨l, hl, -⟩ := bind_eq_ok.mp hd
  rw [h.completed hf.clamped (hf.prepared k hk) (hf.madeFor k hk) hl, hd]

/-- What a completed block publishes is known to whoever includes it. -/
theorem Informs.complete (h : Informs g p q) (hd : q.Includes d) :
    Informs g ((p.complete d).forgetPhases id) q := by
  refine ⟨h.clusters, fun n t τ ht => ?_⟩
  change (p.complete d).marginalType g n t = .ok τ at ht
  have hget := get?_complete p d t
  rcases marginalType_eq_ok.mp ht with ht | ⟨hnone, hx⟩
  · rw [hget, Option.or_eq_some_iff] at ht
    rcases ht with ht | ⟨-, ht⟩
    · exact marginalType_eq_ok.mpr (Or.inl (hd t τ ht))
    · exact h.types n t τ (marginalType_eq_ok.mpr (Or.inl ht))
  · rw [hget, Option.or_eq_none_iff] at hnone
    exact h.types n t τ (marginalType_eq_ok.mpr (Or.inr ⟨hnone.2, hx⟩))

/-! ## Attempts on a family of blocks -/

/-- The blocks of a family are as scheduling has left them, or as attempts have left them since. -/
structure Intact (g : Graph) (b : String → Block) (ids : List String) (p : Posterior) : Prop where
  clean : Each (Block.Clean g) p
  skeleton : Each (fun d => d.id ∈ ids → d.skeleton = (b d.id).skeleton) p
  isSome : ∀ k ∈ ids, (p.blocks.get? k).isSome

theorem keeps_assemble_intact : Keeps (Intact g b ids) (assemble g c id) := by
  intro p hp
  refine ⟨keeps_assemble_clean p hp.clean, ?_, fun k hk => ?_⟩
  · refine keeps_assemble (fun d d' _ hs hd hid => ?_) p hp.skeleton
    have hdd : d'.id = d.id := Block.id_of_outline (Block.outline_of_skeleton hs)
    rw [hs, hdd, hd (hdd ▸ hid)]
  · have hsome : Keeps (fun q : Posterior => (q.blocks.get? k).isSome) (assemble g c id) :=
      keeps_assemble_shared (fun q d hq => by rw [get?_putBlock]; split <;> simp [hq])
        (fun _ h => h) fun _ _ h => h
    exact hsome p (hp.isSome k hk)

theorem Intact.mono (h : Intact g b ids p) (hl : ∀ k ∈ l, k ∈ ids) : Intact g b l p :=
  ⟨h.clean, h.skeleton.mono fun _ hd hid => hd (hl _ hid), fun k hk => h.isSome k (hl k hk)⟩

theorem Intact.exists_block (h : Intact g b ids p) (hk : k ∈ ids) : ∃ d,
    p.blocks.get? k = some d ∧ d.id = k ∧ d.Clean g ∧ d.skeleton = (b k).skeleton := by
  obtain ⟨d, hd⟩ := Option.isSome_iff_exists.mp (h.isSome k hk)
  obtain ⟨hid, hclean⟩ := h.clean k d hd
  have hskeleton := (h.skeleton k d hd).2 (hid ▸ hk)
  rw [hid] at hskeleton
  exact ⟨d, hd, hid, hclean, hskeleton⟩

/-- An attempt on a block of the family succeeds just when the block can be completed. -/
theorem Intact.finish_assemble (h : Intact g b ids p) (hid : id ∈ ids) :
    (assemble g c id).finish p =
      (b id).completed g c p >>= fun d => .ok ((), (p.complete d).forgetPhases id) := by
  obtain ⟨d, hd, hdid, hclean, hskeleton⟩ := h.exists_block hid
  rw [Posterior.finish_assemble hd hdid hclean, (Block.completed_of_skeleton hskeleton).2]

theorem Intact.completed_of_assemble (h : Intact g b ids p) (hid : id ∈ ids)
    (ha : assemble g c id p = .ok () q) :
    ∃ d, (b id).completed g c p = .ok d ∧ q = (p.complete d).forgetPhases id := by
  have hfinish := Attempt.finish_eq_ok.mpr ha
  rw [h.finish_assemble hid] at hfinish
  obtain ⟨d, hd, hq⟩ := bind_eq_ok.mp hfinish
  cases hq
  exact ⟨d, hd, rfl⟩

/-- What attempts on a family may have done: they change the blocks, and sound types of their
marginals. -/
structure Underway (g : Graph) (b : String → Block) (ids : List String) (p q : Posterior) :
    Prop where
  intact : Intact g b ids q
  sound : q.Sound g
  clusters : q.clusters = p.clusters
  types : ∀ t, (∀ k ∈ ids, t ∉ (b k).marginalTargets) →
    q.marginalTypes.get? t = p.marginalTypes.get? t

theorem Underway.assemble (hf : Family g c sites ids b) (hid : id ∈ ids)
    (h : Underway g b ids p q) : Underway g b ids p ((assemble g c id).outcome q).2 := by
  obtain ⟨d, hd, hdid, hclean, hskeleton⟩ := h.intact.exists_block hid
  have hprepared : d.Prepared g sites :=
    Block.prepared_ofSkeleton g sites _ _ hskeleton (hf.prepared id hid)
  obtain ⟨hsound, hframe⟩ :=
    sound_assemble hf.catalogue hf.plain h.sound hd hdid hclean hprepared
  have hclusters : Keeps (fun q : Posterior => q.clusters = p.clusters)
      (Posterior.assemble g c id) :=
    keeps_assemble_shared (fun _ _ h => h) (fun _ h => h) fun _ _ h => h
  refine ⟨keeps_assemble_intact q h.intact, hsound, hclusters q h.clusters, fun t ht => ?_⟩
  rw [← h.types t ht]
  refine hframe t ?_
  rw [Block.marginalTargets_of_skeleton hskeleton]
  exact ht id hid

/-- If no type of the family has been published, nothing is lost. -/
theorem Underway.informs (h : Underway g b ids p q)
    (hp : ∀ k ∈ ids, ∀ t ∈ (b k).marginalTargets, p.marginalTypes.get? t = none) :
    Informs g p q := by
  refine Informs.of_types (fun k => by rw [h.clusters]) (fun t τ ht => ?_) h.sound
  rw [h.types t fun k hk hmem => ?_, ht]
  rw [hp k hk t hmem] at ht
  contradiction

/-! ## Rounds as a queue -/

/-- Attempts on a queue of blocks: a block that fails goes to the end. -/
inductive Attempts (g : Graph) (c : Catalogue) : List String → Posterior → Posterior → Prop
  | nil (p : Posterior) : Attempts g c [] p p
  | done {id : String} {l : List String} {p q r : Posterior} :
      assemble g c id p = .ok () q → Attempts g c l q r → Attempts g c (id :: l) p r
  | wait {id : String} {l : List String} {p q r : Posterior} {f : Failure} :
      assemble g c id p = .error f q → Attempts g c (l ++ [id]) q r → Attempts g c (id :: l) p r

theorem attempts_of_assembleRound {w : List String} {waiting : List (String × Failure)}
    (h : assembleRound g c l p = .ok waiting q)
    (hq : Attempts g c (w ++ waiting.map (·.1)) q r) : Attempts g c (l ++ w) p r := by
  induction l generalizing p w waiting with
  | nil =>
    obtain ⟨rfl, rfl⟩ := Attempt.pure_eq_ok.mp h
    rwa [List.map_nil, List.append_nil] at hq
  | cons id l ih =>
    unfold assembleRound at h
    cases ha : assemble g c id p with
    | ok _ p' =>
      rw [ha] at h
      exact .done ha (ih h hq)
    | error f p' =>
      rw [ha] at h
      dsimp only at h
      split at h
      · split at h
        · rename_i waiting' q' hr
          cases h
          rw [List.map_cons, List.append_cons] at hq
          have h := ih hr hq
          rw [← List.append_assoc] at h
          exact .wait ha h
        · contradiction
      · contradiction

theorem attempts_of_assembleAll (h : assembleAll g c l p = .ok () q) : Attempts g c l p q := by
  revert h
  fun_induction assembleAll g c l p with
  | case1 l p f r hr =>
    intro h
    contradiction
  | case2 l p waiting r hr hw =>
    intro h
    cases h
    obtain rfl := List.getLast?_eq_none_iff.mp hw
    have h := attempts_of_assembleRound (w := []) hr (Attempts.nil _)
    rwa [List.append_nil] at h
  | case3 l p waiting r hr id f hw hlt ih =>
    intro h
    have h := attempts_of_assembleRound (w := []) hr (ih h)
    rwa [List.append_nil] at h
  | case4 l p waiting r hr id f hw hlt =>
    intro h
    contradiction

/-- Every block of a queue that is worked off is completed at some time. -/
theorem Attempts.exists_completed (h : Attempts g c l p q) (hf : Family g c sites ids b)
    (hl : ∀ k ∈ l, k ∈ ids) (hp : Underway g b ids p₀ p) (hk : k ∈ l) :
    ∃ r d, Underway g b ids p₀ r ∧ (b k).completed g c r = .ok d := by
  induction h with
  | nil p => exact absurd hk List.not_mem_nil
  | @done id l p q r ha _ ih =>
    obtain ⟨hid, hl⟩ := List.forall_mem_cons.mp hl
    have hq := hp.assemble hf hid
    rw [Attempt.outcome_snd_of_ok ha] at hq
    rcases List.mem_cons.mp hk with rfl | hk
    · obtain ⟨d, hd, -⟩ := hp.intact.completed_of_assemble hid ha
      exact ⟨p, d, hp, hd⟩
    · exact ih hl hq hk
  | @wait id l p q r f ha _ ih =>
    have hq := hp.assemble hf (hl id List.mem_cons_self)
    rw [Attempt.outcome_snd_of_error ha] at hq
    have hperm : (l ++ [id]).Perm (id :: l) := List.perm_append_singleton id l
    exact ih (fun k hk => hl k (hperm.mem_iff.mp hk)) hq (hperm.mem_iff.mpr hk)

/-- Other blocks stay as they are. -/
theorem Attempts.get?_of_not_mem (h : Attempts g c l p q) (hp : Each (fun _ => True) p)
    (hk : k ∉ l) : q.blocks.get? k = p.blocks.get? k := by
  have hkeep : ∀ id, Keeps (Each fun _ => True) (assemble g c id) := fun id =>
    keeps_assemble fun _ _ _ _ h => h
  induction h with
  | nil p => rfl
  | @done id l p q r ha _ ih =>
    obtain ⟨hid, hkl⟩ := List.ne_and_not_mem_of_not_mem_cons hk
    have hq := get?_of_assemble (g := g) (c := c) hp hid
    rw [Attempt.outcome_snd_of_ok ha] at hq
    exact (ih ((hkeep id).of_ok hp ha) hkl).trans hq
  | @wait id l p q r f ha _ ih =>
    obtain ⟨hid, hkl⟩ := List.ne_and_not_mem_of_not_mem_cons hk
    have hq := get?_of_assemble (g := g) (c := c) hp hid
    rw [Attempt.outcome_snd_of_error ha] at hq
    exact (ih ((hkeep id).of_error hp ha) (by simp [hid, hkl])).trans hq

/-! ## Progress -/

/-- Some blocks of a family are completed, and the others have published nothing yet. -/
structure Progress (g : Graph) (c : Catalogue) (b : String → Block) (ids pending : List String)
    (p : Posterior) : Prop where
  nodup : pending.Nodup
  subset : ∀ k ∈ pending, k ∈ ids
  intact : Intact g b ids p
  sound : p.Sound g
  unpublished : ∀ k ∈ pending, ∀ t ∈ (b k).marginalTargets, p.marginalTypes.get? t = none
  completed : ∀ k ∈ ids, k ∉ pending →
    ∃ d, p.blocks.get? k = some d ∧ (b k).completed g c p = .ok d ∧ p.Includes d
  published : ∀ t τ, p.marginalTypes.get? t = some τ →
    ∃ k ∈ ids, ∃ d, (b k).completed g c p = .ok d ∧ d.published.get? t = some τ

namespace Progress

/-- Before the first attempt there is no progress. -/
theorem start (hblocks : ∀ k ∈ ids, p.blocks.get? k = some (b k)) (hclean : Each (Block.Clean g) p)
    (htypes : ∀ t, p.marginalTypes.get? t = none) (hnodup : l.Nodup) (hl : ∀ k, k ∈ l ↔ k ∈ ids) :
    Progress g c b ids l p where
  nodup := hnodup
  subset k hk := (hl k).mp hk
  intact := by
    refine ⟨hclean, fun k d hd => ⟨(hclean k d hd).1, fun hid => ?_⟩, fun k hk => ?_⟩
    · have hd' := hblocks d.id hid
      rw [(hclean k d hd).1, hd] at hd'
      rw [(hclean k d hd).1, ← Option.some.inj hd']
    · rw [hblocks k hk]
      rfl
  sound t τ ht := absurd ((htypes t).symm.trans ht) nofun
  unpublished k hk t _ := htypes t
  completed k hk hkl := absurd ((hl k).mpr hk) hkl
  published t τ ht := absurd ((htypes t).symm.trans ht) nofun

theorem perm (h : Progress g c b ids l p) (hl : l.Perm l') : Progress g c b ids l' p where
  nodup := hl.nodup_iff.mp h.nodup
  subset k hk := h.subset k (hl.mem_iff.mpr hk)
  intact := h.intact
  sound := h.sound
  unpublished k hk := h.unpublished k (hl.mem_iff.mpr hk)
  completed k hk hkl := h.completed k hk fun hk => hkl (hl.mem_iff.mp hk)
  published := h.published

/-- What an attempt on a block that is not completed yet leaves alone. -/
theorem assemble (h : Progress g c b ids l p) (hf : Family g c sites ids b) (hid : id ∈ l) :
    Underway g b [id] p ((assemble g c id).outcome p).2 ∧
      Intact g b ids ((assemble g c id).outcome p).2 ∧
      (∀ t τ, p.marginalTypes.get? t = some τ →
        ((assemble g c id).outcome p).2.marginalTypes.get? t = some τ) ∧
      ∀ k, k ≠ id → ((assemble g c id).outcome p).2.blocks.get? k = p.blocks.get? k := by
  have hone : ∀ k ∈ [id], k ∈ ids := List.forall_mem_singleton.mpr (h.subset id hid)
  have hq : Underway g b [id] p ((Posterior.assemble g c id).outcome p).2 :=
    Underway.assemble (hf.mono hone) List.mem_cons_self
      ⟨h.intact.mono hone, h.sound, rfl, fun _ _ => rfl⟩
  refine ⟨hq, keeps_assemble_intact p h.intact, fun t τ ht => ?_, fun k hne =>
    get?_of_assemble (h.intact.clean.mono fun _ _ => trivial) hne⟩
  rw [hq.types t, ht]
  refine List.forall_mem_singleton.mpr fun hmem => ?_
  rw [h.unpublished id hid t hmem] at ht
  contradiction

/-- **An attempt that succeeds completes a block**, and all that was known before stays so. -/
theorem of_ok (h : Progress g c b ids (id :: l) p) (hf : Family g c sites ids b)
    (ha : Posterior.assemble g c id p = .ok () q) : Progress g c b ids l q ∧ Informs g p q ∧
      ∃ d, (b id).completed g c p = .ok d ∧ q = (p.complete d).forgetPhases id := by
  obtain ⟨hfresh, hnodup⟩ := List.nodup_cons.mp h.nodup
  obtain ⟨hid, hsubset⟩ := List.forall_mem_cons.mp h.subset
  have hq := h.assemble hf List.mem_cons_self
  rw [Attempt.outcome_snd_of_ok ha] at hq
  obtain ⟨hunderway, hintact, htypes, hblocks⟩ := hq
  have hinforms : Informs g p q :=
    Informs.of_types (fun k => by rw [hunderway.clusters]) htypes hunderway.sound
  obtain ⟨d, hd, hqd⟩ := h.intact.completed_of_assemble hid ha
  have hget : ∀ t, q.marginalTypes.get? t = (d.published.get? t).or (p.marginalTypes.get? t) := by
    intro t
    rw [hqd]
    exact get?_complete p d t
  have hdq := hinforms.completed_eq_ok hf hid hd
  refine ⟨⟨hnodup, hsubset, hintact, hunderway.sound, fun k hk t ht => ?_, fun k hk hkl => ?_,
    fun t τ ht => ?_⟩, hinforms, d, hd, hqd⟩
  · rw [hunderway.types t, h.unpublished k (List.mem_cons_of_mem _ hk) t ht]
    refine List.forall_mem_singleton.mpr fun hmem => ?_
    exact hf.apart k (hsubset k hk) id hid (fun hkid => hfresh (hkid ▸ hk)) t ht hmem
  · by_cases hkid : k = id
    · subst hkid
      refine ⟨d, ?_, hdq, fun t τ ht => by rw [hget, ht]; rfl⟩
      rw [hqd]
      change (p.blocks.insert d.id d).get? k = some d
      rw [Table.get?_insert, if_pos ((Block.id_of_completed hd).trans (hf.id k hid))]
    · obtain ⟨e, he, hcompleted, hincludes⟩ :=
        h.completed k hk (by simpa [hkid] using hkl)
      exact ⟨e, (hblocks k hkid).trans he, hinforms.completed_eq_ok hf hk hcompleted,
        fun t τ ht => htypes t τ (hincludes t τ ht)⟩
  · rw [hget, Option.or_eq_some_iff] at ht
    rcases ht with ht | ⟨-, ht⟩
    · exact ⟨id, hid, d, hdq, ht⟩
    · obtain ⟨k, hk, e, he, het⟩ := h.published t τ ht
      exact ⟨k, hk, e, hinforms.completed_eq_ok hf hk he, het⟩

/-- An attempt on a block whose schedule cannot be resolved changes nothing that matters. -/
theorem of_unresolved (h : Progress g c b ids l p) (hf : Family g c sites ids b) (hid : id ∈ l)
    {f e : Failure} (ha : Posterior.assemble g c id p = .error f q)
    (he : (b id).resolvedSchedule g c p = .error e) :
    Progress g c b ids l q ∧ Informs g p q ∧ Informs g q p := by
  obtain ⟨d, hd, hdid, hclean, hskeleton⟩ := h.intact.exists_block (h.subset id hid)
  have hsame := types_of_assemble_of_unresolved hd hdid hclean
    ((Block.completed_of_skeleton hskeleton).1.trans he)
  have hq := h.assemble hf hid
  rw [Attempt.outcome_snd_of_error ha] at hq hsame
  obtain ⟨hunderway, hintact, htypes, hblocks⟩ := hq
  replace hsame : q.marginalTypes = p.marginalTypes := hsame
  have hpq : Informs g p q :=
    Informs.of_types (fun k => by rw [hunderway.clusters]) htypes hunderway.sound
  have hqp : Informs g q p :=
    Informs.of_types (fun k => by rw [hunderway.clusters]) (fun t τ ht => by rwa [← hsame]) h.sound
  refine ⟨⟨h.nodup, h.subset, hintact, hunderway.sound, ?_, fun k hk hkl => ?_,
    fun t τ ht => ?_⟩, hpq, hqp⟩
  · rw [hsame]
    exact h.unpublished
  · obtain ⟨e, he, hcompleted, hincludes⟩ := h.completed k hk hkl
    exact ⟨e, (hblocks k fun hkid => hkl (hkid ▸ hid)).trans he,
      hpq.completed_eq_ok hf hk hcompleted, fun t τ ht => htypes t τ (hincludes t τ ht)⟩
  · rw [hsame] at ht
    obtain ⟨k, hk, e, he, het⟩ := h.published t τ ht
    exact ⟨k, hk, e, hpq.completed_eq_ok hf hk he, het⟩

/-- **What rounds that end well come to**: every block is completed, and the types are the least
that are closed under completing blocks. -/
theorem of_attempts (h : Progress g c b ids l p) (hf : Family g c sites ids b)
    (hpq : Attempts g c l p q) : Progress g c b ids [] q ∧ Informs g p q ∧
      ∀ r, Closed g c b ids r → Informs g p r → Informs g q r := by
  induction hpq with
  | nil p => exact ⟨h, .refl p, fun _ _ hr => hr⟩
  | @done id l p q r ha _ ih =>
    obtain ⟨hq, hinforms, d, hd, hqd⟩ := h.of_ok hf ha
    obtain ⟨hprogress, hrest, hleast⟩ := ih hq
    refine ⟨hprogress, hinforms.trans hrest, fun s hclosed hs => hleast s hclosed ?_⟩
    have hid := h.subset id List.mem_cons_self
    rw [hqd]
    exact hs.complete (hclosed id hid d (hs.completed_eq_ok hf hid hd))
  | @wait id l p q r f ha hrest ih =>
    have hone : ∀ k ∈ id :: l, k ∈ ids := h.subset
    -- the block is completed later on, when no less is known
    obtain ⟨s, d, hs, hd⟩ := (Attempts.wait ha hrest).exists_completed (hf.mono hone)
      (fun _ h => h) ⟨h.intact.mono hone, h.sound, rfl, fun _ _ => rfl⟩ List.mem_cons_self
    have hid := h.subset id List.mem_cons_self
    have hps : Informs g p s := hs.informs h.unpublished
    cases hl : (b id).resolvedSchedule g c p with
    | ok schedule =>
      -- then it would have been completed at once
      rw [hps.completed hf.clamped (hf.prepared id hid) (hf.madeFor id hid) hl] at hd
      have hfinish := h.intact.finish_assemble (c := c) hid
      rw [hd, Attempt.finish_eq_error.mpr ⟨q, ha⟩] at hfinish
      contradiction
    | error e =>
      obtain ⟨hq, hpq, hqp⟩ := h.of_unresolved hf List.mem_cons_self ha hl
      obtain ⟨hprogress, hrest, hleast⟩ := ih (hq.perm (List.perm_append_singleton id l).symm)
      exact ⟨hprogress, hpq.trans hrest, fun s hclosed hs => hleast s hclosed (hqp.trans hs)⟩

/-- With everything completed there is nothing left to publish. -/
theorem closed (h : Progress g c b ids l p)
    (hl : ∀ k ∈ l, ∀ d, (b k).completed g c p ≠ .ok d) : Closed g c b ids p := by
  intro k hk d hd
  by_cases hkl : k ∈ l
  · exact absurd hd (hl k hkl d)
  · obtain ⟨e, -, he, hincludes⟩ := h.completed k hk hkl
    cases he.symm.trans hd
    exact hincludes

/-- An attempt on a block that can be completed later on fails only because its schedule waits. -/
theorem waits_of_error (hf : Family g c sites ids b) (hr : Progress g c b ids [] r)
    (h : Progress g c b ids l p) (hpr : Informs g p r) (hid : id ∈ l) {f : Failure}
    (ha : Posterior.assemble g c id p = .error f q) :
    f.kind = .unresolvedMarginal ∧ (b id).resolvedSchedule g c p = .error f := by
  replace hid := h.subset id hid
  obtain ⟨d, -, hd, -⟩ := hr.completed id hid List.not_mem_nil
  obtain ⟨schedule, hschedule, -⟩ := bind_eq_ok.mp hd
  have hfinish := h.intact.finish_assemble (c := c) hid
  rw [Attempt.finish_eq_error.mpr ⟨q, ha⟩] at hfinish
  rcases (hpr.resolvedSchedule (c := c) (b id)).of_ok hschedule with hl | ⟨e, he, hkind⟩
  · rw [← hpr.completed hf.clamped (hf.prepared id hid) (hf.madeFor id hid) hl, hd] at hfinish
    contradiction
  · have hfe : f = e := by
      unfold Block.completed at hfinish
      rw [he] at hfinish
      exact Except.error.inj hfinish
    exact ⟨hfe ▸ hkind, hfe ▸ he⟩

/-- **A round toward a completed family ends well**: an attempt either completes a block or waits,
and if all wait, then no block can be completed. -/
theorem exists_assembleRound (hf : Family g c sites ids b) (hr : Progress g c b ids [] r)
    {w : List String} (h : Progress g c b ids (l ++ w) p) (hpr : Informs g p r) :
    ∃ waiting q, assembleRound g c l p = .ok waiting q ∧
      Progress g c b ids (waiting.map (·.1) ++ w) q ∧ Informs g p q ∧ Informs g q r ∧
      waiting.length ≤ l.length ∧
      (waiting.length = l.length → Informs g q p ∧
        ∀ x ∈ waiting, ∀ d, (b x.1).completed g c q ≠ .ok d) := by
  induction l generalizing p w with
  | nil => exact ⟨[], p, rfl, h, .refl p, hpr, le_rfl, fun _ => ⟨.refl p, fun _ hx => nomatch hx⟩⟩
  | cons id l ih =>
    unfold assembleRound
    cases ha : Posterior.assemble g c id p with
    | ok _ p' =>
      have hid := h.subset id List.mem_cons_self
      obtain ⟨d, -, hd, hincludes⟩ := hr.completed id hid List.not_mem_nil
      obtain ⟨hp', hinforms, d', hd', rfl⟩ := h.of_ok hf ha
      cases (hpr.completed_eq_ok hf hid hd').symm.trans hd
      obtain ⟨waiting, q, hround, hq, hpq, hqr, hle, -⟩ := ih hp' (hpr.complete hincludes)
      refine ⟨waiting, q, hround, hq, hinforms.trans hpq, hqr, Nat.le_succ_of_le hle,
        fun hlen => ?_⟩
      rw [hlen, List.length_cons] at hle
      exact absurd hle (Nat.not_succ_le_self _)
    | error f p' =>
      obtain ⟨hkind, he⟩ := waits_of_error hf hr h hpr List.mem_cons_self ha
      obtain ⟨hp', hpp', hp'p⟩ := h.of_unresolved hf List.mem_cons_self ha he
      have hperm : (id :: (l ++ w)).Perm (l ++ (id :: w)) := List.perm_middle.symm
      obtain ⟨waiting, q, hround, hq, hpq, hqr, hle, hstuck⟩ :=
        ih (hp'.perm hperm) (hp'p.trans hpr)
      refine ⟨(id, f) :: waiting, q, ?_, hq.perm List.perm_middle, hpp'.trans hpq, hqr,
        Nat.succ_le_succ hle, fun hlen => ?_⟩
      · dsimp only
        rw [if_pos hkind, hround]
      · obtain ⟨hqp', hwaiting⟩ := hstuck (Nat.succ.inj hlen)
        have hqp := hqp'.trans hp'p
        refine ⟨hqp, List.forall_mem_cons.mpr ⟨fun d' hd' => ?_, hwaiting⟩⟩
        obtain ⟨schedule, hschedule, -⟩ := bind_eq_ok.mp hd'
        rw [(hqp.resolvedSchedule (b id)).eq_of_ok hschedule] at he
        contradiction

/-- What a round toward a completed family leaves; if it brings no progress, then nothing that waits
can be completed. -/
theorem of_assembleRound (hf : Family g c sites ids b) (hr : Progress g c b ids [] r)
    (h : Progress g c b ids l p) (hpr : Informs g p r) {waiting : List (String × Failure)}
    (hround : assembleRound g c l p = .ok waiting q) :
    Progress g c b ids (waiting.map (·.1)) q ∧ Informs g p q ∧ Informs g q r ∧
      (¬ waiting.length < l.length → ∀ x ∈ waiting, ∀ d, (b x.1).completed g c q ≠ .ok d) := by
  obtain ⟨waiting', q', hround', hq, hpq, hqr, hle, hstuck⟩ :=
    exists_assembleRound hf hr (w := []) (by rwa [List.append_nil]) hpr
  rw [hround] at hround'
  cases hround'
  rw [List.append_nil] at hq
  exact ⟨hq, hpq, hqr, fun hlt => (hstuck (Nat.le_antisymm hle (Nat.not_lt.mp hlt))).2⟩

/-- **The rounds end well if all blocks can be completed** with the least types that are closed
under completing blocks. -/
theorem exists_assembleAll (hf : Family g c sites ids b) (hr : Progress g c b ids [] r)
    (hleast : ∀ s, Closed g c b ids s → Informs g p₀ s → Informs g r s)
    (h : Progress g c b ids l p) (hp₀ : Informs g p₀ p) (hpr : Informs g p r) :
    ∃ q, assembleAll g c l p = .ok () q ∧ Progress g c b ids [] q ∧ Informs g p₀ q := by
  revert h hp₀ hpr
  fun_induction assembleAll g c l p with
  | case1 l p f q hround =>
    intro h _ hpr
    obtain ⟨waiting, q', hround', -⟩ :=
      exists_assembleRound hf hr (w := []) (by rwa [List.append_nil]) hpr
    rw [hround] at hround'
    contradiction
  | case2 l p waiting q hround hw =>
    intro h hp₀ hpr
    obtain ⟨hq, hpq, -⟩ := of_assembleRound hf hr h hpr hround
    obtain rfl := List.getLast?_eq_none_iff.mp hw
    exact ⟨q, rfl, hq, hp₀.trans hpq⟩
  | case3 l p waiting q hround id f hw hlt ih =>
    intro h hp₀ hpr
    obtain ⟨hq, hpq, hqr, -⟩ := of_assembleRound hf hr h hpr hround
    exact ih hq (hp₀.trans hpq) hqr
  | case4 l p waiting q hround id f hw hlt =>
    intro h hp₀ hpr
    obtain ⟨hq, hpq, -, hstuck⟩ := of_assembleRound hf hr h hpr hround
    have hwaiting := hstuck hlt
    have hmem : (id, f) ∈ waiting := List.mem_of_getLast? hw
    -- nothing can be completed, so that all that the family comes to is known already
    have hclosed : Closed g c b ids q := by
      refine hq.closed fun k hk d hd => ?_
      obtain ⟨x, hx, rfl⟩ := List.mem_map.mp hk
      exact hwaiting x hx d hd
    have hid : id ∈ ids := hq.subset id (List.mem_map_of_mem hmem)
    obtain ⟨d, -, hd, -⟩ := hr.completed id hid List.not_mem_nil
    have hrq := hleast q hclosed (hp₀.trans hpq)
    exact absurd (hrq.completed_eq_ok hf hid hd) (hwaiting (id, f) hmem d)

/-- A family that is completed in two ways is completed in the same way. -/
theorem eq_of_informs (hf : Family g c sites ids b) (hp : Progress g c b ids [] p)
    (hq : Progress g c b ids [] q) (h : Informs g p q) :
    (∀ k ∈ ids, q.blocks.get? k = p.blocks.get? k) ∧
      ∀ t, q.marginalTypes.get? t = p.marginalTypes.get? t := by
  have hsame : ∀ k ∈ ids, ∃ d, p.blocks.get? k = some d ∧ q.blocks.get? k = some d ∧
      (b k).completed g c p = .ok d ∧ (b k).completed g c q = .ok d ∧ p.Includes d ∧
      q.Includes d := by
    intro k hk
    obtain ⟨d, hd, hcompleted, hincludes⟩ := hp.completed k hk List.not_mem_nil
    obtain ⟨e, he, hcompleted', hincludes'⟩ := hq.completed k hk List.not_mem_nil
    cases (h.completed_eq_ok hf hk hcompleted).symm.trans hcompleted'
    exact ⟨d, hd, he, hcompleted, hcompleted', hincludes, hincludes'⟩
  refine ⟨fun k hk => ?_, fun t => Option.ext fun τ => ⟨fun ht => ?_, fun ht => ?_⟩⟩
  · obtain ⟨d, hd, he, -⟩ := hsame k hk
    rw [hd, he]
  · obtain ⟨k, hk, d, hd, hdt⟩ := hq.published t τ ht
    obtain ⟨e, -, -, -, he, hincludes, -⟩ := hsame k hk
    cases he.symm.trans hd
    exact hincludes t τ hdt
  · obtain ⟨k, hk, d, hd, hdt⟩ := hp.published t τ ht
    obtain ⟨e, -, -, he, -, -, hincludes⟩ := hsame k hk
    cases he.symm.trans hd
    exact hincludes t τ hdt

end Progress

/-- **Rounds that end well in one order do so in any other**, with the same blocks and the same
types. -/
theorem assembleAll_of_perm {p' : Posterior} (hf : Family g c sites ids b)
    (hp : Progress g c b ids ids p) (hp' : Progress g c b ids l p') (halike : Alike p p')
    (h : assembleAll g c ids p = .ok () q) :
    ∃ q', assembleAll g c l p' = .ok () q' ∧ Alike q q' := by
  have hpp' : Informs g p p' :=
    Informs.of_types halike.clusters (fun t τ ht => by rwa [halike.types]) hp'.sound
  have hp'p : Informs g p' p :=
    Informs.of_types halike.symm.clusters (fun t τ ht => by rwa [halike.symm.types]) hp.sound
  have hattempts := attempts_of_assembleAll h
  obtain ⟨hq, hpq, hleast⟩ := hp.of_attempts hf hattempts
  obtain ⟨q', hrounds, hq', hpq'⟩ :=
    Progress.exists_assembleAll hf hq hleast hp' hpp' (hp'p.trans hpq)
  obtain ⟨hblocks, htypes⟩ := hq.eq_of_informs hf hq' (hleast q' (hq'.closed (by simp)) hpq')
  refine ⟨q', hrounds, fun k => ?_, fun k => by rw [hpq'.clusters, hpq.clusters], htypes⟩
  by_cases hk : k ∈ ids
  · exact hblocks k hk
  · have hk' : k ∉ l := fun hkl => hk (hp'.subset k hkl)
    rw [hattempts.get?_of_not_mem (hp.intact.clean.mono fun _ _ => trivial) hk,
      (attempts_of_assembleAll hrounds).get?_of_not_mem
        (hp'.intact.clean.mono fun _ _ => trivial) hk', halike.blocks]

end Posterior

end MessagePassing
