import MessagePassing.Proofs.Assembly.Knowledge

/-!
# What an attempt publishes

An attempt publishes the types of marginals one by one, so that one that fails late has published
some. Even these agree with what is declared: a copy is compared with the declarations of all edges
of its variable, and for a product the declaration of the oldest edge is a constraint. Without
layers of factors a constraint is met by the type as a whole, so that a ground one leaves no choice.

Results:
* `plain_of_resolvedEntries`: messages are plain, if what is declared and published is.
* `sound_of_settlement`: the type of a marginal is plain and agrees with what is declared.
* **`Posterior.sound_assemble`**: so do all types that an attempt leaves, also when it fails, and it
  changes only those of marginals of its block.
-/

namespace MessagePassing

open Attempt (Keeps)

/-- What is declared is plain. -/
def Graph.Plain (g : Graph) : Prop :=
  ∀ e d, g.declared? e = some d → d.isPlain = true

/-- The type of a marginal is the one that is declared, if one is declared. -/
def Graph.Allows (g : Graph) (t : Target) (τ : TypeTerm) : Prop :=
  ∀ x d, t = .variable x → g.declaredMarginal? x = some d → τ = d

/-- What is published is plain and agrees with what is declared. -/
def Posterior.Sound (g : Graph) (p : Posterior) : Prop :=
  ∀ t τ, p.marginalTypes.get? t = some τ → τ.isPlain = true ∧ g.Allows t τ

/-- The types of messages are plain. -/
def PlainMessages (known : Table InterfaceId TypeTerm) : Prop :=
  ∀ i t, known.get? i = some t → t.isPlain = true

/-- The types of the messages of a schedule are plain. -/
def PlainEntries (l : List ScheduleEntry) : Prop :=
  ∀ e ∈ l, ∀ t, e.outbound = some t → t.isPlain = true

section Plain

variable {g : Graph} {c : Catalogue} {p : Posterior} {known : Table InterfaceId TypeTerm}
  {n : NodeId} {t : Target} {τ : TypeTerm} {x : String} {internal : List EdgeId}
  {e : ScheduleEntry} {place : Nat} {l l' : List ScheduleEntry}

/-- What is declared for a marginal is ground, and it is declared for the oldest edge. -/
theorem Graph.declaredMarginal?_eq_some : g.declaredMarginal? x = some τ ↔
    ∃ e, (g.edgesOf x).min? = some e ∧ g.declared? e = some τ ∧ τ.isGround = true := by
  unfold declaredMarginal? oldestDeclared?
  rw [Option.filter_eq_some_iff]
  constructor
  · rintro ⟨h, hground⟩
    obtain ⟨e, he, hd⟩ := Option.bind_eq_some_iff.mp h
    exact ⟨e, he, hd, hground⟩
  · rintro ⟨e, he, hd, hground⟩
    exact ⟨Option.bind_eq_some_iff.mpr ⟨e, he, hd⟩, hground⟩

theorem isPlain_of_marginalType (hg : g.Plain) (hp : p.Sound g)
    (h : p.marginalType g n t = .ok τ) : τ.isPlain = true := by
  rcases Posterior.marginalType_eq_ok.mp h with h | ⟨-, x, -, h⟩
  · exact (hp t τ h).1
  · obtain ⟨e, -, hd, -⟩ := Graph.declaredMarginal?_eq_some.mp h
    exact hg e τ hd

theorem isPlain_of_messageType (hg : g.Plain) (hknown : PlainMessages known) {i : InterfaceId}
    (h : Posterior.messageType g known i = .ok τ) : τ.isPlain = true := by
  unfold Posterior.messageType at h
  split at h
  · rename_i u hu
    cases h
    exact hknown i τ hu
  · obtain ⟨f, -, h⟩ := bind_eq_ok.mp h
    split at h
    · rename_i u hu
      cases pure_eq_ok.mp h
      unfold Graph.groundType? at hu
      exact hg f τ (Option.filter_eq_some_iff.mp hu).1
    · obtain ⟨_, -, h⟩ := bind_eq_ok.mp h
      contradiction

theorem isPlain_of_sourceType (hg : g.Plain) (hp : p.Sound g) (hknown : PlainMessages known)
    {s : Source} (h : p.sourceType g known n s = .ok τ) : τ.isPlain = true := by
  cases s with
  | nothing =>
    cases h
    rfl
  | message i =>
    obtain ⟨u, hu, rfl⟩ := map_eq_ok.mp h
    rw [TypeTerm.isPlain]
    exact isPlain_of_messageType hg hknown hu
  | constant k =>
    obtain ⟨node, -, h⟩ := bind_eq_ok.mp h
    rw [← pure_eq_ok.mp h]
    cases node.observed with
    | none => exact TypeTerm.isPlain_ofDims _ _
    | some v => exact TypeTerm.isPlain_ofDims _ _
  | marginal t => exact isPlain_of_marginalType hg hp h

theorem allPlain_of_mapM_sourceType (hg : g.Plain) (hp : p.Sound g) (hknown : PlainMessages known)
    {sources : List Source} {types : List TypeTerm}
    (h : sources.mapM (p.sourceType g known n) = .ok types) :
    TypeTerm.allPlain types = true := by
  refine TypeTerm.allPlain_iff.mpr fun u hu => ?_
  obtain ⟨s, -, hs⟩ := exists_of_mem_mapM h hu
  exact isPlain_of_sourceType hg hp hknown hs

/-- The message of an entry is plain. -/
theorem plain_of_findings (hc : c.Plain) (hg : g.Plain) (hp : p.Sound g)
    (hknown : PlainMessages known) {f : Finding}
    (h : e.findings ⟨g, c, p, internal⟩ known = .ok f) :
    ∀ t, (e.filled place f).outbound = some t → t.isPlain = true := by
  unfold ScheduleEntry.findings at h
  obtain ⟨node, -, h⟩ := bind_eq_ok.mp h
  intro t ht
  split at h
  · cases pure_eq_ok.mp h
    cases ht
    exact TypeTerm.isPlain_ofDims _ _
  · obtain ⟨sources, -, h⟩ := bind_eq_ok.mp h
    obtain ⟨types, htypes, h⟩ := bind_eq_ok.mp h
    obtain ⟨r, hr, h⟩ := bind_eq_ok.mp h
    cases pure_eq_ok.mp h
    cases ht
    exact (plain_of_resolve hc (allPlain_of_mapM_sourceType hg hp hknown htypes) hr).1

theorem PlainMessages.learn (hknown : PlainMessages known)
    (he : ∀ t, e.outbound = some t → t.isPlain = true) : PlainMessages (e.learn known) := by
  unfold ScheduleEntry.learn
  cases ho : e.outbound with
  | none => exact hknown
  | some u =>
    intro i t ht
    rw [Table.get?_insert] at ht
    split at ht
    · exact Option.some.inj ht ▸ he u ho
    · exact hknown i t ht

theorem plainMessages_empty : PlainMessages ∅ := fun _ _ h => nomatch h

/-- **The messages of a schedule are plain.** -/
theorem plain_of_resolvedEntries (hc : c.Plain) (hg : g.Plain) (hp : p.Sound g)
    (hknown : PlainMessages known)
    (h : resolvedEntries ⟨g, c, p, internal⟩ known place l = .ok l') : PlainEntries l' := by
  induction l generalizing known place l' with
  | nil =>
    cases h
    exact fun _ he => absurd he List.not_mem_nil
  | cons e l ih =>
    obtain ⟨f, hf, h⟩ := bind_eq_ok.mp h
    obtain ⟨l'', hl, h⟩ := bind_eq_ok.mp h
    cases pure_eq_ok.mp h
    have he : ∀ t, (e.filled place f).outbound = some t → t.isPlain = true :=
      plain_of_findings hc hg hp hknown hf
    exact List.forall_mem_cons.mpr ⟨he, ih (hknown.learn he) hl⟩

theorem plainMessages_messageTypes (h : PlainEntries l) : PlainMessages (messageTypes l) := by
  rw [messageTypes_eq]
  have hfold : ∀ (l : List ScheduleEntry) known, PlainEntries l → PlainMessages known →
      PlainMessages (l.foldl ScheduleEntry.learn known) := by
    intro l
    induction l with
    | nil => exact fun _ _ hknown => hknown
    | cons e l ih =>
      intro known hl hknown
      obtain ⟨he, hl⟩ := List.forall_mem_cons.mp hl
      exact ih _ hl (hknown.learn he)
  exact hfold l ∅ h plainMessages_empty

/-- Seeds do not matter to the types of messages. -/
theorem PlainEntries.of_unseeded (h : PlainEntries l)
    (hl : l'.map ScheduleEntry.unseeded = l.map ScheduleEntry.unseeded) : PlainEntries l' := by
  intro e he t ht
  have hmem : e.unseeded ∈ l.map ScheduleEntry.unseeded := hl ▸ List.mem_map_of_mem he
  obtain ⟨e', he', heq⟩ := List.mem_map.mp hmem
  have hout : e'.unseeded.outbound = e.unseeded.outbound := by rw [heq]
  exact h e' he' t (hout.trans ht)

end Plain

/-! ## Types of marginals -/

section Marginals

variable {g : Graph} {c : Catalogue} {p : Posterior} {b : Block} {m : MarginalEntry}
  {l : List MarginalEntry}

/-- A joint marginal is that of a cluster. -/
def MarginalEntry.AboutCluster (m : MarginalEntry) : Prop :=
  m.plan.isJoint = true → ∃ k, m.target = .cluster k

/-- What is declared for an edge of a variable admits a marginal that is checked. -/
theorem Graph.admits_of_checkDeclared {x : String} {e : EdgeId} {d t : TypeTerm}
    (h : g.checkDeclared x t = .ok ()) (he : e ∈ g.edgesOf x) (hd : g.declared? e = some d) :
    d.admits t = true := by
  unfold checkDeclared at h
  have hedge := forM_eq_ok.mp h e he
  rw [hd] at hedge
  dsimp only at hedge
  split at hedge
  · assumption
  · contradiction

/-- The type of a message of the schedule is plain. -/
theorem isPlain_outboundType (hb : PlainEntries b.schedule) {i : InterfaceId} {e : ScheduleEntry}
    (h : b.scheduled g i = .ok e) : (Block.outboundType e).isPlain = true := by
  unfold Block.outboundType
  cases ho : e.outbound with
  | none => rfl
  | some t => exact hb e (Block.mem_of_find? (Block.scheduled_eq_ok.mp h)).1 t ho

/-- **The type of a marginal is plain and agrees with what is declared.** -/
theorem sound_of_settlement (hc : c.Plain) (hg : g.Plain) (hp : p.Sound g)
    (hb : PlainEntries b.schedule) (hm : m.AboutCluster) {f : Settlement}
    (h : m.settlement (b.surroundings g c p) b = .ok f) :
    f.type.isPlain = true ∧ g.Allows m.target f.type := by
  unfold MarginalEntry.settlement at h
  cases hplan : m.plan with
  | copy i =>
    rw [hplan] at h
    obtain ⟨e, he, h⟩ := bind_eq_ok.mp h
    obtain ⟨_, hcheck, h⟩ := bind_eq_ok.mp h
    cases pure_eq_ok.mp h
    refine ⟨isPlain_outboundType hb he, fun x d hx hd => ?_⟩
    obtain ⟨f, hf, hdeclared, hground⟩ := Graph.declaredMarginal?_eq_some.mp hd
    rw [hx] at hcheck
    exact TypeTerm.eq_of_admits hground
      (Graph.admits_of_checkDeclared hcheck (List.min?_mem hf) hdeclared)
  | product i j =>
    rw [hplan] at h
    obtain ⟨first, hfirst, h⟩ := bind_eq_ok.mp h
    obtain ⟨second, hsecond, h⟩ := bind_eq_ok.mp h
    obtain ⟨r, hr, h⟩ := bind_eq_ok.mp h
    cases pure_eq_ok.mp h
    obtain ⟨hplain, hadmits⟩ := plain_of_resolveMarginal hc (isPlain_outboundType hb hfirst)
      (isPlain_outboundType hb hsecond) hr
    refine ⟨hplain, fun x d hx hd => ?_⟩
    obtain ⟨f, hf, hdeclared, hground⟩ := Graph.declaredMarginal?_eq_some.mp hd
    refine TypeTerm.eq_of_admits hground (hadmits d ?_)
    rw [hx]
    exact Option.bind_eq_some_iff.mpr ⟨f, hf, hdeclared⟩
  | joint n messages =>
    rw [hplan] at h
    obtain ⟨node, -, h⟩ := bind_eq_ok.mp h
    obtain ⟨sources, -, h⟩ := bind_eq_ok.mp h
    obtain ⟨types, htypes, h⟩ := bind_eq_ok.mp h
    obtain ⟨r, hr, h⟩ := bind_eq_ok.mp h
    cases pure_eq_ok.mp h
    have hplain := allPlain_of_mapM_sourceType hg hp (plainMessages_messageTypes hb) htypes
    obtain ⟨k, hk⟩ := hm (by rw [hplan]; rfl)
    refine ⟨(plain_of_resolve hc hplain hr).1, fun x d hx _ => ?_⟩
    rw [hk] at hx
    contradiction

/-- What is published stays sound when a sound type is added. -/
theorem Posterior.Sound.publish (hp : p.Sound g)
    (hm : ∀ τ, m.type = some τ → τ.isPlain = true ∧ g.Allows m.target τ) :
    (p.publish m).Sound g := by
  intro t τ ht
  have hget : (p.publish m).marginalTypes.get? t = _ := Posterior.get?_publish p.marginalTypes m t
  rw [hget] at ht
  unfold MarginalEntry.publish at ht
  cases hτ : m.type with
  | none =>
    rw [hτ] at ht
    exact hp t τ ht
  | some σ =>
    rw [hτ] at ht
    dsimp only at ht
    rw [Table.get?_insert] at ht
    split at ht
    · rename_i htarget
      cases ht
      exact htarget ▸ hm τ hτ
    · exact hp t τ ht

/-- **All that is published agrees with what is declared**, also by an attempt that fails, and it is
about the marginals of the list. -/
theorem sound_of_settleEntries (hc : c.Plain) (hg : g.Plain) (hp : p.Sound g)
    (hb : PlainEntries b.schedule) (hl : ∀ m ∈ l, m.Clean ∧ m.AboutCluster)
    {r : List MarginalEntry × Posterior}
    (h : settleEntries g c b p l = .ok () r ∨ ∃ f, settleEntries g c b p l = .error f r) :
    r.2.Sound g ∧
      ∀ t, t ∉ l.map (·.target) → r.2.marginalTypes.get? t = p.marginalTypes.get? t := by
  induction l generalizing p r with
  | nil =>
    rcases h with h | ⟨f, h⟩
    · cases h
      exact ⟨hp, fun _ _ => rfl⟩
    · contradiction
  | cons m l ih =>
    obtain ⟨⟨hclean, hm⟩, hl⟩ := List.forall_mem_cons.mp hl
    rcases settleEntries_cons h with ⟨f, m', -, rfl⟩ | ⟨t, m', r', hs, hr, rfl⟩
    · exact ⟨hp, fun _ _ => rfl⟩
    · have hfinish := Attempt.finish_eq_ok.mpr hs
      rw [MarginalEntry.finish_settle hclean] at hfinish
      obtain ⟨o, ho, hm'⟩ := bind_eq_ok.mp hfinish
      cases hm'
      have hpublished : (p.publish (m.settledBy o)).Sound g := hp.publish fun τ hτ =>
        Option.some.inj hτ ▸ sound_of_settlement hc hg hp hb hm ho
      obtain ⟨hsound, hframe⟩ := ih (p := p.publish (m.settledBy o)) hpublished hl hr
      refine ⟨hsound, fun t ht => ?_⟩
      rw [List.map_cons, List.mem_cons, not_or] at ht
      exact (hframe t ht.2).trans ((Table.get?_insert ..).trans (if_neg (Ne.symm ht.1)))

end Marginals

/-! ## Attempts -/

/-- A joint marginal of a prepared block is that of a cluster. -/
theorem Block.Prepared.aboutCluster {g : Graph} {sites : List InterfaceId} {b : Block}
    (h : b.Prepared g sites) {m : MarginalEntry} (hm : m ∈ b.marginalTable) : m.AboutCluster := by
  intro hjoint
  obtain ⟨b₁, -, ht⟩ := h
  obtain ⟨single, joint, hsingle, hcluster, hb⟩ := withMarginalTable_eq_ok.mp ht
  have hmem : m.bare ∈ single ++ joint := by
    have : m.bare ∈ b.skeleton.marginalTable := List.mem_map_of_mem hm
    rwa [hb] at this
  rcases List.mem_append.mp hmem with hmem | hmem
  · obtain ⟨x, -, hx⟩ := exists_of_mem_mapM hsingle hmem
    have hplan : m.bare.plan.isJoint = false := isJoint_of_variableMarginal hx
    exact absurd (hplan.symm.trans hjoint) Bool.false_ne_true
  · obtain ⟨k, -, hk⟩ := exists_of_mem_mapM hcluster hmem
    obtain ⟨_, -, hk⟩ := clusterMarginal_eq_ok.mp hk
    exact ⟨k, congrArg MarginalEntry.target hk⟩

namespace Posterior

variable {g : Graph} {c : Catalogue} {id : String} {p : Posterior} {b : Block}
  {sites : List InterfaceId}

theorem keeps_assembleSchedule_types (types : Table Target TypeTerm) :
    Keeps (fun p => p.marginalTypes = types) (assembleSchedule g c id) := by
  have hput : ∀ (p : Posterior) b, p.marginalTypes = types → (p.putBlock b).marginalTypes = types :=
    fun _ _ h => h
  exact Keeps.bind (keeps_onBlock_shared hput) fun _ => Keeps.bind (Keeps.modify fun _ h => h)
    fun _ => Keeps.bind (keeps_onBlock_shared hput) fun _ =>
      Keeps.bind (keeps_onBlock_shared hput) fun _ => keeps_onBlock_shared hput

/-- The types that are left when marginals are settled are those that the entries leave. -/
theorem types_of_settleMarginals (hb : p.blocks.get? id = some b) :
    ∃ r, (settleEntries g c b p b.marginalTable = .ok () r ∨
        ∃ f, settleEntries g c b p b.marginalTable = .error f r) ∧
      ((settleMarginals g c id).outcome p).2.marginalTypes = r.2.marginalTypes := by
  unfold Attempt.outcome settleMarginals
  rw [hb]
  dsimp only
  cases settleEntries g c b p b.marginalTable with
  | ok _ r => exact ⟨r, Or.inl rfl, rfl⟩
  | error f r => exact ⟨r, Or.inr ⟨f, rfl⟩, rfl⟩

/-- An attempt leaves the types as they are, or it resolves the schedule of the block, lays its
seeds and comes to settle its marginals. -/
theorem types_of_assemble (hb : p.blocks.get? id = some b) (hid : b.id = id) (hclean : b.Clean g) :
    ((assemble g c id).outcome p).2.marginalTypes = p.marginalTypes ∨
      ∃ l d q r, b.resolvedSchedule g c p = .ok l ∧ b.seeded g l = .ok d ∧
        q.marginalTypes = p.marginalTypes ∧
        (settleEntries g c (d.withMarginals b.marginalTable) q b.marginalTable = .ok () r ∨
          ∃ f, settleEntries g c (d.withMarginals b.marginalTable) q b.marginalTable =
            .error f r) ∧
        ((assemble g c id).outcome p).2.marginalTypes = r.2.marginalTypes := by
  rw [assemble_eq]
  have hkeep : Keeps (fun q => q.marginalTypes = p.marginalTypes) (assembleSchedule g c id) :=
    keeps_assembleSchedule_types p.marginalTypes
  unfold Attempt.outcome
  cases hs : assembleSchedule g c id p with
  | error f q =>
    rw [Attempt.bind_of_error hs]
    exact Or.inl (hkeep.of_error rfl hs)
  | ok _ q =>
    rw [Attempt.bind_of_ok hs]
    have hfinish := Attempt.finish_eq_ok.mpr hs
    rw [finish_assembleSchedule hb hid hclean] at hfinish
    obtain ⟨l, hl, hfinish⟩ := bind_eq_ok.mp hfinish
    obtain ⟨d, hd, hfinish⟩ := bind_eq_ok.mp hfinish
    have hq : q = (p.putBlock (d.withMarginals b.marginalTable)).forgetPhases id := by
      cases hfinish
      rfl
    have hid' : (d.withMarginals b.marginalTable).id = id :=
      (Block.id_of_outline (Block.outline_of_skeleton (Block.of_seeded hd).1)).trans hid
    have hbq : q.blocks.get? id = some (d.withMarginals b.marginalTable) := by
      rw [hq]
      change (p.putBlock _).blocks.get? id = _
      rw [get?_putBlock, if_pos hid']
    refine Or.inr ⟨l, d, q, ?_⟩
    obtain ⟨r, hr, htypes⟩ := types_of_settleMarginals (g := g) (c := c) hbq
    exact ⟨r, hl, hd, hkeep.of_ok rfl hs, hr, htypes⟩

/-- An attempt that cannot resolve the schedule publishes nothing. -/
theorem types_of_assemble_of_unresolved (hb : p.blocks.get? id = some b) (hid : b.id = id)
    (hclean : b.Clean g) {f : Failure} (hf : b.resolvedSchedule g c p = .error f) :
    ((assemble g c id).outcome p).2.marginalTypes = p.marginalTypes := by
  rcases types_of_assemble (g := g) (c := c) hb hid hclean with h | ⟨l, d, q, r, hl, -⟩
  · exact h
  · rw [hf] at hl
    contradiction

/-- **What an attempt leaves published agrees with what is declared**, also when it fails, and it
changes only the types of marginals of its block. -/
theorem sound_assemble (hc : c.Plain) (hg : g.Plain) (hp : p.Sound g)
    (hb : p.blocks.get? id = some b) (hid : b.id = id) (hclean : b.Clean g)
    (hprepared : b.Prepared g sites) : ((assemble g c id).outcome p).2.Sound g ∧
      ∀ t, t ∉ b.marginalTargets →
        ((assemble g c id).outcome p).2.marginalTypes.get? t = p.marginalTypes.get? t := by
  rcases types_of_assemble (g := g) (c := c) hb hid hclean with h | ⟨l, d, q, r, hl, hd, hq, hr, h⟩
  · unfold Sound
    rw [h]
    exact ⟨hp, fun _ _ => rfl⟩
  · have hentries : PlainEntries (d.withMarginals b.marginalTable).schedule :=
      (plain_of_resolvedEntries hc hg hp plainMessages_empty hl).of_unseeded (Block.of_seeded hd).2
    have hqs : q.Sound g := by
      unfold Sound
      rw [hq]
      exact hp
    have hsound := sound_of_settleEntries hc hg hqs hentries
      (fun m hm => ⟨hclean.marginals m hm, hprepared.aboutCluster hm⟩) hr
    unfold Sound at hsound ⊢
    rwa [h, ← hq]

end Posterior

end MessagePassing
