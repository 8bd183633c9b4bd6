import Mathlib.Data.List.Induction
import MessagePassing.Proofs.Assembly.Skeleton

/-!
# What an assembled block is like

Assembling goes through the schedule, the seeds and the marginal table once. When it succeeds, every
entry has been resolved from the types of the messages before it, every loop breaker has a seed, and
every marginal has been settled from the schedule.

Results:
* `resolved_of_inferEntries`, `seeds_of_designateSeeds`, `settled_of_settleEntries`: what each of
  the three parts leaves.
* **`Posterior.assembled_of_assemble`**: a block whose assembly succeeds is assembled.
-/

namespace MessagePassing

open Attempt (Keeps)

/-! ## The schedule -/

/-- The entry is resolved, given the types of the messages before it. -/
inductive ScheduleEntry.Resolved (s : Surroundings) (known : Table InterfaceId TypeTerm)
    (e : ScheduleEntry) : Prop
  /-- An observed value needs no rule. -/
  | observed {node : Node} {value : Tensor} (hnode : s.graph.node e.node = .ok node)
      (hvalue : node.observed = some value) (hinbounds : e.inbounds = [.nothing])
      (houtbound : e.outbound = some value.pointMassType)
  /-- Other messages have a rule that fits the types of what is read. -/
  | rule {node : Node} {r : Resolution} (hnode : s.graph.node e.node = .ok node)
      (hvalue : node.observed = none)
      (hsources : s.posterior.sources s.graph s.internal e.node (some e.interface) e.ruleType =
        .ok e.inbounds)
      (htypes : e.inbounds.mapM (s.posterior.sourceType s.graph known e.node) = .ok e.inboundTypes)
      (hrule : s.catalogue.resolve (e.request node e.inboundTypes) = .ok r)
      (houtbound : e.outbound = some r.outbound) (hchosen : e.rule = some r.rule)
      (honeByOne : e.oneByOne = r.oneByOne)

/-- The entry without its seed. -/
def ScheduleEntry.unseeded (e : ScheduleEntry) : ScheduleEntry :=
  { e with seed := none }

section Entries

variable {s : Surroundings} {known : Table InterfaceId TypeTerm} {place : Nat}
  {e e' : ScheduleEntry} {l l' : List ScheduleEntry}

theorem ScheduleEntry.resolved_of_infer (h : ScheduleEntry.infer s known place e = .ok () e') :
    e'.Resolved s known := by
  obtain ⟨_, e₁, h₁, h⟩ := Attempt.bind_eq_ok.mp h
  obtain rfl := Attempt.modify_eq_ok.mp h₁
  obtain ⟨e₂, e₃, h₂, h⟩ := Attempt.bind_eq_ok.mp h
  obtain ⟨rfl, rfl⟩ := Attempt.get_eq_ok.mp h₂
  obtain ⟨node, e₄, h₃, h⟩ := Attempt.bind_eq_ok.mp h
  obtain ⟨hnode, rfl⟩ := Attempt.liftM_eq_ok.mp h₃
  cases hvalue : node.observed with
  | some value =>
    rw [hvalue] at h
    obtain rfl := Attempt.modify_eq_ok.mp h
    exact .observed hnode hvalue rfl rfl
  | none =>
    rw [hvalue] at h
    obtain ⟨sources, e₅, h₄, h⟩ := Attempt.bind_eq_ok.mp h
    obtain ⟨hsources, rfl⟩ := Attempt.liftM_eq_ok.mp h₄
    obtain ⟨_, e₆, h₅, h⟩ := Attempt.bind_eq_ok.mp h
    obtain rfl := Attempt.modify_eq_ok.mp h₅
    obtain ⟨types, e₇, h₆, h⟩ := Attempt.bind_eq_ok.mp h
    obtain ⟨htypes, rfl⟩ := Attempt.ofExcept_eq_ok.mp h₆
    obtain ⟨_, e₈, h₇, h⟩ := Attempt.bind_eq_ok.mp h
    obtain rfl := Attempt.modify_eq_ok.mp h₇
    obtain ⟨r, e₉, h₈, h⟩ := Attempt.bind_eq_ok.mp h
    obtain ⟨hrule, rfl⟩ := Attempt.liftM_eq_ok.mp h₈
    obtain rfl := Attempt.modify_eq_ok.mp h
    exact .rule hnode hvalue hsources htypes hrule rfl rfl rfl

theorem ScheduleEntry.resolved_unseeded : e.unseeded.Resolved s known ↔ e.Resolved s known := by
  constructor
  · rintro (⟨hnode, hvalue, hi, ho⟩ | ⟨hnode, hvalue, hs, ht, hr, ho, hc, hb⟩)
    · exact .observed hnode hvalue hi ho
    · exact .rule hnode hvalue hs ht hr ho hc hb
  · rintro (⟨hnode, hvalue, hi, ho⟩ | ⟨hnode, hvalue, hs, ht, hr, ho, hc, hb⟩)
    · exact .observed hnode hvalue hi ho
    · exact .rule hnode hvalue hs ht hr ho hc hb

/-- The types of the messages after an entry. -/
def ScheduleEntry.learn (known : Table InterfaceId TypeTerm) (e : ScheduleEntry) :
    Table InterfaceId TypeTerm :=
  match e.outbound with
  | some t => known.insert e.interface t
  | none => known

theorem messageTypes_eq (l : List ScheduleEntry) :
    messageTypes l = l.foldl ScheduleEntry.learn ∅ := by
  unfold messageTypes Table.ofList
  generalize (∅ : Table InterfaceId TypeTerm) = known
  induction l generalizing known with
  | nil => rfl
  | cons e l ih =>
    rw [List.foldl_cons, ← ih]
    unfold ScheduleEntry.learn
    cases ho : e.outbound with
    | none => simp [ho]
    | some t => simp [ho]

theorem messageTypes_unseeded (l : List ScheduleEntry) :
    messageTypes (l.map ScheduleEntry.unseeded) = messageTypes l := by
  unfold messageTypes
  rw [List.filterMap_map]
  rfl

theorem inferEntries_cons_eq_ok (h : inferEntries s known place (e :: l) = .ok () l') :
    ∃ e' rest, ScheduleEntry.infer s known place e = .ok () e' ∧
      inferEntries s (e'.learn known) (place + 1) l = .ok () rest ∧ l' = e' :: rest := by
  unfold inferEntries at h
  cases he : ScheduleEntry.infer s known place e with
  | error f e' => rw [he] at h; contradiction
  | ok _ e' =>
    rw [he] at h
    dsimp only at h
    split at h
    · rename_i rest hrest
      cases h
      exact ⟨e', rest, rfl, hrest, rfl⟩
    · contradiction

/-- Every entry is resolved from what the entries before it tell. -/
theorem resolved_of_inferEntries (h : inferEntries s known place l = .ok () l') :
    ∀ pre e post, l' = pre ++ e :: post → e.Resolved s (pre.foldl ScheduleEntry.learn known) := by
  induction l generalizing known place l' with
  | nil =>
    cases h
    intro pre e post hl
    simp at hl
  | cons x l ih =>
    obtain ⟨x', rest, hx, hrest, rfl⟩ := inferEntries_cons_eq_ok h
    intro pre e post hsplit
    cases pre with
    | nil =>
      cases hsplit
      exact ScheduleEntry.resolved_of_infer hx
    | cons y pre =>
      rw [List.cons_append, List.cons.injEq] at hsplit
      obtain ⟨rfl, hsplit⟩ := hsplit
      exact ih hrest pre e post hsplit

/-- The entries of a schedule are resolved one after the other. -/
def ResolvedInOrder (s : Surroundings) (l : List ScheduleEntry) : Prop :=
  ∀ pre e post, l = pre ++ e :: post → e.Resolved s (messageTypes pre)

/-- Seeds do not matter to the resolution. -/
theorem ResolvedInOrder.of_unseeded (h : ResolvedInOrder s l)
    (hl : l'.map ScheduleEntry.unseeded = l.map ScheduleEntry.unseeded) : ResolvedInOrder s l' := by
  intro pre e post hsplit
  subst hsplit
  rw [List.map_append, List.map_cons, eq_comm, List.map_eq_append_iff] at hl
  obtain ⟨pre', rest, rfl, hpre, hrest⟩ := hl
  obtain ⟨e', post', rfl, he, -⟩ := List.map_eq_cons_iff.mp hrest
  have := h pre' e' post' rfl
  rwa [← messageTypes_unseeded, hpre, messageTypes_unseeded, ← ScheduleEntry.resolved_unseeded, he,
    ScheduleEntry.resolved_unseeded] at this

end Entries

/-! ## Types that are known -/

section Known

variable {l : List ScheduleEntry} {e : ScheduleEntry} {i : InterfaceId} {t : TypeTerm}

theorem messageTypes_snoc :
    messageTypes (l ++ [e]) = ScheduleEntry.learn (messageTypes l) e := by
  rw [messageTypes_eq, messageTypes_eq, List.foldl_append]
  rfl

theorem get?_learn (known : Table InterfaceId TypeTerm) (ho : e.outbound = some t) :
    (ScheduleEntry.learn known e).get? i = if e.interface = i then some t else known.get? i := by
  unfold ScheduleEntry.learn
  rw [ho]
  exact Table.get?_insert known e.interface i t

theorem get?_learn_of_ne (known : Table InterfaceId TypeTerm) (h : e.interface ≠ i) :
    (ScheduleEntry.learn known e).get? i = known.get? i := by
  unfold ScheduleEntry.learn
  split
  · rw [Table.get?_insert, if_neg h]
  · rfl

/-- In a schedule without repetition, the type of a message is that of its entry. -/
theorem get?_messageTypes (hn : (l.map (·.interface)).Nodup) (he : e ∈ l)
    (ho : e.outbound = some t) : (messageTypes l).get? e.interface = some t := by
  induction l using List.reverseRecOn with
  | nil => exact absurd he List.not_mem_nil
  | append_singleton l f ih =>
    rw [List.map_append, List.nodup_append] at hn
    obtain ⟨hl, -, hdisjoint⟩ := hn
    rw [messageTypes_snoc]
    rcases List.mem_append.mp he with he | he
    · have hne : f.interface ≠ e.interface := fun h =>
        hdisjoint e.interface (List.mem_map_of_mem he) f.interface (by simp) h.symm
      rw [get?_learn_of_ne _ hne, ih hl he]
    · obtain rfl := List.mem_singleton.mp he
      rw [get?_learn _ ho, if_pos rfl]

/-- The type of a message that is not in a schedule is not known from it. -/
theorem get?_messageTypes_of_notMem (hi : i ∉ l.map (·.interface)) :
    (messageTypes l).get? i = none := by
  induction l using List.reverseRecOn with
  | nil => rfl
  | append_singleton l f ih =>
    rw [List.map_append, List.mem_append, not_or] at hi
    have hne : f.interface ≠ i := fun h => hi.2 (by simp [h])
    rw [messageTypes_snoc, get?_learn_of_ne _ hne, ih hi.1]

end Known

/-! ## Seeds -/

namespace Block

variable {b b' : Block} {g : Graph} {i : InterfaceId}

/-- The message of an interface is computed and has a seed. -/
def Seeded (b : Block) (i : InterfaceId) : Prop :=
  ∃ e ∈ b.schedule, e.interface = i ∧ e.seed.isSome

theorem unseeded_lay (b : Block) (d : Designation) :
    (b.lay d).schedule.map ScheduleEntry.unseeded = b.schedule.map ScheduleEntry.unseeded := by
  unfold lay
  rw [List.map_map]
  refine List.map_congr_left fun e _ => ?_
  rw [Function.comp_apply]
  split <;> rfl

theorem Seeded.lay (h : b.Seeded i) (d : Designation) : (b.lay d).Seeded i := by
  obtain ⟨e, he, rfl, hs⟩ := h
  refine ⟨_, List.mem_map.mpr ⟨e, he, rfl⟩, ?_⟩
  split
  · exact ⟨rfl, rfl⟩
  · exact ⟨rfl, hs⟩

/-- A seed is laid where the message is computed, unless there is one. -/
theorem seeded_lay {d : Designation} (h : ∃ e ∈ b.schedule, e.interface = d.interface) :
    (b.lay d).Seeded d.interface := by
  obtain ⟨e, he, hi⟩ := h
  refine ⟨_, List.mem_map.mpr ⟨e, he, rfl⟩, ?_⟩
  split
  · exact ⟨hi, rfl⟩
  · rename_i hs
    simp only [hi, decide_true, Bool.true_and, decide_eq_true_eq] at hs
    exact ⟨hi, Option.isSome_iff_ne_none.mpr hs⟩

theorem exists_interface_of_unseeded {l l' : List ScheduleEntry}
    (hl : l'.map ScheduleEntry.unseeded = l.map ScheduleEntry.unseeded)
    (h : ∃ e ∈ l, e.interface = i) : ∃ e ∈ l', e.interface = i := by
  obtain ⟨e, he, rfl⟩ := h
  have hmem : e.unseeded ∈ l'.map ScheduleEntry.unseeded := hl ▸ List.mem_map_of_mem he
  obtain ⟨e', he', heq⟩ := List.mem_map.mp hmem
  have hi : e'.unseeded.interface = e.unseeded.interface := by rw [heq]
  exact ⟨e', he', hi⟩

/-- Laying seeds changes only seeds, takes none away, and lays all that are asked for. -/
theorem seeds_of_layAll {l : List (Except Failure (Option Designation))}
    (h : layAll l b = .ok () b') :
    b'.schedule.map ScheduleEntry.unseeded = b.schedule.map ScheduleEntry.unseeded ∧
      (∀ i, b.Seeded i → b'.Seeded i) ∧
      ∀ x ∈ l, ∃ o, x = .ok o ∧
        ∀ d, o = some d → (∃ e ∈ b.schedule, e.interface = d.interface) →
          b'.Seeded d.interface := by
  induction l generalizing b with
  | nil =>
    cases h
    exact ⟨rfl, fun _ h => h, fun _ h => absurd h List.not_mem_nil⟩
  | cons x l ih =>
    cases x with
    | error f => contradiction
    | ok o =>
      cases o with
      | none =>
        obtain ⟨hu, hs, hl⟩ := ih h
        refine ⟨hu, hs, fun x hx => ?_⟩
        rcases List.mem_cons.mp hx with rfl | hx
        · exact ⟨none, rfl, nofun⟩
        · exact hl x hx
      | some d =>
        obtain ⟨hu, hs, hl⟩ := ih (b := b.lay d) h
        refine ⟨hu.trans (b.unseeded_lay d), fun i hi => hs i (hi.lay d), fun x hx => ?_⟩
        rcases List.mem_cons.mp hx with rfl | hx
        · refine ⟨some d, rfl, fun d' hd hex => ?_⟩
          cases hd
          exact hs _ (seeded_lay hex)
        · obtain ⟨o, rfl, ho⟩ := hl x hx
          exact ⟨o, rfl, fun d' hd hex =>
            ho d' hd (exists_interface_of_unseeded (b.unseeded_lay d) hex)⟩

theorem scheduled_eq_ok {e : ScheduleEntry} :
    b.scheduled g i = .ok e ↔ b.find? i = some e := by
  unfold scheduled
  cases b.find? i with
  | none =>
    unfold Graph.label
    cases g.label? i <;> simp [Except.bind]
  | some e' => simp

theorem mem_of_find? {e : ScheduleEntry} (h : b.find? i = some e) :
    e ∈ b.schedule ∧ e.interface = i :=
  ⟨List.mem_of_find?_eq_some h, by simpa using List.find?_some h⟩

/-- Once the seeds are laid, every loop breaker has one. -/
theorem seeds_of_designateSeeds (h : designateSeeds g b = .ok () b') :
    b'.schedule.map ScheduleEntry.unseeded = b.schedule.map ScheduleEntry.unseeded ∧
      (∀ i ∈ b.loopBreakers, b'.Seeded i) ∧ b'.needsSeeds = b'.schedule.any (·.seed.isSome) := by
  unfold designateSeeds at h
  cases hl : layAll (b.designations g) b with
  | error f c => rw [hl] at h; contradiction
  | ok _ c =>
    rw [hl] at h
    cases h
    obtain ⟨hu, -, hall⟩ := seeds_of_layAll hl
    refine ⟨hu, fun i hi => ?_, rfl⟩
    have hmem : (b.designation g i none .loop).map some ∈ b.designations g :=
      List.mem_append_right _ (List.mem_map.mpr ⟨i, hi, rfl⟩)
    obtain ⟨o, ho, hd⟩ := hall _ hmem
    obtain ⟨d, hdes, rfl⟩ := map_eq_ok.mp ho
    obtain ⟨e, he, rfl⟩ := map_eq_ok.mp hdes
    obtain ⟨hmem, hi⟩ := mem_of_find? (scheduled_eq_ok.mp he)
    exact hd _ rfl ⟨e, hmem, hi⟩

end Block

/-! ## The marginal table -/

/-- The marginal is settled from a schedule. -/
inductive MarginalEntry.Settled (s : Surroundings) (l : List ScheduleEntry) (m : MarginalEntry) :
    Prop
  /-- A copy of a message of the schedule. -/
  | copy {i : InterfaceId} {e : ScheduleEntry} (hplan : m.plan = .copy i)
      (hfirst : l.find? (·.interface = i) = some e) (hinbounds : m.inbounds = [.message i])
      (htype : m.type = some (Block.outboundType e))
  /-- A product of two messages of the schedule. -/
  | product {i j : InterfaceId} {e f : ScheduleEntry} {r : Resolution}
      (hplan : m.plan = .product i j) (hfirst : l.find? (·.interface = i) = some e)
      (hsecond : l.find? (·.interface = j) = some f)
      (hrule : s.catalogue.resolveMarginal s.graph m.target.id (Block.outboundType e)
        (Block.outboundType f) = .ok r)
      (hinbounds : m.inbounds = (if r.swapped then [j, i] else [i, j]).map .message)
      (htype : m.type = some r.outbound) (hchosen : m.rule = some r.rule)
  /-- A joint marginal at a node. -/
  | joint {n : NodeId} {messages : List InterfaceId} {node : Node} {types : List TypeTerm}
      {r : Resolution} (hplan : m.plan = .joint n messages) (hnode : s.graph.node n = .ok node)
      (hsources : s.posterior.sources s.graph s.internal n none .jointMarginal = .ok m.inbounds)
      (htypes : m.inbounds.mapM (s.posterior.sourceType s.graph (messageTypes l) n) = .ok types)
      (hrule : s.catalogue.resolve
        { key := ⟨node.kind, .jointMarginal, none⟩, inbounds := types, node := some node } =
          .ok r)
      (htype : m.type = some r.outbound) (hchosen : m.rule = some r.rule)

/-- Settling a marginal answers its type. -/
theorem MarginalEntry.settled_of_settle {s : Surroundings} {b : Block} {m m' : MarginalEntry}
    {t : TypeTerm} (h : MarginalEntry.settle s b m = .ok t m') :
    MarginalEntry.Settled s b.schedule m' ∧ m'.type = some t := by
  obtain ⟨m₁, m₂, h₁, h⟩ := Attempt.bind_eq_ok.mp h
  obtain ⟨rfl, rfl⟩ := Attempt.get_eq_ok.mp h₁
  cases hplan : m.plan with
  | copy i =>
    rw [hplan] at h
    obtain ⟨e, m₃, h₂, h⟩ := Attempt.bind_eq_ok.mp h
    obtain ⟨he, rfl⟩ := Attempt.liftM_eq_ok.mp h₂
    obtain ⟨_, m₄, h₃, h⟩ := Attempt.bind_eq_ok.mp h
    cases h₃
    obtain ⟨_, m₅, h₄, h⟩ := Attempt.bind_eq_ok.mp h
    obtain ⟨-, rfl⟩ := Attempt.liftM_eq_ok.mp h₄
    cases h
    exact ⟨.copy rfl (Block.scheduled_eq_ok.mp he) rfl rfl, rfl⟩
  | product i j =>
    rw [hplan] at h
    obtain ⟨e, m₃, h₂, h⟩ := Attempt.bind_eq_ok.mp h
    obtain ⟨he, rfl⟩ := Attempt.liftM_eq_ok.mp h₂
    obtain ⟨f, m₄, h₃, h⟩ := Attempt.bind_eq_ok.mp h
    obtain ⟨hf, rfl⟩ := Attempt.liftM_eq_ok.mp h₃
    obtain ⟨r, m₅, h₄, h⟩ := Attempt.bind_eq_ok.mp h
    obtain ⟨hr, rfl⟩ := Attempt.liftM_eq_ok.mp h₄
    obtain ⟨_, m₆, h₅, h⟩ := Attempt.bind_eq_ok.mp h
    cases h₅
    cases h
    exact ⟨.product rfl (Block.scheduled_eq_ok.mp he) (Block.scheduled_eq_ok.mp hf) hr rfl rfl rfl,
      rfl⟩
  | joint n messages =>
    rw [hplan] at h
    obtain ⟨node, m₃, h₂, h⟩ := Attempt.bind_eq_ok.mp h
    obtain ⟨hnode, rfl⟩ := Attempt.liftM_eq_ok.mp h₂
    obtain ⟨sources, m₄, h₃, h⟩ := Attempt.bind_eq_ok.mp h
    obtain ⟨hsources, rfl⟩ := Attempt.liftM_eq_ok.mp h₃
    obtain ⟨types, m₅, h₄, h⟩ := Attempt.bind_eq_ok.mp h
    obtain ⟨htypes, rfl⟩ := Attempt.ofExcept_eq_ok.mp h₄
    obtain ⟨r, m₆, h₅, h⟩ := Attempt.bind_eq_ok.mp h
    obtain ⟨hr, rfl⟩ := Attempt.liftM_eq_ok.mp h₅
    obtain ⟨_, m₇, h₆, h⟩ := Attempt.bind_eq_ok.mp h
    cases h₆
    cases h
    exact ⟨.joint rfl hnode hsources htypes hr rfl rfl, rfl⟩

/-- Every marginal is settled, in surroundings where types of the marginals before it may have been
added. -/
theorem settled_of_settleEntries {g : Graph} {c : Catalogue} {b : Block} {p : Posterior}
    {l : List MarginalEntry} {r : List MarginalEntry × Posterior} {J : Posterior → Prop}
    (hJ : ∀ p t τ, J p → t ∈ l.map (·.target) →
      J { p with marginalTypes := p.marginalTypes.insert t τ })
    (hp : J p) (h : settleEntries g c b p l = .ok () r) :
    ∀ m ∈ r.1, ∃ q, J q ∧ m.Settled (b.surroundings g c q) b.schedule := by
  induction l generalizing p r with
  | nil =>
    cases h
    exact fun _ h => absurd h List.not_mem_nil
  | cons m l ih =>
    unfold settleEntries at h
    cases hs : MarginalEntry.settle (b.surroundings g c p) b m with
    | error f m' => rw [hs] at h; contradiction
    | ok t m' =>
      rw [hs] at h
      dsimp only at h
      split at h
      · rename_i rest q hrest
        cases h
        intro x hx
        rcases List.mem_cons.mp hx with rfl | hx
        · obtain ⟨hm, -⟩ := MarginalEntry.settled_of_settle hs
          refine ⟨p, hp, ?_⟩
          cases hm with
          | copy h₁ h₂ h₃ h₄ => exact .copy h₁ h₂ h₃ h₄
          | product h₁ h₂ h₃ h₄ h₅ h₆ h₇ => exact .product h₁ h₂ h₃ h₄ h₅ h₆ h₇
          | joint h₁ h₂ h₃ h₄ h₅ h₆ h₇ => exact .joint h₁ h₂ h₃ h₄ h₅ h₆ h₇
        · have hbare := (MarginalEntry.keeps_settle (b.surroundings g c p) b m.bare).of_ok rfl hs
          have htarget : m'.bare.target = m.bare.target := by rw [hbare]
          refine ih (fun p t τ hp ht => hJ p t τ hp (List.mem_cons_of_mem _ ht))
            (hJ p _ t hp ?_) hrest x hx
          exact List.mem_cons.mpr (Or.inl htarget)
      · contradiction

/-! ## Assembled blocks -/

/-- A block that is assembled: its schedule is resolved, its loop breakers have seeds, and its
marginals are settled. -/
structure Block.Assembled (g : Graph) (c : Catalogue) (b : Block) : Prop where
  entries : ∃ p, ResolvedInOrder (b.surroundings g c p) b.schedule
  seeded : ∀ i ∈ b.loopBreakers, b.Seeded i
  needsSeeds : b.needsSeeds = b.schedule.any (·.seed.isSome)
  marginals : ∀ m ∈ b.marginalTable, ∃ p, m.Settled (b.surroundings g c p) b.schedule

/-- Every message of an assembled block has a type. -/
theorem Block.Assembled.exists_outbound {g : Graph} {c : Catalogue} {b : Block} {e : ScheduleEntry}
    (h : b.Assembled g c) (he : e ∈ b.schedule) : ∃ t, e.outbound = some t := by
  obtain ⟨p, hentries⟩ := h.entries
  obtain ⟨pre, post, hsplit⟩ := List.append_of_mem he
  cases hentries pre e post hsplit with
  | observed _ _ _ houtbound => exact ⟨_, houtbound⟩
  | rule _ _ _ _ _ houtbound _ _ => exact ⟨_, houtbound⟩

/-- The three parts of an assembly, one after the other. -/
theorem Block.assembled_of_parts {g : Graph} {c : Catalogue} {b b' : Block} {p q : Posterior}
    {l : List ScheduleEntry} {r : List MarginalEntry × Posterior}
    (hinfer : inferEntries (b.surroundings g c p) ∅ 0 b.schedule = .ok () l)
    (hseeds : Block.designateSeeds g { b with schedule := l }.index = .ok () b')
    (hsettle : settleEntries g c b' q b'.marginalTable = .ok () r) :
    Block.Assembled g c { b' with marginalTable := r.1 } := by
  have hskeleton := (Block.keeps_designateSeeds g _).of_ok rfl hseeds
  have hinternal : b'.internal = b.internal := by
    rw [Block.internal_of_skeleton hskeleton]
    rfl
  have hbreakers : b'.loopBreakers = b.loopBreakers := by
    rw [Block.loopBreakers_of_skeleton hskeleton]
    rfl
  obtain ⟨hu, hseeded, hneeds⟩ := Block.seeds_of_designateSeeds hseeds
  have hl : ResolvedInOrder (b.surroundings g c p) l := by
    intro pre e post hsplit
    rw [messageTypes_eq]
    exact resolved_of_inferEntries hinfer pre e post hsplit
  have hsurroundings : Block.surroundings { b' with marginalTable := r.1 } g c p =
      b.surroundings g c p := by
    unfold Block.surroundings
    rw [← hinternal]
  refine ⟨⟨p, hsurroundings ▸ hl.of_unseeded hu⟩, fun i hi => hseeded i (hbreakers ▸ hi), hneeds,
    fun m hm => ?_⟩
  obtain ⟨q, -, hm⟩ := settled_of_settleEntries (J := fun _ => True)
    (fun _ _ _ _ _ => trivial) trivial hsettle m hm
  exact ⟨q, hm⟩

namespace Posterior

variable {g : Graph} {c : Catalogue} {id : String} {p q : Posterior}

theorem get?_of_putBlock {b b' : Block} (hid : b.id = id)
    (h : (p.putBlock b).blocks.get? id = some b') : b' = b := by
  rw [get?_putBlock, if_pos hid] at h
  exact (Option.some.inj h).symm

theorem inferSchedule_eq_ok {b b' : Block} :
    Block.inferSchedule g c p b = .ok () b' ↔
      ∃ l, inferEntries (b.surroundings g c p) ∅ 0 b.schedule = .ok () l ∧
        b' = { b with schedule := l } := by
  unfold Block.inferSchedule
  cases inferEntries (b.surroundings g c p) ∅ 0 b.schedule <;> simp [eq_comm]

theorem settleMarginals_eq_ok :
    settleMarginals g c id p = .ok () q ↔
      ∃ b r, p.blocks.get? id = some b ∧ settleEntries g c b p b.marginalTable = .ok () r ∧
        q = r.2.putBlock { b with marginalTable := r.1 } := by
  unfold settleMarginals
  cases p.blocks.get? id with
  | none => simp
  | some b =>
    dsimp only
    cases hs : settleEntries g c b p b.marginalTable with
    | error f r => simp [hs]
    | ok _ r =>
      constructor
      · intro h
        cases h
        exact ⟨b, r, rfl, hs, rfl⟩
      · rintro ⟨b', r', hb, hr, rfl⟩
        cases hb
        rw [hs] at hr
        cases hr
        rfl

/-- An assembly that succeeds has three parts, one after the other, and starts without seeds. -/
theorem exists_parts_of_assemble {I : Posterior → Prop}
    (hput : ∀ p b b', I p → p.blocks.get? id = some b → b'.skeleton = b.skeleton →
      I (p.putBlock b'))
    (hforget : ∀ p, I p → I (p.forgetPhases id)) (hp : Each (fun _ => True) p) (hi : I p)
    (h : assemble g c id p = .ok () q) :
    ∃ (b : Block) (l : List ScheduleEntry) (b' : Block) (p₁ p₂ : Posterior)
        (r : List MarginalEntry × Posterior), I p₁ ∧
      inferEntries (b.restart.surroundings g c p₁) ∅ 0 b.restart.schedule = .ok () l ∧
      Block.designateSeeds g { b.restart with schedule := l }.index = .ok () b' ∧
      I p₂ ∧ p₂.blocks.get? id = some b' ∧
      settleEntries g c b' p₂ b'.marginalTable = .ok () r ∧
      q.blocks.get? id = some { b' with marginalTable := r.1 } := by
  obtain ⟨_, p₁, hrestart, h⟩ := Attempt.bind_eq_ok.mp h
  obtain ⟨b, hb, hb₁, rfl⟩ := replaceBlock_eq_ok.mp hrestart
  cases hb₁
  obtain ⟨_, p₂, hforgotten, h⟩ := Attempt.bind_eq_ok.mp h
  obtain rfl := Attempt.modify_eq_ok.mp hforgotten
  have hi := hforget _ (hput p b b.restart hi hb b.skeleton_restart)
  obtain ⟨_, p₃, hinfer, h⟩ := Attempt.bind_eq_ok.mp h
  obtain ⟨b₁, b₂, hb₁, hinfer, rfl⟩ := onBlock_eq_ok.mp hinfer
  have hid : b.id = id := (hp id b hb).1
  obtain rfl := get?_of_putBlock (b := b.restart) hid hb₁
  have hi₂ := hput _ _ _ hi hb₁ ((Block.keeps_inferSchedule g c _ _).of_ok rfl hinfer)
  obtain ⟨l, hentries, rfl⟩ := inferSchedule_eq_ok.mp hinfer
  obtain ⟨_, p₄, hindex, h⟩ := Attempt.bind_eq_ok.mp h
  obtain ⟨b₂, hb₂, hb₃, rfl⟩ := replaceBlock_eq_ok.mp hindex
  obtain rfl := get?_of_putBlock (b := { b.restart with schedule := l }) hid hb₂
  cases hb₃
  have hi₃ := hput _ _ ({ b.restart with schedule := l } : Block).index hi₂ hb₂ rfl
  obtain ⟨_, p₅, hseeds, h⟩ := Attempt.bind_eq_ok.mp h
  obtain ⟨b₃, b₄, hb₃, hseeds, rfl⟩ := onBlock_eq_ok.mp hseeds
  obtain rfl := get?_of_putBlock (b := ({ b.restart with schedule := l } : Block).index) hid hb₃
  have hskeleton := (Block.keeps_designateSeeds g _).of_ok rfl hseeds
  have hi₄ := hput _ _ _ hi₃ hb₃ hskeleton
  obtain ⟨b₅, r, hb₅, hsettle, rfl⟩ := settleMarginals_eq_ok.mp h
  have hid₄ : b₄.id = id := (Block.id_of_outline (Block.outline_of_skeleton hskeleton)).trans hid
  obtain rfl := get?_of_putBlock hid₄ hb₅
  refine ⟨b, l, b₅, _, _, r, hi, hentries, hseeds, hi₄, hb₅, hsettle, ?_⟩
  rw [get?_putBlock, if_pos hid₄]

/-- **A block whose assembly succeeds is assembled.** -/
theorem assembled_of_assemble (hp : Each (fun _ => True) p) (h : assemble g c id p = .ok () q) :
    ∃ b, q.blocks.get? id = some b ∧ b.Assembled g c := by
  obtain ⟨b, l, b', p₁, p₂, r, -, hinfer, hseeds, -, -, hsettle, hq⟩ :=
    exists_parts_of_assemble (I := fun _ => True) (fun _ _ _ _ _ _ => trivial)
      (fun _ _ => trivial) hp trivial h
  exact ⟨_, hq, Block.assembled_of_parts hinfer hseeds hsettle⟩

end Posterior

end MessagePassing
