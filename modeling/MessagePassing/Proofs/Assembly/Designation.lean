import Mathlib.Data.List.ReduceOption
import MessagePassing.Proofs.Assembly.Ownership

/-!
# Which messages are seeded

Seeds are designated one after the other, and a message keeps the first. An entry may ask for a seed
of its own message, or for one of the message that arrives where it is computed; loop breakers ask
last. No message is asked for by two entries: what answers it at the other end of its edge is not a
clamp, and an entry asks for its own message only if a clamp is there. So it does not matter in
which order the entries are.

* `Answered` is said of a message that the update at the other end of the edge reads.
* `TowardClamp` is said of an entry the message of which goes to an observed value.
* `Designated` is the seed that a message has to have.

Results:
* `foldl_lay`: laying seeds gives each message the first that is meant for it.
* `requested_iff`: what the entries of a block ask for.
* `Requested.unique`: they ask for one seed of a message at most.
* `seeding_of_designateSeeds`: what designating leaves of a block without seeds.
* `Seeding.rearranged`: it is the same in whatever order the entries are.
* **`Posterior.Built.seeding_of_assemble`**: the seeds of an assembled block are those that are
  designated, and its flags tell about them.
-/

namespace MessagePassing

open Attempt (Keeps)

/-! ## The first seed for a message -/

/-- The first seed in a list that is meant for an interface. -/
def firstSeed (l : List Designation) (i : InterfaceId) : Option Seed :=
  (l.find? (·.interface = i)).map (·.seed)

section First

variable {l l' : List Designation} {i : InterfaceId} {s : Seed}

theorem firstSeed_append : firstSeed (l ++ l') i = (firstSeed l i).or (firstSeed l' i) := by
  unfold firstSeed
  rw [List.find?_append]
  cases l.find? (·.interface = i) <;> rfl

theorem exists_of_firstSeed (h : firstSeed l i = some s) :
    ∃ d ∈ l, d.interface = i ∧ d.seed = s := by
  obtain ⟨d, hd, rfl⟩ := Option.map_eq_some_iff.mp h
  exact ⟨d, List.mem_of_find?_eq_some hd, by simpa using List.find?_some hd, rfl⟩

/-- Where all that are meant for an interface agree, the first is any of them. -/
theorem firstSeed_eq_some_iff
    (h : ∀ d ∈ l, ∀ d' ∈ l, d.interface = i → d'.interface = i → d.seed = d'.seed) :
    firstSeed l i = some s ↔ ∃ d ∈ l, d.interface = i ∧ d.seed = s := by
  refine ⟨exists_of_firstSeed, ?_⟩
  rintro ⟨d, hd, hi, rfl⟩
  have hsome : (l.find? (·.interface = i)).isSome :=
    List.find?_isSome.mpr ⟨d, hd, decide_eq_true hi⟩
  obtain ⟨d', hd'⟩ := Option.isSome_iff_exists.mp hsome
  have hi' : d'.interface = i := by simpa using List.find?_some hd'
  rw [firstSeed, hd', Option.map_some, h d' (List.mem_of_find?_eq_some hd') d hd hi' hi]

end First

namespace Block

variable {b b' : Block} {g : Graph} {e f : ScheduleEntry} {n : Node} {i : InterfaceId} {s : Seed}
  {d : Designation} {t : TypeTerm}

/-- The block with these seeds, where there are none yet. -/
def withSeeds (b : Block) (l : List Designation) : Block :=
  { b with
    schedule := b.schedule.map fun e => { e with seed := e.seed.or (firstSeed l e.interface) }
    reestimates := b.reestimates || l.any (·.seed.reason = .clamp) }

/-- **Laying seeds in order gives each message the first that is meant for it.** -/
theorem foldl_lay (b : Block) (l : List Designation) : l.foldl lay b = b.withSeeds l := by
  induction l generalizing b with
  | nil =>
    unfold withSeeds
    have hsame : ∀ e ∈ b.schedule, { e with seed := e.seed.or (firstSeed [] e.interface) } = e :=
      fun e _ => by simp [firstSeed]
    rw [List.map_congr_left hsame, List.map_id', List.any_nil, Bool.or_false]
    rfl
  | cons d l ih =>
    rw [List.foldl_cons, ih]
    unfold withSeeds lay
    rw [List.map_map, List.any_cons, ← Bool.or_assoc]
    congr 1
    refine List.map_congr_left fun e _ => ?_
    rw [Function.comp_apply]
    by_cases hi : e.interface = d.interface
    · cases hs : e.seed <;> simp [firstSeed, hi, hs]
    · simp [firstSeed, hi, Ne.symm hi]

/-- Seeds are laid if they can all be designated. -/
theorem layAll_eq_ok {l : List (Except Failure (Option Designation))} :
    layAll l b = .ok () b' ↔
      ∃ ds : List (Option Designation), l = ds.map .ok ∧ b' = b.withSeeds ds.reduceOption := by
  rw [exists_congr fun ds => by rw [← foldl_lay]]
  induction l generalizing b with
  | nil =>
    constructor
    · intro h
      cases h
      exact ⟨[], rfl, rfl⟩
    · rintro ⟨ds, hds, rfl⟩
      rw [List.map_eq_nil_iff.mp hds.symm]
      rfl
  | cons x l ih =>
    cases x with
    | error f => exact ⟨nofun, fun ⟨ds, hds, _⟩ => by cases ds <;> simp at hds⟩
    | ok o =>
      have hcons : (∃ ds : List (Option Designation), Except.ok o :: l = ds.map .ok ∧
          b' = ds.reduceOption.foldl lay b) ↔ ∃ ds : List (Option Designation),
          l = ds.map .ok ∧ b' = (o :: ds).reduceOption.foldl lay b := by
        constructor
        · rintro ⟨ds, hds, rfl⟩
          cases ds with
          | nil => simp at hds
          | cons o' ds =>
            rw [List.map_cons, List.cons.injEq] at hds
            cases hds.1
            exact ⟨ds, hds.2, rfl⟩
        · rintro ⟨ds, rfl, rfl⟩
          exact ⟨o :: ds, rfl, rfl⟩
      rw [hcons]
      cases o with
      | none => exact ih
      | some d => exact ih (b := b.lay d)

theorem designateSeeds_eq_ok : designateSeeds g b = .ok () b' ↔
    ∃ ds : List (Option Designation), b.designations g = ds.map .ok ∧
      b' = { b.withSeeds ds.reduceOption with
        needsSeeds := (b.withSeeds ds.reduceOption).schedule.any (·.seed.isSome) } := by
  unfold designateSeeds
  constructor
  · intro h
    cases hl : layAll (b.designations g) b with
    | error f c => rw [hl] at h; contradiction
    | ok _ c =>
      rw [hl] at h
      cases h
      obtain ⟨ds, hds, rfl⟩ := layAll_eq_ok.mp hl
      exact ⟨ds, hds, rfl⟩
  · rintro ⟨ds, hds, rfl⟩
    rw [layAll_eq_ok.mpr ⟨ds, hds, rfl⟩]

/-! ## What entries ask for -/

/-- The entries are of different interfaces, and belong to the nodes of these. -/
structure Placed (g : Graph) (b : Block) : Prop where
  nodup : b.order.Nodup
  node : ∀ e ∈ b.schedule, ∃ n, g.nodeOf? e.interface = some n ∧ g.node e.node = .ok n

theorem Placed.of_perm (hl : (b'.schedule.map (·.bare)).Perm (b.schedule.map (·.bare)))
    (h : b.Placed g) : b'.Placed g := by
  have hinterface : ∀ d : Block, d.order = (d.schedule.map (·.bare)).map (·.interface) := by
    intro d
    rw [List.map_map]
    rfl
  refine ⟨?_, fun e he => ?_⟩
  · rw [hinterface, (hl.map _).nodup_iff, ← hinterface]
    exact h.nodup
  · obtain ⟨k, hk, hbare⟩ := List.mem_map.mp (hl.subset (List.mem_map_of_mem he))
    have hi : k.interface = e.interface := congrArg (·.interface) hbare
    have hn : k.node = e.node := congrArg (·.node) hbare
    exact hi ▸ hn ▸ h.node k hk

/-- The entries of a schedule are placed. -/
theorem Laid.placed (h : b.Laid g) (hg : g.Coherent) : b.Placed g := by
  rcases h.schedule with hnil | ⟨sites, hp⟩
  · refine ⟨by rw [order, hnil]; exact List.nodup_nil, fun e he => ?_⟩
    rw [hnil] at he
    exact absurd he List.not_mem_nil
  · refine ⟨hp.nodup_order, fun e he => ?_⟩
    obtain ⟨-, n, hn, hnode, -⟩ := hp.exists_node hg he
    exact ⟨n, hn, hnode⟩

theorem Placed.eq_of_interface (h : b.Placed g) (he : e ∈ b.schedule) (hf : f ∈ b.schedule)
    (hi : e.interface = f.interface) : e = f :=
  List.inj_on_of_nodup_map h.nodup he hf hi

theorem Placed.find? (h : b.Placed g) (he : e ∈ b.schedule) : b.find? e.interface = some e := by
  have hsome : (b.find? e.interface).isSome :=
    List.find?_isSome.mpr ⟨e, he, decide_eq_true rfl⟩
  obtain ⟨f, hf⟩ := Option.isSome_iff_exists.mp hsome
  obtain ⟨hmem, hi⟩ := mem_of_find? hf
  rw [hf, h.eq_of_interface hmem he hi]

/-- The function of the node is linearised around the message that arrives at the entry. -/
def Linearises (e : ScheduleEntry) (n : Node) : Prop :=
  e.position = 1 ∧ n.inverseKnown = false

/-- The entry `f` computes the message that runs along the edge of `e` the other way, at the node
`n`, which is no clamp. -/
structure Faces (g : Graph) (b : Block) (e f : ScheduleEntry) (n : Node) : Prop where
  mem : f ∈ b.schedule
  partner : g.partner? e.interface = some f.interface
  node : g.node f.node = .ok n
  soft : n.isClamp = false

/-- The update at the other end of the edge reads the message of the entry, which has the type `t`:
the dimensions of the seed for it, and the reason. -/
inductive Answered (g : Graph) (b : Block) (e : ScheduleEntry) (t : TypeTerm) :
    List Int → SeedReason → Prop
  /-- The update takes the message out of the marginal that it approximates. -/
  | expectation {f : ScheduleEntry} {n : Node} (hf : Faces g b e f n)
      (hr : f.ruleType = .expectationPropagation) : Answered g b e t t.dims .expectation
  /-- The update has no inverse to go back with. -/
  | nonlinear {f : ScheduleEntry} {n : Node} (hf : Faces g b e f n)
      (hr : f.ruleType ≠ .expectationPropagation) (hl : Linearises f n) :
      Answered g b e t n.dims .nonlinear

/-- The message of the entry goes to an observed value, and the update asks for no other seed. -/
structure TowardClamp (g : Graph) (e : ScheduleEntry) (value : Tensor) : Prop where
  node : ∃ n, g.node e.node = .ok n ∧ n.isClamp = false ∧ ¬ Linearises e n
  rule : e.ruleType ≠ .expectationPropagation
  partner : ∃ j m, g.partner? e.interface = some j ∧ g.nodeOf? j = some m ∧
    m.observed = some value

/-- The seed that the entries ask for, for the message of one of them, which has the type `t`. -/
inductive Requested (g : Graph) (b : Block) (e : ScheduleEntry) (t : TypeTerm) : Seed → Prop
  | answered {dims : List Int} {reason : SeedReason} (h : Answered g b e t dims reason) :
      Requested g b e t (.ofType t dims reason)
  | clamp {value : Tensor} (h : TowardClamp g e value) :
      Requested g b e t (.ofType t (value.shape.map Int.ofNat) .clamp)

/-- The seed that the message of an entry has to have, if it has the type `t`. -/
inductive Designated (g : Graph) (b : Block) (e : ScheduleEntry) (t : TypeTerm) : Seed → Prop
  | requested {s : Seed} (h : Requested g b e t s) : Designated g b e t s
  | loop (hi : e.interface ∈ b.loopBreakers) (h : ∀ s, ¬ Requested g b e t s) :
      Designated g b e t (.ofType t t.dims .loop)

theorem designation_of_mem (h : b.Placed g) (he : e ∈ b.schedule) (dims : Option (List Int))
    (reason : SeedReason) : b.designation g e.interface dims reason =
      .ok ⟨e.interface, .ofType (outboundType e) (dims.getD (outboundType e).dims) reason⟩ := by
  unfold designation
  rw [scheduled_eq_ok.mpr (h.find? he)]
  rfl

/-- What the entry `f` asks for: a seed of the message that arrives, or of its own. -/
inductive Asks (g : Graph) (b : Block) (f : ScheduleEntry) : Designation → Prop
  | expectation {e : ScheduleEntry} {n : Node} (he : e ∈ b.schedule) (hf : Faces g b e f n)
      (hr : f.ruleType = .expectationPropagation) :
      Asks g b f ⟨e.interface, .ofType (outboundType e) (outboundType e).dims .expectation⟩
  | nonlinear {e : ScheduleEntry} {n : Node} (he : e ∈ b.schedule) (hf : Faces g b e f n)
      (hr : f.ruleType ≠ .expectationPropagation) (hl : Linearises f n) :
      Asks g b f ⟨e.interface, .ofType (outboundType e) n.dims .nonlinear⟩
  | clamp {value : Tensor} (h : TowardClamp g f value) :
      Asks g b f ⟨f.interface, .ofType (outboundType f) (value.shape.map Int.ofNat) .clamp⟩

/-- What is designated for the other end of the edge of an entry. -/
theorem designation_partner_eq_ok (hg : g.Coherent) {dims : Option (List Int)}
    {reason : SeedReason} {o : Option Designation} (hf : f ∈ b.schedule)
    (hn : g.node f.node = .ok n) (hc : n.isClamp = false)
    (h : (do some <$> b.designation g (← g.partner f.interface) dims reason) = .ok o) :
    ∃ e ∈ b.schedule, Faces g b e f n ∧ o = some
      ⟨e.interface, .ofType (outboundType e) (dims.getD (outboundType e).dims) reason⟩ := by
  obtain ⟨j, hj, h⟩ := bind_eq_ok.mp h
  obtain ⟨d, hd, rfl⟩ := map_eq_ok.mp h
  obtain ⟨e, he, rfl⟩ := map_eq_ok.mp hd
  obtain ⟨hmem, rfl⟩ := mem_of_find? (scheduled_eq_ok.mp he)
  exact ⟨e, hmem, ⟨hf, hg.partner_symm (partner_eq_ok.mp hj), hn, hc⟩, rfl⟩

theorem designation_of_faces (hg : g.Coherent) (h : b.Placed g) (he : e ∈ b.schedule)
    (hf : Faces g b e f n) (dims : Option (List Int)) (reason : SeedReason) :
    (do some <$> b.designation g (← g.partner f.interface) dims reason) = .ok (some
      ⟨e.interface, .ofType (outboundType e) (dims.getD (outboundType e).dims) reason⟩) := by
  rw [partner_eq_ok.mpr (hg.partner_symm hf.partner), ok_bind, designation,
    scheduled_eq_ok.mpr (h.find? he)]
  rfl

/-- An entry asks for what is designated for it. -/
theorem asks_of_entryDesignation (hg : g.Coherent) (h : b.Placed g) (hf : f ∈ b.schedule)
    (hd : b.entryDesignation g f = .ok (some d)) : Asks g b f d := by
  obtain ⟨n, -, hn⟩ := h.node f hf
  unfold entryDesignation at hd
  rw [hn, ok_bind] at hd
  by_cases hc : n.isClamp
  · rw [if_pos hc] at hd
    cases pure_eq_ok.mp hd
  rw [if_neg hc] at hd
  rw [Bool.not_eq_true] at hc
  by_cases hr : f.ruleType = .expectationPropagation
  · rw [if_pos hr] at hd
    obtain ⟨e, he, hfaces, hd⟩ := designation_partner_eq_ok hg hf hn hc hd
    cases hd
    exact .expectation he hfaces hr
  rw [if_neg hr] at hd
  by_cases hl : Linearises f n
  · rw [if_pos (by simpa [Linearises, and_comm] using hl)] at hd
    obtain ⟨e, he, hfaces, hd⟩ := designation_partner_eq_ok hg hf hn hc hd
    cases hd
    exact .nonlinear he hfaces hr hl
  rw [if_neg (by simpa [Linearises, and_comm] using hl)] at hd
  cases hj : g.partner? f.interface with
  | none =>
    rw [hj] at hd
    cases pure_eq_ok.mp hd
  | some j =>
    rw [hj] at hd
    obtain ⟨m, hm, hd⟩ := bind_eq_ok.mp hd
    obtain ⟨value, hvalue, rfl⟩ := Option.map_eq_some_iff.mp (pure_eq_ok.mp hd)
    exact .clamp ⟨⟨n, hn, hc, hl⟩, hr, j, m, hj, Graph.nodeOf_eq_ok.mp hm, hvalue⟩

/-- What an entry asks for is designated for it. -/
theorem entryDesignation_of_asks (hg : g.Coherent) (h : b.Placed g) (hf : f ∈ b.schedule)
    (hask : Asks g b f d) : b.entryDesignation g f = .ok (some d) := by
  obtain ⟨n, -, hn⟩ := h.node f hf
  unfold entryDesignation
  rw [hn, ok_bind]
  cases hask with
  | expectation he hfaces hr =>
    cases hn.symm.trans hfaces.node
    rw [if_neg (by simp [hfaces.soft]), if_pos hr]
    exact designation_of_faces hg h he hfaces none .expectation
  | nonlinear he hfaces hr hl =>
    cases hn.symm.trans hfaces.node
    rw [if_neg (by simp [hfaces.soft]), if_neg hr,
      if_pos (by simpa [Linearises, and_comm] using hl)]
    exact designation_of_faces hg h he hfaces (some n.dims) .nonlinear
  | clamp hclamp =>
    obtain ⟨⟨n', hn', hc, hl⟩, hr, j, m, hj, hm, hv⟩ := hclamp
    cases hn.symm.trans hn'
    rw [if_neg (by simp [hc]), if_neg hr, if_neg (by simpa [Linearises, and_comm] using hl), hj]
    exact bind_eq_ok.mpr ⟨m, Graph.nodeOf_eq_ok.mpr hm, by rw [hv]; rfl⟩

theorem entryDesignation_eq_some (hg : g.Coherent) (h : b.Placed g) (hf : f ∈ b.schedule) :
    b.entryDesignation g f = .ok (some d) ↔ Asks g b f d :=
  ⟨asks_of_entryDesignation hg h hf, entryDesignation_of_asks hg h hf⟩

/-- What is asked for, told by the message that it is meant for. -/
theorem requested_iff (h : b.Placed g) (he : e ∈ b.schedule) :
    Requested g b e (outboundType e) s ↔
      ∃ f ∈ b.schedule, ∃ d, Asks g b f d ∧ d.interface = e.interface ∧ d.seed = s := by
  constructor
  · intro hs
    cases hs with
    | answered ha =>
      cases ha with
      | expectation hf hr => exact ⟨_, hf.mem, _, .expectation he hf hr, rfl, rfl⟩
      | nonlinear hf hr hl => exact ⟨_, hf.mem, _, .nonlinear he hf hr hl, rfl, rfl⟩
    | clamp hc => exact ⟨e, he, _, .clamp hc, rfl, rfl⟩
  · rintro ⟨f, hf, d, hd, hi, rfl⟩
    cases hd with
    | expectation he' hfaces hr =>
      cases h.eq_of_interface he' he hi
      exact .answered (.expectation hfaces hr)
    | nonlinear he' hfaces hr hl =>
      cases h.eq_of_interface he' he hi
      exact .answered (.nonlinear hfaces hr hl)
    | clamp hc =>
      cases h.eq_of_interface hf he hi
      exact .clamp hc

/-! ## No message is asked for by two entries -/

theorem Placed.eq_of_faces (h : b.Placed g) {f' : ScheduleEntry} {n' : Node}
    (hf : Faces g b e f n) (hf' : Faces g b e f' n') : f = f' ∧ n = n' := by
  obtain rfl := h.eq_of_interface hf.mem hf'.mem
    (Option.some.inj (hf.partner.symm.trans hf'.partner))
  exact ⟨rfl, Except.ok.inj (hf.node.symm.trans hf'.node)⟩

/-- **What answers a message is not the clamp that it goes to.** -/
theorem Answered.not_towardClamp (h : b.Placed g) {dims : List Int} {reason : SeedReason}
    (ha : Answered g b e t dims reason) (value : Tensor) : ¬ TowardClamp g e value := by
  rintro ⟨-, -, j, m, hj, hm, hv⟩
  have hfaces : ∃ f n, Faces g b e f n := by
    cases ha with
    | expectation hf _ => exact ⟨_, _, hf⟩
    | nonlinear hf _ _ => exact ⟨_, _, hf⟩
  obtain ⟨f, n, hf⟩ := hfaces
  cases hj.symm.trans hf.partner
  obtain ⟨n', hn', hfn⟩ := h.node f hf.mem
  cases hn'.symm.trans hm
  cases hfn.symm.trans hf.node
  have hsoft := hf.soft
  rw [Node.isClamp, hv] at hsoft
  contradiction

/-- **The entries ask for one seed of a message at most.** -/
theorem Requested.unique (h : b.Placed g) {s' : Seed} (hs : Requested g b e t s)
    (hs' : Requested g b e t s') : s = s' := by
  cases hs with
  | answered ha =>
    cases hs' with
    | answered ha' =>
      cases ha with
      | expectation hf hr =>
        cases ha' with
        | expectation _ _ => rfl
        | nonlinear hf' hr' _ => exact absurd ((h.eq_of_faces hf hf').1 ▸ hr) hr'
      | nonlinear hf hr _ =>
        cases ha' with
        | expectation hf' hr' => exact absurd hr' ((h.eq_of_faces hf hf').1 ▸ hr)
        | nonlinear hf' _ _ => rw [(h.eq_of_faces hf hf').2]
    | clamp hc' => exact absurd hc' (ha.not_towardClamp h _)
  | clamp hc =>
    cases hs' with
    | answered ha' => exact absurd hc (ha'.not_towardClamp h _)
    | clamp hc' =>
      obtain ⟨j, m, hj, hm, hv⟩ := hc.partner
      obtain ⟨j', m', hj', hm', hv'⟩ := hc'.partner
      cases hj.symm.trans hj'
      cases hm.symm.trans hm'
      cases hv.symm.trans hv'
      rfl

theorem Designated.unique (h : b.Placed g) {s' : Seed} (hs : Designated g b e t s)
    (hs' : Designated g b e t s') : s = s' := by
  cases hs with
  | requested hs =>
    cases hs' with
    | requested hs' => exact hs.unique h hs'
    | loop _ hnone => exact absurd hs (hnone _)
  | loop _ hnone =>
    cases hs' with
    | requested hs' => exact absurd hs' (hnone _)
    | loop _ _ => rfl

/-! ## What designating leaves -/

/-- The entries have the seeds that are designated for them, and the block tells whether there are
any, and whether one is for a clamp. -/
structure Seeding (g : Graph) (b : Block) : Prop where
  seeds : ∀ e ∈ b.schedule, ∀ s, e.seed = some s ↔ Designated g b e (outboundType e) s
  needsSeeds : b.needsSeeds = true ↔ ∃ e ∈ b.schedule, e.seed.isSome
  reestimates : b.reestimates = true ↔
    ∃ e ∈ b.schedule, ∃ s, e.seed = some s ∧ s.reason = .clamp

/-- What the entries and the loop breakers ask for, once it can all be designated. -/
theorem exists_requests {ds : List (Option Designation)} (hg : g.Coherent) (h : b.Placed g)
    (hds : b.designations g = ds.map .ok) :
    ∃ l l' : List Designation, ds.reduceOption = l ++ l' ∧
      (∀ d, d ∈ l ↔ ∃ f ∈ b.schedule, Asks g b f d) ∧
      ∀ d, d ∈ l' ↔ ∃ i ∈ b.loopBreakers, b.designation g i none .loop = .ok d := by
  unfold designations at hds
  obtain ⟨ds₁, ds₂, rfl, h₁, h₂⟩ := List.map_eq_append_iff.mp hds.symm
  have hmem : ∀ (l : List (Option Designation)) d,
      d ∈ l.reduceOption ↔ Except.ok (some d) ∈ l.map (Except.ok (ε := Failure)) := fun l d => by
    simp [List.reduceOption_mem_iff]
  refine ⟨ds₁.reduceOption, ds₂.reduceOption, List.reduceOption_append .., fun d => ?_, fun d => ?_⟩
  · rw [hmem, h₁, List.mem_map]
    exact exists_congr fun f => and_congr_right fun hf => entryDesignation_eq_some hg h hf
  · rw [hmem, h₂, List.mem_map]
    refine exists_congr fun i => and_congr_right fun _ => ?_
    rw [map_eq_ok]
    simp

/-- The first of what the entries ask for is what is asked for. -/
theorem firstSeed_eq_some_iff_requested {l : List Designation} (h : b.Placed g)
    (hl : ∀ d, d ∈ l ↔ ∃ f ∈ b.schedule, Asks g b f d) (he : e ∈ b.schedule) :
    firstSeed l e.interface = some s ↔ Requested g b e (outboundType e) s := by
  have hasked : ∀ s, (∃ d ∈ l, d.interface = e.interface ∧ d.seed = s) ↔
      Requested g b e (outboundType e) s := fun s => by
    rw [requested_iff h he]
    constructor
    · rintro ⟨d, hd, hds⟩
      obtain ⟨f, hf, hask⟩ := (hl d).mp hd
      exact ⟨f, hf, d, hask, hds⟩
    · rintro ⟨f, hf, d, hask, hds⟩
      exact ⟨d, (hl d).mpr ⟨f, hf, hask⟩, hds⟩
  rw [firstSeed_eq_some_iff, hasked]
  intro d hd d' hd' hi hi'
  exact ((hasked _).mp ⟨d, hd, hi, rfl⟩).unique h ((hasked _).mp ⟨d', hd', hi', rfl⟩)

/-- The first of what the loop breakers ask for, which ask for one seed of a message at most. -/
theorem firstSeed_eq_some_iff_loop {l : List Designation} (h : b.Placed g)
    (hl : ∀ d, d ∈ l ↔ ∃ i ∈ b.loopBreakers, b.designation g i none .loop = .ok d)
    (he : e ∈ b.schedule) :
    firstSeed l e.interface = some s ↔
      e.interface ∈ b.loopBreakers ∧ s = .ofType (outboundType e) (outboundType e).dims .loop := by
  have hasked : ∀ d ∈ l, d.interface = e.interface → e.interface ∈ b.loopBreakers ∧
      d.seed = .ofType (outboundType e) (outboundType e).dims .loop := by
    intro d hd hi
    obtain ⟨i, hi', hdes⟩ := (hl d).mp hd
    obtain ⟨f, hf, rfl⟩ := map_eq_ok.mp hdes
    obtain ⟨hmem, rfl⟩ := mem_of_find? (scheduled_eq_ok.mp hf)
    cases h.eq_of_interface hmem he hi
    exact ⟨hi', rfl⟩
  rw [firstSeed_eq_some_iff fun d hd d' hd' hi hi' =>
    (hasked d hd hi).2.trans (hasked d' hd' hi').2.symm]
  constructor
  · rintro ⟨d, hd, hi, rfl⟩
    exact hasked d hd hi
  · rintro ⟨hi, rfl⟩
    exact ⟨_, (hl _).mpr ⟨_, hi, designation_of_mem h he none .loop⟩, rfl, rfl⟩

/-- **What is designated for the message of an entry** is what an entry asks for, or else what a
loop breaker asks for. -/
theorem firstSeed_eq_some_iff_designated {l l' : List Designation} (h : b.Placed g)
    (hl : ∀ d, d ∈ l ↔ ∃ f ∈ b.schedule, Asks g b f d)
    (hl' : ∀ d, d ∈ l' ↔ ∃ i ∈ b.loopBreakers, b.designation g i none .loop = .ok d)
    (he : e ∈ b.schedule) :
    firstSeed (l ++ l') e.interface = some s ↔ Designated g b e (outboundType e) s := by
  rw [firstSeed_append]
  cases hfirst : firstSeed l e.interface with
  | some r =>
    rw [Option.some_or, Option.some_inj]
    have hr := (firstSeed_eq_some_iff_requested h hl he).mp hfirst
    constructor
    · rintro rfl
      exact .requested hr
    · exact (Designated.requested hr).unique h
  | none =>
    have hnone : ∀ s, ¬ Requested g b e (outboundType e) s := fun s hs => by
      rw [(firstSeed_eq_some_iff_requested h hl he).mpr hs] at hfirst
      contradiction
    rw [Option.none_or, firstSeed_eq_some_iff_loop h hl' he]
    constructor
    · rintro ⟨hi, rfl⟩
      exact .loop hi hnone
    · intro hs
      cases hs with
      | requested hs => exact absurd hs (hnone s)
      | loop hi _ => exact ⟨hi, rfl⟩

/-- **What designating leaves of a block without seeds.** -/
theorem seeding_of_designateSeeds_clean (hg : g.Coherent) (h : b.Placed g)
    (hclean : ∀ e ∈ b.schedule, e.seed = none) (hre : b.reestimates = false)
    (hd : designateSeeds g b = .ok () b') :
    (∃ F : InterfaceId → Option Seed,
      b'.schedule = b.schedule.map (fun e => { e with seed := F e.interface }) ∧
      ∀ e ∈ b.schedule, ∀ s, F e.interface = some s ↔ Designated g b e (outboundType e) s) ∧
    b'.needsSeeds = b'.schedule.any (·.seed.isSome) ∧
    (b'.reestimates = true ↔ ∃ e ∈ b.schedule, ∃ value, TowardClamp g e value) := by
  obtain ⟨ds, hds, rfl⟩ := designateSeeds_eq_ok.mp hd
  obtain ⟨l, l', hll, hl, hl'⟩ := exists_requests hg h hds
  rw [hll]
  refine ⟨⟨firstSeed (l ++ l'), ?_, fun e he s =>
    firstSeed_eq_some_iff_designated h hl hl' he⟩, rfl, ?_⟩
  · refine List.map_congr_left fun e he => ?_
    rw [hclean e he, Option.none_or]
  · change (b.reestimates || (l ++ l').any (·.seed.reason = .clamp)) = true ↔ _
    rw [hre, Bool.false_or, List.any_eq_true]
    constructor
    · rintro ⟨d, hd, hr⟩
      have hr : d.seed.reason = .clamp := of_decide_eq_true hr
      rcases List.mem_append.mp hd with hd | hd
      · obtain ⟨f, hf, hask⟩ := (hl d).mp hd
        cases hask with
        | expectation _ _ _ => contradiction
        | nonlinear _ _ _ _ => contradiction
        | clamp hc => exact ⟨f, hf, _, hc⟩
      · obtain ⟨i, -, hdes⟩ := (hl' d).mp hd
        obtain ⟨f, -, rfl⟩ := map_eq_ok.mp hdes
        contradiction
    · rintro ⟨e, he, value, hc⟩
      exact ⟨_, List.mem_append_left _ ((hl _).mpr ⟨e, he, .clamp hc⟩), decide_eq_true rfl⟩

/-! ## What it depends on -/

/-- The same entries are scheduled, resolved or not, in whatever order. -/
structure SameEntries (b b' : Block) : Prop where
  entries : ∀ k, k ∈ b.schedule.map (·.bare) ↔ k ∈ b'.schedule.map (·.bare)
  loopBreakers : b.loopBreakers = b'.loopBreakers

theorem SameEntries.symm (h : SameEntries b b') : SameEntries b' b :=
  ⟨fun k => (h.entries k).symm, h.loopBreakers.symm⟩

variable {e' f' : ScheduleEntry} {o : Option Seed}

theorem Faces.congr (h : SameEntries b b') (he : e'.bare = e.bare) (hf : Faces g b e f n) :
    ∃ f', Faces g b' e' f' n ∧ f'.bare = f.bare := by
  obtain ⟨f', hf', hbare⟩ := List.mem_map.mp ((h.entries _).mp (List.mem_map_of_mem hf.mem))
  have hi : e'.interface = e.interface := congrArg (·.interface) he
  have hj : f'.interface = f.interface := congrArg (·.interface) hbare
  have hn : f'.node = f.node := congrArg (·.node) hbare
  exact ⟨f', ⟨hf', by rw [hi, hj, hf.partner], by rw [hn, hf.node], hf.soft⟩, hbare⟩

theorem TowardClamp.congr (he : e'.bare = e.bare) {value : Tensor} (h : TowardClamp g e value) :
    TowardClamp g e' value := by
  obtain ⟨⟨n, hn, hsoft, hl⟩, hr, hp⟩ := h
  have hi : e'.interface = e.interface := congrArg (·.interface) he
  have hnode : e'.node = e.node := congrArg (·.node) he
  have hposition : e'.position = e.position := congrArg (·.position) he
  have hrule : e'.ruleType = e.ruleType := congrArg (·.ruleType) he
  exact ⟨⟨n, hnode ▸ hn, hsoft, fun hl' => hl ⟨hposition.symm.trans hl'.1, hl'.2⟩⟩,
    hrule ▸ hr, hi ▸ hp⟩

theorem towardClamp_withSeed_iff {value : Tensor} :
    TowardClamp g { e with seed := o } value ↔ TowardClamp g e value := by
  have hbare : ({ e with seed := o } : ScheduleEntry).bare = e.bare := rfl
  exact ⟨TowardClamp.congr hbare.symm, TowardClamp.congr hbare⟩

theorem Requested.congr (h : SameEntries b b') (he : e'.bare = e.bare)
    (hs : Requested g b e t s) : Requested g b' e' t s := by
  cases hs with
  | answered ha =>
    cases ha with
    | expectation hf hr =>
      obtain ⟨f', hf', hbare⟩ := hf.congr h he
      have hr' := congrArg (·.ruleType) hbare
      exact .answered (.expectation hf' (hr'.trans hr))
    | nonlinear hf hr hl =>
      obtain ⟨f', hf', hbare⟩ := hf.congr h he
      have hr' := congrArg (·.ruleType) hbare
      have hp := congrArg (·.position) hbare
      exact .answered (.nonlinear hf' (hr' ▸ hr) ⟨hp.trans hl.1, hl.2⟩)
  | clamp hc => exact .clamp (hc.congr he)

theorem Designated.congr (h : SameEntries b b') (he : e'.bare = e.bare)
    (hs : Designated g b e t s) : Designated g b' e' t s := by
  cases hs with
  | requested hs => exact .requested (hs.congr h he)
  | loop hi hnone =>
    have hi' : e'.interface = e.interface := congrArg (·.interface) he
    exact .loop (h.loopBreakers ▸ hi' ▸ hi) fun s hs => hnone s (hs.congr h.symm he.symm)

theorem sameEntries_of_skeleton (h : b'.skeleton = b.skeleton) : SameEntries b b' :=
  ⟨fun k => by rw [schedule_of_skeleton h], (loopBreakers_of_skeleton h).symm⟩

/-- Only an entry with a clamp at the other end of its edge gets a seed for that reason. -/
theorem Designated.towardClamp (h : Designated g b e t s) (hr : s.reason = .clamp) :
    ∃ value, TowardClamp g e value := by
  cases h with
  | requested hs =>
    cases hs with
    | answered ha => cases ha <;> contradiction
    | clamp hc => exact ⟨_, hc⟩
  | loop _ _ => contradiction

/-- A seed for expectation propagation or for a loop is made from the type of the message alone. -/
theorem Designated.eq_ofType (h : Designated g b e t s)
    (hr : s.reason = .expectation ∨ s.reason = .loop) : s = .ofType t t.dims s.reason := by
  cases h with
  | requested hs =>
    cases hs with
    | answered ha =>
      cases ha with
      | expectation => rfl
      | nonlinear => rcases hr with hr | hr <;> contradiction
    | clamp => rcases hr with hr | hr <;> contradiction
  | loop => rfl

theorem seeding_of_designateSeeds (hg : g.Coherent) (h : b.Placed g)
    (hclean : ∀ e ∈ b.schedule, e.seed = none) (hre : b.reestimates = false)
    (hd : designateSeeds g b = .ok () b') : Seeding g b' := by
  have hsame := sameEntries_of_skeleton ((keeps_designateSeeds g _).of_ok rfl hd)
  obtain ⟨⟨F, hschedule, hF⟩, hneeds, hclamp⟩ := seeding_of_designateSeeds_clean hg h hclean hre hd
  have hseeds : ∀ e ∈ b'.schedule, ∀ s,
      e.seed = some s ↔ Designated g b' e (outboundType e) s := by
    intro e he s
    rw [hschedule] at he
    obtain ⟨k, hk, rfl⟩ := List.mem_map.mp he
    exact (hF k hk s).trans ⟨Designated.congr hsame rfl, Designated.congr hsame.symm rfl⟩
  refine ⟨hseeds, by rw [hneeds, List.any_eq_true], hclamp.trans ⟨?_, ?_⟩⟩
  · rintro ⟨k, hk, value, hc⟩
    have he : { k with seed := F k.interface } ∈ b'.schedule := by
      rw [hschedule]
      exact List.mem_map_of_mem hk
    exact ⟨_, he, _, (hseeds _ he _).mpr (.requested (.clamp
      (towardClamp_withSeed_iff.mpr hc))), rfl⟩
  · rintro ⟨e, he, s, hs, hr⟩
    obtain ⟨value, hc⟩ := ((hseeds e he s).mp hs).towardClamp hr
    rw [hschedule] at he
    obtain ⟨k, hk, rfl⟩ := List.mem_map.mp he
    exact ⟨k, hk, value, towardClamp_withSeed_iff.mp hc⟩

/-! ## When seeds can be designated -/

theorem exists_designation_iff {dims : Option (List Int)} {reason : SeedReason} :
    (∃ d, b.designation g i dims reason = .ok d) ↔ i ∈ b.order := by
  constructor
  · rintro ⟨d, hd⟩
    obtain ⟨e, he, -⟩ := map_eq_ok.mp hd
    obtain ⟨hmem, rfl⟩ := mem_of_find? (scheduled_eq_ok.mp he)
    exact List.mem_map_of_mem hmem
  · intro hi
    obtain ⟨e, he, rfl⟩ := List.mem_map.mp hi
    have hsome : (b.find? e.interface).isSome :=
      List.find?_isSome.mpr ⟨e, he, decide_eq_true rfl⟩
    obtain ⟨f, hf⟩ := Option.isSome_iff_exists.mp hsome
    exact ⟨_, map_eq_ok.mpr ⟨f, scheduled_eq_ok.mpr hf, rfl⟩⟩

/-- What an entry asks for can be designated in any block that schedules the same messages. -/
theorem exists_entryDesignation_congr (horder : ∀ i ∈ b.order, i ∈ b'.order)
    (he : e'.bare = e.bare) (h : ∃ o, b.entryDesignation g e = .ok o) :
    ∃ o, b'.entryDesignation g e' = .ok o := by
  obtain ⟨o, ho⟩ := h
  have hi : e'.interface = e.interface := congrArg (·.interface) he
  have hnode : e'.node = e.node := congrArg (·.node) he
  have hposition : e'.position = e.position := congrArg (·.position) he
  have hrule : e'.ruleType = e.ruleType := congrArg (·.ruleType) he
  have hother : ∀ {dims reason},
      (do some <$> b.designation g (← g.partner e.interface) dims reason) = .ok o →
      ∃ o, (do some <$> b'.designation g (← g.partner e.interface) dims reason) = .ok o := by
    intro dims reason ho
    obtain ⟨j, hj, ho⟩ := bind_eq_ok.mp ho
    obtain ⟨d, hd, -⟩ := map_eq_ok.mp ho
    have hmem := horder j (exists_designation_iff.mp ⟨d, hd⟩)
    obtain ⟨d', hd'⟩ := exists_designation_iff.mpr hmem
    exact ⟨some d', bind_eq_ok.mpr ⟨j, hj, map_eq_ok.mpr ⟨d', hd', rfl⟩⟩⟩
  unfold entryDesignation at ho ⊢
  obtain ⟨n, hn, ho⟩ := bind_eq_ok.mp ho
  rw [hnode, hn, ok_bind, hrule, hposition, hi]
  by_cases hc : n.isClamp
  · exact ⟨none, by rw [if_pos hc]; rfl⟩
  rw [if_neg hc] at ho ⊢
  by_cases hr : e.ruleType = .expectationPropagation
  · rw [if_pos hr] at ho ⊢
    exact hother ho
  rw [if_neg hr] at ho ⊢
  split at ho
  · rename_i hl
    rw [if_pos hl]
    exact hother ho
  · rename_i hl
    rw [if_neg hl]
    cases hp : g.partner? e.interface with
    | none => exact ⟨none, rfl⟩
    | some j =>
      rw [hp] at ho
      obtain ⟨m, hm, -⟩ := bind_eq_ok.mp ho
      exact ⟨_, bind_eq_ok.mpr ⟨m, hm, rfl⟩⟩

theorem exists_map_ok_iff {α : Type} {l : List (Except Failure α)} :
    (∃ l' : List α, l = l'.map .ok) ↔ ∀ x ∈ l, ∃ a, x = .ok a := by
  induction l with
  | nil => exact ⟨fun _ _ h => absurd h List.not_mem_nil, fun _ => ⟨[], rfl⟩⟩
  | cons x l ih =>
    rw [List.forall_mem_cons, ← ih]
    constructor
    · rintro ⟨l', h⟩
      obtain ⟨a, l'', rfl, rfl, rfl⟩ := List.map_eq_cons_iff.mp h.symm
      exact ⟨⟨a, rfl⟩, l'', rfl⟩
    · rintro ⟨⟨a, rfl⟩, l', rfl⟩
      exact ⟨a :: l', rfl⟩

theorem exists_designateSeeds_iff : (∃ b', designateSeeds g b = .ok () b') ↔
    (∀ e ∈ b.schedule, ∃ o, b.entryDesignation g e = .ok o) ∧
      ∀ i ∈ b.loopBreakers, i ∈ b.order := by
  have hds : (∃ b', designateSeeds g b = .ok () b') ↔
      ∃ ds : List (Option Designation), b.designations g = ds.map .ok := by
    simp only [designateSeeds_eq_ok]
    exact ⟨fun ⟨_, ds, h, _⟩ => ⟨ds, h⟩, fun ⟨ds, h⟩ => ⟨_, ds, h, rfl⟩⟩
  rw [hds, exists_map_ok_iff, designations, List.forall_mem_append, List.forall_mem_map,
    List.forall_mem_map]
  refine and_congr_right fun _ => forall_congr' fun i => imp_congr_right fun _ => ?_
  rw [← exists_designation_iff]
  constructor
  · rintro ⟨o, ho⟩
    obtain ⟨d, hd, -⟩ := map_eq_ok.mp ho
    exact ⟨d, hd⟩
  · rintro ⟨d, hd⟩
    exact ⟨some d, map_eq_ok.mpr ⟨d, hd, rfl⟩⟩

/-- **It does not matter in which order the entries are.** -/
theorem designateSeeds_of_sameEntries (hsame : SameEntries b b')
    (h : ∃ d, designateSeeds g b = .ok () d) : ∃ d, designateSeeds g b' = .ok () d := by
  have horder : ∀ i ∈ b.order, i ∈ b'.order := by
    intro i hi
    obtain ⟨e, he, rfl⟩ := List.mem_map.mp hi
    obtain ⟨e', he', hbare⟩ := List.mem_map.mp ((hsame.entries _).mp (List.mem_map_of_mem he))
    exact List.mem_map.mpr ⟨e', he', congrArg (·.interface) hbare⟩
  rw [exists_designateSeeds_iff] at h ⊢
  refine ⟨fun e' he' => ?_, fun i hi => horder i (h.2 i (hsame.loopBreakers ▸ hi))⟩
  obtain ⟨e, he, hbare⟩ := List.mem_map.mp ((hsame.entries _).mpr (List.mem_map_of_mem he'))
  exact exists_entryDesignation_congr horder hbare.symm (h.1 e he)

theorem sameEntries_restart (l : List ScheduleEntry) (hl : l.Perm b.schedule) :
    SameEntries b ({ b with schedule := l } : Block).restart := by
  refine ⟨fun k => ?_, rfl⟩
  have hbare : ({ b with schedule := l } : Block).restart.schedule.map (·.bare) =
      l.map (·.bare) := schedule_of_skeleton (skeleton_restart _)
  rw [hbare]
  exact (hl.map _).mem_iff.symm

/-- **Designating anew, with the entries in any order, gives every entry the seed that it has.** -/
theorem Seeding.rearranged (hb : b.Seeding g) (hg : g.Coherent) (h : b.Placed g)
    (hok : ∃ d, designateSeeds g b.restart = .ok () d) {l : List ScheduleEntry}
    (hl : l.Perm b.schedule) :
    ∃ d, designateSeeds g ({ b with schedule := l } : Block).restart = .ok () d ∧
      d.schedule = l ∧ d.needsSeeds = b.needsSeeds ∧ d.reestimates = b.reestimates := by
  have hsame := sameEntries_restart l hl
  have hbefore := (sameEntries_restart b.schedule (List.Perm.refl _)).symm
  obtain ⟨d, hd⟩ := designateSeeds_of_sameEntries
    ⟨fun k => (hbefore.entries k).trans (hsame.entries k), hsame.loopBreakers⟩ hok
  have hbare : ({ b with schedule := l } : Block).restart.schedule.map (·.bare) =
      l.map (·.bare) := schedule_of_skeleton (skeleton_restart _)
  have hplaced : Placed g ({ b with schedule := l } : Block).restart :=
    h.of_perm (hbare ▸ hl.map _)
  have hclean : ∀ e ∈ ({ b with schedule := l } : Block).restart.schedule, e.seed = none := by
    intro e he
    obtain ⟨k, -, rfl⟩ := List.mem_map.mp he
    rfl
  obtain ⟨⟨F, hschedule, hF⟩, hneeds, -⟩ :=
    seeding_of_designateSeeds_clean hg hplaced hclean rfl hd
  -- an entry gets the seed that it has, for both are what is designated
  have hseed : ∀ e ∈ l, F e.interface = e.seed := by
    intro e he
    refine Option.ext fun s => ?_
    rw [hb.seeds e (hl.subset he) s]
    have hmem : { e with seed := none } ∈ ({ b with schedule := l } : Block).restart.schedule :=
      List.mem_map_of_mem he
    exact (hF _ hmem s).trans ⟨Designated.congr hsame.symm rfl, Designated.congr hsame rfl⟩
  have hd' : d.schedule = l := by
    rw [hschedule]
    change (l.map _).map _ = l
    rw [List.map_map]
    refine (List.map_congr_left fun e he => ?_).trans (List.map_id l)
    rw [Function.comp_apply, hseed e he]
    rfl
  refine ⟨d, hd, hd', ?_, ?_⟩
  · rw [Bool.eq_iff_iff, hneeds, hd', List.any_eq_true, hb.needsSeeds]
    exact exists_congr fun e => and_congr_left fun _ => hl.mem_iff
  · rw [Bool.eq_iff_iff, (seeding_of_designateSeeds hg hplaced hclean rfl hd).reestimates, hd',
      hb.reestimates]
    exact exists_congr fun e => and_congr_left fun _ => hl.mem_iff

end Block

/-! ## Assembled blocks -/

namespace Posterior

open Block (Placed Seeding Answered TowardClamp)

variable {g : Graph} {c : Catalogue} {p q : Posterior} {id : String}

/-- What an assembled block has: types, the seeds that are designated, and entries that designating
may be begun again with. -/
theorem Built.exists_seeding (hg : g.Built) (hp : Built g p)
    (h : Posterior.assemble g c id p = .ok () q) :
    ∃ b, q.blocks.get? id = some b ∧ (∀ e ∈ b.schedule, ∃ t, e.outbound = some t) ∧
      b.Seeding g ∧ b.Placed g ∧ ∃ d, Block.designateSeeds g b.restart = .ok () d := by
  have hc := hg.coherent
  have hq : Built g q := Attempt.outcome_snd_of_ok h ▸ Built.assemble hp c id
  obtain ⟨b, l, b', p₁, p₂, r, -, hinfer, hseeds, -, -, hsettle, hget⟩ :=
    exists_parts_of_assemble (I := fun _ => True) (fun _ _ _ _ _ _ => trivial)
      (fun _ _ => trivial) (hp.madeFor.mono fun _ _ => trivial) trivial h
  have hassembled := Block.assembled_of_parts hinfer hseeds hsettle
  have hskeleton := (Block.keeps_designateSeeds g _).of_ok rfl hseeds
  -- before the seeds are laid there are none
  have hclean : ∀ e ∈ l, e.seed = none := by
    have hrestart : ∀ e ∈ b.restart.schedule, e.seed = none := fun e he => by
      obtain ⟨k, -, rfl⟩ := List.mem_map.mp he
      rfl
    exact (keeps_forall_inferEntries (P := fun e => e.seed = none)
      (ScheduleEntry.keeps_infer_of (fun _ _ _ _ _ _ _ _ he => he) _) _ _).of_ok hrestart hinfer
  have hplaced : Placed g { b' with marginalTable := r.1 } := (hq.laid id _ hget).2.placed hc
  have hplaced₀ : Placed g { b.restart with schedule := l }.index :=
    Placed.of_perm (b := { b' with marginalTable := r.1 })
      (List.Perm.of_eq (Block.schedule_of_skeleton hskeleton).symm) hplaced
  have hb' := Block.seeding_of_designateSeeds hc hplaced₀ hclean rfl hseeds
  refine ⟨_, hget, fun e he => hassembled.exists_outbound he, ⟨fun e he s => ?_, hb'.needsSeeds,
    hb'.reestimates⟩, hplaced, Block.designateSeeds_of_sameEntries ?_ ⟨b', hseeds⟩⟩
  · exact (hb'.seeds e he s).trans
      ⟨.congr ⟨fun _ => Iff.rfl, rfl⟩ rfl, .congr ⟨fun _ => Iff.rfl, rfl⟩ rfl⟩
  · have hsame := Block.sameEntries_of_skeleton hskeleton
    have hrestart := Block.sameEntries_restart (b := { b' with marginalTable := r.1 }) b'.schedule
      (List.Perm.refl _)
    exact ⟨fun k => (hsame.entries k).trans (hrestart.entries k), hsame.loopBreakers⟩

/-- **The seeds of an assembled block are those that are designated**: what answers a message asks
first, then an entry with a clamp at the other end of its edge, and a loop breaker last. The first
two never ask for the same message, so the order of the entries has no part in it. The block needs
seeds just when there are any, and estimates anew just when one is for a clamp. -/
theorem Built.seeding_of_assemble (hg : g.Built) (hp : Built g p)
    (h : Posterior.assemble g c id p = .ok () q) :
    ∃ b, q.blocks.get? id = some b ∧ (∀ e ∈ b.schedule, ∃ t, e.outbound = some t) ∧
      b.Seeding g ∧
      (∀ e t dims reason value, Answered g b e t dims reason → ¬ TowardClamp g e value) ∧
      ∀ l : List ScheduleEntry, l.Perm b.schedule →
        ∃ d, Block.designateSeeds g ({ b with schedule := l } : Block).restart = .ok () d ∧
          d.schedule = l ∧ d.needsSeeds = b.needsSeeds ∧ d.reestimates = b.reestimates := by
  obtain ⟨b, hget, htypes, hseeding, hplaced, hok⟩ := hp.exists_seeding hg h
  exact ⟨b, hget, htypes, hseeding,
    fun e t dims reason value ha => ha.not_towardClamp hplaced value,
    fun l hl => hseeding.rearranged hg.coherent hplaced hok hl⟩

/-- A prior, a pair of interfaces and an observed value in a row. -/
def observedPair : Graph :=
  let g := ((Graph.addNode { kind := "prior", interfaces := 1 }).outcome ∅).2
  let g := ((Graph.addNode { kind := "pair", interfaces := 2 }).outcome g).2
  let g := ((Graph.addClamp (.list []) none).outcome g).2
  let g := ((Graph.connect (.numbered 0) (some (.numbered 1)) (some "x") none).outcome g).2
  ((Graph.connect (.numbered 2) (some (.numbered 3)) (some "y") none).outcome g).2

theorem built_observedPair : observedPair.Built :=
  .connect (.connect (.addClamp (.addNode (.addNode .empty _) _) _ _) _ _ _ _) _ _ _ _

/-- A rule that answers one type, whatever arrives. -/
def fixedRule (t : TypeTerm) (kind : String) (r : RuleType) (position : Option Int) (arity : Nat) :
    Rule where
  key := ⟨kind, r, position⟩
  inbounds := List.replicate arity .any
  outbound := .pattern t

/-- Rules for the messages of the pair, one of which approximates a marginal. -/
def pairRules : Catalogue :=
  let rule := fixedRule (.dist "Gaussian" [])
  ⟨[rule "prior" .sumProduct (some 0) 1, rule "pair" .expectationPropagation (some 0) 2,
    rule "pair" .sumProduct (some 1) 2, rule "product" .product none 2]⟩

/-- The posterior with one block, which is scheduled and tabulated: the message of the pair toward
the prior is found by expectation propagation. -/
def pairLaidOut : Posterior :=
  ((layOut observedPair [1] ["x"]).outcome
    ((addBlock observedPair ["x", "y"] (some "x")).outcome { options := wholeOptions }).2).2

theorem built_pairLaidOut : Built observedPair pairLaidOut :=
  keeps_layOut [1] ["x"] _ (.addBlock (.fresh _) _ _)

/-- The message that the approximation takes out of the marginal has a seed, and so has the one that
goes to the observed value. -/
theorem seeding_pair : observedPair.Built ∧ Built observedPair pairLaidOut ∧ ∃ q b,
    assemble observedPair pairRules "x" pairLaidOut = .ok () q ∧ q.blocks.get? "x" = some b ∧
    b.schedule.map (fun e => (e.interface, e.seed)) =
      [(0, some ⟨"Gaussian", [], .expectation, none⟩), (3, none), (1, none),
        (2, some ⟨"Gaussian", [0], .clamp, none⟩)] ∧
    b.Seeding observedPair := by
  have hassemble := Attempt.eq_ok_of_outcome (s := pairLaidOut) (a := ())
    (x := assemble observedPair pairRules "x") (by cbv)
  obtain ⟨b, hb, -, hseeding, -⟩ :=
    Built.seeding_of_assemble built_observedPair built_pairLaidOut hassemble
  have hseeds : (((assemble observedPair pairRules "x").outcome pairLaidOut).2.blocks.get?
      "x").map (·.schedule.map fun e => (e.interface, e.seed)) =
      some [(0, some ⟨"Gaussian", [], .expectation, none⟩), (3, none), (1, none),
        (2, some ⟨"Gaussian", [0], .clamp, none⟩)] := by cbv
  rw [hb, Option.map_some, Option.some.injEq] at hseeds
  exact ⟨built_observedPair, built_pairLaidOut, _, b, hassemble, hb, hseeds, hseeding⟩

end Posterior

end MessagePassing
