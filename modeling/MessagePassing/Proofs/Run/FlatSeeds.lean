import MessagePassing.Proofs.Assembly.Designation
import MessagePassing.Proofs.Run.FirstValues
import MessagePassing.Proofs.Types.Layers
import MessagePassing.Proofs.Types.Marginals

/-!
# The values of seeds

A seed keeps the family of a type, its dimensions and one number of factors, and its value is made
of these; the flat value of the type is made by going down the type itself. They are the same as
long as the type has one layer of factors at most. Of more layers only the outermost gets into the
seed, so its factors are flat distributions where they ought to be made of factors again. Neither
has a value just when the family has no flat value of the dimensions.

* `TypeTerm.Stacked` is said of a type that is layers of factors of a distribution, with messages
  and approximations anywhere among them.
* `Value.nest` puts layers of equal factors around a value.

Results:
* `TypeTerm.Stacked.vagueOf_eq`: the flat value of such a type has all of its layers.
* `TypeTerm.Stacked.value_ofType`: the value of a seed for it has the outermost.
* `value_of_forM_laySeed`: laying the seeds of a block sends their values.
* **`Posterior.Built.outermost_of_assemble`**: the values of the seeds of an assembled block.
* **`Posterior.not_flat_seed`**: a seed without a layer of the type that its message has.
-/

namespace MessagePassing

/-! ## Layers around a distribution -/

namespace TypeTerm

/-- Layers of factors around a distribution, with these numbers of factors. The first is the
outermost. -/
def ofLayers (family : String) (dims : List Int) (counts : List Nat) : TypeTerm :=
  (ofDims family dims).withLayers (counts.map fun n => .num n)

/-- The type is layers of factors around a distribution, none of them empty. There may be messages
and approximations around the distribution and around each of the layers. -/
inductive Stacked (family : String) (dims : List Int) : List Nat → TypeTerm → Prop
  | dist : Stacked family dims [] (.ofDims family dims)
  | message {counts : List Nat} {t : TypeTerm} (h : Stacked family dims counts t) :
      Stacked family dims counts (.message t)
  | approx {counts : List Nat} {t : TypeTerm} (method : String) (h : Stacked family dims counts t) :
      Stacked family dims counts (.approx t method)
  | partitioned {n : Nat} {counts : List Nat} {t : TypeTerm} (hn : 0 < n)
      (h : Stacked family dims counts t) :
      Stacked family dims (n :: counts) (.partitioned t (.num n))

section Layers

variable {family : String} {dims : List Int} {counts : List Nat} {t : TypeTerm}

theorem layers_ofLayers : (ofLayers family dims counts).layers = counts.length := by
  induction counts with
  | nil => rfl
  | cons n counts ih => exact congrArg (· + 1) ih

/-- The outermost layer is all of them only if there are no others. -/
theorem ofLayers_take_one_iff :
    ofLayers family dims (counts.take 1) = ofLayers family dims counts ↔ counts.length ≤ 1 := by
  constructor
  · intro h
    have hlayers := congrArg layers h
    rw [layers_ofLayers, layers_ofLayers, List.length_take] at hlayers
    omega
  · intro h
    rw [List.take_of_length_le h]

namespace Stacked

theorem pos (h : t.Stacked family dims counts) : ∀ n ∈ counts, 0 < n := by
  induction h with
  | dist => exact fun _ hn => absurd hn List.not_mem_nil
  | message _ ih => exact ih
  | approx _ _ ih => exact ih
  | partitioned hn _ ih => exact List.forall_mem_cons.mpr ⟨hn, ih⟩

/-- Layers of factors of a distribution are a type of this kind. -/
theorem of_ofLayers (h : ∀ n ∈ counts, 0 < n) :
    (ofLayers family dims counts).Stacked family dims counts := by
  induction counts with
  | nil => exact .dist
  | cons n counts ih =>
    obtain ⟨hn, hcounts⟩ := List.forall_mem_cons.mp h
    exact .partitioned hn (ih hcounts)

theorem family_eq (h : t.Stacked family dims counts) : t.family = family := by
  induction h with
  | dist => rfl
  | message _ ih => exact ih
  | approx _ _ ih => exact ih
  | partitioned _ _ ih => exact ih

theorem dims_eq (h : t.Stacked family dims counts) : t.dims = dims := by
  induction h with
  | dist => exact dims_ofDims family dims
  | message _ ih => exact ih
  | approx _ _ ih => exact ih
  | partitioned _ _ ih => exact ih

/-- What counts as the number of factors is that of the outermost layer. -/
theorem count?_eq (h : t.Stacked family dims counts) :
    t.count? = counts.head?.map fun n => .num n := by
  induction h with
  | dist => rfl
  | message _ ih => exact ih
  | approx _ _ ih => exact ih
  | partitioned _ _ _ => rfl

end Stacked

end Layers

end TypeTerm

/-! ## Values -/

namespace Value

/-- Layers of equal factors around a value, with these numbers of factors. -/
def nest (counts : List Nat) (v : Value) : Value :=
  counts.foldr (fun n w => .parts (List.replicate n w)) v

variable {o : Options} {family : String} {dims : List Int} {counts : List Nat} {v : Value}

theorem type?_vague (h : vague o family dims = .ok v) : v.type? = some (.ofDims family dims) := by
  obtain ⟨params, -, rfl⟩ := map_eq_ok.mp h
  rfl

/-- The type of a value of layers tells all of them. -/
theorem type?_nest (hpos : ∀ n ∈ counts, 0 < n) (h : vague o family dims = .ok v) :
    (nest counts v).type? = some (.ofLayers family dims counts) := by
  induction counts with
  | nil => exact type?_vague h
  | cons n counts ih =>
    obtain ⟨hn, hcounts⟩ := List.forall_mem_cons.mp hpos
    obtain ⟨k, rfl⟩ := Nat.exists_eq_add_one.mpr hn
    change (parts (List.replicate (k + 1) (nest counts v))).type? = _
    rw [List.replicate_succ, type?, ih hcounts, List.length_replicate]
    rfl

end Value

namespace TypeTerm.Stacked

variable {o : Options} {family : String} {dims : List Int} {counts : List Nat} {t : TypeTerm}

/-- **The flat value of a type of layers has all of them.** -/
theorem vagueOf_eq (h : t.Stacked family dims counts) :
    Value.vagueOf o t = (Value.vague o family dims).map (Value.nest counts) := by
  suffices ∀ whole, Value.vagueBelow o whole t =
      (Value.vague o family dims).map (Value.nest counts) from this t
  induction h with
  | dist =>
    intro whole
    change Value.vague o family (ofDims family dims).dims = _
    rw [dims_ofDims]
    cases Value.vague o family dims <;> rfl
  | message _ ih => exact ih
  | approx _ _ ih => exact ih
  | @partitioned n counts e hn _ ih =>
    intro whole
    rw [Value.vagueBelow, if_neg (by omega), ih e, Int.toNat_natCast]
    cases Value.vague o family dims <;> rfl

/-- **The value of a seed for such a type has the outermost layer**, if there is one. -/
theorem value_ofType (h : t.Stacked family dims counts) (reason : SeedReason) :
    (Seed.ofType t t.dims reason).value o =
      (Value.vague o family dims).map (Value.nest (counts.take 1)) := by
  unfold Seed.value Seed.ofType
  rw [h.count?_eq, h.family_eq, h.dims_eq]
  cases counts with
  | nil => cases Value.vague o family dims <;> rfl
  | cons n counts =>
    have hn : ¬ (n : Int) ≤ 0 := by
      have := h.pos n List.mem_cons_self
      omega
    change (if (n : Int) ≤ 0 then _ else _) = _
    rw [if_neg hn, Int.toNat_natCast]
    rfl

end TypeTerm.Stacked

/-- How the value of a seed stands to the flat value of a type, which is layers of factors around a
distribution. -/
structure Seed.Outermost (s : Seed) (o : Options) (t : TypeTerm) (family : String)
    (dims : List Int) (counts : List Nat) : Prop where
  /-- It is the flat value of the outermost layer around the distribution. -/
  value : s.value o = Value.vagueOf o (.ofLayers family dims (counts.take 1))
  /-- It has the type of this layer. -/
  type : ∀ v, s.value o = .ok v → v.type? = some (.ofLayers family dims (counts.take 1))
  /-- So it has the type that the message carries, which is just layers around the distribution,
  only if there are no others. -/
  payload : t.payload = .ofLayers family dims counts →
    ∀ v, s.value o = .ok v → (v.type? = some t.payload ↔ counts.length ≤ 1)
  /-- The seed has no value just when the type has no flat value, for the same reason. -/
  fails : ∀ f, s.value o = .error f ↔ Value.vagueOf o t = .error f
  /-- Where they have values, these are the same just when there are no other layers. -/
  flat : s.value o = Value.vagueOf o t ↔ counts.length ≤ 1 ∨ ∃ f, s.value o = .error f

/-- **A seed for a type of layers gets the outermost of them.** -/
theorem Seed.outermost_ofType {o : Options} {t : TypeTerm} {family : String} {dims : List Int}
    {counts : List Nat} (h : t.Stacked family dims counts) (reason : SeedReason) :
    (Seed.ofType t t.dims reason).Outermost o t family dims counts := by
  have hpos : ∀ n ∈ counts.take 1, 0 < n := fun n hn => h.pos n (List.mem_of_mem_take hn)
  have htype : ∀ v, (Seed.ofType t t.dims reason).value o = .ok v →
      v.type? = some (.ofLayers family dims (counts.take 1)) := by
    intro v hv
    rw [h.value_ofType] at hv
    obtain ⟨w, hw, rfl⟩ := map_eq_ok.mp hv
    exact Value.type?_nest hpos hw
  refine ⟨?_, htype, fun hpayload v hv => ?_, fun f => ?_, ?_⟩
  · rw [h.value_ofType, (TypeTerm.Stacked.of_ofLayers hpos).vagueOf_eq]
  · rw [htype v hv, hpayload, Option.some_inj, TypeTerm.ofLayers_take_one_iff]
  · rw [h.value_ofType, h.vagueOf_eq]
    cases Value.vague o family dims with
    | error f' => rfl
    | ok v => exact ⟨nofun, nofun⟩
  · rw [h.value_ofType, h.vagueOf_eq]
    cases hv : Value.vague o family dims with
    | error f => exact ⟨fun _ => .inr ⟨f, rfl⟩, fun _ => rfl⟩
    | ok v =>
      constructor
      · intro heq
        have htypes := congrArg Value.type? (Except.ok.inj heq)
        rw [Value.type?_nest hpos hv, Value.type?_nest h.pos hv, Option.some_inj] at htypes
        exact .inl (TypeTerm.ofLayers_take_one_iff.mp htypes)
      · rintro (hlength | ⟨f, hf⟩)
        · rw [List.take_of_length_le hlength]
        · contradiction

/-! ## Laying seeds -/

namespace Block

variable {o : Options} {id : String} {l : List ScheduleEntry} {m m' : Memory} {e : ScheduleEntry}
  {s : Seed}

/-- **Laying the seeds of a block sends the value of each that is still to be laid.** -/
theorem value_of_forM_laySeed (hnodup : (l.map (·.interface)).Nodup)
    (h : l.forM (laySeed o id) m = .ok () m') (he : e ∈ l) (hs : e.seed = some s)
    (hfresh : m.phase id e.interface = .uninitialized) :
    s.value o = .ok (m'.message e.interface) := by
  induction l generalizing m with
  | nil => exact absurd he List.not_mem_nil
  | cons a l ih =>
    rw [List.map_cons, List.nodup_cons] at hnodup
    rw [List.forM_eq_forM, List.forM_cons] at h
    obtain ⟨_, m₁, hlay, hrest⟩ := Attempt.bind_eq_ok.mp h
    rcases List.mem_cons.mp he with rfl | he
    · -- the seeds after it are those of other interfaces
      have hothers : ¬ ∃ a ∈ l, Slot.message e.interface = .message a.interface ∨
          Slot.message e.interface = .phase id a.interface := by
        rintro ⟨a, ha, hi | hi⟩
        · exact hnodup.1 (List.mem_map.mpr ⟨a, ha, (Slot.message.inj hi).symm⟩)
        · contradiction
      rw [Memory.message_of_cell ((Action.confined_forM_lay l).frame hrest _ hothers)]
      obtain ⟨hnone | hlaid, -⟩ | ⟨s', v, hs', -, hv, rfl⟩ := laySeed_eq_ok.mp hlay
      · rw [hnone] at hs
        contradiction
      · exact absurd hfresh hlaid
      · obtain rfl := Option.some.inj (hs.symm.trans hs')
        rw [hv, Memory.message_send, if_pos rfl]
    · have hi : a.interface ≠ e.interface := fun hi =>
        hnodup.1 (List.mem_map.mpr ⟨e, he, hi.symm⟩)
      have hphase := (Action.confined_lay (g := ∅) a).frame hlay (.phase id e.interface)
        (by simpa [Action.writeSlots] using Ne.symm hi)
      exact ih hnodup.2 hrest he ((Memory.phase_of_cell hphase).trans hfresh)

end Block

namespace Posterior

variable {g : Graph} {c : Catalogue} {p q : Posterior} {id : String}

/-- **The values of the seeds of an assembled block.** A seed for expectation propagation or for a
loop, whose message has a type that is layers of factors around a distribution, has the flat value
of the outermost layer, and so the type of this layer. Laying the seeds of the block sends it, or is
refused where the type of the message has no flat value either. -/
theorem Built.outermost_of_assemble (hg : g.Built) (hp : Built g p)
    (h : Posterior.assemble g c id p = .ok () q) :
    ∃ b, q.blocks.get? id = some b ∧ ∀ e ∈ b.schedule, ∀ s, e.seed = some s →
      s.reason = .expectation ∨ s.reason = .loop →
      b.needsSeeds = true ∧ ∃ t, e.outbound = some t ∧
        ∀ family dims counts, t.Stacked family dims counts → ∀ o,
          s.Outermost o t family dims counts ∧
          ∀ m m', m.phase b.id e.interface = .uninitialized →
            b.schedule.forM (Block.laySeed o b.id) m = .ok () m' →
            s.value o = .ok (m'.message e.interface) := by
  obtain ⟨b, hget, htypes, hseeding, hplaced, -⟩ := hp.exists_seeding hg h
  refine ⟨b, hget, fun e he s hs hr => ?_⟩
  obtain ⟨t, ht⟩ := htypes e he
  have hdesignated := (hseeding.seeds e he s).mp hs
  rw [Block.outboundType, ht, Option.getD_some] at hdesignated
  refine ⟨hseeding.needsSeeds.mpr ⟨e, he, by rw [hs]; rfl⟩, t, ht, ?_⟩
  intro family dims counts hstacked o
  constructor
  · rw [hdesignated.eq_ofType hr]
    exact Seed.outermost_ofType hstacked _
  · intro m m' hfresh hlay
    exact Block.value_of_forM_laySeed hplaced.nodup hlay he hs hfresh

/-- Rules by which the priors and the marginal have one type. -/
def twinRules (t : TypeTerm) : Catalogue :=
  ⟨[fixedRule t "prior" .sumProduct (some 0) 1,
    fixedRule t "prior" .expectationPropagation (some 0) 1, fixedRule t "product" .product none 2]⟩

/-- The posterior with its block laid out: the first prior is found by expectation propagation. -/
def twinLaidOut : Posterior :=
  ((layOut twinGraph [0] ["x"]).outcome twinPosterior).2

theorem built_twinLaidOut : Built twinGraph twinLaidOut :=
  keeps_layOut [0] ["x"] _ (.addBlock (.fresh _) _ _)

/-- The numbers of factors of one layer, or of two. -/
def twinCounts (deep : Bool) : List Nat :=
  if deep then [3, 2] else [3]

/-- Factors of Gaussians, in one layer or in two. -/
def twinStack (deep : Bool) : TypeTerm :=
  .ofLayers "Gaussian" [] (twinCounts deep)

theorem stacked_twin (deep : Bool) : (twinStack deep).Stacked "Gaussian" [] (twinCounts deep) :=
  .of_ofLayers (by cases deep <;> decide)

/-- The layers written out, with whole numbers for the counts. -/
theorem twinStack_eq (deep : Bool) : twinStack deep =
    if deep then .partitioned (.partitioned (.dist "Gaussian" []) (.num 2)) (.num 3)
    else .partitioned (.dist "Gaussian" []) (.num 3) := by
  cases deep <;> rfl

/-- What is seeded is what the second prior says. -/
theorem exists_seed_twin (deep : Bool) : ∃ q b m,
    assemble twinGraph (twinRules (twinStack deep)) "x" twinLaidOut = .ok () q ∧
    q.blocks.get? "x" = some b ∧ b.order = [1, 0] ∧
    b.schedule.forM (Block.laySeed wholeOptions b.id) ∅ = .ok () m ∧
    ∃ e ∈ b.schedule, e.interface = 1 ∧ e.outbound = some (twinStack deep) ∧
      e.seed = some (.ofType (twinStack deep) (twinStack deep).dims .expectation) := by
  have hassemble := Attempt.eq_ok_of_outcome (s := twinLaidOut) (a := ())
    (x := assemble twinGraph (twinRules (twinStack deep)) "x")
    (by rw [twinStack_eq]; cases deep <;> cbv)
  have hblock : (((assemble twinGraph (twinRules (twinStack deep)) "x").outcome
      twinLaidOut).2.blocks.get? "x").map (fun b =>
        (b.schedule.map fun e => (e.interface, e.outbound, e.seed),
          ((b.schedule.forM (Block.laySeed wholeOptions b.id)).outcome ∅).1)) =
      some ([(1, some (twinStack deep),
        some (.ofType (twinStack deep) (twinStack deep).dims .expectation)),
        (0, some (twinStack deep), none)], .ok ()) := by
    rw [twinStack_eq]
    cases deep <;> cbv
  obtain ⟨b, hb, hparts⟩ := Option.map_eq_some_iff.mp hblock
  obtain ⟨hschedule, hlay⟩ := Prod.mk.inj hparts
  have horder : b.order = (b.schedule.map fun e => (e.interface, e.outbound, e.seed)).map
      Prod.fst := by
    rw [List.map_map]
    rfl
  obtain ⟨e, l, hel, he, -⟩ := List.map_eq_cons_iff.mp hschedule
  obtain ⟨hi, ho, hs⟩ : e.interface = 1 ∧ e.outbound = some (twinStack deep) ∧
      e.seed = some (.ofType (twinStack deep) (twinStack deep).dims .expectation) := by
    simpa only [Prod.mk.injEq] using he
  exact ⟨_, b, _, hassemble, hb, horder.trans (congrArg (List.map Prod.fst) hschedule),
    Attempt.eq_ok_of_outcome hlay, e, hel ▸ List.mem_cons_self, hi, ho, hs⟩

/-- A seed with one layer of factors is the flat value of its type. -/
theorem outermost_twin : twinGraph.Built ∧ Built twinGraph twinLaidOut ∧ ∃ q b m v,
    assemble twinGraph (twinRules (twinStack false)) "x" twinLaidOut = .ok () q ∧
    q.blocks.get? "x" = some b ∧ b.needsSeeds = true ∧
    b.schedule.forM (Block.laySeed wholeOptions b.id) ∅ = .ok () m ∧ m.message 1 = v ∧
    Value.vagueOf wholeOptions (twinStack false) = .ok v ∧ v.type? = some (twinStack false) := by
  obtain ⟨q, b, m, hassemble, hb, -, hlay, e, he, hi, ho, hs⟩ := exists_seed_twin false
  obtain ⟨b', hb', hall⟩ :=
    Built.outermost_of_assemble built_twinGraph built_twinLaidOut hassemble
  cases hb.symm.trans hb'
  obtain ⟨hneeds, t, ht, hstacked⟩ := hall e he _ hs (.inl rfl)
  cases ho.symm.trans ht
  obtain ⟨houtermost, hsent⟩ := hstacked _ _ _ (stacked_twin false) wholeOptions
  have hvalue := hsent ∅ m rfl hlay
  rw [hi] at hvalue
  have hflat := houtermost.flat.mpr (.inl (by decide))
  exact ⟨built_twinGraph, built_twinLaidOut, q, b, m, _, hassemble, hb, hneeds, hlay, rfl,
    hflat.symm.trans hvalue, houtermost.type _ hvalue⟩

/-- **A seed without a layer of the type that its message has**: the message is three factors of two
Gaussians each, and it is seeded with three Gaussians. -/
theorem not_flat_seed : twinGraph.Built ∧ Built twinGraph twinLaidOut ∧
    twinStack true = .partitioned (.partitioned (.dist "Gaussian" []) (.num 2)) (.num 3) ∧
    ∃ q b m, assemble twinGraph (twinRules (twinStack true)) "x" twinLaidOut = .ok () q ∧
      q.blocks.get? "x" = some b ∧
      (∃ e ∈ b.schedule, ∃ s, e.interface = 1 ∧ e.outbound = some (twinStack true) ∧
        e.seed = some s ∧ s.reason = .expectation) ∧
      b.schedule.forM (Block.laySeed wholeOptions b.id) ∅ = .ok () m ∧
      (m.message 1).type? = some (.partitioned (.dist "Gaussian" []) (.num 3)) ∧
      Value.vagueOf wholeOptions (twinStack true) ≠ .ok (m.message 1) := by
  obtain ⟨q, b, m, hassemble, hb, horder, hlay, e, he, hi, ho, hs⟩ := exists_seed_twin true
  have hvalue := Block.value_of_forM_laySeed
    (show b.order.Nodup from horder ▸ by decide) hlay he hs rfl
  rw [hi] at hvalue
  have houtermost := Seed.outermost_ofType (o := wholeOptions) (stacked_twin true) .expectation
  refine ⟨built_twinGraph, built_twinLaidOut, rfl, q, b, m, hassemble, hb,
    ⟨e, he, _, hi, ho, hs, rfl⟩, hlay, houtermost.type _ hvalue, fun heq => ?_⟩
  rcases houtermost.flat.mp (hvalue.trans heq.symm) with hlength | ⟨f, hf⟩
  · exact absurd hlength (by decide)
  · rw [hvalue] at hf
    contradiction

end Posterior

end MessagePassing
