import MessagePassing.Assembly.Compile
import MessagePassing.Proofs.Outcome

/-!
# What assembling leaves alone

The outline of a block is what it is made with, and its skeleton is that with the schedule and the
marginal table as they are before anything is resolved. Assembling fills in the rest: it keeps the
skeleton, also when it fails half-way, and does not touch other blocks.

Results:
* `Posterior.Each` is said of a posterior whose blocks stand under their names and have a property.
  `keeps_onBlock` tells which properties an operation on one block keeps.
* **`keeps_assemble`**: assembling keeps the skeletons of all blocks.
* **`Posterior.Built.madeFor`**: in every posterior that is built, the outline of a block is the one
  that was made for some variables.
-/

namespace MessagePassing

open Attempt (Keeps)

/-- The entry as a schedule has it before it is resolved. -/
def ScheduleEntry.bare (e : ScheduleEntry) : ScheduleEntry :=
  { interface := e.interface, node := e.node, position := e.position, ruleType := e.ruleType }

/-- The entry as a marginal table has it before it is resolved. -/
def MarginalEntry.bare (m : MarginalEntry) : MarginalEntry :=
  { target := m.target, plan := m.plan }

namespace Block

/-- What a block is made with. -/
def outline (b : Block) : Block :=
  { id := b.id, scope := b.scope, internal := b.internal, boundary := b.boundary
    clusters := b.clusters }

/-- What a block is made with, its schedule and its marginal table before they are resolved. -/
def skeleton (b : Block) : Block :=
  { b.outline with
    schedule := b.schedule.map (·.bare)
    loopBreakers := b.loopBreakers
    arcs := b.arcs
    marginalTable := b.marginalTable.map (·.bare) }

theorem skeleton_eq {b b' : Block} (ho : b'.outline = b.outline)
    (hs : b'.schedule.map (·.bare) = b.schedule.map (·.bare))
    (hl : b'.loopBreakers = b.loopBreakers) (ha : b'.arcs = b.arcs)
    (hm : b'.marginalTable.map (·.bare) = b.marginalTable.map (·.bare)) :
    b'.skeleton = b.skeleton := by
  unfold skeleton
  rw [ho, hs, hl, ha, hm]

theorem outline_of_skeleton {b b' : Block} (h : b'.skeleton = b.skeleton) :
    b'.outline = b.outline := by
  change b'.skeleton.outline = b.skeleton.outline
  rw [h]

theorem id_of_outline {b b' : Block} (h : b'.outline = b.outline) : b'.id = b.id := by
  change b'.outline.id = b.outline.id
  rw [h]

theorem internal_of_skeleton {b b' : Block} (h : b'.skeleton = b.skeleton) :
    b'.internal = b.internal := by
  change b'.skeleton.internal = b.skeleton.internal
  rw [h]

theorem loopBreakers_of_skeleton {b b' : Block} (h : b'.skeleton = b.skeleton) :
    b'.loopBreakers = b.loopBreakers := by
  change b'.skeleton.loopBreakers = b.skeleton.loopBreakers
  rw [h]

/-- The outline of the block is the one that is made for some variables. -/
def MadeFor (g : Graph) (b : Block) : Prop :=
  ∃ requested, Block.ofVariables g b.id requested = .ok b.outline

/-- A property is told by the outline. -/
def OfOutline (P : Block → Prop) : Prop :=
  ∀ b b' : Block, b'.outline = b.outline → P b → P b'

/-- A property is told by the skeleton. -/
def OfSkeleton (P : Block → Prop) : Prop :=
  ∀ b b' : Block, b'.skeleton = b.skeleton → P b → P b'

theorem OfOutline.ofSkeleton {P : Block → Prop} (hP : OfOutline P) : OfSkeleton P :=
  fun b b' h => hP b b' (outline_of_skeleton h)

theorem madeFor_ofOutline (g : Graph) : OfOutline (MadeFor g) := by
  rintro b b' h ⟨l, hl⟩
  refine ⟨l, ?_⟩
  rw [h, id_of_outline h]
  exact hl

end Block

/-! ## Blocks of a posterior -/

namespace Posterior

variable {p q : Posterior} {id k : String} {b b' : Block} {α : Type}

theorem get?_putBlock :
    (p.putBlock b).blocks.get? k = if b.id = k then some b else p.blocks.get? k :=
  Table.get?_insert ..

theorem onBlock_eq_ok {x : Posterior → Attempt Block α} {a : α} :
    onBlock id x p = .ok a q ↔
      ∃ b b', p.blocks.get? id = some b ∧ x p b = .ok a b' ∧ q = p.putBlock b' := by
  unfold onBlock
  cases p.blocks.get? id with
  | none => simp
  | some b => cases hx : x p b <;> simp [hx, eq_comm]

theorem onBlock_eq_error {x : Posterior → Attempt Block α} {e : Failure}
    (h : onBlock id x p = .error e q) :
    q = p ∨ ∃ b b', p.blocks.get? id = some b ∧ x p b = .error e b' ∧ q = p.putBlock b' := by
  unfold onBlock at h
  cases hb : p.blocks.get? id with
  | none =>
    rw [hb] at h
    cases h
    exact Or.inl rfl
  | some b =>
    rw [hb] at h
    dsimp only at h
    cases hx : x p b with
    | ok a b' => rw [hx] at h; contradiction
    | error f b' =>
      rw [hx] at h
      cases h
      exact Or.inr ⟨b, b', rfl, hx, rfl⟩

/-- Puts what is computed from a block in its place. -/
def replacement (f : Block → Except Failure Block) : Attempt Block Block := fun b =>
  match f b with
  | .ok b' => .ok b' b'
  | .error e => .error e b

theorem replaceBlock_eq (f : Block → Except Failure Block) :
    replaceBlock id f = onBlock id fun _ => replacement f := by
  unfold replaceBlock
  congr 1
  funext _ b
  unfold replacement
  change EStateM.bind EStateM.get (fun b => EStateM.bind (Attempt.ofExcept (f b)) fun b =>
    EStateM.bind (EStateM.set b) fun _ => EStateM.pure b) b = _
  unfold EStateM.bind EStateM.get Attempt.ofExcept
  dsimp only
  cases f b <;> rfl

theorem replaceBlock_eq_ok {f : Block → Except Failure Block} :
    replaceBlock id f p = .ok b' q ↔
      ∃ b, p.blocks.get? id = some b ∧ f b = .ok b' ∧ q = p.putBlock b' := by
  rw [replaceBlock_eq, onBlock_eq_ok]
  unfold replacement
  refine exists_congr fun b => ?_
  constructor
  · rintro ⟨c, hb, hc, rfl⟩
    split at hc
    · rename_i hf
      cases hc
      exact ⟨hb, hf, rfl⟩
    · contradiction
  · rintro ⟨hb, hf, rfl⟩
    exact ⟨b', hb, by rw [hf], rfl⟩

/-- Every block stands under its name and has a property. -/
def Each (P : Block → Prop) (p : Posterior) : Prop :=
  ∀ id b, p.blocks.get? id = some b → b.id = id ∧ P b

variable {P Q : Block → Prop}

theorem Each.mono (hp : Each P p) (h : ∀ b, P b → Q b) : Each Q p := fun id b hb =>
  ⟨(hp id b hb).1, h b (hp id b hb).2⟩

theorem Each.putBlock (hp : Each P p) (hb : P b) : Each P (p.putBlock b) := by
  intro k c hc
  rw [get?_putBlock] at hc
  split at hc
  · rename_i hk
    cases hc
    exact ⟨hk, hb⟩
  · exact hp k c hc

/-- An operation on one block keeps what putting its outcome in the place of the block keeps. -/
theorem keeps_onBlock_of {I : Posterior → Prop} {x : Posterior → Attempt Block α}
    (hx : ∀ p b, I p → p.blocks.get? id = some b → I (p.putBlock ((x p).outcome b).2)) :
    Keeps I (onBlock id x) := by
  refine Keeps.intro (fun p a q hp h => ?_) (fun p e q hp h => ?_)
  · obtain ⟨b, b', hb, hxb, rfl⟩ := onBlock_eq_ok.mp h
    exact Attempt.outcome_snd_of_ok hxb ▸ hx p b hp hb
  · rcases onBlock_eq_error h with rfl | ⟨b, b', hb, hxb, rfl⟩
    · exact hp
    · exact Attempt.outcome_snd_of_error hxb ▸ hx p b hp hb

/-- An operation on one block keeps what it keeps of that block. -/
theorem keeps_onBlock {x : Posterior → Attempt Block α}
    (hx : ∀ p b, b.id = id → P b → P ((x p).outcome b).2) : Keeps (Each P) (onBlock id x) :=
  keeps_onBlock_of fun p b hp hb => hp.putBlock (hx p b (hp id b hb).1 (hp id b hb).2)

theorem keeps_replaceBlock {f : Block → Except Failure Block}
    (hf : ∀ b b', b.id = id → P b → f b = .ok b' → P b') : Keeps (Each P) (replaceBlock id f) := by
  rw [replaceBlock_eq]
  refine keeps_onBlock fun p b hid hb => ?_
  unfold Attempt.outcome replacement
  cases hfb : f b with
  | ok b' => exact hf b b' hid hb hfb
  | error e => exact hb

/-- Operations on what the blocks share keep their properties. -/
theorem keeps_modify {f : Posterior → Posterior} (hf : ∀ p, (f p).blocks = p.blocks) :
    Keeps (Each P) (modify f : Attempt Posterior Unit) := by
  refine Keeps.modify fun p hp => ?_
  unfold Each
  rw [hf p]
  exact hp

end Posterior

/-! ## What assembling keeps of a block -/

/-- The resolution of an entry keeps what does not depend on what it finds out. -/
theorem ScheduleEntry.keeps_infer_of {I : ScheduleEntry → Prop}
    (hI : ∀ (e : ScheduleEntry) inboundTypes outbound approximation rule oneByOne inbounds order,
      I e → I { e with inboundTypes, outbound, approximation, rule, oneByOne, inbounds, order })
    (s : Surroundings) (known : Table InterfaceId TypeTerm) (place : Nat) :
    Keeps I (ScheduleEntry.infer s known place) := by
  unfold ScheduleEntry.infer
  refine Keeps.bind (Keeps.modify fun e h => hI e _ _ _ _ _ _ _ h) fun _ =>
    Keeps.bind Keeps.get fun e => Keeps.bind (Keeps.liftM _) fun node => ?_
  split
  · exact Keeps.modify fun e h => hI e _ _ _ _ _ _ _ h
  · exact Keeps.bind (Keeps.liftM _) fun _ =>
      Keeps.bind (Keeps.modify fun e h => hI e _ _ _ _ _ _ _ h) fun _ =>
      Keeps.bind (Keeps.ofExcept _) fun _ =>
      Keeps.bind (Keeps.modify fun e h => hI e _ _ _ _ _ _ _ h) fun _ =>
      Keeps.bind (Keeps.liftM _) fun _ => Keeps.modify fun e h => hI e _ _ _ _ _ _ _ h

/-- The resolution of an entry keeps what the schedule fixes. -/
theorem ScheduleEntry.keeps_infer (s : Surroundings) (known : Table InterfaceId TypeTerm)
    (place : Nat) (k : ScheduleEntry) :
    Keeps (fun e : ScheduleEntry => e.bare = k) (ScheduleEntry.infer s known place) :=
  keeps_infer_of (fun _ _ _ _ _ _ _ _ h => h) s known place

/-- Each entry of a list is left as its own resolution leaves it, or it is not reached. -/
theorem forall₂_inferEntries {R : ScheduleEntry → ScheduleEntry → Prop} {s : Surroundings}
    (hrefl : ∀ e, R e e)
    (hinfer : ∀ known place e, R e ((ScheduleEntry.infer s known place).outcome e).2)
    (known : Table InterfaceId TypeTerm) (place : Nat) (l : List ScheduleEntry) :
    List.Forall₂ R l (Attempt.outcome (inferEntries s known place) l).2 := by
  induction l generalizing known place with
  | nil => exact .nil
  | cons e l ih =>
    unfold Attempt.outcome
    rw [inferEntries]
    cases hi : ScheduleEntry.infer s known place e with
    | error f e' =>
      have he : R e e' := Attempt.outcome_snd_of_error hi ▸ hinfer known place e
      exact .cons he (List.forall₂_same.mpr fun e _ => hrefl e)
    | ok _ e' =>
      have he : R e e' := Attempt.outcome_snd_of_ok hi ▸ hinfer known place e
      dsimp only
      cases hl : inferEntries s _ (place + 1) l with
      | ok _ l' => exact .cons he (Attempt.outcome_snd_of_ok hl ▸ ih _ _)
      | error f l' => exact .cons he (Attempt.outcome_snd_of_error hl ▸ ih _ _)

/-- What the resolution of an entry does not change is not changed along a list. -/
theorem map_inferEntries {α : Type} {f : ScheduleEntry → α} {s : Surroundings}
    (hf : ∀ known place k, Keeps (fun e => f e = k) (ScheduleEntry.infer s known place))
    (known : Table InterfaceId TypeTerm) (place : Nat) (l : List ScheduleEntry) :
    (Attempt.outcome (inferEntries s known place) l).2.map f = l.map f := by
  have h := forall₂_inferEntries (R := fun e e' => f e' = f e) (fun _ => rfl)
    (fun known place e => hf known place (f e) e rfl) known place l
  generalize (Attempt.outcome (inferEntries s known place) l).2 = l' at h ⊢
  induction h with
  | nil => rfl
  | cons he _ ih => rw [List.map_cons, List.map_cons, he, ih]

theorem keeps_inferEntries (s : Surroundings) (known : Table InterfaceId TypeTerm) (place : Nat)
    (k : List ScheduleEntry) :
    Keeps (fun l : List ScheduleEntry => l.map (·.bare) = k) (inferEntries s known place) := by
  rintro l rfl
  exact map_inferEntries (ScheduleEntry.keeps_infer s) known place l

/-- What the resolution of an entry keeps is kept of all entries of a list. -/
theorem keeps_forall_inferEntries {P : ScheduleEntry → Prop} {s : Surroundings}
    (hP : ∀ known place, Keeps P (ScheduleEntry.infer s known place))
    (known : Table InterfaceId TypeTerm) (place : Nat) :
    Keeps (fun l : List ScheduleEntry => ∀ e ∈ l, P e) (inferEntries s known place) := by
  intro l hl
  have h := forall₂_inferEntries (R := fun e e' => P e → P e') (fun _ => id) hP known place l
  generalize (Attempt.outcome (inferEntries s known place) l).2 = l' at h ⊢
  induction h with
  | nil => exact hl
  | cons he _ ih =>
    obtain ⟨hhead, htail⟩ := List.forall_mem_cons.mp hl
    exact List.forall_mem_cons.mpr ⟨he hhead, ih htail⟩

/-- The resolution of a schedule changes only the schedule. -/
theorem Block.outcome_inferSchedule (g : Graph) (c : Catalogue) (p : Posterior) (b : Block) :
    ((Block.inferSchedule g c p).outcome b).2 =
      { b with
        schedule := (Attempt.outcome (inferEntries (b.surroundings g c p) ∅ 0) b.schedule).2 } := by
  unfold Attempt.outcome Block.inferSchedule
  cases inferEntries (b.surroundings g c p) ∅ 0 b.schedule <;> rfl

theorem Block.keeps_inferSchedule (g : Graph) (c : Catalogue) (p : Posterior) (k : Block) :
    Keeps (fun b : Block => b.skeleton = k) (Block.inferSchedule g c p) := by
  rintro b rfl
  rw [Block.outcome_inferSchedule]
  have hl := keeps_inferEntries (b.surroundings g c p) ∅ 0 _ b.schedule rfl
  exact Block.skeleton_eq rfl hl rfl rfl rfl

theorem Block.skeleton_restart (b : Block) : b.restart.skeleton = b.skeleton := by
  refine Block.skeleton_eq rfl ?_ rfl rfl rfl
  unfold Block.restart
  rw [List.map_map]
  rfl

theorem Block.skeleton_lay (b : Block) (d : Designation) : (b.lay d).skeleton = b.skeleton := by
  refine Block.skeleton_eq rfl ?_ rfl rfl rfl
  unfold Block.lay
  rw [List.map_map]
  refine List.map_congr_left fun e _ => ?_
  rw [Function.comp_apply]
  split <;> rfl

/-- What the laying of one seed keeps of a block is kept by the laying of all, if the note whether
there are any has no part in it. -/
theorem Block.keeps_designateSeeds_of {I : Block → Prop} (g : Graph)
    (hlay : ∀ b d, I b → I (b.lay d))
    (hnote : ∀ (b : Block) needsSeeds, I b → I { b with needsSeeds }) :
    Keeps I (Block.designateSeeds g) := by
  have hall : ∀ l, Keeps I (Block.layAll l) := by
    intro l
    induction l with
    | nil => exact Keeps.pure ()
    | cons x l ih =>
      cases x with
      | error f => exact Keeps.throw f
      | ok o =>
        cases o with
        | none => exact ih
        | some d => exact fun b hb => ih (b.lay d) (hlay b d hb)
  intro b hb
  have h := hall (b.designations g) b hb
  unfold Attempt.outcome at h ⊢
  unfold Block.designateSeeds
  revert h
  cases Block.layAll (b.designations g) b with
  | ok _ d => exact hnote d _
  | error f d => exact fun h => h

theorem Block.keeps_designateSeeds (g : Graph) (k : Block) :
    Keeps (fun b : Block => b.skeleton = k) (Block.designateSeeds g) :=
  Block.keeps_designateSeeds_of g (fun b d hb => (b.skeleton_lay d).trans hb) fun _ _ hb => hb

theorem MarginalEntry.keeps_settle (s : Surroundings) (b : Block) (k : MarginalEntry) :
    Keeps (fun m : MarginalEntry => m.bare = k) (MarginalEntry.settle s b) := by
  unfold MarginalEntry.settle
  refine Keeps.get_bind fun m hm => ?_
  split
  · exact Keeps.bind (Keeps.liftM _) fun _ => Keeps.bind (Keeps.set hm) fun _ =>
      Keeps.bind (Keeps.liftM _) fun _ => Keeps.pure _
  · exact Keeps.bind (Keeps.liftM _) fun _ => Keeps.bind (Keeps.liftM _) fun _ =>
      Keeps.bind (Keeps.liftM _) fun _ => Keeps.bind (Keeps.set hm) fun _ => Keeps.pure _
  · exact Keeps.bind (Keeps.liftM _) fun _ => Keeps.bind (Keeps.liftM _) fun _ =>
      Keeps.bind (Keeps.ofExcept _) fun _ => Keeps.bind (Keeps.liftM _) fun _ =>
        Keeps.bind (Keeps.set hm) fun _ => Keeps.pure _

/-- Settling a list of marginals stops at the first one, or it publishes that one and goes on. -/
theorem settleEntries_cons {g : Graph} {c : Catalogue} {b : Block} {p : Posterior}
    {m : MarginalEntry} {l : List MarginalEntry} {r : List MarginalEntry × Posterior}
    (h : settleEntries g c b p (m :: l) = .ok () r ∨
      ∃ f, settleEntries g c b p (m :: l) = .error f r) :
    (∃ f m', MarginalEntry.settle (b.surroundings g c p) b m = .error f m' ∧ r = (m' :: l, p)) ∨
      ∃ t m' r', MarginalEntry.settle (b.surroundings g c p) b m = .ok t m' ∧
        (settleEntries g c b { p with marginalTypes := p.marginalTypes.insert m'.target t } l =
            .ok () r' ∨
          ∃ f, settleEntries g c b
            { p with marginalTypes := p.marginalTypes.insert m'.target t } l = .error f r') ∧
        r = ({ m' with published := true } :: r'.1, r'.2) := by
  unfold settleEntries at h
  cases hs : MarginalEntry.settle (b.surroundings g c p) b m with
  | error f m' =>
    rw [hs] at h
    rcases h with h | ⟨f', h⟩
    · contradiction
    · cases h
      exact Or.inl ⟨f, m', rfl, rfl⟩
  | ok t m' =>
    rw [hs] at h
    dsimp only at h
    cases hr : settleEntries g c b
        { p with marginalTypes := p.marginalTypes.insert m'.target t } l with
    | ok _ r' =>
      rw [hr] at h
      rcases h with h | ⟨f', h⟩
      · cases h
        exact Or.inr ⟨t, m', r', rfl, Or.inl hr, rfl⟩
      · contradiction
    | error f r' =>
      rw [hr] at h
      rcases h with h | ⟨f', h⟩
      · contradiction
      · cases h
        exact Or.inr ⟨t, m', r', rfl, Or.inr ⟨f, hr⟩, rfl⟩

/-- Settling marginals keeps what the table fixes, and only adds types to what the blocks share. -/
theorem bare_settleEntries {g : Graph} {c : Catalogue} {b : Block} {p : Posterior}
    {l : List MarginalEntry} {r : List MarginalEntry × Posterior}
    (h : settleEntries g c b p l = .ok () r ∨ ∃ f, settleEntries g c b p l = .error f r) :
    r.1.map (·.bare) = l.map (·.bare) ∧ ∃ t, r.2 = { p with marginalTypes := t } := by
  induction l generalizing p r with
  | nil =>
    rcases h with h | ⟨f, h⟩
    · cases h
      exact ⟨rfl, _, rfl⟩
    · contradiction
  | cons m l ih =>
    have hm := MarginalEntry.keeps_settle (b.surroundings g c p) b m.bare
    rcases settleEntries_cons h with ⟨f, m', hs, rfl⟩ | ⟨t, m', r', hs, hr, rfl⟩
    · rw [List.map_cons, List.map_cons, hm.of_error rfl hs]
      exact ⟨rfl, _, rfl⟩
    · obtain ⟨hb, t', hp⟩ := ih hr
      rw [List.map_cons, List.map_cons, hb, ← hm.of_ok rfl hs]
      exact ⟨rfl, t', hp⟩

theorem Block.of_ofVariables {g : Graph} {name : String} {l : List String} {b : Block}
    (h : Block.ofVariables g name l = .ok b) : b.id = name ∧ b.outline = b := by
  unfold Block.ofVariables at h
  split at h
  · cases h
    exact ⟨rfl, rfl⟩
  · obtain ⟨edges, -, h⟩ := bind_eq_ok.mp h
    obtain ⟨internal, -, h⟩ := bind_eq_ok.mp h
    cases pure_eq_ok.mp h
    exact ⟨rfl, rfl⟩

theorem Block.outline_of_withSchedule {b b' : Block} {g : Graph} {sites : List InterfaceId}
    (h : b.withSchedule g sites = .ok b') : b'.outline = b.outline := by
  unfold Block.withSchedule at h
  dsimp only at h
  split at h
  · contradiction
  · obtain ⟨_, -, h⟩ := bind_eq_ok.mp h
    cases pure_eq_ok.mp h
    rfl

theorem Block.outline_of_withMarginalTable {b b' : Block} {g : Graph}
    (h : b.withMarginalTable g = .ok b') : b'.outline = b.outline := by
  unfold Block.withMarginalTable at h
  obtain ⟨_, -, h⟩ := bind_eq_ok.mp h
  obtain ⟨_, -, h⟩ := bind_eq_ok.mp h
  cases pure_eq_ok.mp h
  rfl

/-! ## What assembling keeps of a posterior -/

namespace Posterior

open Block (OfSkeleton OfOutline)

variable {P : Block → Prop} {g : Graph} {c : Catalogue} {id : String}

/-- Settling keeps what putting the settled block in its place keeps. -/
theorem keeps_settleMarginals_of {I : Posterior → Prop}
    (h : ∀ p b r, I p → p.blocks.get? id = some b →
      (settleEntries g c b p b.marginalTable = .ok () r ∨
        ∃ f, settleEntries g c b p b.marginalTable = .error f r) →
      I (r.2.putBlock { b with marginalTable := r.1 })) : Keeps I (settleMarginals g c id) := by
  intro p hp
  unfold Attempt.outcome settleMarginals
  cases hb : p.blocks.get? id with
  | none => exact hp
  | some b =>
    dsimp only
    cases hs : settleEntries g c b p b.marginalTable with
    | ok _ r => exact h p b r hp hb (Or.inl hs)
    | error f r => exact h p b r hp hb (Or.inr ⟨f, hs⟩)

theorem keeps_settleMarginals
    (hsettle : ∀ p b r, b.id = id → P b → (settleEntries g c b p b.marginalTable = .ok () r ∨
        ∃ f, settleEntries g c b p b.marginalTable = .error f r) →
      P { b with marginalTable := r.1 }) :
    Keeps (Each P) (settleMarginals g c id) := by
  refine keeps_settleMarginals_of fun p b r hp hb hr => ?_
  obtain ⟨-, t, hq⟩ := bare_settleEntries hr
  have hq' : Each P r.2 := by
    rw [hq]
    exact hp
  exact hq'.putBlock (hsettle p b r (hp id b hb).1 (hp id b hb).2 hr)

/-- Assembling keeps what does not depend on more of a block than its skeleton, if settling does. -/
theorem keeps_assemble_of_put {I : Posterior → Prop}
    (hput : ∀ p b b', I p → p.blocks.get? id = some b → b'.skeleton = b.skeleton →
      I (p.putBlock b'))
    (hforget : ∀ p, I p → I (p.forgetPhases id))
    (hsettle : ∀ p b r, I p → p.blocks.get? id = some b →
      (settleEntries g c b p b.marginalTable = .ok () r ∨
        ∃ f, settleEntries g c b p b.marginalTable = .error f r) →
      I (r.2.putBlock { b with marginalTable := r.1 })) : Keeps I (assemble g c id) := by
  have hreplace : ∀ f : Block → Block, (∀ b, (f b).skeleton = b.skeleton) →
      Keeps I (replaceBlock id fun b => .ok (f b)) := fun f hf => by
    rw [replaceBlock_eq]
    exact keeps_onBlock_of fun p b hp hb => hput p b (f b) hp hb (hf b)
  unfold assemble
  exact Keeps.bind (hreplace _ Block.skeleton_restart) fun _ =>
    Keeps.bind (Keeps.modify hforget) fun _ =>
    Keeps.bind (keeps_onBlock_of fun p b hp hb =>
      hput p b _ hp hb (Block.keeps_inferSchedule g c p _ b rfl)) fun _ =>
    Keeps.bind (hreplace _ fun _ => rfl) fun _ =>
    Keeps.bind (keeps_onBlock_of fun p b hp hb =>
      hput p b _ hp hb (Block.keeps_designateSeeds g _ b rfl)) fun _ =>
    keeps_settleMarginals_of hsettle

/-- Assembling keeps of a block what each of its parts keeps. -/
theorem keeps_assemble_of_parts (hrestart : ∀ b : Block, b.id = id → P b → P b.restart)
    (hinfer : ∀ p b, b.id = id → P b → P ((Block.inferSchedule g c p).outcome b).2)
    (hindex : ∀ b : Block, b.id = id → P b → P b.index)
    (hseeds : ∀ b : Block, b.id = id → P b → P ((Block.designateSeeds g).outcome b).2)
    (hsettle : ∀ p b r, b.id = id → P b → (settleEntries g c b p b.marginalTable = .ok () r ∨
        ∃ f, settleEntries g c b p b.marginalTable = .error f r) →
      P { b with marginalTable := r.1 }) :
    Keeps (Each P) (assemble g c id) := by
  unfold assemble
  refine Keeps.bind (keeps_replaceBlock fun b b' hid hb h => ?_) fun _ =>
    Keeps.bind (keeps_modify fun _ => rfl) fun _ =>
    Keeps.bind (keeps_onBlock hinfer) fun _ =>
    Keeps.bind (keeps_replaceBlock fun b b' hid hb h => ?_) fun _ =>
    Keeps.bind (keeps_onBlock fun _ => hseeds) fun _ => keeps_settleMarginals hsettle
  · cases h
    exact hrestart b hid hb
  · cases h
    exact hindex b hid hb

/-- **Assembling keeps what the skeleton of the block tells**, and all that is told of others. -/
theorem keeps_assemble
    (hP : ∀ b b' : Block, b.id = id → b'.skeleton = b.skeleton → P b → P b') :
    Keeps (Each P) (assemble g c id) :=
  keeps_assemble_of_parts (fun b hid hb => hP b _ hid b.skeleton_restart hb)
    (fun p b hid hb => hP b _ hid (Block.keeps_inferSchedule g c p _ b rfl) hb)
    (fun b hid hb => hP b _ hid rfl hb)
    (fun b hid hb => hP b _ hid (Block.keeps_designateSeeds g _ b rfl) hb)
    fun _ b _ hid hb hr =>
      hP b _ hid (Block.skeleton_eq rfl rfl rfl rfl (bare_settleEntries hr).1) hb

/-! ### What the blocks share -/

section Shared

variable {I : Posterior → Prop} (hput : ∀ p b, I p → I (p.putBlock b))

include hput

theorem keeps_onBlock_shared {α : Type} {x : Posterior → Attempt Block α} :
    Keeps I (onBlock id x) :=
  keeps_onBlock_of fun p _ hp _ => hput p _ hp

/-- Assembling keeps of what the blocks share all that neither a block nor a type changes. -/
theorem keeps_assemble_shared (hforget : ∀ p, I p → I (p.forgetPhases id))
    (htypes : ∀ p t, I p → I { p with marginalTypes := t }) : Keeps I (assemble g c id) := by
  refine keeps_assemble_of_put (fun p _ b' hp _ _ => hput p b' hp) hforget fun p b r hp _ hr => ?_
  obtain ⟨l, q⟩ := r
  obtain ⟨-, t, rfl⟩ := bare_settleEntries hr
  exact hput _ _ (htypes p t hp)

end Shared

/-- Assembling a block leaves the others as they are. -/
theorem get?_of_assemble {p : Posterior} {k : String} (hp : Each (fun _ => True) p) (hk : k ≠ id) :
    ((assemble g c id).outcome p).2.blocks.get? k = p.blocks.get? k := by
  have hother : ∀ d d' : Block, d.id = id → d'.skeleton = d.skeleton → d'.id ≠ k :=
    fun d d' hd h hd' => hk (hd'.symm.trans
      ((Block.id_of_outline (Block.outline_of_skeleton h)).trans hd))
  cases hb : p.blocks.get? k with
  | none =>
    have hnone : Keeps (Each fun d => d.id ≠ k) (assemble g c id) :=
      keeps_assemble fun d d' hd h _ => hother d d' hd h
    by_contra hne
    obtain ⟨d, hd⟩ := Option.ne_none_iff_exists'.mp hne
    have hall := hnone p (fun j d hd => ⟨(hp j d hd).1, fun hdk => ?_⟩) k d hd
    · exact hall.2 hall.1
    · rw [← (hp j d hd).1, hdk, hb] at hd
      contradiction
  | some b =>
    have hsome : Keeps (fun q : Posterior => (q.blocks.get? k).isSome) (assemble g c id) :=
      keeps_assemble_shared (fun q d hq => by rw [get?_putBlock]; split <;> simp [hq])
        (fun _ h => h) fun _ _ h => h
    have hsame : Keeps (Each fun d => d.id = k → d = b) (assemble g c id) :=
      keeps_assemble fun d d' hd h _ hd' => absurd hd' (hother d d' hd h)
    obtain ⟨d, hd⟩ := Option.isSome_iff_exists.mp (hsome p (Option.isSome_of_eq_some hb))
    have hall := hsame p (fun j d hd => ⟨(hp j d hd).1, fun hdk => ?_⟩) k d hd
    · rw [hd, hall.2 hall.1]
    · rw [← (hp j d hd).1, hdk, hb] at hd
      exact (Option.some.inj hd).symm

theorem keeps_makeRunnable
    (hP : ∀ b : Block, b.id = id → P b → P { b with runnable := true }) :
    Keeps (Each P) (makeRunnable id) := by
  unfold makeRunnable
  refine Keeps.bind (keeps_replaceBlock fun b b' hid hb h => ?_) fun _ => Keeps.pure _
  obtain ⟨_, -, rfl⟩ := map_eq_ok.mp h
  exact hP b hid hb

section Rounds

variable {I : Posterior → Prop} (ha : ∀ id, Keeps I (assemble g c id))

include ha

theorem keeps_assembleRound (l : List String) : Keeps I (assembleRound g c l) := by
  induction l with
  | nil => exact Keeps.pure _
  | cons id l ih =>
    intro p hp
    unfold Attempt.outcome assembleRound
    cases hx : assemble g c id p with
    | ok _ q => exact ih q ((ha id).of_ok hp hx)
    | error f q =>
      have hq := (ha id).of_error hp hx
      dsimp only
      by_cases hf : f.kind = .unresolvedMarginal
      · rw [if_pos hf]
        cases hr : assembleRound g c l q with
        | ok w r => exact ih.of_ok hq hr
        | error f' r => exact ih.of_error hq hr
      · rw [if_neg hf]
        exact hq

theorem keeps_assembleAll (l : List String) : Keeps I (assembleAll g c l) := by
  intro p
  fun_induction assembleAll g c l p with
  | case1 l p f q hr =>
    intro hp
    unfold Attempt.outcome
    rw [assembleAll, hr]
    exact (keeps_assembleRound ha l).of_error hp hr
  | case2 l p w q hr hw =>
    intro hp
    unfold Attempt.outcome
    rw [assembleAll, hr]
    dsimp only
    rw [hw]
    exact (keeps_assembleRound ha l).of_ok hp hr
  | case3 l p w q hr id f hw hlt ih =>
    intro hp
    have h := ih ((keeps_assembleRound ha l).of_ok hp hr)
    unfold Attempt.outcome at h ⊢
    rw [assembleAll, hr]
    dsimp only
    rw [hw]
    dsimp only
    rwa [if_pos hlt]
  | case4 l p w q hr id f hw hlt =>
    intro hp
    unfold Attempt.outcome
    rw [assembleAll, hr]
    dsimp only
    rw [hw]
    dsimp only
    rw [if_neg hlt]
    exact (keeps_assembleRound ha l).of_ok hp hr

end Rounds

/-! ## What scheduling keeps -/

theorem keeps_scheduleBlock (hP : OfOutline P) (sites : List InterfaceId) :
    Keeps (Each P) (scheduleBlock g sites id) := by
  unfold scheduleBlock
  refine Keeps.bind (keeps_replaceBlock fun b b' _ hb h => ?_) fun _ =>
    Keeps.bind (keeps_modify fun _ => rfl) fun _ => Keeps.pure _
  exact hP b b' (Block.outline_of_withSchedule h) hb

theorem keeps_tabulateBlock (hP : OfOutline P) : Keeps (Each P) (tabulateBlock g id) :=
  keeps_replaceBlock fun b b' _ hb h => hP b b' (Block.outline_of_withMarginalTable h) hb

theorem keeps_prepare {I : Posterior → Prop} {sites : List InterfaceId}
    (hs : Keeps I (scheduleBlock g sites id)) (ht : Keeps I (tabulateBlock g id))
    (hw : ∀ p w, I p → I (p.warn w)) (reject : Bool) : Keeps I (prepare g sites reject id) := by
  have hrest : Keeps I (do
      let _ ← scheduleBlock g sites id
      let _ ← tabulateBlock g id : Attempt Posterior Unit) :=
    Keeps.bind hs fun _ => Keeps.bind ht fun _ => Keeps.pure _
  unfold prepare
  refine Keeps.bind Keeps.get fun p => Keeps.bind (Keeps.ofExcept _) fun b => ?_
  have hwarn := Keeps.modify fun p => hw p (.collider id)
  split
  · cases reject with
    | true => exact Keeps.bind (Keeps.throw _) fun _ => Keeps.bind hwarn fun _ => hrest
    | false => exact Keeps.bind hwarn fun _ => hrest
  · exact hrest

theorem keeps_prepare_ofOutline (hP : OfOutline P) (sites : List InterfaceId) (reject : Bool) :
    Keeps (Each P) (prepare g sites reject id) :=
  keeps_prepare (keeps_scheduleBlock hP sites) (keeps_tabulateBlock hP) (fun _ _ h => h) reject

/-- A compilation keeps what each of its parts keeps. -/
theorem keeps_compile_of {I : Posterior → Prop}
    (hs : ∀ sites id, Keeps I (scheduleBlock g sites id)) (ht : ∀ id, Keeps I (tabulateBlock g id))
    (hw : ∀ p w, I p → I (p.warn w)) (ha : ∀ id, Keeps I (assemble g c id))
    (hm : ∀ id, Keeps I (makeRunnable id)) (sites : List InterfaceId) (reject : Option Bool) :
    Keeps I (compile g c sites reject) := by
  unfold compile
  exact Keeps.bind Keeps.get fun p =>
    Keeps.bind (Keeps.forM fun id _ => keeps_prepare (hs sites id) (ht id) hw _) fun _ =>
    Keeps.bind (keeps_assembleAll ha _) fun _ =>
    Keeps.bind (Keeps.forM fun id _ => hm id) fun _ => Keeps.pure _

theorem keeps_compile (hP : OfOutline P)
    (hrun : ∀ b : Block, P b → P { b with runnable := true }) (sites : List InterfaceId)
    (reject : Option Bool) : Keeps (Each P) (compile g c sites reject) :=
  keeps_compile_of (fun sites _ => keeps_scheduleBlock hP sites) (fun _ => keeps_tabulateBlock hP)
    (fun _ _ h => h) (fun _ => keeps_assemble fun b b' _ => hP.ofSkeleton b b')
    (fun _ => keeps_makeRunnable fun b _ => hrun b) sites reject

theorem keeps_constrain (hP : OfOutline P) (i : Int) (type : Option TypeTerm)
    (method : Option String) :
    Keeps (Each P) (onBlock id fun _ => Block.constrain i type method) := by
  refine keeps_onBlock fun p b _ hb => ?_
  unfold Attempt.outcome Block.constrain
  cases b.schedule.find? fun e => Int.ofNat e.interface = i with
  | none => exact hb
  | some e => exact hP b _ rfl hb

/-! ## Posteriors that are built -/

/-- The posteriors that operations lead to on a graph that does not change, whether they succeed or
fail. A run moves the seeds on, and warnings are passed to the caller. -/
inductive Built (g : Graph) : Posterior → Prop
  | fresh (o : Options) : Built g { options := o }
  | addBlock {p : Posterior} (hp : Built g p) (requested : List String) (id : Option String) :
      Built g ((Posterior.addBlock g requested id).outcome p).2
  | schedule {p : Posterior} (hp : Built g p) (sites : List InterfaceId) (id : String) :
      Built g ((scheduleBlock g sites id).outcome p).2
  | tabulate {p : Posterior} (hp : Built g p) (id : String) :
      Built g ((tabulateBlock g id).outcome p).2
  | constrain {p : Posterior} (hp : Built g p) (id : String) (i : Int) (type : Option TypeTerm)
      (method : Option String) :
      Built g ((onBlock id fun _ => Block.constrain i type method).outcome p).2
  | assemble {p : Posterior} (hp : Built g p) (c : Catalogue) (id : String) :
      Built g ((Posterior.assemble g c id).outcome p).2
  | makeRunnable {p : Posterior} (hp : Built g p) (id : String) :
      Built g ((Posterior.makeRunnable id).outcome p).2
  | compile {p : Posterior} (hp : Built g p) (c : Catalogue) (sites : List InterfaceId)
      (reject : Option Bool) : Built g ((Posterior.compile g c sites reject).outcome p).2
  | report {p : Posterior} (hp : Built g p) (phases : Table (String × InterfaceId) Phase)
      (warnings : List Warning) : Built g { p with phases, warnings }

/-- **What holds of a fresh posterior and is kept by each operation holds of all that are built.**
-/
theorem Built.of_keeps {I : Posterior → Prop} {p : Posterior} (h : Built g p)
    (hfresh : ∀ o, I { options := o })
    (hadd : ∀ requested id, Keeps I (Posterior.addBlock g requested id))
    (hs : ∀ sites id, Keeps I (scheduleBlock g sites id)) (ht : ∀ id, Keeps I (tabulateBlock g id))
    (hconstrain : ∀ id i type method,
      Keeps I (onBlock id fun _ => Block.constrain i type method))
    (ha : ∀ c id, Keeps I (Posterior.assemble g c id))
    (hm : ∀ id, Keeps I (Posterior.makeRunnable id))
    (hreport : ∀ p phases warnings, I p → I { p with phases, warnings }) : I p := by
  induction h with
  | fresh o => exact hfresh o
  | addBlock _ requested id ih => exact hadd requested id _ ih
  | schedule _ sites id ih => exact hs sites id _ ih
  | tabulate _ id ih => exact ht id _ ih
  | constrain _ id i type method ih => exact hconstrain id i type method _ ih
  | assemble _ c id ih => exact ha c id _ ih
  | makeRunnable _ id ih => exact hm id _ ih
  | compile _ c sites reject ih =>
    exact keeps_compile_of hs ht (fun p w hp => hreport p p.phases (p.warnings ++ [w]) hp) (ha c) hm
      sites reject _ ih
  | report _ phases warnings ih => exact hreport _ phases warnings ih

theorem foldl_registerEdge_eq (id : String) (l : List EdgeId) (p : Posterior) :
    l.foldl (registerEdge id) p =
      { p with
        owners := (l.map (·, id)).foldl (fun t b => t.insert b.1 b.2) p.owners
        warnings := p.warnings ++ (p.owners.overwritten (l.map (·, id))).map fun r =>
          .edgeMoves r.1.1 r.2 r.1.2 } := by
  induction l generalizing p with
  | nil => simp [Table.overwritten]
  | cons e l ih =>
    rw [List.foldl_cons, ih, List.map_cons, Table.overwritten_cons]
    unfold registerEdge
    cases p.owners.get? e with
    | none => simp [Option.filter]
    | some old => by_cases hold : old = id <;> simp [hold, Option.filter, warn]

/-- Where the clusters of a block stand for edges. -/
def clusterPlaces (l : List Cluster) : List ((NodeId × EdgeId) × Cluster) :=
  l.flatMap fun x => x.edges.map fun e => ((x.node, e), x)

theorem mem_clusterPlaces {l : List Cluster} {x : (NodeId × EdgeId) × Cluster} :
    x ∈ clusterPlaces l ↔ x.2 ∈ l ∧ x.1.1 = x.2.node ∧ x.1.2 ∈ x.2.edges := by
  unfold clusterPlaces
  rw [List.mem_flatMap]
  constructor
  · rintro ⟨y, hy, hx⟩
    obtain ⟨e, he, rfl⟩ := List.mem_map.mp hx
    exact ⟨hy, rfl, he⟩
  · rintro ⟨hx, hn, he⟩
    refine ⟨x.2, hx, List.mem_map.mpr ⟨x.1.2, he, ?_⟩⟩
    rw [← hn]

theorem foldl_registerCluster_eq (l : List Cluster) (p : Posterior) :
    l.foldl registerCluster p =
      { p with
        clusters := (clusterPlaces l).foldl (fun t b => t.insert b.1 b.2) p.clusters
        warnings := p.warnings ++ (p.clusters.overwritten (clusterPlaces l)).map fun r =>
          .clusterMoves r.1.1.1 r.1.1.2 r.2 r.1.2 } := by
  have hplaces : l.foldl registerCluster p =
      (clusterPlaces l).foldl (fun p x => registerClusterEdge x.2 p x.1.2) p := by
    unfold clusterPlaces registerCluster
    simp only [List.foldl_flatMap, List.foldl_map]
  have hnode : ∀ x ∈ clusterPlaces l, x.1.1 = x.2.node := fun x hx => (mem_clusterPlaces.mp hx).2.1
  rw [hplaces]
  clear hplaces
  generalize clusterPlaces l = places at hnode
  induction places generalizing p with
  | nil => simp [Table.overwritten]
  | cons x places ih =>
    obtain ⟨⟨n, e⟩, c⟩ := x
    obtain rfl : n = c.node := hnode _ List.mem_cons_self
    rw [List.foldl_cons, ih _ fun y hy => hnode y (List.mem_cons_of_mem _ hy),
      Table.overwritten_cons]
    unfold registerClusterEdge
    cases p.clusters.get? (c.node, e) with
    | none => simp [Option.filter]
    | some old => by_cases hold : old = c <;> simp [hold, Option.filter, warn]

/-- Registering a block adds that block, gives it the edges at its border and lets its clusters
stand for their edges. There is a warning for each binding that is overwritten, first for the edges.
-/
theorem register_eq_overwritten (g : Graph) (p : Posterior) (b : Block) :
    p.register g b =
      { p.putBlock b with
        owners := ((Block.boundaryEdges g b.internal).map (·, b.id)).foldl
          (fun t b => t.insert b.1 b.2) p.owners
        clusters := (clusterPlaces b.clusters).foldl (fun t b => t.insert b.1 b.2) p.clusters
        warnings := p.warnings ++
          ((p.owners.overwritten ((Block.boundaryEdges g b.internal).map (·, b.id))).map fun r =>
            .edgeMoves r.1.1 r.2 r.1.2) ++
          (p.clusters.overwritten (clusterPlaces b.clusters)).map fun r =>
            .clusterMoves r.1.1.1 r.1.1.2 r.2 r.1.2 } := by
  unfold register
  rw [foldl_registerEdge_eq, foldl_registerCluster_eq]
  rfl

theorem register_eq (g : Graph) (p : Posterior) (b : Block) : ∃ owners warnings,
    p.register g b =
      { p.putBlock b with
        owners
        clusters := (clusterPlaces b.clusters).foldl (fun t b => t.insert b.1 b.2) p.clusters
        warnings } :=
  ⟨_, _, register_eq_overwritten g p b⟩

theorem blocks_register (g : Graph) (p : Posterior) (b : Block) :
    (p.register g b).blocks = (p.putBlock b).blocks := by
  obtain ⟨owners, warnings, h⟩ := register_eq g p b
  rw [h]

/-- Adding a block fails with a name used up at most, or it registers a block under a free name. -/
theorem addBlock_cases (g : Graph) (requested : List String) (id : Option String) (p : Posterior) :
    ∃ ids, (∃ f, addBlock g requested id p = .error f { p with ids }) ∨
      ∃ b, Block.ofVariables g b.id requested = .ok b ∧ p.blocks.get? b.id = none ∧
        addBlock g requested id p = .ok b (register g { p with ids } b) := by
  have hname : ∃ name ids, p.nameBlock id = (name, { p with ids }) := by
    unfold nameBlock
    cases id with
    | some name => exact ⟨name, p.ids, rfl⟩
    | none => exact ⟨_, _, rfl⟩
  obtain ⟨name, ids, hname⟩ := hname
  refine ⟨ids, ?_⟩
  unfold addBlock Table.contains
  rw [hname]
  dsimp only
  cases hb : Block.ofVariables g name requested with
  | error f => exact Or.inl ⟨f, rfl⟩
  | ok b =>
    obtain rfl := (Block.of_ofVariables hb).1
    dsimp only
    cases hfree : p.blocks.get? b.id with
    | some d => exact Or.inl ⟨_, rfl⟩
    | none => exact Or.inr ⟨b, hb, hfree, rfl⟩

theorem keeps_addBlock (hP : ∀ b requested, Block.ofVariables g b.id requested = .ok b → P b)
    (requested : List String) (id : Option String) : Keeps (Each P) (addBlock g requested id) := by
  intro p hp
  obtain ⟨ids, ⟨f, h⟩ | ⟨b, hb, -, h⟩⟩ := addBlock_cases g requested id p
  · rw [Attempt.outcome_snd_of_error h]
    exact hp
  · rw [Attempt.outcome_snd_of_ok h]
    unfold Each
    rw [blocks_register]
    exact Each.putBlock (p := { p with ids }) hp (hP b requested hb)

/-- **The outline of every block is the one that was made for some variables.** -/
theorem Built.madeFor {p : Posterior} (h : Built g p) : Each (Block.MadeFor g) p := by
  have hP := Block.madeFor_ofOutline g
  refine h.of_keeps (fun _ _ _ h => nomatch h) (keeps_addBlock fun b l h => ⟨l, ?_⟩)
    (fun sites _ => keeps_scheduleBlock hP sites) (fun _ => keeps_tabulateBlock hP)
    (fun _ => keeps_constrain hP) (fun _ _ => keeps_assemble fun b b' _ => hP.ofSkeleton b b')
    (fun _ => keeps_makeRunnable fun b _ => hP b _ rfl) fun _ _ _ h => h
  rw [(Block.of_ofVariables h).2]
  exact h

end Posterior

end MessagePassing
