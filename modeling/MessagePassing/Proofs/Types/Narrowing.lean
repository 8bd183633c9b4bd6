import MessagePassing.Proofs.Types.Layers
import MessagePassing.Proofs.Types.Plain

/-!
# How far a constraint narrows a choice

A rule that works on whole things meets the constraint of the caller as a whole. If factors are
taken one by one, each layer that is taken off the types is taken off the constraint as well, with
its number of factors, and what is left is met by the type of a single factor. The layers that are
put back have the numbers of factors that arrived, and these are not compared with the constraint.

Results:
* `solves_iff_of_isGround`, `forall₂_solves_iff_of_allGround`: ground patterns are solved by
  themselves only.
* `solves_withLayers`: layers of factors are solved together with what is below them.
* **`narrowed_of_constrained`**: below the layers a constraint is met, and as a whole just when it
  has the numbers of factors that arrive.
-/

namespace MessagePassing

namespace TypeTerm

/-! ## Ground patterns -/

section Ground

variable {s : Bindings}

mutual

theorem solves_self : ∀ {p : TypeTerm}, p.isGround = true → Solves s p p
  | void, _ => ⟨binds_nil, .void⟩
  | any, hp => by simp [isGround] at hp
  | var _, hp => by simp [isGround] at hp
  | dist _ _, hp => by
    rw [isGround] at hp
    exact solves_dist.mpr ⟨rfl, forall₂_solves_self hp⟩
  | message _, hp => by
    rw [isGround] at hp
    exact solves_message.mpr (solves_self hp)
  | partitioned _ _, hp => by
    rw [isGround, Bool.and_eq_true] at hp
    exact solves_partitioned.mpr ⟨solves_self hp.1, solves_self hp.2⟩
  | approx _ _, hp => by
    rw [isGround] at hp
    exact solves_approx.mpr ⟨rfl, solves_self hp⟩
  | num _, _ => solves_num.mpr rfl
  | text _, _ => solves_text.mpr rfl

theorem forall₂_solves_self : ∀ {ps : List TypeTerm}, allGround ps = true →
    List.Forall₂ (Solves s) ps ps
  | [], _ => .nil
  | _ :: _, hps => by
    rw [allGround, Bool.and_eq_true] at hps
    exact .cons (solves_self hps.1) (forall₂_solves_self hps.2)

end

/-- A ground pattern is solved by itself only. -/
theorem solves_iff_of_isGround {p t : TypeTerm} (hp : p.isGround = true) :
    Solves s p t ↔ p = t := by
  constructor
  · intro h
    exact (eq_of_admits hp (admits_iff.mpr ⟨s, h⟩)).symm
  · rintro rfl
    exact solves_self hp

/-- Ground patterns are solved by themselves only. -/
theorem forall₂_solves_iff_of_allGround {ps ts : List TypeTerm} (hps : allGround ps = true) :
    List.Forall₂ (Solves s) ps ts ↔ ps = ts := by
  constructor
  · intro h
    induction h with
    | nil => rfl
    | cons hhead _ ih =>
      rw [allGround, Bool.and_eq_true] at hps
      rw [(solves_iff_of_isGround hps.1).mp hhead, ih hps.2]
  · rintro rfl
    exact forall₂_solves_self hps

end Ground

/-! ## Patterns with layers -/

/-- One factor of a ground type is ground. -/
theorem isGround_element {t : TypeTerm} (h : t.isGround = true) : t.element.isGround = true := by
  unfold element peel?
  split <;> simp_all [isGround]

theorem isGround_iterate_element {d : TypeTerm} (h : d.isGround = true) (n : Nat) :
    (element^[n] d).isGround = true := by
  induction n generalizing d with
  | zero => exact h
  | succ n ih => exact ih (isGround_element h)

section Layers

variable {s : Bindings} {p t : TypeTerm} {ns counts : List TypeTerm}

/-- Below its layers a pattern is what the layers are around. -/
theorem element_withLayers (p : TypeTerm) (ns : List TypeTerm) :
    element^[ns.length] (p.withLayers ns) = p := by
  induction ns with
  | nil => rfl
  | cons n ns ih => exact ih

/-- Layers of factors are solved together with what is below them. -/
theorem solves_withLayers (h : ns.length = counts.length) :
    Solves s (p.withLayers ns) (t.withLayers counts) ↔
      Solves s p t ∧ List.Forall₂ (Solves s) ns counts := by
  induction ns generalizing counts with
  | nil =>
    obtain rfl := List.length_eq_zero_iff.mp h.symm
    exact (and_iff_left .nil).symm
  | cons n ns ih =>
    cases counts with
    | nil => contradiction
    | cons k counts =>
      rw [withLayers_cons, withLayers_cons, solves_partitioned, ih (Nat.succ.inj h),
        List.forall₂_cons, and_assoc, and_comm (a := Solves s n k)]

end Layers

end TypeTerm

/-! ## Constraints -/

/-- An update or a product is resolved under a constraint, for these types in the order in which the
rule takes them. -/
inductive Catalogue.Constrained (c : Catalogue) (d : TypeTerm) : List TypeTerm → Resolution → Prop
  | update {q : Request} {r : Resolution} (hd : q.constraint = some d) (h : c.resolve q = .ok r) :
      Constrained c d q.inbounds r
  | product {first second : TypeTerm} {r : Resolution}
      (h : c.resolveProduct first second (some d) = .ok r) :
      Constrained c d (if r.swapped then [second, first] else [first, second]) r

/-- How far a constraint narrows a resolution, for types from which these layers are taken off. -/
structure Resolution.Narrowed (r : Resolution) (d : TypeTerm)
    (types counts elements : List TypeTerm) (t : TypeTerm) : Prop where
  /-- A rule that works on whole things meets the constraint. -/
  whole : r.oneByOne = false → d.admits r.outbound = true
  oneByOne : counts = [] ↔ r.oneByOne = false
  peeled : PeeledAll counts types elements
  outbound : r.outbound = t.withLayers counts
  /-- Below the layers, what is left of the constraint is met. -/
  below : (TypeTerm.element^[counts.length] d).admits t = true
  /-- A constraint with as many layers is met if its numbers of factors agree as well. -/
  layered : ∀ p ns, d = .withLayers ns p → ns.length = counts.length →
    (d.admits r.outbound = true ↔
      ∃ s, TypeTerm.Solves s p t ∧ List.Forall₂ (TypeTerm.Solves s) ns counts)
  /-- Given numbers of factors have to be those that arrive. -/
  counted : ∀ p ns, d = .withLayers ns p → ns.length = counts.length →
    TypeTerm.allGround ns = true → (d.admits r.outbound = true ↔ ns = counts)
  /-- Of a ground constraint, everything but the layers is in the outcome. -/
  ground : d.isGround = true → r.outbound = (TypeTerm.element^[counts.length] d).withLayers counts

section Constraints

variable {c : Catalogue} {d : TypeTerm} {types : List TypeTerm} {r : Resolution}

theorem Catalogue.Constrained.exists_request (h : c.Constrained d types r) :
    ∃ (q : Request) (s : Resolution), q.constraint = some d ∧ q.inbounds = types ∧
      c.resolve q = .ok s ∧ s.outbound = r.outbound ∧ s.oneByOne = r.oneByOne := by
  cases h with
  | update hd h => exact ⟨_, r, hd, rfl, h, rfl, rfl⟩
  | product h => exact ⟨_, _, rfl, rfl, resolve_of_resolveProduct h, rfl, rfl⟩

/-- **How far a constraint narrows a choice.** A rule that works on whole things meets it. Below the
layers of factors that are taken off, what is left of it is met. A constraint with as many layers is
met as a whole just when its numbers of factors agree with those that arrive. -/
theorem narrowed_of_constrained (h : c.Constrained d types r) :
    ∃ counts elements t, r.Narrowed d types counts elements t := by
  obtain ⟨q, s, hd, rfl, hs, hout, honeByOne⟩ := h.exists_request
  obtain ⟨counts, elements, t, hlayered⟩ := layered_of_resolve hs
  have houtbound : r.outbound = t.withLayers counts := hout ▸ hlayered.outbound
  have hbelow := hlayered.constraint d hd
  have hlayers : ∀ p ns, d = .withLayers ns p → ns.length = counts.length →
      (d.admits r.outbound = true ↔
        ∃ s, TypeTerm.Solves s p t ∧ List.Forall₂ (TypeTerm.Solves s) ns counts) := by
    rintro p ns rfl hlength
    rw [houtbound, TypeTerm.admits_iff]
    exact exists_congr fun s => TypeTerm.solves_withLayers hlength
  refine ⟨counts, elements, t, ?_, honeByOne ▸ hlayered.oneByOne, hlayered.peeled, houtbound,
    hbelow, hlayers, fun p ns hp hlength hground => ?_, fun hground => ?_⟩
  · intro hr
    obtain rfl := hlayered.oneByOne.mpr (honeByOne.trans hr)
    rwa [houtbound]
  · -- some bindings solve what is below the layers, and ground numbers ask for nothing else
    obtain ⟨b, hb⟩ : ∃ b, TypeTerm.Solves b p t := by
      rw [← hlength, hp, TypeTerm.element_withLayers] at hbelow
      exact TypeTerm.admits_iff.mp hbelow
    rw [hlayers p ns hp hlength]
    constructor
    · rintro ⟨s, -, hs⟩
      exact (TypeTerm.forall₂_solves_iff_of_allGround hground).mp hs
    · rintro rfl
      exact ⟨b, hb, TypeTerm.forall₂_solves_self hground⟩
  · rw [houtbound, TypeTerm.eq_of_admits (TypeTerm.isGround_iterate_element hground _) hbelow]

end Constraints

/-- So many factors of a Gaussian. -/
def gaussians (n : Int) : TypeTerm :=
  .partitioned (.dist "Gaussian" [.num 1]) (.num n)

/-- Factors of a Gaussian are resolved one by one, whatever number of them is asked for. -/
theorem resolve_gaussians (n m : Int) :
    gainCatalogue.resolve (gainRequest (gaussians n) (some (gaussians m))) =
      .ok { gainResolution with outbound := gaussians n, oneByOne := true } := by
  have hdescends : gainCatalogue.Descends (gainRequest (gaussians n) (some (gaussians m))) (.num n)
      (gainRequest (.dist "Gaussian" [.num 1]) (some (.dist "Gaussian" [.num 1]))) :=
    descends_gain rfl
  rw [resolve_of_descends hdescends, resolve_of_some (r := gainResolution) rfl]
  rfl

/-- Two factors are asked for, and two arrive. -/
theorem narrowed_gaussians :
    gainCatalogue.Constrained (gaussians 2) [.void, .message (gaussians 2)]
        { gainResolution with outbound := gaussians 2, oneByOne := true } ∧
      ∃ counts elements t, Resolution.Narrowed
        { gainResolution with outbound := gaussians 2, oneByOne := true } (gaussians 2)
        [.void, .message (gaussians 2)] counts elements t :=
  have h : gainCatalogue.Constrained (gaussians 2) [.void, .message (gaussians 2)]
      { gainResolution with outbound := gaussians 2, oneByOne := true } :=
    .update (q := gainRequest (gaussians 2) (some (gaussians 2))) rfl (resolve_gaussians 2 2)
  ⟨h, narrowed_of_constrained h⟩

/-- Three factors are asked for, and two arrive: the outcome has two, and breaks the constraint. -/
theorem not_admits_gaussians :
    ∃ r, gainCatalogue.resolve (gainRequest (gaussians 2) (some (gaussians 3))) = .ok r ∧
      (gaussians 3).isPartitioned = true ∧ (gaussians 3).admits r.outbound = false :=
  ⟨_, resolve_gaussians 2 3, rfl, by decide⟩

end MessagePassing
