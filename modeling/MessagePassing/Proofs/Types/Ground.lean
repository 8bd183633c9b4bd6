import MessagePassing.Assembly.Marginals
import MessagePassing.Proofs.Types.Products

/-!
# Ground types

A type is ground if no variable of a pattern and no wildcard occurs in it. Declarations of edges may
have both. They are no types of messages then: only a ground declaration stands in for a type that
is not known yet, and a rule that leaves its outbound type open is refused.

* `TypeTerm.Occurs` says where terms stand in a term, `TypeTerm.Ground` that what stands there is no
  variable and no wildcard.

Results:
* `TypeTerm.ground_iff`: the check is for just that.
* **`ground_of_resolve`**: from ground types follows a ground type, on whatever layer of factors the
  rule is found and however it computes its outbound type.
* **`Posterior.ground_of_sourceType`**: the type of a source is ground, if those are that are known.
-/

namespace MessagePassing

namespace TypeTerm

/-- A term stands somewhere in another one. -/
inductive Occurs (s : TypeTerm) : TypeTerm → Prop
  | here : Occurs s s
  | param {family : String} {ps : List TypeTerm} {p : TypeTerm} (hp : p ∈ ps) (h : Occurs s p) :
      Occurs s (dist family ps)
  | payload {t : TypeTerm} (h : Occurs s t) : Occurs s (message t)
  | element {e k : TypeTerm} (h : Occurs s e) : Occurs s (partitioned e k)
  | count {e k : TypeTerm} (h : Occurs s k) : Occurs s (partitioned e k)
  | target {t : TypeTerm} {method : String} (h : Occurs s t) : Occurs s (approx t method)

/-- No variable and no wildcard stands in the term. -/
structure Ground (t : TypeTerm) : Prop where
  any : ¬Occurs any t
  var : ∀ n, ¬Occurs (var n) t

variable {s t e k : TypeTerm}

theorem allGround_iff {ps : List TypeTerm} :
    allGround ps = true ↔ ∀ p ∈ ps, p.isGround = true := by
  induction ps with
  | nil => simp [allGround]
  | cons p ps ih => rw [allGround, Bool.and_eq_true, ih, List.forall_mem_cons]

/-- What stands in a term that passes the check passes it. -/
theorem Occurs.isGround (h : Occurs s t) (ht : t.isGround = true) : s.isGround = true := by
  induction h with
  | here => exact ht
  | param hp _ ih =>
    rw [TypeTerm.isGround, allGround_iff] at ht
    exact ih (ht _ hp)
  | payload _ ih | target _ ih =>
    rw [TypeTerm.isGround] at ht
    exact ih ht
  | element _ ih =>
    rw [TypeTerm.isGround, Bool.and_eq_true] at ht
    exact ih ht.1
  | count _ ih =>
    rw [TypeTerm.isGround, Bool.and_eq_true] at ht
    exact ih ht.2

mutual

/-- A term without variables and wildcards passes the check. -/
theorem Ground.isGround : ∀ {t : TypeTerm}, t.Ground → t.isGround = true
  | any, h => absurd .here h.any
  | var n, h => absurd .here (h.var n)
  | dist _ ps, h => by
    rw [TypeTerm.isGround]
    exact allGround_of_forall fun p hp => ⟨fun ha => h.any (.param hp ha), fun n hn =>
      h.var n (.param hp hn)⟩
  | message t, h => by
    rw [TypeTerm.isGround]
    exact Ground.isGround ⟨fun ha => h.any (.payload ha), fun n hn => h.var n (.payload hn)⟩
  | approx t _, h => by
    rw [TypeTerm.isGround]
    exact Ground.isGround ⟨fun ha => h.any (.target ha), fun n hn => h.var n (.target hn)⟩
  | partitioned e k, h => by
    rw [TypeTerm.isGround, Bool.and_eq_true]
    exact ⟨Ground.isGround ⟨fun ha => h.any (.element ha), fun n hn => h.var n (.element hn)⟩,
      Ground.isGround ⟨fun ha => h.any (.count ha), fun n hn => h.var n (.count hn)⟩⟩
  | void, _ | num _, _ | text _, _ => rfl

theorem allGround_of_forall : ∀ {ps : List TypeTerm}, (∀ p ∈ ps, p.Ground) → allGround ps = true
  | [], _ => rfl
  | p :: ps, h => by
    rw [allGround, Ground.isGround (h p List.mem_cons_self),
      allGround_of_forall fun q hq => h q (List.mem_cons_of_mem p hq)]
    rfl

end

/-- **The check is for variables and wildcards, wherever they stand.** -/
theorem ground_iff : t.Ground ↔ t.isGround = true :=
  ⟨Ground.isGround, fun ht => ⟨fun h => Bool.false_ne_true (h.isGround ht), fun _ h =>
    Bool.false_ne_true (h.isGround ht)⟩⟩

theorem ground_void : Ground void :=
  ground_iff.mpr rfl

theorem ground_ofDims (family : String) (dims : List Int) : (ofDims family dims).Ground := by
  unfold ofDims
  rw [ground_iff, isGround, allGround_iff]
  intro p hp
  obtain ⟨n, -, rfl⟩ := List.mem_map.mp hp
  rfl

theorem Ground.message (h : t.Ground) : (message t).Ground := by
  rw [ground_iff, TypeTerm.isGround]
  exact h.isGround

theorem Ground.partitioned (he : e.Ground) (hk : k.Ground) : (partitioned e k).Ground := by
  rw [ground_iff, TypeTerm.isGround, he.isGround, hk.isGround]
  rfl

/-- A layer of factors of a ground type has a ground kind and a ground number. -/
theorem Ground.of_peel (h : t.Ground) (hp : t.peel? = some (e, k)) : e.Ground ∧ k.Ground := by
  rw [ground_iff] at h
  unfold peel? at hp
  split at hp
  · cases hp
    rw [TypeTerm.isGround, TypeTerm.isGround, Bool.and_eq_true] at h
    exact ⟨(ground_iff.mpr h.1).message, ground_iff.mpr h.2⟩
  · cases hp
    rw [TypeTerm.isGround, Bool.and_eq_true] at h
    exact ⟨ground_iff.mpr h.1, ground_iff.mpr h.2⟩
  · contradiction

end TypeTerm

open TypeTerm (Ground)

/-! ## Resolution -/

section Resolution

variable {c : Catalogue} {q : Request} {r : Resolution}

/-- A rule has a ground outbound type, be it computed or not. -/
theorem Rule.ground_of_outboundFor {rule : Rule} {node : Option Node} {b : Bindings}
    {t : TypeTerm} (h : rule.outboundFor node b = .ok t) : t.Ground := by
  obtain ⟨u, -, h⟩ := bind_eq_ok.mp h
  split at h
  · rename_i hu
    cases pure_eq_ok.mp h
    exact TypeTerm.ground_iff.mpr hu
  · contradiction

/-- What is left of ground types when a layer of factors is taken off is ground, and so is the
number of factors. -/
theorem ground_of_peeled {types elements : List TypeTerm} {k : TypeTerm}
    (h : Peeled k types elements) (hg : ∀ t ∈ types, t.Ground) :
    (∀ e ∈ elements, e.Ground) ∧ ((∃ t ∈ types, t.peel? ≠ none) → k.Ground) := by
  induction h with
  | nil => exact ⟨fun _ h => absurd h List.not_mem_nil, fun ⟨_, h, _⟩ => absurd h List.not_mem_nil⟩
  | @cons t e types elements hp _ ih =>
    obtain ⟨ht, hg⟩ := List.forall_mem_cons.mp hg
    obtain ⟨helements, hk⟩ := ih hg
    rcases hp with hp | ⟨rfl, rfl⟩
    · have hek := ht.of_peel hp
      exact ⟨List.forall_mem_cons.mpr ⟨hek.1, helements⟩, fun _ => hek.2⟩
    · refine ⟨List.forall_mem_cons.mpr ⟨TypeTerm.ground_void, helements⟩, fun ⟨u, hu, hne⟩ => ?_⟩
      rcases List.mem_cons.mp hu with rfl | hu
      · exact absurd rfl hne
      · exact hk ⟨u, hu, hne⟩

/-- **From ground types follows a ground type**, on whatever layer the rule is found. -/
theorem ground_of_resolve (hq : ∀ t ∈ q.inbounds, t.Ground) (h : c.resolve q = .ok r) :
    r.outbound.Ground := by
  refine resolve_induct (P := fun q r => (∀ t ∈ q.inbounds, t.Ground) → r.outbound.Ground)
    (fun q r hr _ => ?_) (fun q elements k s hpeel _ ih hg => ?_) h hq
  · exact Rule.ground_of_outboundFor (whole_of_resolveWhole hr).1.outbound
  · obtain ⟨hpeeled, hsome⟩ := peeled_of_peelLayer hpeel
    obtain ⟨helements, hk⟩ := ground_of_peeled hpeeled hg
    exact (ih helements).partitioned (hk hsome)

/-- So is the product of two messages of ground types. -/
theorem ground_of_resolveMarginal {g : Graph} {x : String} {first second : TypeTerm}
    (hfirst : first.Ground) (hsecond : second.Ground)
    (h : c.resolveMarginal g x first second = .ok r) : r.outbound.Ground := by
  refine ground_of_resolve (r := { r with swapped := false }) ?_ (resolve_of_resolveMarginal h)
  intro t ht
  split at ht
  · rcases List.mem_pair.mp ht with rfl | rfl
    · exact hsecond.message
    · exact hfirst.message
  · rcases List.mem_pair.mp ht with rfl | rfl
    · exact hfirst.message
    · exact hsecond.message

end Resolution

/-! ## Sources -/

section Tables

variable {α : Type} [DecidableEq α] {types : Table α TypeTerm}

/-- The types of a table are ground. -/
def GroundTable (types : Table α TypeTerm) : Prop :=
  ∀ k t, types.get? k = some t → t.Ground

theorem groundTable_empty : GroundTable (∅ : Table α TypeTerm) := fun _ _ h => nomatch h

theorem GroundTable.insert (h : GroundTable types) (k : α) {t : TypeTerm} (ht : t.Ground) :
    GroundTable (types.insert k t) := by
  intro k' u hu
  rw [Table.get?_insert] at hu
  split at hu
  · cases hu
    exact ht
  · exact h k' u hu

end Tables

namespace Posterior

variable {p : Posterior} {g : Graph} {known : Table InterfaceId TypeTerm} {n : NodeId}
  {t : TypeTerm}

theorem ground_of_messageType {i : InterfaceId} (hk : GroundTable known)
    (h : messageType g known i = .ok t) : t.Ground := by
  unfold messageType at h
  split at h
  · rename_i u hu
    cases h
    exact hk i _ hu
  · obtain ⟨e, -, h⟩ := bind_eq_ok.mp h
    split at h
    · rename_i u hu
      cases pure_eq_ok.mp h
      exact TypeTerm.ground_iff.mpr (Option.filter_eq_some_iff.mp hu).2
    · obtain ⟨_, -, h⟩ := bind_eq_ok.mp h
      contradiction

theorem ground_of_marginalType {x : Target} (hp : GroundTable p.marginalTypes)
    (h : p.marginalType g n x = .ok t) : t.Ground := by
  have hunknown : ∀ x, marginalType.unknown g n x ≠ .ok t := by
    intro x h
    obtain ⟨_, -, h⟩ := bind_eq_ok.mp h
    contradiction
  unfold marginalType at h
  split at h
  · rename_i u hu
    cases h
    exact hp _ _ hu
  · split at h
    · rename_i u hu
      cases h
      exact TypeTerm.ground_iff.mpr (Option.filter_eq_some_iff.mp hu).2
    · exact absurd h (hunknown _)
  · exact absurd h (hunknown _)

/-- **The type of a source is ground**, if the known types are, whatever is declared. -/
theorem ground_of_sourceType {s : Source} (hk : GroundTable known)
    (hp : GroundTable p.marginalTypes) (h : p.sourceType g known n s = .ok t) : t.Ground := by
  cases s with
  | nothing =>
    cases h
    exact TypeTerm.ground_void
  | message i =>
    obtain ⟨u, hu, rfl⟩ := map_eq_ok.mp h
    exact (ground_of_messageType hk hu).message
  | marginal x => exact ground_of_marginalType hp h
  | constant c =>
    obtain ⟨node, -, h⟩ := bind_eq_ok.mp h
    cases pure_eq_ok.mp h
    cases node.observed with
    | none => exact TypeTerm.ground_ofDims _ _
    | some value => exact TypeTerm.ground_ofDims _ _

end Posterior

end MessagePassing
