import MessagePassing.Assembly.Marginals
import MessagePassing.Proofs.Types.Choice

/-!
# Types without factors

A type is plain if no layer of factors occurs in it. Rules that make no layers themselves keep types
plain, and then a rule is never chosen for one factor, so that a constraint is compared with the
whole outbound type. A ground constraint leaves no choice: it admits only itself.

Results:
* `eq_of_admits`: a ground pattern admits no other term.
* `Rule.plain_of_pattern`: an outbound pattern without factors makes no layers.
* **`plain_of_resolve`**: from plain types follows a plain type, one that the constraint admits.
* **`plain_of_resolveMarginal`**: so does the marginal of a variable, whose constraint is what is
  declared for its oldest edge.
-/

namespace MessagePassing

namespace TypeTerm

mutual

/-- Whether no layer of factors occurs in a term. -/
def isPlain : TypeTerm → Bool
  | partitioned _ _ => false
  | dist _ ps => allPlain ps
  | message t => t.isPlain
  | approx t _ => t.isPlain
  | _ => true

/-- Whether no layer of factors occurs in a list of parameters. -/
def allPlain : List TypeTerm → Bool
  | [] => true
  | p :: ps => p.isPlain && allPlain ps

end

/-- A plain term does not consist of factors. -/
theorem isPartitioned_of_isPlain : ∀ {t : TypeTerm}, t.isPlain = true → t.isPartitioned = false
  | message t, h => by
    rw [isPlain] at h
    exact isPartitioned_of_isPlain (t := t) h
  | approx t _, h => by
    rw [isPlain] at h
    exact isPartitioned_of_isPlain (t := t) h
  | partitioned _ _, h => by simp [isPlain] at h
  | void, _ | any, _ | var _, _ | dist _ _, _ | num _, _ | text _, _ => rfl

theorem allPlain_iff {ps : List TypeTerm} : allPlain ps = true ↔ ∀ p ∈ ps, p.isPlain = true := by
  induction ps with
  | nil => simp [allPlain]
  | cons p ps ih => rw [allPlain, Bool.and_eq_true, ih, List.forall_mem_cons]

theorem isPlain_ofDims (family : String) (dims : List Int) :
    (ofDims family dims).isPlain = true := by
  unfold ofDims
  rw [isPlain, allPlain_iff]
  intro p hp
  obtain ⟨n, -, rfl⟩ := List.mem_map.mp hp
  rfl

/-! ## Ground patterns -/

mutual

/-- A ground pattern agrees with no other term. -/
theorem eq_of_matchWith : ∀ {p t : TypeTerm} {b b' : Bindings}, p.isGround = true →
    matchWith p t b = some b' → p = t
  | void, t, b, b', _, h => by cases t <;> simp_all [matchWith]
  | any, _, _, _, hp, _ => by simp [isGround] at hp
  | var _, _, _, _, hp, _ => by simp [isGround] at hp
  | dist f ps, t, b, b', hp, h => by
    cases t <;> simp only [matchWith, reduceCtorEq] at h
    split at h
    · rename_i hf
      rw [isGround] at hp
      rw [hf, eq_of_matchAll hp h]
    · contradiction
  | message p, t, b, b', hp, h => by
    cases t <;> simp only [matchWith, reduceCtorEq] at h
    rw [isGround] at hp
    rw [eq_of_matchWith hp h]
  | partitioned e k, t, b, b', hp, h => by
    cases t <;> simp only [matchWith, reduceCtorEq] at h
    rw [isGround, Bool.and_eq_true] at hp
    obtain ⟨b₁, he, hk⟩ := Option.bind_eq_some_iff.mp h
    rw [eq_of_matchWith hp.1 he, eq_of_matchWith hp.2 hk]
  | approx p m, t, b, b', hp, h => by
    cases t <;> simp only [matchWith, reduceCtorEq] at h
    split at h
    · rename_i hm
      rw [isGround] at hp
      rw [hm, eq_of_matchWith hp h]
    · contradiction
  | num _, t, b, b', _, h => by cases t <;> simp_all [matchWith]
  | text _, t, b, b', _, h => by cases t <;> simp_all [matchWith]

/-- Ground patterns agree with no other terms. -/
theorem eq_of_matchAll : ∀ {ps ts : List TypeTerm} {b b' : Bindings}, allGround ps = true →
    matchAll ps ts b = some b' → ps = ts
  | [], [], _, _, _, _ => rfl
  | [], _ :: _, _, _, _, h => by simp [matchAll] at h
  | _ :: _, [], _, _, _, h => by simp [matchAll] at h
  | p :: ps, t :: ts, b, b', hp, h => by
    rw [allGround, Bool.and_eq_true] at hp
    rw [matchAll] at h
    obtain ⟨b₁, hhead, htail⟩ := Option.bind_eq_some_iff.mp h
    rw [eq_of_matchWith hp.1 hhead, eq_of_matchAll hp.2 htail]

end

/-- **A ground pattern admits only itself.** -/
theorem eq_of_admits {d t : TypeTerm} (hd : d.isGround = true) (h : d.admits t = true) : t = d := by
  obtain ⟨b, hb⟩ := Option.isSome_iff_exists.mp h
  exact (eq_of_matchWith hd hb).symm

/-! ## Plain bindings -/

/-- What the variables stand for is plain. -/
def PlainBindings (b : Bindings) : Prop :=
  ∀ x t, b.get? x = some t → t.isPlain = true

theorem plainBindings_empty : PlainBindings ∅ := fun _ _ h => nomatch h

mutual

/-- Plain terms bind variables to plain terms. -/
theorem plainBindings_of_matchWith : ∀ {p t : TypeTerm} {b b' : Bindings}, t.isPlain = true →
    PlainBindings b → matchWith p t b = some b' → PlainBindings b'
  | any, _, _, _, _, hb, h => by
    simp only [matchWith, Option.some.injEq] at h
    exact h ▸ hb
  | var n, t, b, b', ht, hb, h => by
    simp only [matchWith] at h
    split at h
    · split at h
      · exact Option.some.inj h ▸ hb
      · contradiction
    · obtain rfl := Option.some.inj h
      intro x u hu
      rw [Table.get?_insert] at hu
      split at hu
      · exact Option.some.inj hu ▸ ht
      · exact hb x u hu
  | void, t, b, b', _, hb, h => by
    cases t <;> simp only [matchWith, reduceCtorEq, Option.some.injEq] at h
    exact h ▸ hb
  | dist f ps, t, b, b', ht, hb, h => by
    cases t <;> simp only [matchWith, reduceCtorEq] at h
    split at h
    · rw [isPlain] at ht
      exact plainBindings_of_matchAll ht hb h
    · contradiction
  | message p, t, b, b', ht, hb, h => by
    cases t <;> simp only [matchWith, reduceCtorEq] at h
    rw [isPlain] at ht
    exact plainBindings_of_matchWith ht hb h
  | partitioned _ _, t, b, b', ht, _, h => by
    cases t <;> simp only [matchWith, reduceCtorEq] at h
    simp [isPlain] at ht
  | approx p m, t, b, b', ht, hb, h => by
    cases t <;> simp only [matchWith, reduceCtorEq] at h
    split at h
    · rw [isPlain] at ht
      exact plainBindings_of_matchWith ht hb h
    · contradiction
  | num _, t, b, b', _, hb, h => by
    cases t <;> simp only [matchWith, reduceCtorEq] at h
    split at h
    · exact Option.some.inj h ▸ hb
    · contradiction
  | text _, t, b, b', _, hb, h => by
    cases t <;> simp only [matchWith, reduceCtorEq] at h
    split at h
    · exact Option.some.inj h ▸ hb
    · contradiction

/-- Lists of plain terms bind variables to plain terms. -/
theorem plainBindings_of_matchAll : ∀ {ps ts : List TypeTerm} {b b' : Bindings},
    allPlain ts = true → PlainBindings b → matchAll ps ts b = some b' → PlainBindings b'
  | [], [], _, _, _, hb, h => by
    simp only [matchAll, Option.some.injEq] at h
    exact h ▸ hb
  | [], _ :: _, _, _, _, _, h => by simp [matchAll] at h
  | _ :: _, [], _, _, _, _, h => by simp [matchAll] at h
  | p :: ps, t :: ts, b, b', ht, hb, h => by
    rw [allPlain, Bool.and_eq_true] at ht
    rw [matchAll] at h
    obtain ⟨b₁, hhead, htail⟩ := Option.bind_eq_some_iff.mp h
    exact plainBindings_of_matchAll ht.2 (plainBindings_of_matchWith ht.1 hb hhead) htail

end

mutual

theorem isPlain_substitute {b : Bindings} (hb : PlainBindings b) : ∀ {t : TypeTerm},
    t.isPlain = true → (t.substitute b).isPlain = true
  | var n, _ => by
    rw [substitute]
    cases hn : b.get? n with
    | none => rfl
    | some u => exact hb n u hn
  | dist f ps, h => by
    rw [isPlain] at h
    rw [substitute, isPlain, allPlain_substituteAll hb h]
  | message t, h => by
    rw [isPlain] at h
    rw [substitute, isPlain, isPlain_substitute hb h]
  | approx t m, h => by
    rw [isPlain] at h
    rw [substitute, isPlain, isPlain_substitute hb h]
  | partitioned _ _, h => by simp [isPlain] at h
  | void, _ | any, _ | num _, _ | text _, _ => by rw [substitute]; rfl

theorem allPlain_substituteAll {b : Bindings} (hb : PlainBindings b) : ∀ {ps : List TypeTerm},
    allPlain ps = true → allPlain (substituteAll b ps) = true
  | [], _ => by rw [substituteAll]; rfl
  | p :: ps, h => by
    rw [allPlain, Bool.and_eq_true] at h
    rw [substituteAll, allPlain, isPlain_substitute hb h.1, allPlain_substituteAll hb h.2]
    rfl

end

end TypeTerm

/-! ## Rules that make no layers -/

/-- From plain types the rule computes a plain type. -/
def Rule.Plain (r : Rule) : Prop :=
  ∀ types node b t, TypeTerm.allPlain types = true →
    TypeTerm.matchAll r.inbounds types ∅ = some b → r.outboundFor node b = .ok t →
      t.isPlain = true

/-- No rule makes layers of factors. -/
def Catalogue.Plain (c : Catalogue) : Prop :=
  ∀ r ∈ c.rules, r.Plain

/-- An outbound pattern without factors makes no layers. -/
theorem Rule.plain_of_pattern {r : Rule} {t : TypeTerm} (h : r.outbound = .pattern t)
    (ht : t.isPlain = true) : r.Plain := by
  intro types node b u htypes hb hu
  unfold Rule.outboundFor at hu
  rw [h] at hu
  obtain ⟨v, hv, hu⟩ := bind_eq_ok.mp hu
  cases hv
  split at hu
  · cases pure_eq_ok.mp hu
    exact TypeTerm.isPlain_substitute
      (TypeTerm.plainBindings_of_matchAll htypes TypeTerm.plainBindings_empty hb) ht
  · contradiction

section Resolution

variable {c : Catalogue} {q : Request} {r : Resolution} {d : TypeTerm}

theorem any_isPartitioned_of_allPlain {types : List TypeTerm}
    (h : TypeTerm.allPlain types = true) : types.any (·.isPartitioned) = false :=
  List.any_eq_false.mpr fun t ht => by
    rw [TypeTerm.isPartitioned_of_isPlain (TypeTerm.allPlain_iff.mp h t ht)]
    exact Bool.false_ne_true

/-- **From plain types follows a plain type**, one that the constraint admits. -/
theorem plain_of_resolve (hc : c.Plain) (hq : TypeTerm.allPlain q.inbounds = true)
    (h : c.resolve q = .ok r) :
    r.outbound.isPlain = true ∧ ∀ d, q.constraint = some d → d.admits r.outbound = true := by
  have hwhole := resolveWhole_of_flat h (any_isPartitioned_of_allPlain hq)
  obtain ⟨⟨hrule, hfits, hout⟩, -⟩ := whole_of_resolveWhole hwhole
  exact ⟨hc _ hrule _ _ _ _ hq hfits hout, fun d hd => admits_of_resolveWhole hd hwhole⟩

/-- The product of plain messages is plain, in either order. -/
theorem plain_of_resolveProduct (hc : c.Plain) {first second : TypeTerm} {o : Option TypeTerm}
    (hfirst : first.isPlain = true) (hsecond : second.isPlain = true)
    (h : c.resolveProduct first second o = .ok r) :
    r.outbound.isPlain = true ∧ ∀ d, o = some d → d.admits r.outbound = true := by
  have hplain : ∀ {s t : TypeTerm}, s.isPlain = true → t.isPlain = true →
      TypeTerm.allPlain [s, t] = true := fun hs ht =>
    TypeTerm.allPlain_iff.mpr (by simp [hs, ht])
  unfold Catalogue.resolveProduct at h
  split at h
  · rename_i s hs
    cases h
    exact plain_of_resolve hc (hplain hfirst hsecond) hs
  · split at h
    · obtain ⟨s, hs, rfl⟩ := map_eq_ok.mp h
      exact plain_of_resolve hc (hplain hsecond hfirst) hs
    · contradiction

/-- **The marginal of a variable is plain, and what is declared for its oldest edge admits it.** -/
theorem plain_of_resolveMarginal (hc : c.Plain) {g : Graph} {x : String} {first second : TypeTerm}
    (hfirst : first.isPlain = true) (hsecond : second.isPlain = true)
    (h : c.resolveMarginal g x first second = .ok r) :
    r.outbound.isPlain = true ∧ ∀ d, g.oldestDeclared? x = some d → d.admits r.outbound = true := by
  unfold Catalogue.resolveMarginal at h
  dsimp only at h
  split at h
  · rename_i s hs
    cases h
    exact plain_of_resolveProduct hc (by rwa [TypeTerm.isPlain]) (by rwa [TypeTerm.isPlain]) hs
  · split at h
    · split at h
      · contradiction
      · split at h <;> contradiction
    · contradiction

end Resolution

end MessagePassing
