import MessagePassing.Proofs.Types.Layers

/-!
# When the operands of a product are swapped

The operands of a product are swapped if the choice in the given order fails because no rule
applies. If no rule matches the operands as they stand, this is so for operands without factors. If
one of them is made of factors, the choice fails in another way unless both are, in equal number,
and then nothing is swapped. If both are, the choice is made for one factor, and it depends on how
this ends.

Results:
* `resolveWhole_of_unmatched`: nothing is chosen from rules that do not match.
* `resolveOrdered_of_peeled`: the product of two things of factors is that of one factor each.
* **`swapping_of_unmatched`**: how the product of two messages is resolved if no rule matches them
  in the given order.
* `not_swapped_mixed`: an operand with factors keeps a rule for the other order from being found.
-/

namespace MessagePassing

/-! ## Rules that do not match -/

section Unmatched

variable {c : Catalogue} {q : Request} {rules : List Rule}

theorem matchesOf_of_unmatched
    (h : ∀ r ∈ rules, TypeTerm.matchAll r.inbounds q.inbounds ∅ = none) :
    q.matchesOf rules = .ok [] := by
  obtain ⟨ms, hms⟩ : ∃ ms, q.matchesOf rules = .ok ms :=
    exists_matchesOf_iff.mpr fun r hr b hb => by
      rw [h r hr] at hb
      contradiction
  rw [hms]
  refine congrArg Except.ok (List.eq_nil_iff_forall_not_mem.mpr fun m hm => ?_)
  obtain ⟨hrule, hfits, -⟩ := of_mem_matchesOf hms hm
  rw [h _ hrule] at hfits
  contradiction

/-- Nothing is chosen from rules that do not match. -/
theorem resolveWhole_of_unmatched
    (h : ∀ r ∈ c.rules, r.key = q.key → TypeTerm.matchAll r.inbounds q.inbounds ∅ = none) :
    c.resolveWhole q = .ok none := by
  have hnone : ∀ approximate, q.matchesOf (c.candidates q.key approximate) = .ok [] :=
    fun _ => matchesOf_of_unmatched fun r hr =>
      h r (mem_candidates.mp hr).1 (mem_candidates.mp hr).2.1
  rw [resolveWhole_of_approximate (fun _ => hnone false) (hnone true), meetingConstraint_nil]
  unfold Request.ofMethod
  cases q.method <;> rfl

end Unmatched

/-! ## Products in one order -/

section Ordered

variable {c : Catalogue} {a b a' b' k l : TypeTerm} {o : Option TypeTerm} {r : Resolution}
  {e : Failure}

/-- No rule for products matches two types as they stand. -/
def Catalogue.Unmatched (c : Catalogue) (a b : TypeTerm) : Prop :=
  ∀ r ∈ c.rules, r.key = Catalogue.productKey → TypeTerm.matchAll r.inbounds [a, b] ∅ = none

theorem any_isPartitioned_pair :
    [a, b].any (·.isPartitioned) = (a.isPartitioned || b.isPartitioned) := by
  simp

theorem isPartitioned_of_peel? {t u : TypeTerm} (h : t.peel? = some (u, k)) :
    t.isPartitioned = true := by
  unfold TypeTerm.peel? at h
  split at h <;> cases h <;> rfl

theorem resolveWhole_product (h : c.Unmatched a b) : c.resolveWhole
    { key := Catalogue.productKey, inbounds := [a, b], constraint := o } = .ok none :=
  resolveWhole_of_unmatched h

/-- Where no rule matches, and there are no factors, no rule applies. -/
theorem resolveOrdered_of_plain (h : c.Unmatched a b) (ha : a.isPartitioned = false)
    (hb : b.isPartitioned = false) :
    ∃ e, c.resolveOrdered a b o = .error e ∧ e.kind = .noRule := by
  refine ⟨_, (resolve_of_none (resolveWhole_product h)).trans (if_neg ?_), rfl⟩
  rw [any_isPartitioned_pair, ha, hb]
  exact Bool.false_ne_true

/-- Where no rule matches, layers that cannot be taken off are an error. -/
theorem resolveOrdered_of_peelLayer (h : c.Unmatched a b)
    (hany : a.isPartitioned = true ∨ b.isPartitioned = true)
    (hpeel : peelLayer Catalogue.productKey [a, b] = .error e) :
    c.resolveOrdered a b o = .error e := by
  refine (resolve_of_none (resolveWhole_product h)).trans ((if_pos ?_).trans ?_)
  · rwa [any_isPartitioned_pair, Bool.or_eq_true]
  · rw [Catalogue.resolveLayer, hpeel]
    rfl

theorem peelLayer_of_peeled (ha : a.peel? = some (a', k)) (hb : b.peel? = some (b', k)) :
    peelLayer Catalogue.productKey [a, b] = .ok ([a', b'], k) := by
  unfold peelLayer
  simp only [peelAll, ha, hb, Except.map, distinct]
  simp

/-- The product of two things of equally many factors is that of one factor of each. -/
theorem resolveOrdered_of_peeled (h : c.Unmatched a b) (ha : a.peel? = some (a', k))
    (hb : b.peel? = some (b', k)) : c.resolveOrdered a b o =
      (c.resolveOrdered a' b' (o.map TypeTerm.element)).map (·.within [k]) := by
  refine resolve_of_descent (.cons ⟨resolveWhole_product h, ?_, [a', b'],
    peelLayer_of_peeled ha hb, rfl⟩ (.nil _))
  rw [any_isPartitioned_pair, isPartitioned_of_peel? ha, Bool.true_or]

/-- Different numbers of factors are refused. -/
theorem peelLayer_of_differ (ha : a.peel? = some (a', k)) (hb : b.peel? = some (b', l))
    (hkl : k ≠ l) : ∃ e, peelLayer Catalogue.productKey [a, b] = .error e ∧
      (e.kind = .partition ∨ e.kind = .illTyped) := by
  have hall : peelAll Catalogue.productKey [a, b] = .ok ([a', b'], [k, l]) := by
    simp only [peelAll, ha, hb, Except.map]
  have hcounts : distinct [k, l] = [k, l] := by
    simp [distinct, hkl.symm]
  unfold peelLayer
  rw [hall]
  dsimp only
  rw [hcounts]
  dsimp only
  split
  · exact ⟨_, rfl, .inl rfl⟩
  · exact ⟨_, rfl, .inr rfl⟩

/-- A message without factors beside one with factors is refused. -/
theorem peelLayer_of_plain_first {t : TypeTerm} (ht : (TypeTerm.message t).peel? = none) :
    peelLayer Catalogue.productKey [.message t, b] =
      .error (.notPartitioned Catalogue.productKey (.message t)) := by
  unfold peelLayer
  simp only [peelAll, ht, reduceCtorEq, if_false]

theorem peelLayer_of_plain_second {t : TypeTerm} (ha : a.peel? = some (a', k))
    (ht : (TypeTerm.message t).peel? = none) :
    peelLayer Catalogue.productKey [a, .message t] =
      .error (.notPartitioned Catalogue.productKey (.message t)) := by
  unfold peelLayer
  simp only [peelAll, ha, ht, reduceCtorEq, if_false, Except.map]

theorem resolveProduct_of_ok (h : c.resolveOrdered a b o = .ok r) :
    c.resolveProduct a b o = .ok r := by
  unfold Catalogue.resolveProduct
  rw [h]

theorem resolveProduct_of_noRule (h : c.resolveOrdered a b o = .error e) (he : e.kind = .noRule) :
    c.resolveProduct a b o =
      (c.resolveOrdered b a o).map fun r => { r with swapped := true } := by
  unfold Catalogue.resolveProduct
  rw [h]
  exact if_pos he

theorem resolveProduct_of_error (h : c.resolveOrdered a b o = .error e) (he : e.kind ≠ .noRule) :
    c.resolveProduct a b o = .error e := by
  unfold Catalogue.resolveProduct
  rw [h]
  exact if_neg he

end Ordered

/-! ## Swapping -/

/-- How the product of two messages is resolved if no rule matches them in the given order and a
rule is chosen for the other order. -/
structure Catalogue.Swapping (c : Catalogue) (a b : TypeTerm) (o : Option TypeTerm)
    (r : Resolution) : Prop where
  /-- Without factors the operands are swapped. -/
  plain : a.isPartitioned = false → b.isPartitioned = false →
    c.resolveProduct a b o = .ok { r with swapped := true }
  /-- If there are factors and the first operand has no layer to take off, it is refused. -/
  first : a.peel? = none → a.isPartitioned = true ∨ b.isPartitioned = true →
    c.resolveProduct a b o = .error (.notPartitioned Catalogue.productKey a)
  /-- If only the first operand has a layer to take off, the second one is refused. -/
  second : a.peel? ≠ none → b.peel? = none →
    c.resolveProduct a b o = .error (.notPartitioned Catalogue.productKey b)
  /-- Different numbers of factors are refused. -/
  differ : ∀ a' b' k l, a.peel? = some (a', k) → b.peel? = some (b', l) → k ≠ l →
    ∃ e, c.resolveProduct a b o = .error e ∧ (e.kind = .partition ∨ e.kind = .illTyped)
  /-- Operands of equally many factors are not swapped if a rule is chosen for one factor of each in
  the given order. They are swapped if no rule applies there, and any other error is reported. -/
  layer : ∀ a' b' k, a.peel? = some (a', k) → b.peel? = some (b', k) →
    (∀ s, c.resolveOrdered a' b' (o.map TypeTerm.element) = .ok s →
      c.resolveProduct a b o = .ok (s.within [k])) ∧
    ∀ e, c.resolveOrdered a' b' (o.map TypeTerm.element) = .error e →
      c.resolveProduct a b o =
        if e.kind = .noRule then .ok { r with swapped := true } else .error e

section Swapping

variable {c : Catalogue} {s t : TypeTerm} {o : Option TypeTerm} {r : Resolution}

/-- **How the product of two messages is resolved if no rule matches them in the given order.** -/
theorem swapping_of_unmatched (h : c.Unmatched (.message s) (.message t))
    (hr : c.resolveOrdered (.message t) (.message s) o = .ok r) :
    c.Swapping (.message s) (.message t) o r where
  plain hs ht := by
    obtain ⟨e, he, hkind⟩ := resolveOrdered_of_plain h hs ht
    rw [resolveProduct_of_noRule he hkind, hr]
    rfl
  first hs hany := resolveProduct_of_error
    (resolveOrdered_of_peelLayer h hany (peelLayer_of_plain_first hs)) nofun
  second hs ht := by
    obtain ⟨⟨s', k⟩, hs⟩ := Option.ne_none_iff_exists'.mp hs
    exact resolveProduct_of_error (resolveOrdered_of_peelLayer h
      (.inl (isPartitioned_of_peel? hs)) (peelLayer_of_plain_second hs ht)) nofun
  differ s' t' k l hs ht hkl := by
    obtain ⟨e, he, hkind⟩ := peelLayer_of_differ hs ht hkl
    refine ⟨e, resolveProduct_of_error
      (resolveOrdered_of_peelLayer h (.inl (isPartitioned_of_peel? hs)) he) fun hno => ?_, hkind⟩
    rw [hno] at hkind
    exact hkind.elim nofun nofun
  layer s' t' k hs ht := by
    have hpeeled := resolveOrdered_of_peeled (o := o) h hs ht
    constructor
    · intro x hx
      rw [hx] at hpeeled
      exact resolveProduct_of_ok hpeeled
    · intro e he
      rw [he] at hpeeled
      split
      · rename_i hkind
        rw [resolveProduct_of_noRule hpeeled hkind, hr]
        rfl
      · exact resolveProduct_of_error hpeeled ‹_›

end Swapping

/-- A rule for the product of a Gaussian and a point mass, in this order. -/
def pointRule : Rule where
  key := Catalogue.productKey
  inbounds := [.message (.dist "Gaussian" []), .message (.dist "PointMass" [])]
  outbound := .pattern (.dist "PointMass" [])

/-- A rule for the product of a Gaussian and of two Gaussians, in this order. -/
def batchRule : Rule where
  key := Catalogue.productKey
  inbounds := [.message (.dist "Gaussian" []),
    .message (.partitioned (.dist "Gaussian" []) (.num 2))]
  outbound := .pattern (.dist "Gaussian" [])

/-- A point mass and a Gaussian are swapped. -/
theorem swapping_point : Catalogue.Unmatched ⟨[pointRule]⟩ (.message (.dist "PointMass" []))
      (.message (.dist "Gaussian" [])) ∧
    ∃ r, Catalogue.resolveOrdered ⟨[pointRule]⟩ (.message (.dist "Gaussian" []))
        (.message (.dist "PointMass" [])) none = .ok r ∧
      Catalogue.Swapping ⟨[pointRule]⟩ (.message (.dist "PointMass" []))
        (.message (.dist "Gaussian" [])) none r ∧
      Catalogue.resolveProduct ⟨[pointRule]⟩ (.message (.dist "PointMass" []))
        (.message (.dist "Gaussian" [])) none = .ok { r with swapped := true } := by
  have h : Catalogue.Unmatched ⟨[pointRule]⟩ (.message (.dist "PointMass" []))
      (.message (.dist "Gaussian" [])) := fun r hr _ => by
    rw [List.mem_singleton.mp hr]
    rfl
  have hr : Catalogue.resolveOrdered ⟨[pointRule]⟩ (.message (.dist "Gaussian" []))
      (.message (.dist "PointMass" [])) none =
        .ok { outbound := .dist "PointMass" [], rule := pointRule, bindings := ∅ } :=
    resolve_of_some rfl
  have hswapping := swapping_of_unmatched h hr
  exact ⟨h, _, hr, hswapping, hswapping.plain rfl rfl⟩

/-- **An operand with factors keeps a rule for the other order from being found.** -/
theorem not_swapped_mixed :
    Catalogue.Unmatched ⟨[batchRule]⟩ (.message (.partitioned (.dist "Gaussian" []) (.num 2)))
        (.message (.dist "Gaussian" [])) ∧
      (∃ r, Catalogue.resolveOrdered ⟨[batchRule]⟩ (.message (.dist "Gaussian" []))
        (.message (.partitioned (.dist "Gaussian" []) (.num 2))) none = .ok r) ∧
      ∀ r, Catalogue.resolveProduct ⟨[batchRule]⟩
        (.message (.partitioned (.dist "Gaussian" []) (.num 2)))
        (.message (.dist "Gaussian" [])) none ≠ .ok r := by
  have h : Catalogue.Unmatched ⟨[batchRule]⟩
      (.message (.partitioned (.dist "Gaussian" []) (.num 2)))
      (.message (.dist "Gaussian" [])) := fun r hr _ => by
    rw [List.mem_singleton.mp hr]
    rfl
  refine ⟨h, ⟨{ outbound := .dist "Gaussian" [], rule := batchRule, bindings := ∅ },
    resolve_of_some rfl⟩, fun r hr => ?_⟩
  have herror := resolveProduct_of_error (o := none) (resolveOrdered_of_peelLayer h (.inl rfl)
    (peelLayer_of_plain_second rfl rfl)) nofun
  rw [herror] at hr
  contradiction

end MessagePassing
