import MessagePassing.Assembly.Marginals
import MessagePassing.Proofs.Types.Choice

/-!
# Products of messages

The marginal of a variable is a product of two messages. It is resolved like any other update, in
one of the two orders of its operands, with the declared type of the oldest edge as a constraint. On
layers of factors the constraint is met layer by layer only: it is taken for the kind of one factor,
and the number of factors is not compared.

Results:
* `resolve_induct`: induction on the layers that a choice goes through.
* `key_of_resolve`: a chosen rule is registered for the update.
* `resolve_of_resolveProduct`, **`resolve_of_resolveMarginal`**: a product is resolved in the order
  that it says.
* **`bears_of_resolve`**: how far a chosen rule meets the constraint.
-/

namespace MessagePassing

/-- A declared type agrees with a type layer by layer. Below a layer of factors, a declaration made
of factors stands for the kind of one factor, whatever their number, and any other stands for
itself. -/
inductive TypeTerm.Bears : TypeTerm → TypeTerm → Prop
  /-- The declaration admits the type as a whole. -/
  | whole {d t : TypeTerm} (h : d.admits t = true) : Bears d t
  /-- The declaration agrees with one factor. -/
  | layer {d t k : TypeTerm} (h : Bears ((d.peel?.map Prod.fst).getD d) t) :
      Bears d (.partitioned t k)

/-- The product of two messages as the marginal of a variable. -/
def Graph.productRequest (g : Graph) (x : String) (first second : TypeTerm) : Request where
  key := Catalogue.productKey
  inbounds := [.message first, .message second]
  constraint := g.oldestDeclared? x

section Products

variable {c : Catalogue} {q : Request} {r : Resolution}

theorem key_of_resolveWhole (h : c.resolveWhole q = .ok (some r)) : r.rule.key = q.key := by
  obtain ⟨_, ms, m, hms, hm, rfl⟩ := exists_match_of_resolveWhole h
  exact (mem_candidates.mp (of_mem_matchesOf hms (mem_narrow.mp hm).1).1).2.1

/-- What holds of choices without layers, and is kept when a layer is put around the outcome, holds
of all choices. -/
theorem resolve_induct {P : Request → Resolution → Prop}
    (hwhole : ∀ q r, c.resolveWhole q = .ok (some r) → P q r)
    (hlayer : ∀ (q : Request) elements k s, peelLayer q.key q.inbounds = .ok (elements, k) →
      c.resolve (q.below elements) = .ok s → P (q.below elements) s →
        P q { s with outbound := .partitioned s.outbound k, oneByOne := true })
    {q : Request} {r : Resolution} (h : c.resolve q = .ok r) : P q r := by
  rcases cases_of_resolve h with hr | ⟨elements, k, s, -, hpeel, hs, rfl⟩
  · exact hwhole q r hr
  · exact hlayer q elements k s hpeel hs (resolve_induct hwhole hlayer hs)
termination_by TypeTerm.sizeAll q.inbounds
decreasing_by exact size_of_peelLayer hpeel

/-- A chosen rule is registered for the update, on whatever layer it is found. -/
theorem key_of_resolve (h : c.resolve q = .ok r) : r.rule.key = q.key :=
  resolve_induct (P := fun q r => r.rule.key = q.key) (fun _ _ => key_of_resolveWhole)
    (fun _ _ _ _ _ _ ih => ih) h

/-- Operands are swapped by products only. -/
theorem swapped_of_resolve (h : c.resolve q = .ok r) : r.swapped = false := by
  refine resolve_induct (P := fun _ r => r.swapped = false) (fun q r hr => ?_)
    (fun _ _ _ _ _ _ ih => ih) h
  obtain ⟨_, ms, m, -, -, rfl⟩ := exists_match_of_resolveWhole hr
  rfl

/-- A product of two types is resolved in the order that it says. -/
theorem resolve_of_resolveProduct {first second : TypeTerm} {o : Option TypeTerm}
    (h : c.resolveProduct first second o = .ok r) :
    c.resolve {
      key := Catalogue.productKey
      inbounds := if r.swapped then [second, first] else [first, second]
      constraint := o } = .ok { r with swapped := false } := by
  unfold Catalogue.resolveProduct at h
  split at h
  · rename_i s hs
    cases h
    have hswapped := swapped_of_resolve hs
    rw [if_neg (by rw [hswapped]; exact Bool.false_ne_true)]
    refine hs.trans (congrArg Except.ok ?_)
    rw [← hswapped]
  · split at h
    · obtain ⟨s, hs, rfl⟩ := map_eq_ok.mp h
      rw [if_pos rfl]
      refine hs.trans (congrArg Except.ok ?_)
      rw [← swapped_of_resolve hs]
    · contradiction

/-- **A product is resolved in the order that it says.** -/
theorem resolve_of_resolveMarginal {g : Graph} {x : String} {first second : TypeTerm}
    (h : c.resolveMarginal g x first second = .ok r) :
    c.resolve (if r.swapped then g.productRequest x second first
      else g.productRequest x first second) = .ok { r with swapped := false } := by
  have hproduct : c.resolveProduct (.message first) (.message second) (g.oldestDeclared? x) =
      .ok r := by
    unfold Catalogue.resolveMarginal at h
    dsimp only at h
    split at h
    · rename_i s hs
      cases h
      exact hs
    · split at h
      · split at h
        · contradiction
        · split at h <;> contradiction
      · contradiction
  rw [← resolve_of_resolveProduct hproduct]
  split <;> rfl

/-- **How far a chosen rule meets the constraint**: layer by layer, and as a whole if the rule works
on whole values. -/
theorem bears_of_resolve {d : TypeTerm} (hd : q.constraint = some d) (h : c.resolve q = .ok r) :
    d.Bears r.outbound ∧ (r.oneByOne = false → d.admits r.outbound = true) := by
  refine resolve_induct (P := fun q r => ∀ d, q.constraint = some d → d.Bears r.outbound ∧
    (r.oneByOne = false → d.admits r.outbound = true)) (fun q r hr d hd => ?_)
    (fun q elements k s _ _ ih d hd => ?_) h d hd
  · have hadmits := admits_of_resolveWhole hd hr
    exact ⟨.whole hadmits, fun _ => hadmits⟩
  · have hbelow : (q.below elements).constraint = some ((d.peel?.map Prod.fst).getD d) := by
      change q.constraint.map _ = _
      rw [hd]
      rfl
    exact ⟨.layer (ih _ hbelow).1, nofun⟩

end Products

end MessagePassing
