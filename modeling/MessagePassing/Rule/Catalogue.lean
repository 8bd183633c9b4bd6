import MessagePassing.Rule.Basic
import MessagePassing.Traversal.Distinct

/-!
# The catalogue of rules

A catalogue holds rules in the order in which it accepted them. It refuses a rule that agrees with
one it has. Rules are looked up by key, exact and approximate ones apart, and listed key by key.

Results:
* `register_eq_error_iff`: a rule is refused just when an accepted rule agrees with it.

Specification: section 8 (`RuleCatalogue`, `register`, `candidates`).
-/

namespace MessagePassing

/-- A collection of rules, no two of which agree. -/
structure Catalogue where
  /-- The rules in the order of acceptance. -/
  rules : List Rule := []

namespace Catalogue

instance : EmptyCollection Catalogue := ⟨{}⟩

variable (c : Catalogue)

/-- The number of rules. -/
def size : Nat :=
  c.rules.length

/-- Accepts a rule, unless one agrees with it. -/
def register (r : Rule) : Except Failure Catalogue :=
  if c.rules.any r.agrees then
    .error (.duplicateRule r.key r.inbounds r.outbound.render)
  else .ok ⟨c.rules ++ [r]⟩

/-- The place of a rule in the order of acceptance. -/
def number? (r : Rule) : Option Nat :=
  c.rules.findIdx? r.agrees

/-- The exact or the approximate rules under a key, in the order of acceptance. -/
def candidates (key : RuleKey) (approximate : Bool) : List Rule :=
  c.rules.filter fun r => r.key = key && r.isApproximate == approximate

/-- The keys in the order in which a rule was first accepted for them. -/
def keys : List RuleKey :=
  distinct (c.rules.map (·.key))

/-- The rules key by key. -/
def toList : List Rule :=
  c.keys.flatMap fun key => c.rules.filter (·.key = key)

theorem register_eq_error_iff {r : Rule} :
    (∃ e, c.register r = .error e) ↔ ∃ s ∈ c.rules, r.agrees s = true := by
  unfold register
  split
  · rename_i h
    simpa [List.any_eq_true] using h
  · rename_i h
    simpa [List.any_eq_true] using h

end Catalogue

end MessagePassing
