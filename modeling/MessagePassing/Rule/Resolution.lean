import MessagePassing.Ascending
import MessagePassing.Rule.Catalogue

/-!
# Choosing a rule

To resolve an update is to find the rule that computes it and the type of its outcome, from the
types that arrive. Exact rules come first. If some match, one of them has to meet the constraint of
the caller, and all that do have to agree on the outbound type. Approximate rules are tried only
when no exact one matches, or when the caller names a method. If nothing matches and some type is
made of factors, every type is, and one layer of factors is taken off all of them: the rule then
works on factors one by one.

* `Catalogue.resolve` resolves an update; taking off layers ends because types get smaller.
* `Catalogue.resolveProduct` resolves the product of two messages, in either order.

Specification: sections 4.5 and 8 (`resolve`, `resolve_product`).
-/

namespace MessagePassing

/-- An update to be resolved. -/
structure Request extends RuleCall where
  /-- The node that computes the update, if there is one. -/
  node : Option Node := none
  /-- A pattern for the outbound type. -/
  constraint : Option TypeTerm := none
  /-- The method of approximation. -/
  method : Option String := none

/-- The rule chosen for an update. -/
structure Resolution where
  /-- The type of the outcome. -/
  outbound : TypeTerm
  /-- The rule. -/
  rule : Rule
  /-- What the variables of the rule stand for. -/
  bindings : Bindings
  /-- Whether the rule works on factors one by one. -/
  oneByOne : Bool := false
  /-- Whether the two operands of a product are taken in reverse. -/
  swapped : Bool := false

namespace Resolution

/-- The method of the rule, if it is approximate. -/
def approximation (r : Resolution) : Option String :=
  r.rule.approximation

end Resolution

/-- A rule whose patterns match, with its outbound type. -/
structure Match where
  /-- The outbound type. -/
  outbound : TypeTerm
  /-- The rule. -/
  rule : Rule
  /-- What the variables of the rule stand for. -/
  bindings : Bindings

/-! ## Matching and narrowing -/

/-- The match of a rule with the types that arrive at a node, if there is one. -/
def Rule.match? (node : Option Node) (inbounds : List TypeTerm) (r : Rule) :
    Except Failure (Option Match) :=
  match TypeTerm.matchAll r.inbounds inbounds ∅ with
  | none => .ok none
  | some b => (r.outboundFor node b).map fun t => some ⟨t, r, b⟩

namespace Request

variable (q : Request)

/-- The matches of a list of rules. -/
def matchesOf (rules : List Rule) : Except Failure (List Match) :=
  (rules.mapM (Rule.match? q.node q.inbounds)).map (·.filterMap id)

/-- The matches whose outbound type meets the constraint. -/
def meetingConstraint (ms : List Match) : List Match :=
  match q.constraint with
  | none => ms
  | some p => ms.filter fun m => p.admits m.outbound

/-- The matches by the method that the caller names. -/
def ofMethod (ms : List Match) : List Match :=
  match q.method with
  | none => ms
  | some method => ms.filter (·.rule.approximation = some method)

/-- Whether the caller narrows the choice. -/
def narrowed : Bool :=
  q.constraint.isSome || q.method.isSome

/-- The distinct outcomes of a list of matches: the outbound type and the method. -/
def outcomes (ms : List Match) : List (TypeTerm × Option String) :=
  distinct (ms.map fun m => (m.outbound, m.rule.approximation))

/-- The first match, if all matches have one outcome. -/
def select (first : Match) (rest : List Match) : Except Failure Resolution :=
  if (outcomes (first :: rest)).length = 1 then
    .ok { outbound := first.outbound, rule := first.rule, bindings := first.bindings }
  else .error (.ambiguous q.toRuleCall q.narrowed (outcomes (first :: rest)))

/-- The outbound types of a list of matches as a sorted listing. -/
def offers (ms : List Match) : List String :=
  Ascending.ofList (ms.map (·.outbound.render))

end Request

/-! ## Factors one by one -/

/-- Takes a layer of factors off every type that is not `void`, and lists the numbers of factors. -/
def peelAll (key : RuleKey) : List TypeTerm → Except Failure (List TypeTerm × List TypeTerm)
  | [] => .ok ([], [])
  | t :: ts =>
    match t.peel? with
    | some (e, k) => (peelAll key ts).map fun r => (e :: r.1, k :: r.2)
    | none =>
      if t = .void then (peelAll key ts).map fun r => (t :: r.1, r.2)
      else .error (.notPartitioned key t)

/-- The numbers of factors as a sorted listing, if they can be sorted: all numbers or all names. -/
def sortedCounts? (counts : List TypeTerm) : Option (List String) :=
  let numbers := counts.filterMap fun
    | .num n => some n
    | _ => none
  let names := counts.filterMap fun
    | .text s => some s
    | _ => none
  if numbers.length = counts.length then some ((Ascending.ofList numbers).map toString)
  else if names.length = counts.length then some ((Ascending.ofList names).map Text.quoted)
  else none

/-- One layer of factors taken off the types that arrive, with the common number of factors. -/
def peelLayer (key : RuleKey) (ts : List TypeTerm) :
    Except Failure (List TypeTerm × TypeTerm) :=
  match peelAll key ts with
  | .error e => .error e
  | .ok (elements, counts) =>
    match distinct counts with
    | [k] => .ok (elements, k)
    | ks =>
      match sortedCounts? ks with
      | some listing => .error (.countsDiffer key listing)
      | none => .error .illTyped

theorem size_of_peelAll {key : RuleKey} {ts : List TypeTerm} {r : List TypeTerm × List TypeTerm}
    (h : peelAll key ts = .ok r) :
    TypeTerm.sizeAll r.1 + r.2.length ≤ TypeTerm.sizeAll ts := by
  induction ts generalizing r with
  | nil =>
    cases h
    simp [TypeTerm.sizeAll]
  | cons t ts ih =>
    unfold peelAll at h
    cases hp : t.peel? with
    | none =>
      simp only [hp] at h
      split at h
      · cases hs : peelAll key ts with
        | error e => simp [hs, Except.map] at h
        | ok s =>
          simp only [hs, Except.map, Except.ok.injEq] at h
          have := ih hs
          subst h
          simp only [TypeTerm.sizeAll]
          omega
      · contradiction
    | some ek =>
      obtain ⟨e, k⟩ := ek
      have he := TypeTerm.size_of_peel? hp
      simp only [hp] at h
      cases hs : peelAll key ts with
      | error e => simp [hs, Except.map] at h
      | ok s =>
        simp only [hs, Except.map, Except.ok.injEq] at h
        have := ih hs
        subst h
        simp only [TypeTerm.sizeAll, List.length_cons]
        omega

/-- Layers come to an end: taking one off makes the types smaller. -/
theorem size_of_peelLayer {key : RuleKey} {ts es : List TypeTerm} {k : TypeTerm}
    (h : peelLayer key ts = .ok (es, k)) : TypeTerm.sizeAll es < TypeTerm.sizeAll ts := by
  unfold peelLayer at h
  cases hp : peelAll key ts with
  | error e => simp [hp] at h
  | ok r =>
    obtain ⟨elements, counts⟩ := r
    have hsize := size_of_peelAll hp
    simp only [hp] at h
    split at h
    · rename_i k' hk
      cases h
      cases counts with
      | nil => simp [distinct] at hk
      | cons c cs =>
        simp only [List.length_cons] at hsize
        omega
    · split at h <;> contradiction

/-- The request for one factor: the types of factors arrive, and a constraint made of factors is
taken for the kind of one factor, whatever their number. -/
def Request.below (q : Request) (elements : List TypeTerm) : Request :=
  { q with
    inbounds := elements
    constraint := q.constraint.map fun t => (t.peel?.map Prod.fst).getD t }

/-! ## Resolution -/

namespace Catalogue

variable (c : Catalogue)

/-- The choice among rules that match the types as they stand; none if no rule does. -/
def resolveWhole (q : Request) : Except Failure (Option Resolution) := do
  if q.method = none then
    let exact ← q.matchesOf (c.candidates q.key false)
    match q.meetingConstraint exact, exact with
    | m :: ms, _ => return some (← q.select m ms)
    | [], _ :: _ =>
      throw (.constraintUnmet q.toRuleCall (q.constraint.getD .any) (Request.offers exact))
    | [], [] => pure ()
  let approximate ← q.matchesOf (c.candidates q.key true)
  match q.ofMethod (q.meetingConstraint approximate) with
  | m :: ms => return some (← q.select m ms)
  | [] => return none

/-- The choice of a rule for an update. -/
def resolve (c : Catalogue) (q : Request) : Except Failure Resolution :=
  match c.resolveWhole q with
  | .error e => .error e
  | .ok (some r) => .ok r
  | .ok none =>
    if q.inbounds.any (·.isPartitioned) then
      match _h : peelLayer q.key q.inbounds with
      | .error e => .error e
      | .ok (elements, k) =>
        (c.resolve (q.below elements)).map fun r =>
          { r with outbound := .partitioned r.outbound k, oneByOne := true }
    else .error (.noRule q.toRuleCall)
termination_by TypeTerm.sizeAll q.inbounds
decreasing_by exact size_of_peelLayer _h

/-- The key of products of messages. -/
def productKey : RuleKey :=
  ⟨"product", .product, none⟩

/-- The product of two messages, in this order. -/
def resolveOrdered (first second : TypeTerm) (constraint : Option TypeTerm) :
    Except Failure Resolution :=
  c.resolve { key := productKey, inbounds := [first, second], constraint }

/-- The product of two messages; the operands are swapped if no rule applies to them as given. -/
def resolveProduct (first second : TypeTerm) (constraint : Option TypeTerm) :
    Except Failure Resolution :=
  match c.resolveOrdered first second constraint with
  | .ok r => .ok r
  | .error e =>
    if e.kind = .noRule then
      (c.resolveOrdered second first constraint).map fun r => { r with swapped := true }
    else .error e

end Catalogue

end MessagePassing
