import MessagePassing.Proofs.Types.Choice

/-!
# How a choice among rules ends

A rule provides an outcome for an update, a type with a method, if its patterns match the types that
arrive. A choice is made from the outcomes that the caller allows. If one is left, it is the answer,
whatever the number of rules that provide it; if several are, the choice fails. The outcomes of
exact rules come first: while there are any, approximate rules make no difference. Without any, and
if the caller names a method, the outcomes of approximate rules count, and only if none of these is
left are factors taken one by one.

Results:
* `exists_mem_matchesOf_iff`: the matches of some rules come to the outcomes that these provide.
* `length_outcomes_eq_one`: matches agree on the outcome if all are like the first.
* `resolveWhole_of_exact`, `resolveWhole_of_approximate`: which matches a choice is made from.
* `resolve_of_none`: only if no rule matches is a layer of factors taken off.
* `decides_of_exact`, `decides_of_approximate`: how a choice among exact or approximate rules ends.
* **`decides_of_ground`**: how a choice ends.
-/

namespace MessagePassing

/-! ## Outcomes -/

/-- The type and the method that a match comes to. -/
def Match.outcome (m : Match) : TypeTerm × Option String :=
  (m.outbound, m.rule.approximation)

/-- The patterns of the rule match the types that arrive, and it computes the type of the outcome by
its method. -/
def Rule.Provides (r : Rule) (q : Request) (o : TypeTerm × Option String) : Prop :=
  r.approximation = o.2 ∧ ∃ b, TypeTerm.matchAll r.inbounds q.inbounds ∅ = some b ∧
    r.outboundFor q.node b = .ok o.1

/-- Some rule under the key of the request provides the outcome. -/
def Catalogue.Provides (c : Catalogue) (q : Request) (o : TypeTerm × Option String) : Prop :=
  ∃ r ∈ c.rules, r.key = q.key ∧ r.Provides q o

/-- The outcome meets the constraint and has the method, where the caller asks for them. -/
structure Request.Allows (q : Request) (o : TypeTerm × Option String) : Prop where
  constraint : ∀ p, q.constraint = some p → p.admits o.1 = true
  method : ∀ m, q.method = some m → o.2 = some m

/-- Each rule under the key of the request whose patterns match has a ground outbound type. -/
def Catalogue.Grounded (c : Catalogue) (q : Request) : Prop :=
  ∀ r ∈ c.rules, r.key = q.key → ∀ b, TypeTerm.matchAll r.inbounds q.inbounds ∅ = some b →
    ∃ t, r.outboundFor q.node b = .ok t

/-- How a choice among outcomes ends: with the one that is left, or in an ambiguity if several are.
What happens if none is left differs from choice to choice. -/
structure Catalogue.Decides (c : Catalogue) (q : Request) (Left : TypeTerm × Option String → Prop)
    (Otherwise : Prop) : Prop where
  /-- The only outcome that is left is returned, with a rule that provides it. -/
  one : ∀ o, Left o → (∀ o', Left o' → o' = o) →
    ∃ r, c.resolve q = .ok r ∧ (r.outbound, r.approximation) = o ∧ r.oneByOne = false ∧
      c.Whole q r ∧ r.rule.key = q.key
  /-- Several outcomes are an ambiguity. -/
  several : ∀ o o', Left o → Left o' → o ≠ o' →
    ∃ e, c.resolve q = .error e ∧ e.kind = .ambiguous
  none : (∀ o, ¬ Left o) → Otherwise

/-- The choice for one factor of what arrives, with the layer put back around its outcome. -/
def Catalogue.resolveLayer (c : Catalogue) (q : Request) : Except Failure Resolution :=
  (peelLayer q.key q.inbounds).bind fun peeled =>
    (c.resolve (q.below peeled.1)).map fun r =>
      { r with outbound := .partitioned r.outbound peeled.2, oneByOne := true }

/-- The choice among matches, if there is one to choose. -/
def Request.selectFrom (q : Request) : List Match → Except Failure (Option Resolution)
  | [] => .ok none
  | first :: rest => (q.select first rest).map some

section Matches

variable {c : Catalogue} {q : Request} {rules : List Rule} {ms : List Match} {m : Match}

theorem exists_mem_meetingConstraint_iff {o : TypeTerm × Option String} :
    (∃ m ∈ q.meetingConstraint ms, m.outcome = o) ↔
      (∃ m ∈ ms, m.outcome = o) ∧ ∀ p, q.constraint = some p → p.admits o.1 = true := by
  constructor
  · rintro ⟨m, hm, rfl⟩
    obtain ⟨hmem, hadmits⟩ := mem_meetingConstraint.mp hm
    exact ⟨⟨m, hmem, rfl⟩, hadmits⟩
  · rintro ⟨⟨m, hmem, rfl⟩, hadmits⟩
    exact ⟨m, mem_meetingConstraint.mpr ⟨hmem, hadmits⟩, rfl⟩

theorem exists_mem_ofMethod_iff {o : TypeTerm × Option String} :
    (∃ m ∈ q.ofMethod ms, m.outcome = o) ↔
      (∃ m ∈ ms, m.outcome = o) ∧ ∀ method, q.method = some method → o.2 = some method := by
  constructor
  · rintro ⟨m, hm, rfl⟩
    obtain ⟨hmem, hmethod⟩ := mem_ofMethod.mp hm
    exact ⟨⟨m, hmem, rfl⟩, hmethod⟩
  · rintro ⟨⟨m, hmem, rfl⟩, hmethod⟩
    exact ⟨m, mem_ofMethod.mpr ⟨hmem, hmethod⟩, rfl⟩

/-- A rule provides what its match comes to. -/
theorem provides_iff_of_match? {r : Rule} {x : Option Match} {o : TypeTerm × Option String}
    (h : r.match? q.node q.inbounds = .ok x) :
    r.Provides q o ↔ ∃ m, x = some m ∧ m.outcome = o := by
  unfold Rule.match? at h
  unfold Rule.Provides
  cases hb : TypeTerm.matchAll r.inbounds q.inbounds ∅ with
  | none =>
    rw [hb] at h
    cases h
    simp
  | some b =>
    rw [hb] at h
    obtain ⟨t, ht, rfl⟩ := map_eq_ok.mp h
    simp [ht, Match.outcome, Prod.ext_iff, and_comm]

/-- A match is that of its rule. -/
theorem rule_of_match? {r : Rule} (h : r.match? q.node q.inbounds = .ok (some m)) : m.rule = r := by
  unfold Rule.match? at h
  split at h
  · cases h
  · obtain ⟨t, -, ht⟩ := map_eq_ok.mp h
    cases ht
    rfl

/-- Rules can be matched if those whose patterns match leave no outbound type open. -/
theorem exists_matchesOf_iff : (∃ ms, q.matchesOf rules = .ok ms) ↔ ∀ r ∈ rules, ∀ b,
    TypeTerm.matchAll r.inbounds q.inbounds ∅ = some b → ∃ t, r.outboundFor q.node b = .ok t := by
  have hmatch : ∀ r : Rule, (∃ o, r.match? q.node q.inbounds = .ok o) ↔ ∀ b,
      TypeTerm.matchAll r.inbounds q.inbounds ∅ = some b →
        ∃ t, r.outboundFor q.node b = .ok t := by
    intro r
    unfold Rule.match?
    cases TypeTerm.matchAll r.inbounds q.inbounds ∅ with
    | none => simp
    | some b =>
      simp only [Option.some.injEq, forall_eq']
      cases r.outboundFor q.node b <;> simp [Except.map]
  simp only [← hmatch]
  constructor
  · rintro ⟨ms, h⟩ r hr
    obtain ⟨l, hl, -⟩ := map_eq_ok.mp h
    obtain ⟨o, -, ho⟩ := exists_mem_of_mapM hl hr
    exact ⟨o, ho⟩
  · intro h
    obtain ⟨l, hl⟩ : ∃ l, rules.mapM (Rule.match? q.node q.inbounds) = .ok l := by
      induction rules with
      | nil => exact ⟨[], rfl⟩
      | cons r rules ih =>
        obtain ⟨⟨o, ho⟩, hrules⟩ := List.forall_mem_cons.mp h
        obtain ⟨l, hl⟩ := ih hrules
        exact ⟨o :: l, mapM_eq_ok.mpr (.cons ho (mapM_eq_ok.mp hl))⟩
    exact ⟨_, map_eq_ok.mpr ⟨l, hl, rfl⟩⟩

/-- The matches of rules come to the outcomes that these provide. -/
theorem exists_mem_matchesOf_iff (h : q.matchesOf rules = .ok ms) {o : TypeTerm × Option String} :
    (∃ m ∈ ms, m.outcome = o) ↔ ∃ r ∈ rules, r.Provides q o := by
  constructor
  · rintro ⟨m, hm, rfl⟩
    obtain ⟨hrule, hfits, hout⟩ := of_mem_matchesOf h hm
    exact ⟨m.rule, hrule, rfl, m.bindings, hfits, hout⟩
  · rintro ⟨r, hr, hprovides⟩
    obtain ⟨l, hl, rfl⟩ := map_eq_ok.mp h
    obtain ⟨x, hx, hmatch⟩ := exists_mem_of_mapM hl hr
    obtain ⟨m, rfl, hm⟩ := (provides_iff_of_match? hmatch).mp hprovides
    exact ⟨m, List.mem_filterMap.mpr ⟨_, hx, rfl⟩, hm⟩

/-- Matches agree on the outcome if all are like the first. -/
theorem length_outcomes_eq_one {first : Match} {rest : List Match} :
    (Request.outcomes (first :: rest)).length = 1 ↔ ∀ m ∈ rest, m.outcome = first.outcome := by
  have hdistinct : Request.outcomes (first :: rest) =
      first.outcome :: (distinct (rest.map Match.outcome)).filter (· ≠ first.outcome) := rfl
  rw [hdistinct, List.length_cons, Nat.add_eq_right, List.length_eq_zero_iff,
    List.filter_eq_nil_iff]
  simp [Match.outcome]

theorem selectFrom_cons {first : Match} {rest : List Match} :
    q.selectFrom (first :: rest) = (q.select first rest).map some := rfl

theorem bind_select {first : Match} {rest : List Match} :
    (q.select first rest >>= fun r => pure (some r)) = q.selectFrom (first :: rest) := by
  rw [selectFrom_cons]
  cases q.select first rest <;> rfl

theorem select_of_agree {first : Match} {rest : List Match}
    (h : ∀ m ∈ rest, m.outcome = first.outcome) :
    q.select first rest =
      .ok { outbound := first.outbound, rule := first.rule, bindings := first.bindings } := by
  unfold Request.select
  rw [if_pos (length_outcomes_eq_one.mpr h)]

theorem select_of_differ {first m : Match} {rest : List Match} (hm : m ∈ rest)
    (h : m.outcome ≠ first.outcome) :
    ∃ e, q.select first rest = .error e ∧ e.kind = .ambiguous := by
  unfold Request.select
  rw [if_neg fun hone => h (length_outcomes_eq_one.mp hone m hm)]
  exact ⟨_, rfl, rfl⟩

end Matches

/-! ## What a choice is made from -/

section Pools

variable {c : Catalogue} {q : Request} {ms : List Match}

/-- What is found without layers is the answer. -/
theorem resolve_of_some {r : Resolution} (h : c.resolveWhole q = .ok (some r)) :
    c.resolve q = .ok r := by
  rw [Catalogue.resolve, h]

theorem resolve_of_error {e : Failure} (h : c.resolveWhole q = .error e) :
    c.resolve q = .error e := by
  rw [Catalogue.resolve, h]

/-- Only if no rule matches is a layer taken off. -/
theorem resolve_of_none (h : c.resolveWhole q = .ok none) :
    c.resolve q = if q.inbounds.any (·.isPartitioned) then c.resolveLayer q
      else .error (.noRule q.toRuleCall) := by
  rw [Catalogue.resolve, h]
  dsimp only
  split
  · unfold Catalogue.resolveLayer
    split <;> rename_i hpeel <;> rw [hpeel] <;> rfl
  · rfl

/-- A choice by selection from matches is not taken further. -/
theorem resolve_of_select {first : Match} {rest : List Match}
    (h : c.resolveWhole q = q.selectFrom (first :: rest)) :
    c.resolve q = q.select first rest := by
  rw [selectFrom_cons] at h
  cases hs : q.select first rest with
  | ok r =>
    rw [hs] at h
    exact resolve_of_some h
  | error e =>
    rw [hs] at h
    exact resolve_of_error h

/-- While exact rules match, the choice is among those that meet the constraint. -/
theorem resolveWhole_of_exact (hq : q.method = none)
    (hms : q.matchesOf (c.candidates q.key false) = .ok ms) (hne : q.meetingConstraint ms ≠ []) :
    c.resolveWhole q = q.selectFrom (q.meetingConstraint ms) := by
  unfold Catalogue.resolveWhole
  simp only [hq, hms, if_true, ok_bind]
  cases hl : q.meetingConstraint ms with
  | nil => exact absurd hl hne
  | cons m rest => exact bind_select

/-- If exact rules match and none meets the constraint, the choice fails. -/
theorem resolveWhole_of_unmet (hq : q.method = none)
    (hms : q.matchesOf (c.candidates q.key false) = .ok ms) (hne : ms ≠ [])
    (hnil : q.meetingConstraint ms = []) :
    c.resolveWhole q =
      .error (.constraintUnmet q.toRuleCall (q.constraint.getD .any) (Request.offers ms)) := by
  unfold Catalogue.resolveWhole
  simp only [hq, hms, hnil, if_true, ok_bind]
  cases ms with
  | nil => exact absurd rfl hne
  | cons m ms => rfl

theorem meetingConstraint_nil : q.meetingConstraint [] = [] := by
  unfold Request.meetingConstraint
  cases q.constraint <;> rfl

/-- Without an exact rule that matches, and if the caller names a method, the choice is among the
approximate rules. -/
theorem resolveWhole_of_approximate
    (hexact : q.method = none → q.matchesOf (c.candidates q.key false) = .ok [])
    (hms : q.matchesOf (c.candidates q.key true) = .ok ms) :
    c.resolveWhole q = q.selectFrom (q.ofMethod (q.meetingConstraint ms)) := by
  unfold Catalogue.resolveWhole
  cases hq : q.method with
  | some method =>
    simp only [hms, reduceCtorEq, if_false, ok_bind]
    cases q.ofMethod (q.meetingConstraint ms) with
    | nil => rfl
    | cons m rest => exact bind_select
  | none =>
    simp only [hexact hq, hms, meetingConstraint_nil, if_true, ok_bind]
    cases q.ofMethod (q.meetingConstraint ms) with
    | nil => rfl
    | cons m rest => exact bind_select

/-- If exact rules cannot be matched, there is no choice. -/
theorem resolveWhole_of_exact_error {e : Failure} (hq : q.method = none)
    (hms : q.matchesOf (c.candidates q.key false) = .error e) : c.resolveWhole q = .error e := by
  unfold Catalogue.resolveWhole
  rw [if_pos hq, hms]
  rfl

/-- If approximate rules are needed and cannot be matched, there is no choice. -/
theorem resolveWhole_of_approximate_error {e : Failure}
    (hexact : q.method = none → q.matchesOf (c.candidates q.key false) = .ok [])
    (hms : q.matchesOf (c.candidates q.key true) = .error e) : c.resolveWhole q = .error e := by
  unfold Catalogue.resolveWhole
  cases hq : q.method with
  | some method =>
    simp only [hms, reduceCtorEq, if_false]
    rfl
  | none =>
    simp only [hexact hq, hms, meetingConstraint_nil, if_true, ok_bind]
    rfl

theorem selectFrom_eq_none {l : List Match} : q.selectFrom l = .ok none ↔ l = [] := by
  cases l with
  | nil => exact iff_of_true rfl rfl
  | cons first rest =>
    rw [selectFrom_cons]
    exact iff_of_false (fun h => by obtain ⟨r, -, hr⟩ := map_eq_ok.mp h; contradiction)
      (List.cons_ne_nil _ _)

/-- If nothing is chosen, no exact rule matches unless the caller names a method, and no approximate
rule is left by the caller. -/
theorem matchesOf_of_none (h : c.resolveWhole q = .ok none) :
    (q.method = none → q.matchesOf (c.candidates q.key false) = .ok []) ∧
      ∃ ms, q.matchesOf (c.candidates q.key true) = .ok ms ∧ q.narrow ms = [] := by
  have hexact : q.method = none → q.matchesOf (c.candidates q.key false) = .ok [] := by
    intro hmethod
    cases hms : q.matchesOf (c.candidates q.key false) with
    | error e =>
      rw [resolveWhole_of_exact_error hmethod hms] at h
      contradiction
    | ok ms =>
      by_cases hnil : ms = []
      · rw [hnil]
      · by_cases hmeeting : q.meetingConstraint ms = []
        · rw [resolveWhole_of_unmet hmethod hms hnil hmeeting] at h
          contradiction
        · rw [resolveWhole_of_exact hmethod hms hmeeting, selectFrom_eq_none] at h
          exact absurd h hmeeting
  refine ⟨hexact, ?_⟩
  cases hms : q.matchesOf (c.candidates q.key true) with
  | error e =>
    rw [resolveWhole_of_approximate_error hexact hms] at h
    contradiction
  | ok ms =>
    rw [resolveWhole_of_approximate hexact hms, selectFrom_eq_none] at h
    exact ⟨ms, rfl, h⟩

/-! ## How a choice ends -/

/-- A choice by selection from matches decides among their outcomes. -/
theorem decides_of_select {Left : TypeTerm × Option String → Prop} {Otherwise : Prop}
    {approximate : Bool} {l : List Match}
    (hms : q.matchesOf (c.candidates q.key approximate) = .ok ms) (hl : ∀ m ∈ l, m ∈ ms)
    (hleft : ∀ o, Left o ↔ ∃ m ∈ l, m.outcome = o)
    (hsome : l ≠ [] → c.resolveWhole q = q.selectFrom l)
    (hnil : l = [] → Otherwise) : c.Decides q Left Otherwise where
  one o ho hunique := by
    obtain ⟨m, hm, rfl⟩ := (hleft o).mp ho
    cases l with
    | nil => exact absurd hm List.not_mem_nil
    | cons first rest =>
      have hagree : ∀ m' ∈ first :: rest, m'.outcome = m.outcome := fun m' hm' =>
        hunique _ ((hleft _).mpr ⟨m', hm', rfl⟩)
      obtain ⟨hfirst, hrest⟩ := List.forall_mem_cons.mp hagree
      have hselect := select_of_agree (q := q) fun m' hm' => (hrest m' hm').trans hfirst.symm
      have hmem := hl first List.mem_cons_self
      exact ⟨_, (resolve_of_select (hsome nofun)).trans hselect, hfirst, rfl,
        (whole_of_select hms hmem hselect).1,
        (mem_candidates.mp (of_mem_matchesOf hms hmem).1).2.1⟩
  several o o' ho ho' hne := by
    obtain ⟨m, hm, rfl⟩ := (hleft o).mp ho
    obtain ⟨m', hm', rfl⟩ := (hleft o').mp ho'
    cases l with
    | nil => exact absurd hm List.not_mem_nil
    | cons first rest =>
      -- one of the two outcomes is not that of the first match
      obtain ⟨m'', hm'', hdiffer⟩ : ∃ m'' ∈ first :: rest, m''.outcome ≠ first.outcome := by
        by_cases h : m.outcome = first.outcome
        · exact ⟨m', hm', fun h' => hne (h.trans h'.symm)⟩
        · exact ⟨m, hm, h⟩
      have hrest := (List.mem_cons.mp hm'').resolve_left fun h => hdiffer (congrArg _ h)
      obtain ⟨e, he, hkind⟩ := select_of_differ (q := q) hrest hdiffer
      exact ⟨e, (resolve_of_select (hsome nofun)).trans he, hkind⟩
  none hnone := by
    refine hnil (List.eq_nil_iff_forall_not_mem.mpr fun m hm => ?_)
    exact hnone _ ((hleft _).mpr ⟨m, hm, rfl⟩)

/-- The exact or the approximate rules under the key provide the outcomes of their matches. -/
theorem exists_mem_iff_provides {approximate : Bool} {o : TypeTerm × Option String}
    (hms : q.matchesOf (c.candidates q.key approximate) = .ok ms) :
    (∃ m ∈ ms, m.outcome = o) ↔ c.Provides q o ∧ o.2.isSome = approximate := by
  rw [exists_mem_matchesOf_iff hms]
  constructor
  · rintro ⟨r, hr, hprovides⟩
    obtain ⟨hmem, hkey, happroximate⟩ := mem_candidates.mp hr
    exact ⟨⟨r, hmem, hkey, hprovides⟩, hprovides.1 ▸ happroximate⟩
  · rintro ⟨⟨r, hmem, hkey, hprovides⟩, happroximate⟩
    refine ⟨r, mem_candidates.mpr ⟨hmem, hkey, ?_⟩, hprovides⟩
    unfold Rule.isApproximate
    rw [hprovides.1, happroximate]

/-- If nothing is chosen, a rule that the caller could have got does not match. -/
theorem unmatched_of_none (h : c.resolveWhole q = .ok none) {r : Rule} (hr : r ∈ c.rules)
    (hkey : r.key = q.key) (hmethod : ∀ method, q.method = some method →
      r.approximation = some method)
    (hfree : r.approximation = none ∨ q.constraint = none) :
    TypeTerm.matchAll r.inbounds q.inbounds ∅ = none := by
  obtain ⟨hexact, approximate, happroximate, hnarrow⟩ := matchesOf_of_none h
  have hfound : ∀ {ms}, q.matchesOf (c.candidates q.key r.isApproximate) = .ok ms →
      ∀ b, TypeTerm.matchAll r.inbounds q.inbounds ∅ = some b →
        ∃ m ∈ ms, m.rule.approximation = r.approximation := by
    intro ms hms b hb
    have hmem := mem_candidates.mpr ⟨hr, hkey, rfl⟩
    obtain ⟨t, ht⟩ := exists_matchesOf_iff.mp ⟨ms, hms⟩ r hmem b hb
    obtain ⟨m, hm, houtcome⟩ :=
      (exists_mem_matchesOf_iff (o := (t, r.approximation)) hms).mpr ⟨r, hmem, rfl, b, hb, ht⟩
    exact ⟨m, hm, congrArg Prod.snd houtcome⟩
  refine Option.eq_none_iff_forall_ne_some.mpr fun b hb => ?_
  unfold Rule.isApproximate at hfound
  cases hr : r.approximation with
  | none =>
    rw [hr] at hmethod hfound
    have hnone : q.method = none :=
      Option.eq_none_iff_forall_ne_some.mpr fun method hq => nomatch hmethod method hq
    obtain ⟨m, hm, -⟩ := hfound (hexact hnone) b hb
    exact absurd hm List.not_mem_nil
  | some method =>
    rw [hr] at hmethod hfound
    obtain ⟨m, hm, hrule⟩ := hfound happroximate b hb
    have hconstraint := hfree.resolve_left (by rw [hr]; exact Option.some_ne_none _)
    have hleft : m ∈ q.narrow approximate := mem_narrow.mpr
      ⟨hm, fun p hp => absurd (hconstraint.symm.trans hp) nofun,
        fun method' hq => hrule.trans (hmethod method' hq)⟩
    rw [hnarrow] at hleft
    exact absurd hleft List.not_mem_nil

end Pools

/-- The exact rules of a catalogue. -/
def Catalogue.exactRules (c : Catalogue) : List Rule :=
  c.rules.filter fun r => !r.isApproximate

theorem candidates_of_exactRules {c c' : Catalogue} (h : c'.exactRules = c.exactRules)
    (key : RuleKey) : c'.candidates key false = c.candidates key false := by
  have hcandidates : ∀ c : Catalogue, c.candidates key false =
      c.exactRules.filter fun r => r.key = key := fun c => by
    unfold Catalogue.candidates Catalogue.exactRules
    rw [List.filter_filter]
    refine List.filter_congr fun r _ => ?_
    cases r.isApproximate <;> simp
  rw [hcandidates, hcandidates, h]

section Ground

variable {c c' : Catalogue} {q : Request} {ms : List Match}

theorem exists_matchesOf_candidates (h : c.Grounded q) (approximate : Bool) :
    ∃ ms, q.matchesOf (c.candidates q.key approximate) = .ok ms :=
  exists_matchesOf_iff.mpr fun r hr => h r (mem_candidates.mp hr).1 (mem_candidates.mp hr).2.1

/-- Exact rules match if they provide an outcome. -/
theorem matches_eq_nil_iff (hms : q.matchesOf (c.candidates q.key false) = .ok ms) :
    ms = [] ↔ ∀ t, ¬ c.Provides q (t, none) := by
  constructor
  · rintro rfl t ht
    obtain ⟨m, hm, -⟩ := (exists_mem_iff_provides hms).mpr ⟨ht, rfl⟩
    exact List.not_mem_nil hm
  · intro hnone
    refine List.eq_nil_iff_forall_not_mem.mpr fun m hm => hnone m.outbound ?_
    obtain ⟨hprovides, hmethod⟩ := (exists_mem_iff_provides hms).mp ⟨m, hm, rfl⟩
    rwa [← Option.isNone_iff_eq_none.mp (Option.isSome_eq_false_iff.mp hmethod)]

/-- While exact rules match, a choice among them is made by the constraint. -/
theorem decides_of_exact (hq : q.method = none)
    (hms : q.matchesOf (c.candidates q.key false) = .ok ms) (hne : ms ≠ []) :
    c.Decides q (fun o => c.Provides q o ∧ o.2 = none ∧ q.Allows o)
      (∃ e, c.resolve q = .error e ∧ e.kind = .noRule) := by
  refine decides_of_select (l := q.meetingConstraint ms) hms
    (fun m hm => (mem_meetingConstraint.mp hm).1) (fun o => ?_)
    (fun hl => resolveWhole_of_exact hq hms hl) (fun hl => ?_)
  · rw [exists_mem_meetingConstraint_iff, exists_mem_iff_provides hms, Option.isSome_eq_false_iff,
      Option.isNone_iff_eq_none, and_assoc]
    exact and_congr_right' (and_congr_right' ⟨fun h => h.constraint, fun h => ⟨h, fun _ hm => by
      rw [hq] at hm
      contradiction⟩⟩)
  · exact ⟨_, resolve_of_error (resolveWhole_of_unmet hq hms hne hl), rfl⟩

/-- While exact rules match, approximate rules make no difference: the choice is made from the same
matches, and it does not go on to factors. -/
theorem resolve_of_exactRules (hq : q.method = none)
    (hms : q.matchesOf (c.candidates q.key false) = .ok ms) (hne : ms ≠ [])
    (hc' : c'.exactRules = c.exactRules) : c'.resolve q = c.resolve q := by
  have hms' : q.matchesOf (c'.candidates q.key false) = .ok ms := by
    rwa [candidates_of_exactRules hc']
  cases hl : q.meetingConstraint ms with
  | nil =>
    rw [resolve_of_error (resolveWhole_of_unmet hq hms hne hl),
      resolve_of_error (resolveWhole_of_unmet hq hms' hne hl)]
  | cons first rest =>
    have hsome : q.meetingConstraint ms ≠ [] := hl ▸ nofun
    have hwhole := resolveWhole_of_exact hq hms hsome
    have hwhole' := resolveWhole_of_exact hq hms' hsome
    rw [hl] at hwhole hwhole'
    rw [resolve_of_select hwhole, resolve_of_select hwhole']

/-- Where exact rules have no say, a choice among approximate rules is made by the constraint and
the method, and it goes on to factors. -/
theorem decides_of_approximate
    (hexact : q.method = none → q.matchesOf (c.candidates q.key false) = .ok [])
    (hms : q.matchesOf (c.candidates q.key true) = .ok ms) :
    c.Decides q (fun o => c.Provides q o ∧ o.2 ≠ none ∧ q.Allows o)
      (if q.inbounds.any (·.isPartitioned) then c.resolve q = c.resolveLayer q
        else ∃ e, c.resolve q = .error e ∧ e.kind = .noRule) := by
  have hwhole := resolveWhole_of_approximate hexact hms
  refine decides_of_select (l := q.ofMethod (q.meetingConstraint ms)) hms
    (fun m hm => (mem_meetingConstraint.mp (mem_ofMethod.mp hm).1).1) (fun o => ?_)
    (fun _ => hwhole) (fun hl => ?_)
  · rw [exists_mem_ofMethod_iff, exists_mem_meetingConstraint_iff, exists_mem_iff_provides hms,
      and_assoc, and_assoc, Option.isSome_iff_ne_none]
    exact and_congr_right' (and_congr_right' ⟨fun h => ⟨h.constraint, h.method⟩,
      fun h => ⟨h.1, h.2⟩⟩)
  · rw [hl] at hwhole
    have hresolve := resolve_of_none hwhole
    split
    · rename_i hany
      rw [hresolve, if_pos hany]
    · rename_i hany
      exact ⟨_, hresolve.trans (if_neg hany), rfl⟩

end Ground

/-- **How a choice ends**, if no outbound type of a rule that matches is left open. While exact
rules match and no method is asked for, the choice is among their outcomes that meet the constraint,
and approximate rules make no difference. Otherwise it is among the outcomes of approximate rules;
if none is left and something that arrives is made of factors, factors are taken one by one. -/
theorem decides_of_ground (c : Catalogue) (q : Request) (hground : c.Grounded q) :
    (q.method = none → (∃ t, c.Provides q (t, none)) →
      c.Decides q (fun o => c.Provides q o ∧ o.2 = none ∧ q.Allows o)
        (∃ e, c.resolve q = .error e ∧ e.kind = .noRule) ∧
      ∀ c' : Catalogue, c'.exactRules = c.exactRules → c'.resolve q = c.resolve q) ∧
    (q.method ≠ none ∨ (∀ t, ¬ c.Provides q (t, none)) →
      c.Decides q (fun o => c.Provides q o ∧ o.2 ≠ none ∧ q.Allows o)
        (if q.inbounds.any (·.isPartitioned) then c.resolve q = c.resolveLayer q
          else ∃ e, c.resolve q = .error e ∧ e.kind = .noRule)) := by
  obtain ⟨ms, hms⟩ := exists_matchesOf_candidates hground false
  obtain ⟨ms', hms'⟩ := exists_matchesOf_candidates hground true
  constructor
  · rintro hq ⟨t, ht⟩
    have hne : ms ≠ [] := fun hnil => (matches_eq_nil_iff hms).mp hnil t ht
    exact ⟨decides_of_exact hq hms hne, fun c' => resolve_of_exactRules hq hms hne⟩
  · intro hcase
    refine decides_of_approximate (fun hq => ?_) hms'
    rw [hms, (matches_eq_nil_iff hms).mpr (hcase.resolve_left fun h => h hq)]

/-- A rule for the first message of a node that mixes two kinds of things. -/
def mixedRule (inbound outbound : TypeTerm) (method : Option String) : Rule where
  key := ⟨"mixed", .sumProduct, some 0⟩
  inbounds := [.void, .message inbound]
  outbound := .pattern outbound
  approximation := method

/-- Two exact rules and an approximate one for the same message. -/
def mixedCatalogue : Catalogue where
  rules := [mixedRule (.dist "Gaussian" []) (.dist "Gaussian" []) none,
    mixedRule .any (.dist "Gamma" []) none,
    mixedRule (.dist "Gaussian" []) (.dist "Beta" []) (some "MomentMatching")]

/-- The first message, from a message of the other side. -/
def mixedRequest (constraint : Option TypeTerm) (method : Option String) : Request where
  key := ⟨"mixed", .sumProduct, some 0⟩
  inbounds := [.void, .message (.dist "Gaussian" [])]
  constraint
  method

section Mixed

variable {constraint : Option TypeTerm} {method : Option String}

theorem grounded_mixed : mixedCatalogue.Grounded (mixedRequest constraint method) := by
  intro r hr _ b _
  simp only [mixedCatalogue, List.mem_cons, List.not_mem_nil, or_false] at hr
  obtain rfl | rfl | rfl := hr <;> exact ⟨_, rfl⟩

theorem provides_mixed_iff {o : TypeTerm × Option String} :
    mixedCatalogue.Provides (mixedRequest constraint method) o ↔
      o = (.dist "Gaussian" [], none) ∨ o = (.dist "Gamma" [], none) ∨
        o = (.dist "Beta" [], some "MomentMatching") := by
  constructor
  · rintro ⟨r, hr, -, hmethod, b, -, hout⟩
    simp only [mixedCatalogue, List.mem_cons, List.not_mem_nil, or_false] at hr
    rcases hr with rfl | rfl | rfl
    · exact .inl (Prod.ext (Except.ok.inj hout).symm hmethod.symm)
    · exact .inr (.inl (Prod.ext (Except.ok.inj hout).symm hmethod.symm))
    · exact .inr (.inr (Prod.ext (Except.ok.inj hout).symm hmethod.symm))
  · rintro (rfl | rfl | rfl)
    · exact ⟨_, .head _, rfl, rfl, ∅, rfl, rfl⟩
    · exact ⟨_, .tail _ (.head _), rfl, rfl, ∅, rfl, rfl⟩
    · exact ⟨_, .tail _ (.tail _ (.head _)), rfl, rfl, ∅, rfl, rfl⟩

end Mixed

/-- Two exact types are an ambiguity, which a constraint ends, whatever approximate rules there are.
A method leads to the approximate rule. -/
theorem decides_mixed :
    mixedCatalogue.Grounded (mixedRequest none none) ∧
      (∃ e, mixedCatalogue.resolve (mixedRequest none none) = .error e ∧ e.kind = .ambiguous) ∧
      (∃ r, mixedCatalogue.resolve (mixedRequest (some (.dist "Gamma" [])) none) = .ok r ∧
        (r.outbound, r.approximation) = (.dist "Gamma" [], none)) ∧
      Catalogue.resolve ⟨mixedCatalogue.exactRules⟩ (mixedRequest none none) =
        mixedCatalogue.resolve (mixedRequest none none) ∧
      ∃ r, mixedCatalogue.resolve (mixedRequest none (some "MomentMatching")) = .ok r ∧
        (r.outbound, r.approximation) = (.dist "Beta" [], some "MomentMatching") := by
  have hexact : ∀ constraint,
      ∃ t, mixedCatalogue.Provides (mixedRequest constraint none) (t, none) :=
    fun _ => ⟨_, provides_mixed_iff.mpr (.inl rfl)⟩
  obtain ⟨hfree, hothers⟩ := (decides_of_ground mixedCatalogue (mixedRequest none none)
    grounded_mixed).1 rfl (hexact none)
  refine ⟨grounded_mixed, ?_, ?_, hothers _ rfl, ?_⟩
  · exact hfree.several (.dist "Gaussian" [], none) (.dist "Gamma" [], none)
      ⟨provides_mixed_iff.mpr (.inl rfl), rfl, nofun, nofun⟩
      ⟨provides_mixed_iff.mpr (.inr (.inl rfl)), rfl, nofun, nofun⟩ (by decide)
  · obtain ⟨hgamma, -⟩ := (decides_of_ground mixedCatalogue
      (mixedRequest (some (.dist "Gamma" [])) none) grounded_mixed).1 rfl (hexact _)
    obtain ⟨r, hr, hout, -⟩ := hgamma.one (.dist "Gamma" [], none)
      ⟨provides_mixed_iff.mpr (.inr (.inl rfl)), rfl, fun p hp => by cases hp; decide, nofun⟩
      fun o ⟨ho, _, hallows⟩ => by
        have hadmits := hallows.constraint _ rfl
        rcases provides_mixed_iff.mp ho with rfl | rfl | rfl
        · exact absurd hadmits (by decide)
        · rfl
        · exact absurd hadmits (by decide)
    exact ⟨r, hr, hout⟩
  · have hmethod := (decides_of_ground mixedCatalogue
      (mixedRequest none (some "MomentMatching")) grounded_mixed).2 (.inl nofun)
    obtain ⟨r, hr, hout, -⟩ := hmethod.one (.dist "Beta" [], some "MomentMatching")
      ⟨provides_mixed_iff.mpr (.inr (.inr rfl)), nofun, nofun, fun m hm => hm⟩
      fun o ⟨ho, hne, _⟩ => by
        rcases provides_mixed_iff.mp ho with rfl | rfl | rfl
        · exact absurd rfl hne
        · exact absurd rfl hne
        · rfl
    exact ⟨r, hr, hout⟩

end MessagePassing
