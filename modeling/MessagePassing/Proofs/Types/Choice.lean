import MessagePassing.Proofs.Types.Arguments
import MessagePassing.Rule.Resolution
import MessagePassing.Traversal.Distinct

/-!
# What a chosen rule is like

The rule that is chosen for an update is a rule of the catalogue. Either its patterns match the
types that arrive, and it computes the type that is announced, or a layer of factors is taken off
these types, the rule is chosen for what is left, and the layer is put around its outcome.

Results:
* `peeled_of_peelLayer`: what taking off a layer does to types.
* **`chosen_of_resolve`**: a chosen rule is chosen in one of the two ways.
* `whole_of_flat`: below a layer of types without layers within layers, a rule matches as it stands.
-/

namespace MessagePassing

/-- The rule matches the types that arrive and computes the announced type. -/
structure Catalogue.Whole (c : Catalogue) (q : Request) (r : Resolution) : Prop where
  rule : r.rule ∈ c.rules
  fits : TypeTerm.matchAll r.rule.inbounds q.inbounds ∅ = some r.bindings
  outbound : r.rule.outboundFor q.node r.bindings = .ok r.outbound

/-- How a rule is chosen for an update. -/
inductive Catalogue.Chosen (c : Catalogue) (q : Request) (r : Resolution) : Prop
  /-- The rule matches as it stands. -/
  | whole (hwhole : c.Whole q r) (honeByOne : r.oneByOne = false)
  /-- The rule is chosen for one factor of what arrives. -/
  | layer {elements : List TypeTerm} {k : TypeTerm} {s : Resolution}
      (hpeel : peelLayer q.key q.inbounds = .ok (elements, k))
      (hbelow : c.resolve (q.below elements) = .ok s) (hrule : r.rule = s.rule)
      (houtbound : r.outbound = .partitioned s.outbound k) (honeByOne : r.oneByOne = true)

/-- The matches that the caller leaves: those that meet the constraint and have the method. -/
def Request.narrow (q : Request) (ms : List Match) : List Match :=
  q.ofMethod (q.meetingConstraint ms)

/-- No factors of factors. -/
def Flat (types : List TypeTerm) : Prop :=
  ∀ t ∈ types, ∀ e k, t.peel? = some (e, k) → e.isPartitioned = false

section Layers

variable {key : RuleKey} {types elements : List TypeTerm} {k : TypeTerm}

theorem peeled_of_peelAll {counts : List TypeTerm} (h : peelAll key types = .ok (elements, counts))
    (hk : ∀ c ∈ counts, c = k) :
    Peeled k types elements ∧ (counts ≠ [] → ∃ t ∈ types, t.peel? ≠ none) := by
  induction types generalizing elements counts with
  | nil =>
    cases h
    exact ⟨.nil, fun h => absurd rfl h⟩
  | cons t types ih =>
    unfold peelAll at h
    split at h
    · rename_i e k' hp
      obtain ⟨⟨es, ks⟩, hr, heq⟩ := map_eq_ok.mp h
      cases heq
      obtain ⟨rfl, hks⟩ := List.forall_mem_cons.mp hk
      obtain ⟨hpeeled, -⟩ := ih hr hks
      exact ⟨.cons (Or.inl hp) hpeeled, fun _ => ⟨t, List.mem_cons_self, by rw [hp]; exact nofun⟩⟩
    · split at h
      · rename_i hvoid
        obtain ⟨⟨es, ks⟩, hr, heq⟩ := map_eq_ok.mp h
        cases heq
        obtain ⟨hpeeled, hsome⟩ := ih hr hk
        refine ⟨.cons (Or.inr ⟨hvoid, hvoid⟩) hpeeled, fun hne => ?_⟩
        obtain ⟨u, hu, hp⟩ := hsome hne
        exact ⟨u, List.mem_cons_of_mem _ hu, hp⟩
      · contradiction

/-- Taking off a layer leaves the types of one factor, and there is a layer to take off. -/
theorem peeled_of_peelLayer (h : peelLayer key types = .ok (elements, k)) :
    Peeled k types elements ∧ ∃ t ∈ types, t.peel? ≠ none := by
  unfold peelLayer at h
  split at h
  · contradiction
  · rename_i es counts hp
    split at h
    · rename_i k' hk
      cases h
      have hcounts : ∀ c ∈ counts, c = k := by
        intro c hc
        have hmem : c ∈ distinct counts := mem_distinct.mpr hc
        rw [hk] at hmem
        exact List.mem_singleton.mp hmem
      obtain ⟨hpeeled, hsome⟩ := peeled_of_peelAll hp hcounts
      refine ⟨hpeeled, hsome ?_⟩
      rintro rfl
      contradiction
    · split at h <;> contradiction

/-- What is left of flat types has no factors. -/
theorem any_isPartitioned_of_peeled (h : Peeled k types elements) (hflat : Flat types) :
    elements.any (·.isPartitioned) = false := by
  induction h with
  | nil => rfl
  | cons hp _ ih =>
    obtain ⟨ht, hflat⟩ := List.forall_mem_cons.mp hflat
    rw [List.any_cons, ih hflat, Bool.or_false]
    rcases hp with hp | ⟨-, rfl⟩
    · exact ht _ _ hp
    · rfl

end Layers

section Choice

variable {c : Catalogue} {q : Request} {r : Resolution} {rules : List Rule} {ms : List Match}

theorem mem_candidates {key : RuleKey} {approximate : Bool} {rule : Rule} :
    rule ∈ c.candidates key approximate ↔
      rule ∈ c.rules ∧ rule.key = key ∧ rule.isApproximate = approximate := by
  unfold Catalogue.candidates
  rw [List.mem_filter, Bool.and_eq_true, beq_iff_eq, decide_eq_true_eq]

theorem mem_meetingConstraint {m : Match} :
    m ∈ q.meetingConstraint ms ↔
      m ∈ ms ∧ ∀ p, q.constraint = some p → p.admits m.outbound = true := by
  unfold Request.meetingConstraint
  cases q.constraint <;> simp

theorem mem_ofMethod {m : Match} :
    m ∈ q.ofMethod ms ↔ m ∈ ms ∧ ∀ method, q.method = some method →
      m.rule.approximation = some method := by
  unfold Request.ofMethod
  cases q.method <;> simp

theorem ofMethod_of_none (h : q.method = none) : q.ofMethod ms = ms := by
  unfold Request.ofMethod
  rw [h]

theorem mem_narrow {m : Match} :
    m ∈ q.narrow ms ↔ m ∈ ms ∧ (∀ p, q.constraint = some p → p.admits m.outbound = true) ∧
      ∀ method, q.method = some method → m.rule.approximation = some method := by
  unfold Request.narrow
  rw [mem_ofMethod, mem_meetingConstraint, and_assoc]

/-- A match is what it says. -/
theorem of_mem_matchesOf (h : q.matchesOf rules = .ok ms) {m : Match} (hm : m ∈ ms) :
    m.rule ∈ rules ∧ TypeTerm.matchAll m.rule.inbounds q.inbounds ∅ = some m.bindings ∧
      m.rule.outboundFor q.node m.bindings = .ok m.outbound := by
  obtain ⟨l, hl, rfl⟩ := map_eq_ok.mp h
  obtain ⟨o, ho, hom⟩ := List.mem_filterMap.mp hm
  obtain rfl : o = some m := hom
  obtain ⟨rule, hrule, hmatch⟩ := exists_of_mem_mapM hl ho
  unfold Rule.match? at hmatch
  split at hmatch
  · cases hmatch
  · rename_i b hb
    obtain ⟨t, ht, heq⟩ := map_eq_ok.mp hmatch
    cases heq
    exact ⟨hrule, hb, ht⟩

theorem select_eq_ok {first : Match} {rest : List Match} (h : q.select first rest = .ok r) :
    r = { outbound := first.outbound, rule := first.rule, bindings := first.bindings } := by
  unfold Request.select at h
  split at h
  · exact (Except.ok.inj h).symm
  · contradiction

/-- A rule that is selected from some matches of rules of the catalogue matches. -/
theorem whole_of_select {approximate : Bool} {first : Match} {rest : List Match}
    (hms : q.matchesOf (c.candidates q.key approximate) = .ok ms) (hfirst : first ∈ ms)
    (h : q.select first rest = .ok r) : c.Whole q r ∧ r.oneByOne = false := by
  obtain rfl := select_eq_ok h
  obtain ⟨hrule, hfits, hout⟩ := of_mem_matchesOf hms hfirst
  exact ⟨⟨(mem_candidates.mp hrule).1, hfits, hout⟩, rfl⟩

/-- A choice without layers is made among the exact or among the approximate rules. The first of the
matches that the caller leaves is chosen. -/
theorem exists_of_resolveWhole (h : c.resolveWhole q = .ok (some r)) :
    ∃ approximate ms first rest, q.matchesOf (c.candidates q.key approximate) = .ok ms ∧
      q.narrow ms = first :: rest ∧ q.select first rest = .ok r := by
  have hsome : ∀ {m rest}, (q.select m rest >>= fun s => pure (some s)) = .ok (some r) →
      q.select m rest = .ok r := by
    intro m rest h
    obtain ⟨s, hs, h⟩ := bind_eq_ok.mp h
    cases pure_eq_ok.mp h
    exact hs
  unfold Catalogue.resolveWhole at h
  split at h
  · rename_i hmethod
    obtain ⟨ms, hms, h⟩ := bind_eq_ok.mp h
    split at h
    · rename_i m rest hnarrow
      exact ⟨false, _, m, rest, hms,
        (ofMethod_of_none hmethod).trans hnarrow, hsome h⟩
    · contradiction
    · obtain ⟨ms', hms', h⟩ := bind_eq_ok.mp h
      split at h
      · exact ⟨true, ms', _, _, hms', ‹_›, hsome h⟩
      · cases pure_eq_ok.mp h
  · obtain ⟨ms, hms, h⟩ := bind_eq_ok.mp h
    split at h
    · exact ⟨true, ms, _, _, hms, ‹_›, hsome h⟩
    · cases pure_eq_ok.mp h

/-- What is chosen without layers comes from a match that the caller leaves. -/
theorem exists_match_of_resolveWhole (h : c.resolveWhole q = .ok (some r)) :
    ∃ approximate ms m, q.matchesOf (c.candidates q.key approximate) = .ok ms ∧ m ∈ q.narrow ms ∧
      r = { outbound := m.outbound, rule := m.rule, bindings := m.bindings } := by
  obtain ⟨approximate, ms, first, rest, hms, hnarrow, hs⟩ := exists_of_resolveWhole h
  exact ⟨approximate, ms, first, hms, hnarrow ▸ List.mem_cons_self, select_eq_ok hs⟩

theorem whole_of_resolveWhole (h : c.resolveWhole q = .ok (some r)) :
    c.Whole q r ∧ r.oneByOne = false := by
  obtain ⟨_, ms, m, hms, hm, rfl⟩ := exists_match_of_resolveWhole h
  obtain ⟨hrule, hfits, hout⟩ := of_mem_matchesOf hms (mem_narrow.mp hm).1
  exact ⟨⟨(mem_candidates.mp hrule).1, hfits, hout⟩, rfl⟩

/-- A choice without layers meets the constraint. -/
theorem admits_of_resolveWhole {d : TypeTerm} (hd : q.constraint = some d)
    (h : c.resolveWhole q = .ok (some r)) : d.admits r.outbound = true := by
  obtain ⟨_, ms, m, -, hm, rfl⟩ := exists_match_of_resolveWhole h
  exact (mem_narrow.mp hm).2.1 d hd

/-- If the caller names a method, the choice is made among the rules with this method. -/
theorem approximation_of_resolveWhole {method : String} (hq : q.method = some method)
    (h : c.resolveWhole q = .ok (some r)) : r.rule.approximation = some method := by
  obtain ⟨_, ms, m, -, hm, rfl⟩ := exists_match_of_resolveWhole h
  exact (mem_narrow.mp hm).2.2 method hq

/-- A choice is made without layers, or a layer is taken off and put around its outcome. -/
theorem cases_of_resolve (h : c.resolve q = .ok r) : c.resolveWhole q = .ok (some r) ∨
    ∃ elements k s, q.inbounds.any (·.isPartitioned) = true ∧
      peelLayer q.key q.inbounds = .ok (elements, k) ∧ c.resolve (q.below elements) = .ok s ∧
      r = { s with outbound := .partitioned s.outbound k, oneByOne := true } := by
  unfold Catalogue.resolve at h
  split at h
  · contradiction
  · rename_i s hs
    cases h
    exact Or.inl hs
  · split at h
    · rename_i hpartitioned
      split at h
      · contradiction
      · rename_i elements k hp
        obtain ⟨s, hs, rfl⟩ := map_eq_ok.mp h
        exact Or.inr ⟨elements, k, s, hpartitioned, hp, hs, rfl⟩
    · contradiction

/-- **A chosen rule matches as it stands, or it is chosen for one factor.** -/
theorem chosen_of_resolve (h : c.resolve q = .ok r) : c.Chosen q r := by
  rcases cases_of_resolve h with hwhole | ⟨elements, k, s, -, hp, hs, rfl⟩
  · exact .whole (whole_of_resolveWhole hwhole).1 (whole_of_resolveWhole hwhole).2
  · exact .layer hp hs rfl rfl rfl

/-- Without factors, the choice is made without layers. -/
theorem resolveWhole_of_flat (h : c.resolve q = .ok r)
    (hq : q.inbounds.any (·.isPartitioned) = false) : c.resolveWhole q = .ok (some r) := by
  rcases cases_of_resolve h with hwhole | ⟨_, _, _, hpartitioned, -⟩
  · exact hwhole
  · rw [hq] at hpartitioned
    contradiction

/-- A rule that works on whole values is chosen without layers. -/
theorem resolveWhole_of_whole (h : c.resolve q = .ok r) (hr : r.oneByOne = false) :
    c.resolveWhole q = .ok (some r) := by
  rcases cases_of_resolve h with hwhole | ⟨_, _, _, -, -, -, rfl⟩
  · exact hwhole
  · contradiction

/-- A chosen rule has the method that the caller names, on whatever layer it is found. -/
theorem approximation_of_resolve {q : Request} {r : Resolution} {method : String}
    (hq : q.method = some method) (h : c.resolve q = .ok r) :
    r.rule.approximation = some method := by
  rcases cases_of_resolve h with hwhole | ⟨elements, k, s, -, hpeel, hs, rfl⟩
  · exact approximation_of_resolveWhole hq hwhole
  · exact approximation_of_resolve (q := q.below elements) (r := s) hq hs
termination_by TypeTerm.sizeAll q.inbounds
decreasing_by exact size_of_peelLayer hpeel

/-- Without factors, a chosen rule matches as it stands. -/
theorem whole_of_flat (h : c.resolve q = .ok r) (hq : q.inbounds.any (·.isPartitioned) = false) :
    c.Whole q r :=
  (whole_of_resolveWhole (resolveWhole_of_flat h hq)).1

end Choice

end MessagePassing
