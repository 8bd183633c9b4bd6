import MessagePassing.Proofs.Types.Layers

/-!
# The order of registration

Rules are registered one by one. How a choice among them ends depends on the outcomes that they
provide, and the order of the rules is not seen there. It decides only which of the rules that
provide the outcome is returned: the one that was registered first.

Outbound types are patterns here. A function may fail in its own way, and the first one that fails
would be heard.

Results:
* `First.of_ofRules`: what is first in a catalogue is first among the rules that were registered.
* `SameOutcomes.select`: matches with the same outcomes are selected from alike.
* `Shuffled.resolveWhole`, `Shuffled.resolve`: catalogues with the same rules choose alike.
* `first_of_resolve`: the returned rule is the first that provides the outcome.
* **`resolve_registration_order`**: both, for catalogues that register the same rules.
-/

namespace MessagePassing

/-! ## The first in a list -/

/-- The first item of a list that has a property. -/
inductive First {α : Type} (p : α → Prop) : List α → α → Prop
  | head {a : α} {l : List α} (h : p a) : First p (a :: l) a
  | tail {a b : α} {l : List α} (hb : ¬ p b) (h : First p l a) : First p (b :: l) a

namespace First

variable {α : Type} {p p' : α → Prop} {l : List α} {a b : α}

theorem holds (h : First p l a) : p a := by
  induction h with
  | head h => exact h
  | tail _ _ ih => exact ih

theorem mem (h : First p l a) : a ∈ l := by
  induction h with
  | head _ => exact List.mem_cons_self
  | tail _ _ ih => exact List.mem_cons_of_mem _ ih

theorem mono (h : First p l a) (hp : ∀ b ∈ l, p b ↔ p' b) : First p' l a := by
  induction h with
  | head h => exact .head ((hp _ List.mem_cons_self).mp h)
  | tail hb _ ih =>
    obtain ⟨hhead, hp⟩ := List.forall_mem_cons.mp hp
    exact .tail (fun h => hb (hhead.mpr h)) (ih hp)

theorem cons_iff : First p (b :: l) a ↔ a = b ∧ p a ∨ ¬ p b ∧ First p l a := by
  constructor
  · intro h
    cases h with
    | head h => exact .inl ⟨rfl, h⟩
    | tail hb h => exact .inr ⟨hb, h⟩
  · rintro (⟨rfl, h⟩ | ⟨hb, h⟩)
    · exact .head h
    · exact .tail hb h

/-- What is first among some members is first, if the others do not have the property. -/
theorem of_filter {f : α → Bool} (h : First p (l.filter f) a) (hf : ∀ b, p b → f b = true) :
    First p l a := by
  induction l with
  | nil => exact h
  | cons b l ih =>
    by_cases hb : f b = true
    · rw [List.filter_cons_of_pos hb] at h
      cases h with
      | head h => exact .head h
      | tail hnot h => exact .tail hnot (ih h)
    · rw [List.filter_cons_of_neg hb] at h
      exact .tail (fun h => hb (hf b h)) (ih h)

theorem append_right (h : First p l a) (l' : List α) : First p (l ++ l') a := by
  induction h with
  | head h => exact .head h
  | tail hb _ ih => exact .tail hb ih

theorem concat (hl : ∀ b ∈ l, ¬ p b) (ha : p a) : First p (l ++ [a]) a := by
  induction l with
  | nil => exact .head ha
  | cons b l ih =>
    obtain ⟨hb, hl⟩ := List.forall_mem_cons.mp hl
    exact .tail hb (ih hl)

/-- What is first in a list with a last item is first before it, or it is this item and there is
nothing before. -/
theorem of_concat (h : First p (l ++ [b]) a) : First p l a ∨ a = b ∧ ∀ c ∈ l, ¬ p c := by
  induction l with
  | nil =>
    cases h with
    | head h => exact .inr ⟨rfl, nofun⟩
    | tail _ h => cases h
  | cons c l ih =>
    cases h with
    | head h => exact .inl (.head h)
    | tail hc h =>
      rcases ih h with h | ⟨rfl, hl⟩
      · exact .inl (.tail hc h)
      · exact .inr ⟨rfl, List.forall_mem_cons.mpr ⟨hc, hl⟩⟩

end First

/-! ## Registering rules -/

/-- Registers a rule. A rule that is refused leaves the catalogue as it is. -/
def Catalogue.enrol (c : Catalogue) (r : Rule) : Catalogue :=
  (c.register r).toOption.getD c

/-- The catalogue after rules have been registered one by one. -/
def Catalogue.ofRules (l : List Rule) : Catalogue :=
  l.foldl Catalogue.enrol ∅

/-- Two rules say the same, and differ at most in their procedures. -/
structure Rule.Same (r s : Rule) : Prop where
  key : r.key = s.key
  inbounds : r.inbounds = s.inbounds
  outbound : r.outbound = s.outbound
  approximation : r.approximation = s.approximation

section Registering

variable {c : Catalogue} {l : List Rule} {r s : Rule} {q : Request} {t : TypeTerm}

theorem rules_enrol : (c.enrol r).rules =
    if c.rules.any r.agrees then c.rules else c.rules ++ [r] := by
  unfold Catalogue.enrol Catalogue.register
  split <;> rfl

theorem ofRules_concat : Catalogue.ofRules (l ++ [r]) = (Catalogue.ofRules l).enrol r := by
  unfold Catalogue.ofRules
  rw [List.foldl_append]
  rfl

theorem agrees_self (r : Rule) : r.agrees r = true := by
  unfold Rule.agrees
  cases r.outbound <;> simp [Outbound.agrees]

theorem Rule.Same.of_agrees (hr : r.outbound = .pattern t) (h : r.agrees s = true) : r.Same s := by
  unfold Rule.agrees at h
  rw [hr] at h
  simp only [Bool.and_eq_true, decide_eq_true_eq] at h
  obtain ⟨⟨⟨hkey, hinbounds⟩, houtbound⟩, happroximation⟩ := h
  refine ⟨hkey, hinbounds, ?_, happroximation⟩
  rw [hr]
  cases hs : s.outbound with
  | pattern t' =>
    rw [hs] at houtbound
    exact congrArg Outbound.pattern (of_decide_eq_true houtbound)
  | computed f =>
    rw [hs] at houtbound
    contradiction

theorem Rule.Same.outboundFor (h : r.Same s) (node : Option Node) (b : Bindings) :
    r.outboundFor node b = s.outboundFor node b := by
  unfold Rule.outboundFor
  rw [h.outbound, h.key]

/-- Rules that say the same provide the same. -/
theorem Rule.Same.provides_iff (h : r.Same s) {o : TypeTerm × Option String} :
    r.Provides q o ↔ s.Provides q o := by
  unfold Rule.Provides
  simp only [h.approximation, h.inbounds, h.outboundFor]

/-- A catalogue has only rules that were registered. -/
theorem mem_of_mem_ofRules (h : r ∈ (Catalogue.ofRules l).rules) : r ∈ l := by
  induction l using List.reverseRecOn with
  | nil => exact h
  | append_singleton l s ih =>
    rw [ofRules_concat, rules_enrol] at h
    split at h
    · exact List.mem_append_left _ (ih h)
    · exact (List.mem_append.mp h).elim (fun h => List.mem_append_left _ (ih h))
        (List.mem_append_right _)

/-- Each rule that was registered agrees with a rule of the catalogue. -/
theorem exists_agrees_of_mem (h : r ∈ l) :
    ∃ s ∈ (Catalogue.ofRules l).rules, r.agrees s = true := by
  induction l using List.reverseRecOn with
  | nil => exact absurd h List.not_mem_nil
  | append_singleton l s ih =>
    rw [ofRules_concat, rules_enrol]
    rcases List.mem_append.mp h with h | h
    · obtain ⟨s', hs', hagrees⟩ := ih h
      refine ⟨s', ?_, hagrees⟩
      split
      · exact hs'
      · exact List.mem_append_left _ hs'
    · obtain rfl := List.mem_singleton.mp h
      split
      · rename_i hany
        exact List.any_eq_true.mp hany
      · exact ⟨r, List.mem_append_right _ (List.mem_singleton_self r), agrees_self r⟩

/-- What is first in a catalogue is first among the rules that were registered, if rules that agree
have the property together. -/
theorem First.of_ofRules {p : Rule → Prop}
    (hp : ∀ r ∈ l, ∀ s, r.agrees s = true → p r → p s)
    (h : First p (Catalogue.ofRules l).rules r) : First p l r := by
  induction l using List.reverseRecOn with
  | nil => exact h
  | append_singleton l s ih =>
    have hpl : ∀ r ∈ l, ∀ s, r.agrees s = true → p r → p s := fun r hr =>
      hp r (List.mem_append_left _ hr)
    rw [ofRules_concat, rules_enrol] at h
    split at h
    · exact (ih hpl h).append_right _
    · rcases h.of_concat with h' | ⟨rfl, hnone⟩
      · exact (ih hpl h').append_right _
      · refine .concat (fun r' hr' hr'p => ?_) h.holds
        obtain ⟨s, hs, hagrees⟩ := exists_agrees_of_mem hr'
        exact hnone s hs (hpl r' hr' s hagrees hr'p)

end Registering

/-! ## Matches with the same outcomes -/

/-- Two computations end alike: both succeed, with answers that are so related, or both fail, with
errors of one class. -/
inductive EndsAlike {α β : Type} (R : α → β → Prop) : Except Failure α → Except Failure β → Prop
  | ok {a : α} {b : β} (h : R a b) : EndsAlike R (.ok a) (.ok b)
  | error {e e' : Failure} (h : e.kind = e'.kind) : EndsAlike R (.error e) (.error e')

theorem EndsAlike.cases {α β : Type} {R : α → β → Prop} {x : Except Failure α}
    {y : Except Failure β} (h : EndsAlike R x y) :
    (∃ a b, x = .ok a ∧ y = .ok b ∧ R a b) ∨
      ∃ e e', x = .error e ∧ y = .error e' ∧ e.kind = e'.kind := by
  cases h with
  | ok h => exact .inl ⟨_, _, rfl, rfl, h⟩
  | error h => exact .inr ⟨_, _, rfl, rfl, h⟩

theorem EndsAlike.map {α β γ δ : Type} {R : α → β → Prop} {S : γ → δ → Prop} {f : α → γ}
    {f' : β → δ} {x : Except Failure α} {y : Except Failure β} (h : EndsAlike R x y)
    (hf : ∀ a b, R a b → S (f a) (f' b)) : EndsAlike S (x.map f) (y.map f') := by
  cases h with
  | ok h => exact .ok (hf _ _ h)
  | error h => exact .error h

/-- Two choices come to the same: a type, a method, and whether factors are taken one by one. -/
structure Resolution.Alike (r s : Resolution) : Prop where
  outbound : r.outbound = s.outbound
  approximation : r.approximation = s.approximation
  oneByOne : r.oneByOne = s.oneByOne

/-- Two lists of matches come to the same outcomes. -/
def SameOutcomes (ms ms' : List Match) : Prop :=
  ∀ o, (∃ m ∈ ms, m.outcome = o) ↔ ∃ m ∈ ms', m.outcome = o

namespace SameOutcomes

variable {q : Request} {ms ms' : List Match}

theorem symm (h : SameOutcomes ms ms') : SameOutcomes ms' ms := fun o => (h o).symm

theorem eq_nil (h : SameOutcomes ms []) : ms = [] :=
  List.eq_nil_iff_forall_not_mem.mpr fun m hm => by
    obtain ⟨m', hm', -⟩ := (h m.outcome).mp ⟨m, hm, rfl⟩
    exact absurd hm' List.not_mem_nil

theorem meetingConstraint (h : SameOutcomes ms ms') :
    SameOutcomes (q.meetingConstraint ms) (q.meetingConstraint ms') := fun o => by
  rw [exists_mem_meetingConstraint_iff, exists_mem_meetingConstraint_iff, h o]

theorem ofMethod (h : SameOutcomes ms ms') :
    SameOutcomes (q.ofMethod ms) (q.ofMethod ms') := fun o => by
  rw [exists_mem_ofMethod_iff, exists_mem_ofMethod_iff, h o]

/-- If one list agrees on its outcome, so does the other, and on the same one. -/
theorem outcome_eq {first first' : Match} {rest rest' : List Match}
    (h : SameOutcomes (first :: rest) (first' :: rest'))
    (hagree : ∀ m ∈ rest, m.outcome = first.outcome) :
    ∀ m ∈ first' :: rest', m.outcome = first.outcome := by
  intro m hm
  obtain ⟨m', hm', houtcome⟩ := (h m.outcome).mpr ⟨m, hm, rfl⟩
  rw [← houtcome]
  rcases List.mem_cons.mp hm' with rfl | hm'
  · rfl
  · exact hagree m' hm'

/-- **Matches with the same outcomes are selected from alike.** -/
theorem select {first first' : Match} {rest rest' : List Match}
    (h : SameOutcomes (first :: rest) (first' :: rest')) :
    EndsAlike Resolution.Alike (q.select first rest) (q.select first' rest') := by
  by_cases hagree : ∀ m ∈ rest, m.outcome = first.outcome
  · obtain ⟨hfirst, hrest⟩ := List.forall_mem_cons.mp (h.outcome_eq hagree)
    rw [select_of_agree hagree, select_of_agree fun m hm => (hrest m hm).trans hfirst.symm]
    have heq := Prod.ext_iff.mp hfirst.symm
    exact .ok ⟨heq.1, heq.2, rfl⟩
  · have hagree' : ¬ ∀ m ∈ rest', m.outcome = first'.outcome := fun hagree' => by
      obtain ⟨hfirst, hrest⟩ := List.forall_mem_cons.mp (h.symm.outcome_eq hagree')
      exact hagree fun m hm => (hrest m hm).trans hfirst.symm
    push Not at hagree hagree'
    obtain ⟨m, hm, hne⟩ := hagree
    obtain ⟨m', hm', hne'⟩ := hagree'
    obtain ⟨e, he, hkind⟩ := select_of_differ (q := q) hm hne
    obtain ⟨e', he', hkind'⟩ := select_of_differ (q := q) hm' hne'
    rw [he, he']
    exact .error (hkind.trans hkind'.symm)

theorem selectFrom (h : SameOutcomes ms ms') :
    EndsAlike (Option.Rel Resolution.Alike) (q.selectFrom ms) (q.selectFrom ms') := by
  cases ms with
  | nil =>
    rw [h.symm.eq_nil]
    exact .ok .none
  | cons first rest =>
    cases ms' with
    | nil => exact absurd h.eq_nil (List.cons_ne_nil _ _)
    | cons first' rest' => exact h.select.map fun _ _ => .some

end SameOutcomes

/-! ## Catalogues with the same rules -/

/-- Rules that say the same as the first ones are among the others. -/
def Covers (rules rules' : List Rule) : Prop :=
  ∀ r ∈ rules, ∃ s ∈ rules', r.Same s

/-- Two catalogues have the same rules under a key, and the outbound types of these are patterns. -/
structure Catalogue.Shuffled (c c' : Catalogue) (key : RuleKey) : Prop where
  left : ∀ r ∈ c.rules, r.key = key → ∃ s ∈ c'.rules, r.Same s
  right : ∀ s ∈ c'.rules, s.key = key → ∃ r ∈ c.rules, s.Same r
  pattern : ∀ r ∈ c.rules, r.key = key → ∃ t, r.outbound = .pattern t

section Choosing

variable {c c' : Catalogue} {q : Request} {r : Resolution} {rules rules' l l' : List Rule}
  {ms : List Match} {m : Match} {key : RuleKey}

/-- Patterns fail in one way: a type is left open. -/
theorem failsOnly_matchesOf (h : ∀ r ∈ rules, ∃ t, r.outbound = .pattern t) :
    FailsOnly (·.kind = .resolution) (q.matchesOf rules) := by
  refine .map (.mapM fun r hr => ?_)
  obtain ⟨t, ht⟩ := h r hr
  unfold Rule.match?
  split
  · exact .ok _
  · refine .map ?_
    unfold Rule.outboundFor
    rw [ht]
    exact .bind (.ok _) fun t => .ite (fun _ => .ok _) fun _ => .error rfl

/-- Rules that can be matched can be matched where others say the same. -/
theorem exists_matchesOf_of_covers (h : Covers rules' rules)
    (hms : ∃ ms, q.matchesOf rules = .ok ms) : ∃ ms, q.matchesOf rules' = .ok ms := by
  rw [exists_matchesOf_iff] at hms ⊢
  intro r hr b hb
  obtain ⟨s, hs, hsame⟩ := h r hr
  obtain ⟨t, ht⟩ := hms s hs b (hsame.inbounds ▸ hb)
  exact ⟨t, (hsame.outboundFor q.node b).trans ht⟩

theorem exists_provides_of_covers (h : Covers rules rules') {o : TypeTerm × Option String}
    (hr : ∃ r ∈ rules, r.Provides q o) : ∃ r ∈ rules', r.Provides q o := by
  obtain ⟨r, hr, hprovides⟩ := hr
  obtain ⟨s, hs, hsame⟩ := h r hr
  exact ⟨s, hs, hsame.provides_iff.mp hprovides⟩

/-- The same rules have matches with the same outcomes, or they fail alike. -/
theorem matchesOf_of_covers (h : Covers rules rules') (h' : Covers rules' rules)
    (hpattern : ∀ r ∈ rules, ∃ t, r.outbound = .pattern t) :
    EndsAlike SameOutcomes (q.matchesOf rules) (q.matchesOf rules') := by
  have hpattern' : ∀ s ∈ rules', ∃ t, s.outbound = .pattern t := by
    intro s hs
    obtain ⟨r, hr, hsame⟩ := h' s hs
    rw [hsame.outbound]
    exact hpattern r hr
  cases hms : q.matchesOf rules with
  | ok ms =>
    obtain ⟨ms', hms'⟩ := exists_matchesOf_of_covers h' ⟨ms, hms⟩
    rw [hms']
    refine .ok fun o => ?_
    rw [exists_mem_matchesOf_iff hms, exists_mem_matchesOf_iff hms']
    exact ⟨exists_provides_of_covers h, exists_provides_of_covers h'⟩
  | error e =>
    cases hms' : q.matchesOf rules' with
    | ok ms' =>
      obtain ⟨ms, h⟩ := exists_matchesOf_of_covers h ⟨ms', hms'⟩
      rw [hms] at h
      contradiction
    | error e' =>
      exact .error ((failsOnly_matchesOf hpattern e hms).trans
        (failsOnly_matchesOf hpattern' e' hms').symm)

theorem covers_candidates (h : ∀ r ∈ c.rules, r.key = key → ∃ s ∈ c'.rules, r.Same s)
    (approximate : Bool) :
    Covers (c.candidates key approximate) (c'.candidates key approximate) := by
  intro r hr
  obtain ⟨hr, hkey, happroximate⟩ := mem_candidates.mp hr
  obtain ⟨s, hs, hsame⟩ := h r hr hkey
  refine ⟨s, mem_candidates.mpr ⟨hs, hsame.key ▸ hkey, ?_⟩, hsame⟩
  unfold Rule.isApproximate at happroximate ⊢
  rw [← hsame.approximation, happroximate]

theorem Catalogue.Shuffled.matchesOf (h : c.Shuffled c' q.key) (approximate : Bool) :
    EndsAlike SameOutcomes (q.matchesOf (c.candidates q.key approximate))
      (q.matchesOf (c'.candidates q.key approximate)) :=
  matchesOf_of_covers (covers_candidates h.left approximate) (covers_candidates h.right approximate)
    fun r hr => h.pattern r (mem_candidates.mp hr).1 (mem_candidates.mp hr).2.1

/-- Where no exact rule counts, catalogues with the same rules choose alike among approximate ones.
-/
theorem Catalogue.Shuffled.approximate (h : c.Shuffled c' q.key)
    (hexact : q.method = none → q.matchesOf (c.candidates q.key false) = .ok [])
    (hexact' : q.method = none → q.matchesOf (c'.candidates q.key false) = .ok []) :
    EndsAlike (Option.Rel Resolution.Alike) (c.resolveWhole q) (c'.resolveWhole q) := by
  rcases (h.matchesOf true).cases with ⟨ms, ms', hms, hms', hsame⟩ | ⟨e, e', he, he', hkind⟩
  · rw [resolveWhole_of_approximate hexact hms, resolveWhole_of_approximate hexact' hms']
    exact hsame.meetingConstraint.ofMethod.selectFrom
  · rw [resolveWhole_of_approximate_error hexact he, resolveWhole_of_approximate_error hexact' he']
    exact .error hkind

/-- **Catalogues with the same rules choose alike among rules that match as they stand.** -/
theorem Catalogue.Shuffled.resolveWhole (h : c.Shuffled c' q.key) :
    EndsAlike (Option.Rel Resolution.Alike) (c.resolveWhole q) (c'.resolveWhole q) := by
  cases hmethod : q.method with
  | some method =>
    have hnone : q.method ≠ none := by rw [hmethod]; exact Option.some_ne_none _
    exact h.approximate (fun h => absurd h hnone) fun h => absurd h hnone
  | none =>
    rcases (h.matchesOf false).cases with ⟨ms, ms', hms, hms', hsame⟩ | ⟨e, e', he, he', hkind⟩
    · by_cases hnil : ms = []
      · subst hnil
        rw [hsame.symm.eq_nil] at hms'
        exact h.approximate (fun _ => hms) fun _ => hms'
      · have hnil' : ms' ≠ [] := fun h => hnil (SameOutcomes.eq_nil (h ▸ hsame))
        have hmeeting := hsame.meetingConstraint (q := q)
        by_cases hunmet : q.meetingConstraint ms = []
        · have hunmet' : q.meetingConstraint ms' = [] :=
            SameOutcomes.eq_nil (hunmet ▸ hmeeting.symm)
          rw [resolveWhole_of_unmet hmethod hms hnil hunmet,
            resolveWhole_of_unmet hmethod hms' hnil' hunmet']
          exact .error rfl
        · have hmet' : q.meetingConstraint ms' ≠ [] := fun h =>
            hunmet (SameOutcomes.eq_nil (h ▸ hmeeting))
          rw [resolveWhole_of_exact hmethod hms hunmet, resolveWhole_of_exact hmethod hms' hmet']
          exact hmeeting.selectFrom
    · rw [resolveWhole_of_exact_error hmethod he, resolveWhole_of_exact_error hmethod he']
      exact .error hkind

/-- **Catalogues with the same rules choose alike.** -/
theorem Catalogue.Shuffled.resolve {q : Request} (h : c.Shuffled c' q.key) :
    EndsAlike Resolution.Alike (c.resolve q) (c'.resolve q) := by
  rcases h.resolveWhole.cases with ⟨o, o', ho, ho', halike⟩ | ⟨e, e', he, he', hkind⟩
  · cases halike with
    | some halike =>
      rw [resolve_of_some ho, resolve_of_some ho']
      exact .ok halike
    | none =>
      rw [resolve_of_none ho, resolve_of_none ho']
      split
      · unfold Catalogue.resolveLayer
        cases hpeel : peelLayer q.key q.inbounds with
        | error e => exact .error rfl
        | ok peeled =>
          have hbelow : EndsAlike Resolution.Alike (c.resolve (q.below peeled.1))
              (c'.resolve (q.below peeled.1)) :=
            Catalogue.Shuffled.resolve (q := q.below peeled.1) h
          exact hbelow.map fun r s hrs =>
            ⟨congrArg (TypeTerm.partitioned · peeled.2) hrs.outbound, hrs.approximation, rfl⟩
      · exact .error rfl
  · rw [resolve_of_error he, resolve_of_error he']
    exact .error hkind
termination_by TypeTerm.sizeAll q.inbounds
decreasing_by exact size_of_peelLayer hpeel

/-! ## The returned rule -/

/-- Narrowing keeps all matches with one outcome or none of them. -/
theorem First.of_narrow {o : TypeTerm × Option String}
    (h : First (fun m => m.outcome = o) (q.narrow ms) m) : First (fun m => m.outcome = o) ms m := by
  obtain ⟨-, hconstraint, hmethod⟩ := mem_narrow.mp h.mem
  obtain rfl := h.holds
  have hmeeting : First (fun m' => m'.outcome = m.outcome) (q.meetingConstraint ms) m := by
    unfold Request.narrow Request.ofMethod at h
    cases hq : q.method with
    | none =>
      rw [hq] at h
      exact h
    | some method =>
      rw [hq] at h
      refine h.of_filter fun m' hm' => decide_eq_true ?_
      exact (congrArg Prod.snd hm').trans (hmethod method hq)
  unfold Request.meetingConstraint at hmeeting
  cases hq : q.constraint with
  | none =>
    rw [hq] at hmeeting
    exact hmeeting
  | some p =>
    rw [hq] at hmeeting
    refine hmeeting.of_filter fun m' hm' => ?_
    have houtbound : m'.outbound = m.outbound := congrArg Prod.fst hm'
    rw [houtbound]
    exact hconstraint p hq

/-- The first match with an outcome is that of the first rule that provides it. -/
theorem First.of_matchesOf {o : TypeTerm × Option String} (hms : q.matchesOf rules = .ok ms)
    (h : First (fun m => m.outcome = o) ms m) : First (fun r => r.Provides q o) rules m.rule := by
  obtain ⟨found, hfound, rfl⟩ := map_eq_ok.mp hms
  replace hfound := mapM_eq_ok.mp hfound
  clear hms
  induction hfound with
  | nil => cases h
  | @cons r x rules found hx _ ih =>
    cases x with
    | none =>
      refine .tail (fun hr => ?_) (ih h)
      obtain ⟨m', hm', -⟩ := (provides_iff_of_match? hx).mp hr
      contradiction
    | some m' =>
      rcases First.cons_iff.mp h with ⟨rfl, hm⟩ | ⟨hm, h⟩
      · rw [rule_of_match? hx]
        exact .head ((provides_iff_of_match? hx).mpr ⟨m, rfl, hm⟩)
      · refine .tail (fun hr => hm ?_) (ih h)
        obtain ⟨m'', hm'', houtcome⟩ := (provides_iff_of_match? hx).mp hr
        cases hm''
        exact houtcome

/-- The rule that is chosen without layers is the first that provides its outcome. -/
theorem first_of_resolveWhole (h : c.resolveWhole q = .ok (some r)) :
    First (fun s => s.key = q.key ∧ s.Provides q (r.outbound, r.approximation)) c.rules r.rule := by
  obtain ⟨approximate, ms, first, rest, hms, hnarrow, hselect⟩ := exists_of_resolveWhole h
  obtain rfl := select_eq_ok hselect
  have hfirst : First (fun m => m.outcome = first.outcome) (q.narrow ms) first := by
    rw [hnarrow]
    exact .head rfl
  have hrule := hfirst.of_narrow.of_matchesOf hms
  obtain ⟨-, -, happroximate⟩ := mem_candidates.mp hrule.mem
  refine (hrule.mono fun s hs => ?_).of_filter fun s ⟨hkey, hs⟩ => ?_
  · exact (and_iff_right (mem_candidates.mp hs).2.1).symm
  · rw [Bool.and_eq_true, decide_eq_true_eq, beq_iff_eq]
    refine ⟨hkey, ?_⟩
    rw [← happroximate]
    exact congrArg Option.isSome hs.1

/-- Among the rules that provide its outcome for what arrives below some layers, the chosen rule is
the first one. -/
def Resolution.FirstOf (rules : List Rule) (q : Request) (r : Resolution) : Prop :=
  ∃ counts elements t, PeeledAll counts q.inbounds elements ∧
    (counts = [] ↔ r.oneByOne = false) ∧ r.outbound = t.withLayers counts ∧
    First (fun s => s.key = q.key ∧
      s.Provides { q with inbounds := elements } (t, r.approximation)) rules r.rule

/-- **The chosen rule is the first that provides its outcome.** -/
theorem first_of_resolve (h : c.resolve q = .ok r) : r.FirstOf c.rules q := by
  refine resolve_induct (P := fun q r => r.FirstOf c.rules q) (fun q r hr => ?_)
    (fun q elements k s hpeel _ ih => ?_) h
  · obtain ⟨-, honeByOne⟩ := whole_of_resolveWhole hr
    exact ⟨[], q.inbounds, r.outbound, .nil _, iff_of_true rfl honeByOne, rfl,
      first_of_resolveWhole hr⟩
  · obtain ⟨counts, below, t, hpeeled, -, houtbound, hfirst⟩ := ih
    obtain ⟨hlayer, hsome⟩ := peeled_of_peelLayer hpeel
    refine ⟨k :: counts, below, t, .cons hsome hlayer hpeeled, ?_, ?_, hfirst⟩
    · exact iff_of_false (List.cons_ne_nil _ _) Bool.false_ne_true.symm
    · rw [TypeTerm.withLayers_cons, houtbound]

/-- Catalogues that register the same rules under a key have the same rules there. -/
theorem shuffled_ofRules
    (hsame : (l.filter (·.key = key)).Perm (l'.filter (·.key = key)))
    (hpattern : ∀ r ∈ l, r.key = key → ∃ t, r.outbound = .pattern t) :
    (Catalogue.ofRules l).Shuffled (Catalogue.ofRules l') key := by
  have hmem : ∀ r : Rule, r.key = key → (r ∈ l ↔ r ∈ l') := fun r hr => by
    simpa [hr] using hsame.mem_iff (a := r)
  have hcover : ∀ l : List Rule, (∀ r ∈ l, r.key = key → ∃ t, r.outbound = .pattern t) →
      ∀ r ∈ l, r.key = key → ∃ s ∈ (Catalogue.ofRules l).rules, r.Same s := by
    intro l hpattern r hr hkey
    obtain ⟨t, ht⟩ := hpattern r hr hkey
    obtain ⟨s, hs, hagrees⟩ := exists_agrees_of_mem hr
    exact ⟨s, hs, .of_agrees ht hagrees⟩
  have hpattern' : ∀ r ∈ l', r.key = key → ∃ t, r.outbound = .pattern t := fun r hr hkey =>
    hpattern r ((hmem r hkey).mpr hr) hkey
  exact {
    left := fun r hr hkey =>
      hcover l' hpattern' r ((hmem r hkey).mp (mem_of_mem_ofRules hr)) hkey
    right := fun s hs hkey =>
      hcover l hpattern s ((hmem s hkey).mpr (mem_of_mem_ofRules hs)) hkey
    pattern := fun r hr => hpattern r (mem_of_mem_ofRules hr) }

/-- **Choices do not depend on the order of registration.** Catalogues that register the same rules
under the key of an update, in any order and among any other rules, choose alike, and the returned
rule is the first that was registered among those that provide its outcome. -/
theorem resolve_registration_order (q : Request)
    (hsame : (l.filter (·.key = q.key)).Perm (l'.filter (·.key = q.key)))
    (hpattern : ∀ r ∈ l, r.key = q.key → ∃ t, r.outbound = .pattern t) :
    EndsAlike Resolution.Alike ((Catalogue.ofRules l).resolve q)
        ((Catalogue.ofRules l').resolve q) ∧
      ∀ r, (Catalogue.ofRules l).resolve q = .ok r → r.FirstOf l q := by
  refine ⟨(shuffled_ofRules hsame hpattern).resolve, fun r hr => ?_⟩
  obtain ⟨counts, elements, t, hpeeled, honeByOne, houtbound, hfirst⟩ := first_of_resolve hr
  refine ⟨counts, elements, t, hpeeled, honeByOne, houtbound, hfirst.of_ofRules ?_⟩
  intro r hr s hagrees ⟨hkey, hprovides⟩
  obtain ⟨t, ht⟩ := hpattern r hr hkey
  have hrs := Rule.Same.of_agrees ht hagrees
  exact ⟨hrs.key ▸ hkey, hrs.provides_iff.mp hprovides⟩

end Choosing

/-- A rule for the first message of a gain, for Gaussians of one dimension only. -/
def scalarGainRule : Rule where
  key := gainRule.key
  inbounds := [.void, .message (.dist "Gaussian" [.num 1])]
  outbound := .pattern (.dist "Gaussian" [.num 1])

/-- A rule for a kind of its own. -/
def offsetRule : Rule where
  key := ⟨"offset", .sumProduct, some 0⟩
  inbounds := [.void, .any]
  outbound := .pattern (.dist "Gaussian" [])

/-- A catalogue that chooses for Gaussians only chooses for two layers of them. -/
theorem resolve_gaussianGrid {c : Catalogue} {r : Resolution}
    (houter : c.resolveWhole (gainRequest gaussianGrid none) = .ok none)
    (hinner : c.resolveWhole
      (gainRequest (.partitioned (.dist "Gaussian" [.num 1]) (.num 3)) none) = .ok none)
    (hr : c.resolveWhole (gainRequest (.dist "Gaussian" [.num 1]) none) = .ok (some r)) :
    c.resolve (gainRequest gaussianGrid none) = .ok (r.within [.num 2, .num 3]) := by
  rw [resolve_of_descent (descent_grid houter hinner), resolve_of_some hr]
  rfl

/-- Both rules of the gain give one type. The one that is registered first is returned. -/
theorem registration_order_gain :
    ([gainRule, scalarGainRule].filter (·.key = gainRule.key)).Perm
        ([scalarGainRule, offsetRule, gainRule].filter (·.key = gainRule.key)) ∧
      (∀ r ∈ [gainRule, scalarGainRule], r.key = gainRule.key → ∃ t, r.outbound = .pattern t) ∧
      ∃ r s, (Catalogue.ofRules [gainRule, scalarGainRule]).resolve
          (gainRequest gaussianGrid none) = .ok r ∧
        (Catalogue.ofRules [scalarGainRule, offsetRule, gainRule]).resolve
          (gainRequest gaussianGrid none) = .ok s ∧
        r.Alike s ∧ r.rule = gainRule ∧ s.rule = scalarGainRule ∧
        r.FirstOf [gainRule, scalarGainRule] (gainRequest gaussianGrid none) := by
  have hsame : ([gainRule, scalarGainRule].filter (·.key = gainRule.key)).Perm
      ([scalarGainRule, offsetRule, gainRule].filter (·.key = gainRule.key)) := .swap _ _ _
  have hpattern : ∀ r ∈ [gainRule, scalarGainRule], r.key = gainRule.key →
      ∃ t, r.outbound = .pattern t := by
    simp [gainRule, scalarGainRule]
  obtain ⟨halike, hfirst⟩ :=
    resolve_registration_order (gainRequest gaussianGrid none) hsame hpattern
  have hr := resolve_gaussianGrid (c := Catalogue.ofRules [gainRule, scalarGainRule])
    (r := gainResolution) rfl rfl rfl
  have hs := resolve_gaussianGrid (c := Catalogue.ofRules [scalarGainRule, offsetRule, gainRule])
    (r := { outbound := .dist "Gaussian" [.num 1], rule := scalarGainRule, bindings := ∅ })
    rfl rfl rfl
  refine ⟨hsame, hpattern, _, _, hr, hs, ?_, rfl, rfl, hfirst _ hr⟩
  rw [hr, hs] at halike
  cases halike with
  | ok h => exact h

end MessagePassing
