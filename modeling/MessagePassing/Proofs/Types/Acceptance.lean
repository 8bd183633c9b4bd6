import MessagePassing.Proofs.Types.RegistrationOrder
import MessagePassing.Session.Basic

/-!
# What a catalogue shows

Rules are offered to a catalogue one by one. It rejects a rule whose key and signature it has, and
accepts any other one. What can be seen of it later, the candidates under a key, the size and the
listing key by key, depends only on the rules that were accepted, and on their order.
`Catalogue.accepted` reads these rules off the answers, without a look at the catalogue.

A catalogue keeps its rules in one list. `Catalogue.shelves` arranges them on a shelf for each key,
and a rule may as well be compared with, and put on, the shelf of its key only.

Results:
* `Rule.agrees_iff`: rules agree if they have one key and one signature.
* `shelve_shelves`: registering a rule is a matter of one shelf.
* `rules_ofRules`, `different_ofRules`: a catalogue has the rules that it accepted, and they differ.
* `judges_rules`: which calls a catalogue rejects.
* `shows_rules`: what is seen of a catalogue whose rules differ.
* **`Catalogue.shows_accepted`**: both, after any calls.
-/

namespace MessagePassing

/-! ## Signatures -/

/-- What an outbound type is compared by: a pattern itself, a function by its identity. -/
def Outbound.identity : Outbound → TypeTerm ⊕ Nat
  | pattern t => .inl t
  | computed f => .inr f.identity

/-- What a rule is compared by with the rules under its key. -/
def Rule.signature (r : Rule) : List TypeTerm × (TypeTerm ⊕ Nat) × Option String :=
  (r.inbounds, r.outbound.identity, r.approximation)

/-- A rule of a list has the key and the signature of a rule. -/
def Rule.Repeats (r : Rule) (log : List Rule) : Prop :=
  ∃ s ∈ log, s.key = r.key ∧ s.signature = r.signature

theorem Outbound.agrees_iff {o o' : Outbound} : o.agrees o' = true ↔ o'.identity = o.identity := by
  cases o <;> cases o' <;> simp [agrees, identity, eq_comm]

theorem Rule.agrees_iff {r s : Rule} :
    r.agrees s = true ↔ s.key = r.key ∧ s.signature = r.signature := by
  unfold agrees signature
  simp only [Bool.and_eq_true, decide_eq_true_eq, Outbound.agrees_iff, Prod.mk.injEq, and_assoc]
  rw [eq_comm, eq_comm (a := r.inbounds), eq_comm (a := r.approximation)]

/-! ## Items listed key by key -/

section Grouping

variable {α β : Type} [DecidableEq α]

/-- Items that are listed key by key, for different keys, are those that have one of the keys. -/
theorem flatMap_filter_perm (f : β → α) (l : List β) {keys : List α} (h : keys.Nodup) :
    (keys.flatMap fun k => l.filter (f · = k)).Perm (l.filter (f · ∈ keys)) := by
  induction keys with
  | nil => simp
  | cons k keys ih =>
    obtain ⟨hk, hkeys⟩ := List.nodup_cons.mp h
    rw [List.flatMap_cons]
    refine ((ih hkeys).append_left _).trans ?_
    have hhead : (l.filter (f · ∈ k :: keys)).filter (f · = k) = l.filter (f · = k) := by
      rw [List.filter_filter]
      refine List.filter_congr fun b _ => ?_
      by_cases hb : f b = k <;> simp [hb]
    have htail : (l.filter (f · ∈ k :: keys)).filter (fun b => !decide (f b = k)) =
        l.filter (f · ∈ keys) := by
      rw [List.filter_filter]
      refine List.filter_congr fun b _ => ?_
      by_cases hb : f b = k <;> simp [hb, hk]
    rw [← hhead, ← htail]
    exact List.filter_append_perm _ _

/-- Of items that are listed key by key, those with one of the keys stand in their own order. -/
theorem filter_flatMap_filter (f : β → α) (l : List β) {keys : List α} (h : keys.Nodup) (k : α) :
    (keys.flatMap fun k => l.filter (f · = k)).filter (f · = k) =
      if k ∈ keys then l.filter (f · = k) else [] := by
  induction keys with
  | nil => simp
  | cons a keys ih =>
    obtain ⟨ha, hkeys⟩ := List.nodup_cons.mp h
    rw [List.flatMap_cons, List.filter_append, ih hkeys, List.filter_filter]
    by_cases hk : k = a
    · subst hk
      simp [ha]
    · have hnone : ∀ b, (decide (f b = k) && decide (f b = a)) = false := fun b => by
        by_cases hb : f b = k <;> simp [hb, hk]
      simp [hnone, hk]

end Grouping

/-- Of items no two of which are related, each is related to itself only. -/
theorem filter_eq_singleton {α : Type} {p : α → α → Bool} (hrefl : ∀ a, p a a = true)
    (hsymm : ∀ a b, p a b = true → p b a = true) {l : List α}
    (h : l.Pairwise fun a b => ¬ p a b = true) {a : α} (ha : a ∈ l) : l.filter (p a) = [a] := by
  induction l with
  | nil => exact absurd ha List.not_mem_nil
  | cons b l ih =>
    obtain ⟨hb, hl⟩ := List.pairwise_cons.mp h
    rcases List.mem_cons.mp ha with rfl | ha
    · rw [List.filter_cons_of_pos (hrefl a), List.filter_eq_nil_iff.mpr hb]
    · rw [List.filter_cons_of_neg fun hab => hb a ha (hsymm a b hab)]
      exact ih hl ha

/-! ## Shelves -/

namespace Catalogue

variable {c : Catalogue} {r : Rule}

/-- The rules under a key. -/
def shelf (c : Catalogue) (key : RuleKey) : List Rule :=
  c.rules.filter (·.key = key)

/-- The catalogue as a table with a shelf for each key. -/
def shelves (c : Catalogue) : Table RuleKey (List Rule) :=
  .ofKeys c.keys c.shelf

/-- Puts a rule at the end of the shelf of its key, which may be new, unless a rule there has its
signature. -/
def shelve (t : Table RuleKey (List Rule)) (r : Rule) :
    Except Failure (Table RuleKey (List Rule)) :=
  let shelf := (t.get? r.key).getD []
  if shelf.any (·.signature = r.signature) then
    .error (.duplicateRule r.key r.inbounds r.outbound.render)
  else .ok (t.insert r.key (shelf ++ [r]))

theorem mem_keys {key : RuleKey} : key ∈ c.keys ↔ ∃ r ∈ c.rules, r.key = key := by
  simp [keys]

/-- Only a key of the catalogue has rules. -/
theorem ite_mem_keys (c : Catalogue) (key : RuleKey) :
    (if key ∈ c.keys then c.shelf key else []) = c.shelf key := by
  refine ite_eq_left_iff.mpr fun hkey => (List.filter_eq_nil_iff.mpr fun r hr hrkey => hkey ?_).symm
  exact mem_keys.mpr ⟨r, hr, of_decide_eq_true hrkey⟩

theorem getD_get?_shelves (c : Catalogue) (key : RuleKey) :
    (c.shelves.get? key).getD [] = c.shelf key := by
  rw [shelves, Table.get?_ofKeys, apply_ite (Option.getD · [])]
  exact ite_mem_keys c key

/-- A rule agrees with a rule of the catalogue if its signature is on the shelf of its key. -/
theorem any_shelf (c : Catalogue) (r : Rule) :
    (c.shelf r.key).any (·.signature = r.signature) = c.rules.any r.agrees := by
  unfold shelf
  rw [List.any_filter]
  refine congrArg c.rules.any (funext fun s => Bool.eq_iff_iff.mpr ?_)
  rw [Bool.and_eq_true, decide_eq_true_eq, decide_eq_true_eq, Rule.agrees_iff]

/-- One more rule changes the shelf of its key, which goes to the end if it is new. -/
theorem shelves_concat (c : Catalogue) (r : Rule) :
    shelves ⟨c.rules ++ [r]⟩ = c.shelves.insert r.key (c.shelf r.key ++ [r]) := by
  have hkeys : keys ⟨c.rules ++ [r]⟩ = if r.key ∈ c.keys then c.keys else c.keys ++ [r.key] := by
    simp only [keys, List.map_append, List.map_cons, List.map_nil, distinct_concat, mem_distinct]
  have hshelf : shelf ⟨c.rules ++ [r]⟩ r.key = c.shelf r.key ++ [r] := by
    simp [shelf]
  have hother : ∀ key, key ≠ r.key → shelf ⟨c.rules ++ [r]⟩ key = c.shelf key := fun key hkey => by
    simp [shelf, Ne.symm hkey]
  have hnodup : c.keys.Nodup := nodup_distinct _
  rw [← hshelf, shelves, shelves, Table.insert_ofKeys hnodup hother, hkeys]

/-- **Registering a rule is a matter of one shelf.** -/
theorem shelve_shelves (c : Catalogue) (r : Rule) :
    shelve c.shelves r = (c.register r).map shelves := by
  unfold shelve register
  rw [getD_get?_shelves]
  dsimp only
  rw [any_shelf]
  split
  · rfl
  · exact congrArg Except.ok (shelves_concat c r).symm

/-! ## Calls -/

theorem repeats_iff {log : List Rule} :
    r.Repeats log ↔ ∃ s ∈ log, r.agrees s = true :=
  exists_congr fun _ => and_congr_right fun _ => Rule.agrees_iff.symm

theorem any_agrees_iff : c.rules.any r.agrees = true ↔ r.Repeats c.rules :=
  List.any_eq_true.trans repeats_iff.symm

theorem register_of_repeats (h : r.Repeats c.rules) :
    c.register r = .error (.duplicateRule r.key r.inbounds r.outbound.render) :=
  if_pos (any_agrees_iff.mpr h)

theorem register_of_not_repeats (h : ¬ r.Repeats c.rules) : c.register r = .ok ⟨c.rules ++ [r]⟩ :=
  if_neg (mt any_agrees_iff.mp h)

/-- The rules that a catalogue accepts from calls that register rules one by one. -/
def accepted (c : Catalogue) : List Rule → List Rule
  | [] => []
  | r :: l =>
    match c.register r with
    | .ok c' => r :: c'.accepted l
    | .error _ => c.accepted l

/-- A catalogue has the rules that it accepted. -/
theorem rules_foldl_enrol (l : List Rule) (c : Catalogue) :
    (l.foldl enrol c).rules = c.rules ++ c.accepted l := by
  induction l generalizing c with
  | nil => exact (List.append_nil _).symm
  | cons r l ih =>
    rw [List.foldl_cons, ih, accepted, enrol]
    by_cases h : r.Repeats c.rules
    · rw [register_of_repeats h]
      rfl
    · rw [register_of_not_repeats h]
      exact List.append_assoc _ _ _

theorem rules_ofRules (l : List Rule) : (ofRules l).rules = accepted ∅ l :=
  rules_foldl_enrol l ∅

/-- No two rules of a list have one key and one signature. -/
def Different (log : List Rule) : Prop :=
  log.Pairwise fun r s => r.key = s.key → r.signature ≠ s.signature

theorem different_enrol (h : Different c.rules) (r : Rule) : Different (c.enrol r).rules := by
  rw [rules_enrol]
  split
  · exact h
  · rename_i hr
    refine List.pairwise_append.mpr ⟨h, List.pairwise_singleton _ _, fun s hs t ht => ?_⟩
    obtain rfl := List.mem_singleton.mp ht
    exact fun hkey hsignature => hr (any_agrees_iff.mpr ⟨s, hs, hkey, hsignature⟩)

theorem different_ofRules (l : List Rule) : Different (ofRules l).rules := by
  induction l using List.reverseRecOn with
  | nil => exact .nil
  | append_singleton l r ih =>
    rw [ofRules_concat]
    exact different_enrol ih r

/-- Which calls are rejected after some rules were accepted, and what they leave. -/
structure Judges (c : Catalogue) (log : List Rule) : Prop where
  /-- A call is rejected just when an accepted rule has the key and the signature. -/
  rejects_iff : ∀ r, (∃ e, c.register r = .error e) ↔ r.Repeats log
  /-- A rejected call names the rule, and leaves the session as it is. -/
  rejected : ∀ (s : Session) (r : Rule), s.catalogue = c → r.Repeats log →
    Session.register r s = .error (.duplicateRule r.key r.inbounds r.outbound.render) s
  /-- An accepted call changes nothing but the catalogue. -/
  accepted : ∀ (s : Session) (r : Rule), s.catalogue = c → ¬ r.Repeats log →
    Session.register r s = .ok () { s with catalogue := c.enrol r }
  /-- It is enough to look at, and to change, the shelf of the key. -/
  shelved : ∀ r, shelve c.shelves r = (c.register r).map shelves

theorem judges_rules (c : Catalogue) : c.Judges c.rules where
  rejects_iff _ := c.register_eq_error_iff.trans repeats_iff.symm
  rejected s r hs h := by
    subst hs
    unfold Session.register
    rw [register_of_repeats h]
  accepted s r hs h := by
    subst hs
    unfold Session.register enrol
    rw [register_of_not_repeats h]
    rfl
  shelved := shelve_shelves c

/-! ## Views -/

/-- What is seen of a catalogue after some rules were accepted, in this order. -/
structure Shows (c : Catalogue) (log : List Rule) : Prop where
  /-- The candidates are the exact or the approximate rules under a key, in the order of
  acceptance. -/
  candidates : ∀ key approximate, c.candidates key approximate =
    log.filter fun r => r.key = key && r.isApproximate == approximate
  /-- Together they are all the rules that are listed under the key. -/
  together : ∀ key, (c.candidates key false ++ c.candidates key true).Perm
    (c.toList.filter (·.key = key))
  /-- The shelf of a key has all its rules in the order of acceptance. -/
  shelf : ∀ key, (c.shelves.get? key).getD [] = log.filter (·.key = key)
  /-- The size is the number of accepted rules. -/
  size : c.size = log.length
  /-- The rules are listed shelf by shelf. -/
  walk : c.toList = c.shelves.values.flatten
  /-- The accepted rules are listed, and no others. -/
  perm : c.toList.Perm log
  /-- Each accepted rule is listed once: with its key and signature there is no other one. -/
  once : ∀ r ∈ log, (c.toList.filter fun s => s.key = r.key ∧ s.signature = r.signature) = [r]
  /-- The rules under a key are listed in the order of acceptance. -/
  within : ∀ key, c.toList.filter (·.key = key) = log.filter (·.key = key)
  /-- The keys are listed one after the other, in the order of their first acceptance. -/
  firsts : c.toList.Pairwise fun r s =>
    (log.map (·.key)).idxOf r.key ≤ (log.map (·.key)).idxOf s.key

theorem perm_toList (c : Catalogue) : c.toList.Perm c.rules := by
  have hperm : c.toList.Perm (c.rules.filter (·.key ∈ c.keys)) :=
    flatMap_filter_perm _ _ (nodup_distinct _)
  rwa [List.filter_eq_self.mpr fun r hr => decide_eq_true (mem_keys.mpr ⟨r, hr, rfl⟩)] at hperm

theorem filter_toList (c : Catalogue) (key : RuleKey) :
    c.toList.filter (·.key = key) = c.rules.filter (·.key = key) :=
  (filter_flatMap_filter _ _ (nodup_distinct _) key).trans (ite_mem_keys c key)

/-- Rules on one shelf have one key, and the shelves stand in the order of the keys. -/
theorem pairwise_toList (c : Catalogue) : c.toList.Pairwise fun r s =>
    (c.rules.map (·.key)).idxOf r.key ≤ (c.rules.map (·.key)).idxOf s.key := by
  have hkey : ∀ {key : RuleKey} {r : Rule}, r ∈ c.shelf key → r.key = key := fun hr =>
    of_decide_eq_true (List.mem_filter.mp hr).2
  refine List.pairwise_flatMap.mpr ⟨fun key _ => ?_, ?_⟩
  · refine List.pairwise_of_forall_mem_list fun r hr s hs => ?_
    rw [hkey hr, hkey hs]
  · refine (pairwise_idxOf_distinct _).imp fun hle r hr s hs => ?_
    rwa [hkey hr, hkey hs]

theorem candidates_append_perm (c : Catalogue) (key : RuleKey) :
    (c.candidates key false ++ c.candidates key true).Perm (c.rules.filter (·.key = key)) := by
  have hsplit : ∀ approximate, c.candidates key approximate =
      (c.rules.filter (·.key = key)).filter (·.isApproximate == approximate) := by
    intro approximate
    unfold candidates
    rw [List.filter_filter]
    exact List.filter_congr fun r _ => Bool.and_comm _ _
  simp only [hsplit, beq_true, beq_false]
  exact List.perm_append_comm.trans (List.filter_append_perm _ _)

theorem filter_agrees (h : Different c.rules) (hr : r ∈ c.rules) :
    c.rules.filter r.agrees = [r] := by
  refine filter_eq_singleton agrees_self (fun r s => ?_) (h.imp fun hne hagrees => ?_) hr
  · rw [Rule.agrees_iff, Rule.agrees_iff]
    exact And.imp Eq.symm Eq.symm
  · obtain ⟨hkey, hsignature⟩ := Rule.agrees_iff.mp hagrees
    exact hne hkey.symm hsignature.symm

/-- **All views of a catalogue tell of its rules**, if these are different. -/
theorem shows_rules (h : Different c.rules) : c.Shows c.rules where
  candidates _ _ := rfl
  together key := (candidates_append_perm c key).trans (.of_eq (filter_toList c key).symm)
  shelf := getD_get?_shelves c
  size := rfl
  walk := by
    rw [shelves, Table.values_ofKeys, ← List.flatMap_def]
    rfl
  perm := perm_toList c
  once r hr := by
    rw [← List.perm_singleton, ← filter_agrees h hr]
    refine ((perm_toList c).filter _).trans (.of_eq (List.filter_congr fun s _ => ?_))
    rw [Bool.eq_iff_iff, decide_eq_true_eq, Rule.agrees_iff]
  within := filter_toList c
  firsts := pairwise_toList c

/-- **A catalogue shows the rules that it accepted.** After any calls, the accepted rules under one
key have different signatures, a call is rejected just when one of them has its key and its
signature, and then changes nothing, and candidates, size and listing are those of the accepted
rules. -/
theorem shows_accepted (l : List Rule) :
    Different (accepted ∅ l) ∧ (ofRules l).Judges (accepted ∅ l) ∧
      (ofRules l).Shows (accepted ∅ l) := by
  rw [← rules_ofRules]
  have hdifferent := different_ofRules l
  exact ⟨hdifferent, judges_rules _, shows_rules hdifferent⟩

/-- Seven calls, of which the third and the last one are rejected. Functions are told apart by their
identity, and the rules for a gain are listed before the one for an offset. -/
example :
    let rule (kind : String) (outbound : Outbound) (approximation : Option String) : Rule :=
      { key := ⟨kind, .sumProduct, some 0⟩, inbounds := [.void, .message .any],
        outbound, approximation }
    let gaussian : Outbound := .pattern (.dist "Gaussian" [])
    let function (identity : Nat) : Outbound := .computed (.nodeDims identity "f" "Gaussian")
    let c := ofRules [rule "gain" gaussian none, rule "offset" gaussian none,
      rule "gain" gaussian none, rule "gain" gaussian (some "Laplace"),
      rule "gain" (function 0) none, rule "gain" (function 1) none, rule "gain" (function 0) none]
    c.toList.map (fun r => (r.key.kind, r.outbound.identity, r.approximation)) =
      [("gain", gaussian.identity, none), ("gain", gaussian.identity, some "Laplace"),
        ("gain", .inr 0, none), ("gain", .inr 1, none), ("offset", gaussian.identity, none)] := by
  decide

end Catalogue

end MessagePassing
