import MessagePassing.Proofs.Outcome
import MessagePassing.Run.Pass

/-!
# The types of arguments

A value that comes from a message has the type of a message, and an absent value is void. A rule
accepts values if their types match its patterns. When a rule works on factors one by one, the
values have to be made of equally many factors, and the rule has to accept one factor of each. The
type of a value that is made of factors tells only what the first one is.

Results:
* `argumentType?_factorAt`: a factor of a value has the type that is left when a layer is taken off.
* `applyOneByOne_eq`: values with one number of factors are taken apart without failure.
* **`Arrive.factor`**: the factors of values of such types have the types of one factor, as far as
  they are like the first.
-/

namespace MessagePassing

/-! ## Values as arguments -/

/-- The type of an argument, given the type of its value: a message is wrapped as such. -/
def Source.wrap : Source → TypeTerm → TypeTerm
  | .message _, t => .message t
  | _, t => t

/-- The type that a value has as an argument from a source. -/
def Source.argumentType? (s : Source) : Value → Option TypeTerm
  | .absent => some .void
  | v => v.type?.map s.wrap

/-- The values from a list of sources have the types of a list. -/
inductive Arrive : List Source → List Value → List TypeTerm → Prop
  | nil : Arrive [] [] []
  | cons {s : Source} {v : Value} {t : TypeTerm} {sources : List Source} {args : List Value}
      {types : List TypeTerm} (head : s.argumentType? v = some t)
      (tail : Arrive sources args types) : Arrive (s :: sources) (v :: args) (t :: types)

/-- The patterns of the rule match the types of the values. -/
def Rule.Accepts (r : Rule) (sources : List Source) (args : List Value) : Prop :=
  ∃ types b, Arrive sources args types ∧ TypeTerm.matchAll r.inbounds types ∅ = some b

/-- A layer of factors, `k` of them, has been taken off the types. -/
def Peeled (k : TypeTerm) (types elements : List TypeTerm) : Prop :=
  List.Forall₂ (fun t e => t.peel? = some (e, k) ∨ t = .void ∧ e = .void) types elements

/-- A factor of a value has the type of the first one. -/
def Value.LikeFirst (i : Nat) (v : Value) : Prop :=
  (factorAt i v).type? = (factorAt 0 v).type?

/-- All factors of a value have one type. -/
def Value.Uniform (v : Value) : Prop :=
  ∀ l, v = .parts l → ∀ x ∈ l, ∀ y ∈ l, x.type? = y.type?

section Arguments

variable {s : Source} {v : Value} {t e k : TypeTerm}

theorem argumentType?_of_type? (h : v.type? = some t) : s.argumentType? v = some (s.wrap t) := by
  have hv : s.argumentType? v = v.type?.map s.wrap := by
    cases v with
    | absent => contradiction
    | text _ => rfl
    | dist _ _ _ => rfl
    | parts _ => rfl
  rw [hv, h, Option.map_some]

/-- A value of factors has the type of its first factor, with their number. -/
theorem type?_parts {l : List Value} (h : (Value.parts l).type? = some t) :
    0 < l.length ∧ ∃ u, (factorAt 0 (.parts l)).type? = some u ∧
      t = .partitioned u (.num l.length) := by
  cases l with
  | nil => contradiction
  | cons x l =>
    obtain ⟨u, hu, rfl⟩ := Option.map_eq_some_iff.mp h
    exact ⟨Nat.succ_pos _, u, hu, rfl⟩

/-- Only a value of factors has a type with a layer of factors. -/
theorem eq_parts_of_peel? (h : s.argumentType? v = some t) (hp : t.peel? = some (e, k)) :
    ∃ l u, v = .parts l ∧ v.type? = some u ∧ t = s.wrap u := by
  cases v with
  | absent =>
    cases h
    contradiction
  | text _ => contradiction
  | dist family dims params =>
    obtain rfl := Option.some.inj h
    cases s <;> contradiction
  | parts l =>
    obtain ⟨u, hu, rfl⟩ := Option.map_eq_some_iff.mp h
    exact ⟨l, u, rfl, hu, rfl⟩

/-- A value whose type has a layer of factors is made of that many factors, and these have the type
of one factor as far as they are like the first. -/
theorem argumentType?_factorAt (h : s.argumentType? v = some t) (hp : t.peel? = some (e, k)) :
    ∃ l, v = .parts l ∧ k = .num l.length ∧ 0 < l.length ∧
      ∀ i, v.LikeFirst i → s.argumentType? (factorAt i v) = some e := by
  obtain ⟨l, _, rfl, hu, rfl⟩ := eq_parts_of_peel? h hp
  obtain ⟨hpos, u, hfirst, rfl⟩ := type?_parts hu
  have hpeel : k = .num l.length ∧ e = s.wrap u := by
    cases s <;> cases hp <;> exact ⟨rfl, rfl⟩
  obtain ⟨rfl, rfl⟩ := hpeel
  exact ⟨l, rfl, rfl, hpos, fun i hi => argumentType?_of_type? (hi.trans hfirst)⟩

theorem eq_absent_of_void (h : s.argumentType? v = some .void) : v = .absent := by
  cases v with
  | absent => rfl
  | text _ => contradiction
  | dist family dims params =>
    have := Option.some.inj h
    cases s <;> contradiction
  | parts l =>
    obtain ⟨t, ht, hwrap⟩ := Option.map_eq_some_iff.mp h
    obtain ⟨-, u, -, rfl⟩ := type?_parts ht
    cases s <;> contradiction

end Arguments

/-! ## Taking values apart -/

section Factors

variable {k : TypeTerm} {sources : List Source} {args : List Value} {types elements : List TypeTerm}

/-- The value is absent or made of a number of factors. -/
def Value.Splits (n : Nat) (v : Value) : Prop :=
  v = .absent ∨ ∃ l, v = .parts l ∧ l.length = n

/-- All factors of a uniform value are like the first. -/
theorem Value.Uniform.likeFirst {v : Value} {n i : Nat} (h : v.Uniform) (hv : v.Splits n)
    (hi : i < n) : v.LikeFirst i := by
  rcases hv with rfl | ⟨l, rfl, rfl⟩
  · rfl
  · have hfactor : ∀ j < l.length, factorAt j (.parts l) ∈ l := by
      intro j hj
      change (l[j]?).getD .absent ∈ l
      rw [List.getElem?_eq_getElem hj]
      exact List.getElem_mem hj
    exact h l rfl _ (hfactor i hi) _ (hfactor 0 (by omega))

theorem Value.uniform_of_ne_parts {v : Value} (h : ∀ l, v ≠ .parts l) : v.Uniform :=
  fun l hl => absurd hl (h l)

theorem Arrive.exists_parts (h : Arrive sources args types) (hp : Peeled k types elements)
    (ht : ∃ t ∈ types, t.peel? ≠ none) :
    ∃ l, .parts l ∈ args ∧ k = .num l.length ∧ 0 < l.length := by
  induction h generalizing elements with
  | nil =>
    obtain ⟨t, ht, -⟩ := ht
    exact absurd ht List.not_mem_nil
  | @cons s v t sources args types head _ ih =>
    cases hp with
    | cons hpt hrest =>
      rcases hpt with hpeel | ⟨rfl, -⟩
      · obtain ⟨l, rfl, hk, hpos, -⟩ := argumentType?_factorAt head hpeel
        exact ⟨l, List.mem_cons_self, hk, hpos⟩
      · obtain ⟨t, ht, hpeel⟩ := ht
        rcases List.mem_cons.mp ht with rfl | ht
        · exact absurd rfl hpeel
        · obtain ⟨l, hl, hk⟩ := ih hrest ⟨t, ht, hpeel⟩
          exact ⟨l, List.mem_cons_of_mem _ hl, hk⟩

theorem Arrive.splits {n : Nat} (h : Arrive sources args types)
    (hp : Peeled (.num n) types elements) : ∀ v ∈ args, v.Splits n := by
  induction h generalizing elements with
  | nil => exact fun _ hv => absurd hv List.not_mem_nil
  | cons head _ ih =>
    cases hp with
    | cons hpt hrest =>
      refine List.forall_mem_cons.mpr ⟨?_, ih hrest⟩
      rcases hpt with hpeel | ⟨rfl, -⟩
      · obtain ⟨l, rfl, hk, -⟩ := argumentType?_factorAt head hpeel
        exact Or.inr ⟨l, rfl, by injection hk with hk; omega⟩
      · exact Or.inl (eq_absent_of_void head)

/-- **The factors of values have the types of one factor**, as far as they are like the first. -/
theorem Arrive.factor {i : Nat} (h : Arrive sources args types) (hp : Peeled k types elements)
    (hi : ∀ v ∈ args, v.LikeFirst i) : Arrive sources (args.map (factorAt i)) elements := by
  induction h generalizing elements with
  | nil =>
    cases hp
    exact .nil
  | cons head _ ih =>
    cases hp with
    | cons hpt hrest =>
      obtain ⟨hv, hi⟩ := List.forall_mem_cons.mp hi
      refine .cons ?_ (ih hrest hi)
      rcases hpt with hpeel | ⟨rfl, rfl⟩
      · obtain ⟨-, -, -, -, hfactor⟩ := argumentType?_factorAt head hpeel
        exact hfactor i hv
      · rw [eq_absent_of_void head]
        rfl

theorem factorCounts_of_splits {n : Nat} (h : ∀ v ∈ args, v.Splits n) :
    ∃ counts, factorCounts args = .ok counts ∧ (∀ c ∈ counts, c = n) ∧
      ((∃ l, .parts l ∈ args) → counts ≠ []) := by
  induction args with
  | nil =>
    exact ⟨[], rfl, fun _ hc => absurd hc List.not_mem_nil,
      fun ⟨_, hl⟩ => absurd hl List.not_mem_nil⟩
  | cons v args ih =>
    obtain ⟨hv, hargs⟩ := List.forall_mem_cons.mp h
    obtain ⟨counts, hcounts, hall, hne⟩ := ih hargs
    rcases hv with rfl | ⟨l, rfl, rfl⟩
    · refine ⟨counts, hcounts, hall, fun ⟨l, hl⟩ => hne ⟨l, ?_⟩⟩
      exact (List.mem_cons.mp hl).resolve_left nofun
    · refine ⟨l.length :: counts, ?_, List.forall_mem_cons.mpr ⟨rfl, hall⟩,
        fun _ => List.cons_ne_nil _ _⟩
      unfold factorCounts
      rw [hcounts]
      rfl

theorem ofList_of_forall_eq {n : Nat} {l : List Nat} (h : ∀ c ∈ l, c = n) (hne : l ≠ []) :
    Ascending.ofList l = [n] := by
  induction l with
  | nil => exact absurd rfl hne
  | cons c l ih =>
    obtain ⟨rfl, hl⟩ := List.forall_mem_cons.mp h
    change Ascending.insert c (Ascending.ofList l) = [c]
    cases l with
    | nil => rfl
    | cons d l =>
      rw [ih hl (List.cons_ne_nil _ _)]
      unfold Ascending.insert
      rw [if_neg (Nat.lt_irrefl c), if_pos rfl]

/-- Values that can be taken apart are, and the procedure is run on one factor of each at a time. -/
theorem applyOneByOne_eq {n : Nat} (h : ∀ v ∈ args, v.Splits n) (hl : ∃ l, .parts l ∈ args)
    (f : Procedure) (lead : Argument) :
    applyOneByOne f lead args =
      ((List.range n).mapM fun i => f (lead :: (args.map (factorAt i)).map .value)) >>=
        Value.ofFactors := by
  obtain ⟨counts, hcounts, hall, hne⟩ := factorCounts_of_splits h
  unfold applyOneByOne
  rw [hcounts, ok_bind, ofList_of_forall_eq hall (hne hl)]
  simp only [List.map_map]
  rfl

end Factors

end MessagePassing
