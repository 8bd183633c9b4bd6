import Mathlib.Data.List.Perm.Basic
import MessagePassing.TypeTerm.Matching

/-!
# Matching finds the least bindings

A pattern agrees with a term under bindings if one substitution turns it into the term, where each
wildcard of the pattern may stand for anything. Matching extends given bindings, place by place, and
stops at the first place that does not agree. That is enough: it succeeds just when some extension
of the given bindings solves the pattern, and what it returns is the least one, so that nothing
depends on the order of the places.

Results:
* `agrees_substitute`, `substitute_of_agrees`: agreement without wildcards is equality.
* `Settles.bind`: of two searches in a row, the second starts from what the first has found.
* `settles_matchWith`, `settles_matchAll`: what matching returns, by recursion on the pattern.
* `admits_iff`: a pattern admits a term just when some bindings solve it.
* `same_of_perm`: places may be matched in any order.
* **`least_matchWith`**: matching is sound, complete and minimal.
-/

namespace MessagePassing

namespace Bindings

/-- What the first bindings bind, the second bind to the same term. -/
def Within (b s : Bindings) : Prop :=
  ∀ x t, b.get? x = some t → s.get? x = some t

/-- Each of the variables is bound. -/
def Binds (s : Bindings) (vars : List String) : Prop :=
  ∀ x ∈ vars, (s.get? x).isSome

instance (s : Bindings) (vars : List String) : Decidable (s.Binds vars) :=
  inferInstanceAs (Decidable (∀ x ∈ vars, (s.get? x).isSome))

/-- The same variables are bound to the same terms, in whatever order they are listed. -/
def Same (b s : Bindings) : Prop :=
  ∀ x, b.get? x = s.get? x

variable {b b' s : Bindings} {x : String} {t : TypeTerm}

theorem Within.refl (b : Bindings) : b.Within b := fun _ _ h => h

theorem within_empty (s : Bindings) : Within ∅ s := fun _ _ h => nomatch h

theorem same_of_within (h : b.Within s) (h' : s.Within b) : b.Same s := by
  intro x
  cases hx : b.get? x with
  | some t => exact (h x t hx).symm
  | none =>
    cases hs : s.get? x with
    | none => rfl
    | some t =>
      rw [h' x t hs] at hx
      contradiction

/-- A new binding is all that an insertion adds. -/
theorem within_insert (hx : b.get? x = none) :
    Within (b.insert x t) s ↔ b.Within s ∧ s.get? x = some t := by
  constructor
  · intro h
    refine ⟨fun y u hy => h y u ?_, h x t ?_⟩
    · rw [Table.get?_insert, if_neg, hy]
      rintro rfl
      rw [hx] at hy
      contradiction
    · rw [Table.get?_insert, if_pos rfl]
  · rintro ⟨h, hs⟩ y u hy
    rw [Table.get?_insert] at hy
    split at hy
    · rename_i hxy
      rw [← hxy, hs, hy]
    · exact h y u hy

end Bindings

namespace TypeTerm

/-! ## Agreement -/

mutual

/-- The variables of a pattern. There are none below a wildcard. -/
def vars : TypeTerm → List String
  | var x => [x]
  | dist _ ps => varsAll ps
  | message t => t.vars
  | partitioned e k => e.vars ++ k.vars
  | approx t _ => t.vars
  | _ => []

/-- The variables of a list of patterns. -/
def varsAll : List TypeTerm → List String
  | [] => []
  | p :: ps => p.vars ++ varsAll ps

end

mutual

/-- Whether a wildcard occurs in a pattern. -/
def hasWildcard : TypeTerm → Bool
  | any => true
  | dist _ ps => anyWildcard ps
  | message t => t.hasWildcard
  | partitioned e k => e.hasWildcard || k.hasWildcard
  | approx t _ => t.hasWildcard
  | _ => false

/-- Whether a wildcard occurs in a list of patterns. -/
def anyWildcard : List TypeTerm → Bool
  | [] => false
  | p :: ps => p.hasWildcard || anyWildcard ps

end

/-- Substituting once turns the pattern into the term, if each wildcard of the pattern is taken for
what stands in its place. -/
inductive Agrees (s : Bindings) : TypeTerm → TypeTerm → Prop
  | any (t : TypeTerm) : Agrees s any t
  | var {x : String} {t : TypeTerm} (h : (var x).substitute s = t) : Agrees s (var x) t
  | void : Agrees s void void
  | dist (f : String) {ps ts : List TypeTerm} (h : List.Forall₂ (Agrees s) ps ts) :
      Agrees s (dist f ps) (dist f ts)
  | message {p t : TypeTerm} (h : Agrees s p t) : Agrees s (message p) (message t)
  | partitioned {p t k l : TypeTerm} (h : Agrees s p t) (hcount : Agrees s k l) :
      Agrees s (partitioned p k) (partitioned t l)
  | approx {p t : TypeTerm} (m : String) (h : Agrees s p t) : Agrees s (approx p m) (approx t m)
  | num (n : Int) : Agrees s (num n) (num n)
  | text (r : String) : Agrees s (text r) (text r)

/-- The bindings bind every variable of the pattern, and under them it agrees with the term. -/
structure Solves (s : Bindings) (p t : TypeTerm) : Prop where
  binds : s.Binds p.vars
  agrees : Agrees s p t

variable {s : Bindings}

mutual

/-- A pattern agrees with what it becomes by substitution. -/
theorem agrees_substitute : ∀ p : TypeTerm, Agrees s p (p.substitute s)
  | any => .any _
  | var _ => .var rfl
  | void => .void
  | dist f ps => by
    rw [substitute]
    exact .dist f (agrees_substituteAll ps)
  | message p => by
    rw [substitute]
    exact .message (agrees_substitute p)
  | partitioned e k => by
    rw [substitute]
    exact .partitioned (agrees_substitute e) (agrees_substitute k)
  | approx p m => by
    rw [substitute]
    exact .approx m (agrees_substitute p)
  | num n => .num n
  | text r => .text r

theorem agrees_substituteAll : ∀ ps : List TypeTerm,
    List.Forall₂ (Agrees s) ps (substituteAll s ps)
  | [] => .nil
  | p :: ps => by
    rw [substituteAll]
    exact .cons (agrees_substitute p) (agrees_substituteAll ps)

end

mutual

/-- Without wildcards, a pattern agrees only with what it becomes by substitution. -/
theorem substitute_of_agrees : ∀ {p t : TypeTerm}, p.hasWildcard = false → Agrees s p t →
    p.substitute s = t
  | any, _, hp, _ => by simp [hasWildcard] at hp
  | var _, _, _, .var h => h
  | void, _, _, .void => rfl
  | dist f ps, _, hp, .dist _ h => by
    rw [hasWildcard] at hp
    rw [substitute, substituteAll_of_agrees hp h]
  | message p, _, hp, .message h => by
    rw [hasWildcard] at hp
    rw [substitute, substitute_of_agrees hp h]
  | partitioned e k, _, hp, .partitioned he hk => by
    rw [hasWildcard, Bool.or_eq_false_iff] at hp
    rw [substitute, substitute_of_agrees hp.1 he, substitute_of_agrees hp.2 hk]
  | approx p m, _, hp, .approx _ h => by
    rw [hasWildcard] at hp
    rw [substitute, substitute_of_agrees hp h]
  | num _, _, _, .num _ => rfl
  | text _, _, _, .text _ => rfl

theorem substituteAll_of_agrees : ∀ {ps ts : List TypeTerm}, anyWildcard ps = false →
    List.Forall₂ (Agrees s) ps ts → substituteAll s ps = ts
  | [], _, _, .nil => rfl
  | p :: ps, _, hp, .cons h hs => by
    rw [anyWildcard, Bool.or_eq_false_iff] at hp
    rw [substituteAll, substitute_of_agrees hp.1 h, substituteAll_of_agrees hp.2 hs]

end

/-! ## Solving a pattern -/

section Solving

variable {p t e e' k k' : TypeTerm} {ps ts : List TypeTerm}

theorem binds_nil : s.Binds [] := fun _ hx => absurd hx List.not_mem_nil

theorem binds_append {xs ys : List String} : s.Binds (xs ++ ys) ↔ s.Binds xs ∧ s.Binds ys :=
  List.forall_mem_append

theorem solves_any : Solves s any t ↔ True :=
  iff_true_intro ⟨binds_nil, .any t⟩

theorem solves_var {x : String} : Solves s (var x) t ↔ s.get? x = some t := by
  constructor
  · intro ⟨hbinds, .var h⟩
    obtain ⟨u, hu⟩ := Option.isSome_iff_exists.mp (hbinds x List.mem_cons_self)
    rw [substitute, hu, Option.getD_some] at h
    rw [hu, h]
  · intro h
    refine ⟨fun y hy => ?_, .var ?_⟩
    · rw [List.mem_singleton.mp hy, h]
      rfl
    · rw [substitute, h, Option.getD_some]

theorem solves_message : Solves s (message p) (message t) ↔ Solves s p t :=
  ⟨fun ⟨hbinds, .message h⟩ => ⟨hbinds, h⟩, fun ⟨hbinds, h⟩ => ⟨hbinds, .message h⟩⟩

theorem solves_approx {m n : String} :
    Solves s (approx p m) (approx t n) ↔ m = n ∧ Solves s p t := by
  constructor
  · rintro ⟨hbinds, h⟩
    cases h with
    | approx _ h => exact ⟨rfl, hbinds, h⟩
  · rintro ⟨rfl, hbinds, h⟩
    exact ⟨hbinds, .approx m h⟩

theorem solves_num {m n : Int} : Solves s (num m) (num n) ↔ m = n := by
  constructor
  · rintro ⟨-, h⟩
    cases h
    rfl
  · rintro rfl
    exact ⟨binds_nil, .num m⟩

theorem solves_text {r q : String} : Solves s (text r) (text q) ↔ r = q := by
  constructor
  · rintro ⟨-, h⟩
    cases h
    rfl
  · rintro rfl
    exact ⟨binds_nil, .text r⟩

theorem solves_partitioned :
    Solves s (partitioned e k) (partitioned e' k') ↔ Solves s e e' ∧ Solves s k k' := by
  constructor
  · intro ⟨hbinds, .partitioned he hk⟩
    obtain ⟨hebinds, hkbinds⟩ := binds_append.mp hbinds
    exact ⟨⟨hebinds, he⟩, hkbinds, hk⟩
  · rintro ⟨he, hk⟩
    exact ⟨binds_append.mpr ⟨he.binds, hk.binds⟩, .partitioned he.agrees hk.agrees⟩

/-- Patterns are solved together when each one is. -/
theorem forall₂_solves :
    List.Forall₂ (Solves s) ps ts ↔ s.Binds (varsAll ps) ∧ List.Forall₂ (Agrees s) ps ts := by
  induction ps generalizing ts with
  | nil => exact ⟨fun | .nil => ⟨binds_nil, .nil⟩, fun | ⟨_, .nil⟩ => .nil⟩
  | cons p ps ih =>
    rw [varsAll, binds_append]
    constructor
    · intro (.cons h hs)
      obtain ⟨hbinds, hagrees⟩ := ih.mp hs
      exact ⟨⟨h.binds, hbinds⟩, .cons h.agrees hagrees⟩
    · intro ⟨⟨hp, hps⟩, .cons h hs⟩
      exact .cons ⟨hp, h⟩ (ih.mpr ⟨hps, hs⟩)

theorem solves_dist {f g : String} :
    Solves s (dist f ps) (dist g ts) ↔ f = g ∧ List.Forall₂ (Solves s) ps ts := by
  constructor
  · rintro ⟨hbinds, h⟩
    cases h with
    | dist _ h => exact ⟨rfl, forall₂_solves.mpr ⟨hbinds, h⟩⟩
  · rintro ⟨rfl, h⟩
    obtain ⟨hbinds, h⟩ := forall₂_solves.mp h
    exact ⟨hbinds, .dist f h⟩

end Solving

/-! ## What a search for bindings returns -/

/-- The outcome of a search for bindings that extend given ones and solve something: the least ones
that do, with just some variables bound in addition, or nothing if there are none. -/
def Settles (b : Bindings) (vars : List String) (S : Bindings → Prop) : Option Bindings → Prop
  | some b' =>
    (∀ x, (b'.get? x).isSome ↔ (b.get? x).isSome ∨ x ∈ vars) ∧
      ∀ s, b'.Within s ↔ b.Within s ∧ S s
  | none => ∀ s, b.Within s → ¬ S s

namespace Settles

variable {b : Bindings} {V W : List String} {S T : Bindings → Prop} {o : Option Bindings}

/-- Nothing has to be bound for what always holds. -/
theorem pass (hS : ∀ s, S s) : Settles b [] S (some b) :=
  ⟨fun x => by simp, fun s => by simp [hS s]⟩

/-- There is no solution of what never holds. -/
theorem fail (hS : ∀ s, ¬ S s) : Settles b V S none :=
  fun s _ => hS s

theorem congr (h : Settles b V S o) (hS : ∀ s, S s ↔ T s) : Settles b V T o := by
  cases o with
  | none => exact fun s hs hT => h s hs ((hS s).mpr hT)
  | some b' => exact ⟨h.1, fun s => (h.2 s).trans (and_congr_right' (hS s))⟩

/-- Of two searches in a row, the second starts from what the first has found. -/
theorem bind {f : Bindings → Option Bindings} (h : Settles b V S o)
    (hf : ∀ b', Settles b' W T (f b')) :
    Settles b (V ++ W) (fun s => S s ∧ T s) (o.bind f) := by
  cases o with
  | none => exact fun s hs hST => h s hs hST.1
  | some b₁ =>
    obtain ⟨hdomain, hleast⟩ := h
    rw [Option.bind_some]
    have h₁ := hf b₁
    cases hb₂ : f b₁ with
    | none =>
      rw [hb₂] at h₁
      exact fun s hs hST => h₁ s ((hleast s).mpr ⟨hs, hST.1⟩) hST.2
    | some b₂ =>
      rw [hb₂] at h₁
      refine ⟨fun x => ?_, fun s => ?_⟩
      · rw [h₁.1 x, hdomain x, List.mem_append, or_assoc]
      · rw [h₁.2 s, hleast s, and_assoc]

/-- A search succeeds just when there is a solution. -/
theorem isSome_iff (h : Settles b V S o) : o.isSome ↔ ∃ s, b.Within s ∧ S s := by
  cases o with
  | none => exact ⟨nofun, fun ⟨s, hs, hS⟩ => absurd hS (h s hs)⟩
  | some b' => exact ⟨fun _ => ⟨b', (h.2 b').mp (.refl b')⟩, fun _ => rfl⟩

/-- Searches for the same find the same. -/
theorem same {o' : Option Bindings} (h : Settles b V S o) (h' : Settles b W S o') :
    Option.Rel Bindings.Same o o' := by
  cases o with
  | none =>
    cases o' with
    | none => exact .none
    | some b' =>
      obtain ⟨hb, hS⟩ := (h'.2 b').mp (.refl b')
      exact absurd hS (h b' hb)
  | some b₁ =>
    cases o' with
    | none =>
      obtain ⟨hb, hS⟩ := (h.2 b₁).mp (.refl b₁)
      exact absurd hS (h' b₁ hb)
    | some b₂ =>
      refine .some (Bindings.same_of_within ?_ ?_)
      · exact (h.2 b₂).mpr ((h'.2 b₂).mp (.refl b₂))
      · exact (h'.2 b₁).mpr ((h.2 b₁).mp (.refl b₁))

end Settles

/-- A variable takes what stands in its place, unless it stands for something else already. -/
theorem settles_var (x : String) (t : TypeTerm) (b : Bindings) :
    Settles b [x] (fun s => s.get? x = some t) (matchWith (var x) t b) := by
  rw [matchWith]
  cases hx : b.get? x with
  | none =>
    refine ⟨fun y => ?_, fun s => Bindings.within_insert hx⟩
    rw [Table.get?_insert, List.mem_singleton]
    by_cases hxy : x = y
    · simp [hxy]
    · simp [hxy, Ne.symm hxy]
  | some u =>
    by_cases hu : u = t
    · subst hu
      simp only [if_true]
      refine ⟨fun y => ?_, fun s => ⟨fun hs => ⟨hs, hs x u hx⟩, And.left⟩⟩
      rw [List.mem_singleton, iff_self_or]
      rintro rfl
      rw [hx]
      rfl
    · simp only [if_neg hu]
      intro s hs ht
      rw [hs x u hx] at ht
      exact hu (Option.some.inj ht)

/-- Equal parts agree without bindings, and different ones not at all. -/
theorem settles_ite {c : Prop} [Decidable c] {b : Bindings} {V : List String}
    {S : Bindings → Prop} {o : Option Bindings} (h : Settles b V S o) :
    Settles b V (fun s => c ∧ S s) (if c then o else none) := by
  split
  · rename_i hc
    exact h.congr fun s => (and_iff_right hc).symm
  · rename_i hc
    exact .fail fun s hs => hc hs.1

mutual

/-- **What matching returns**: the least bindings that extend the given ones and solve the
pattern. -/
theorem settles_matchWith : ∀ (p t : TypeTerm) (b : Bindings),
    Settles b p.vars (fun s => Solves s p t) (p.matchWith t b)
  | any, t, b => by
    rw [matchWith]
    exact .pass fun s => solves_any.mpr trivial
  | var x, t, b => (settles_var x t b).congr fun s => solves_var.symm
  | void, t, b => by
    cases t <;> simp only [matchWith]
    case void => exact .pass fun s => ⟨binds_nil, .void⟩
    all_goals exact .fail fun s h => nomatch h.agrees
  | dist f ps, t, b => by
    cases t <;> simp only [matchWith]
    case dist g ts =>
      exact (settles_ite (settles_matchAll ps ts b)).congr fun s => solves_dist.symm
    all_goals exact .fail fun s h => nomatch h.agrees
  | message p, t, b => by
    cases t <;> simp only [matchWith]
    case message t => exact (settles_matchWith p t b).congr fun s => solves_message.symm
    all_goals exact .fail fun s h => nomatch h.agrees
  | partitioned e k, t, b => by
    cases t <;> simp only [matchWith]
    case partitioned e' k' =>
      exact ((settles_matchWith e e' b).bind (settles_matchWith k k')).congr
        fun s => solves_partitioned.symm
    all_goals exact .fail fun s h => nomatch h.agrees
  | approx p m, t, b => by
    cases t <;> simp only [matchWith]
    case approx t n =>
      exact (settles_ite (settles_matchWith p t b)).congr fun s => solves_approx.symm
    all_goals exact .fail fun s h => nomatch h.agrees
  | num m, t, b => by
    cases t <;> simp only [matchWith]
    case num n =>
      exact (settles_ite (.pass fun _ => trivial)).congr fun s =>
        (iff_of_eq (and_true _)).trans solves_num.symm
    all_goals exact .fail fun s h => nomatch h.agrees
  | text r, t, b => by
    cases t <;> simp only [matchWith]
    case text q =>
      exact (settles_ite (.pass fun _ => trivial)).congr fun s =>
        (iff_of_eq (and_true _)).trans solves_text.symm
    all_goals exact .fail fun s h => nomatch h.agrees

/-- Lists of patterns are solved together. -/
theorem settles_matchAll : ∀ (ps ts : List TypeTerm) (b : Bindings),
    Settles b (varsAll ps) (fun s => List.Forall₂ (Solves s) ps ts) (matchAll ps ts b)
  | [], [], b => by
    rw [matchAll]
    exact .pass fun s => .nil
  | [], _ :: _, b => by
    simp only [matchAll]
    exact .fail fun s h => nomatch h
  | _ :: _, [], b => by
    simp only [matchAll]
    exact .fail fun s h => nomatch h
  | p :: ps, t :: ts, b => by
    rw [matchAll]
    exact ((settles_matchWith p t b).bind (settles_matchAll ps ts)).congr
      fun s => List.forall₂_cons.symm

end

/-- A pattern admits a term just when some bindings solve it. -/
theorem admits_iff {p t : TypeTerm} : p.admits t = true ↔ ∃ s, Solves s p t := by
  unfold admits
  rw [(settles_matchWith p t ∅).isSome_iff]
  exact exists_congr fun s => and_iff_right (Bindings.within_empty s)

/-! ## The order of the places -/

/-- The places of a call are solved one by one. -/
theorem forall₂_solves_map {l : List (TypeTerm × TypeTerm)} :
    List.Forall₂ (Solves s) (l.map Prod.fst) (l.map Prod.snd) ↔ ∀ c ∈ l, Solves s c.1 c.2 := by
  rw [List.forall₂_map_left_iff, List.forall₂_map_right_iff, List.forall₂_same]

/-- Places may be matched in any order. -/
theorem same_of_perm {l l' : List (TypeTerm × TypeTerm)} (h : l.Perm l') (b : Bindings) :
    Option.Rel Bindings.Same (matchAll (l.map Prod.fst) (l.map Prod.snd) b)
      (matchAll (l'.map Prod.fst) (l'.map Prod.snd) b) := by
  have hl := (settles_matchAll (l.map Prod.fst) (l.map Prod.snd) b).congr
    fun s => forall₂_solves_map
  have hl' := (settles_matchAll (l'.map Prod.fst) (l'.map Prod.snd) b).congr
    fun s => forall₂_solves_map.trans (forall_congr' fun c => imp_congr_left h.mem_iff.symm)
  exact hl.same hl'

/-- **Matching is sound, complete and minimal.** It succeeds just when some assignment that extends
the given bindings and binds the variables of the pattern makes the pattern agree with the term.
What it returns is such an assignment, binds nothing else, and lies within every such assignment.
The order in which several places are matched makes no difference. -/
theorem least_matchWith (p t : TypeTerm) (b₀ : Bindings) :
    ((p.matchWith t b₀).isSome ↔ ∃ s : Bindings, b₀.Within s ∧ s.Binds p.vars ∧ Agrees s p t) ∧
      (∀ b, p.matchWith t b₀ = some b →
        b₀.Within b ∧ Agrees b p t ∧
        (∀ x, (b.get? x).isSome ↔ (b₀.get? x).isSome ∨ x ∈ p.vars) ∧
        (∀ s : Bindings, b₀.Within s → s.Binds p.vars → Agrees s p t → b.Within s) ∧
        (p.hasWildcard = false → p.substitute b = t)) ∧
      ∀ l l' : List (TypeTerm × TypeTerm), l.Perm l' →
        Option.Rel Bindings.Same (matchAll (l.map Prod.fst) (l.map Prod.snd) b₀)
          (matchAll (l'.map Prod.fst) (l'.map Prod.snd) b₀) := by
  have hsettles := settles_matchWith p t b₀
  refine ⟨?_, fun b hb => ?_, fun l l' h => same_of_perm h b₀⟩
  · rw [hsettles.isSome_iff]
    exact exists_congr fun s => and_congr_right' ⟨fun h => ⟨h.binds, h.agrees⟩, fun h => ⟨h.1, h.2⟩⟩
  · rw [hb] at hsettles
    obtain ⟨hdomain, hleast⟩ := hsettles
    obtain ⟨hwithin, hsolves⟩ := (hleast b).mp (.refl b)
    refine ⟨hwithin, hsolves.agrees, hdomain, fun s hs hbinds hagrees => ?_, fun hp => ?_⟩
    · exact (hleast s).mpr ⟨hs, hbinds, hagrees⟩
    · exact substitute_of_agrees hp hsolves.agrees

/-- Factors of a family whose two dimensions are the same. -/
def squarePattern : TypeTerm :=
  .partitioned (.dist "Wishart" [.var "d", .var "d"]) (.var "k")

/-- Three factors of such a family. -/
def squareType : TypeTerm :=
  .partitioned (.dist "Wishart" [.num 2, .num 2]) (.num 3)

/-- The number of factors is known. -/
def threeFactors : Bindings :=
  .ofList [("k", .num 3)]

/-- Both dimensions and the number of factors, beside a variable of something else. -/
def knownSquare : Bindings :=
  .ofList [("m", .any), ("d", .num 2), ("k", .num 3)]

/-- A pattern that asks for one variable twice, from bindings that know another one. -/
theorem least_square :
    squarePattern.matchWith squareType threeFactors =
        some (.ofList [("k", .num 3), ("d", .num 2)]) ∧
      threeFactors.Within (.ofList [("k", .num 3), ("d", .num 2)]) ∧
      Bindings.Within (.ofList [("k", .num 3), ("d", .num 2)]) knownSquare ∧
      squarePattern.substitute (.ofList [("k", .num 3), ("d", .num 2)]) = squareType ∧
      Option.Rel Bindings.Same (matchAll [any, var "d"] [void, num 2] threeFactors)
        (matchAll [var "d", any] [num 2, void] threeFactors) := by
  obtain ⟨-, hreturns, horder⟩ := least_matchWith squarePattern squareType threeFactors
  have hmatch : squarePattern.matchWith squareType threeFactors =
      some (.ofList [("k", .num 3), ("d", .num 2)]) := by decide
  obtain ⟨hwithin, -, -, hleast, hsubstitute⟩ := hreturns _ hmatch
  have hknown : threeFactors.Within knownSquare := (Bindings.within_insert rfl).mpr
    ⟨Bindings.within_empty _, by decide⟩
  refine ⟨hmatch, hwithin, hleast knownSquare hknown (by decide) ?_, hsubstitute (by decide), ?_⟩
  · exact agrees_substitute squarePattern
  · exact horder [(any, void), (var "d", num 2)] [(var "d", num 2), (any, void)] (.swap _ _ _)

end TypeTerm

end MessagePassing
