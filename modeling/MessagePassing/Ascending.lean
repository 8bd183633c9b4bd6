/-!
# Ascending lists

Finite sets are kept as ascending lists without repetition, so that a set has one representation and
its listing is its value.

Results:
* `mem_insert`, `mem_ofList`: the members are those that were put in.
* `pairwise_ofList`, `nodup_ofList`: a list of a linear order is put in order.
* `ofList_of_pairwise`: a list that is in order stays as it is.
-/

namespace MessagePassing.Ascending

variable {α : Type} [DecidableEq α] [LT α] [DecidableLT α]

/-- Puts `x` into an ascending list, unless it is there. -/
def insert (x : α) : List α → List α
  | [] => [x]
  | y :: l => if x < y then x :: y :: l else if x = y then y :: l else y :: insert x l

/-- The members of a list, ascending and without repetition. -/
def ofList (l : List α) : List α :=
  l.foldr insert []

@[simp] theorem mem_insert {x y : α} {l : List α} : y ∈ insert x l ↔ y = x ∨ y ∈ l := by
  induction l with
  | nil => simp [insert]
  | cons z l ih =>
    unfold insert
    split
    · simp
    · split
      · rename_i h
        subst h
        simp
      · simp only [List.mem_cons, ih]
        constructor
        · rintro (h | h | h) <;> simp [h]
        · rintro (h | h | h) <;> simp [h]

@[simp] theorem mem_ofList {y : α} {l : List α} : y ∈ ofList l ↔ y ∈ l := by
  induction l with
  | nil => simp [ofList]
  | cons x l ih =>
    have : ofList (x :: l) = insert x (ofList l) := rfl
    rw [this, mem_insert, ih, List.mem_cons]

section Linear

variable [Std.Trichotomous (α := α) (· < ·)] [Trans (α := α) (· < ·) (· < ·) (· < ·)]

theorem pairwise_insert {x : α} {l : List α} (h : l.Pairwise (· < ·)) :
    (insert x l).Pairwise (· < ·) := by
  induction l with
  | nil => exact List.pairwise_singleton _ x
  | cons y l ih =>
    obtain ⟨hy, hl⟩ := List.pairwise_cons.mp h
    unfold insert
    split
    · rename_i hxy
      refine List.pairwise_cons.mpr ⟨fun z hz => ?_, h⟩
      rcases List.mem_cons.mp hz with rfl | hz
      · exact hxy
      · exact Trans.trans hxy (hy z hz)
    · split
      · exact h
      · rename_i hxy hne
        refine List.pairwise_cons.mpr ⟨fun z hz => ?_, ih hl⟩
        rcases mem_insert.mp hz with rfl | hz
        · -- what is neither less nor equal is greater
          exact Decidable.byContradiction fun hyz =>
            hne (Std.Trichotomous.trichotomous _ _ hxy hyz)
        · exact hy z hz

theorem pairwise_ofList (l : List α) : (ofList l).Pairwise (· < ·) := by
  induction l with
  | nil => exact List.Pairwise.nil
  | cons x l ih => exact pairwise_insert ih

theorem nodup_ofList [Std.Irrefl (α := α) (· < ·)] (l : List α) : (ofList l).Nodup := by
  refine (pairwise_ofList l).imp fun {x y} h hxy => ?_
  rw [hxy] at h
  exact Std.Irrefl.irrefl y h

end Linear

theorem ofList_of_pairwise {l : List α} (h : l.Pairwise (· < ·)) : ofList l = l := by
  induction l with
  | nil => rfl
  | cons x l ih =>
    obtain ⟨hx, hl⟩ := List.pairwise_cons.mp h
    change insert x (ofList l) = x :: l
    rw [ih hl]
    cases l with
    | nil => rfl
    | cons y l =>
      unfold insert
      exact if_pos (hx y List.mem_cons_self)

end MessagePassing.Ascending
