/-!
# Distinct items

`distinct` keeps the first occurrence of every item of a list.

Results:
* `mem_distinct` and `nodup_distinct`: the same members, each once.
* `pairwise_idxOf_distinct`: the members stand in the order of their first occurrences.
-/

namespace MessagePassing

variable {α : Type} [DecidableEq α]

/-- The items of a list in the order of their first occurrences. -/
def distinct : List α → List α
  | [] => []
  | a :: l => a :: (distinct l).filter (· ≠ a)

@[simp] theorem mem_distinct {a : α} {l : List α} : a ∈ distinct l ↔ a ∈ l := by
  induction l with
  | nil => simp [distinct]
  | cons b l ih =>
    by_cases h : a = b <;> simp [distinct, ih, h]

theorem nodup_distinct (l : List α) : (distinct l).Nodup := by
  induction l with
  | nil => exact List.nodup_nil
  | cons a l ih =>
    refine List.nodup_cons.mpr ⟨?_, ih.filter _⟩
    simp

theorem distinct_concat (l : List α) (a : α) :
    distinct (l ++ [a]) = if a ∈ l then distinct l else distinct l ++ [a] := by
  induction l with
  | nil => rfl
  | cons b l ih =>
    rw [List.cons_append, distinct, ih, distinct]
    by_cases ha : a ∈ l
    · rw [if_pos ha, if_pos (List.mem_cons_of_mem _ ha)]
    · rw [if_neg ha, List.filter_append]
      by_cases hab : a = b <;> simp [ha, hab]

theorem pairwise_idxOf_distinct (l : List α) :
    (distinct l).Pairwise fun a b => l.idxOf a ≤ l.idxOf b := by
  induction l with
  | nil => exact .nil
  | cons c l ih =>
    refine List.pairwise_cons.mpr ⟨fun b _ => by simp, ?_⟩
    refine (ih.filter _).imp_of_mem fun {a b} ha hb hab => ?_
    have ha : a ≠ c := of_decide_eq_true (List.mem_filter.mp ha).2
    have hb : b ≠ c := of_decide_eq_true (List.mem_filter.mp hb).2
    have hcons : ∀ x, x ≠ c → (c :: l).idxOf x = l.idxOf x + 1 := fun x hx => by
      rw [List.idxOf_cons, beq_false_of_ne hx.symm, cond_false]
    rw [hcons a ha, hcons b hb]
    exact Nat.succ_le_succ hab

end MessagePassing
