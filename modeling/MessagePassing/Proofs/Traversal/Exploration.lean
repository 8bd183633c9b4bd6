import Mathlib.Logic.Relation
import MessagePassing.Traversal.Explore

/-!
# What an exploration visits

An exploration visits every unseen item of its worklist and every unseen item that follows a visited
one, and nothing that the worklist does not lead to.

Results:
* `leads_of_mem_explore`: what is visited, the worklist leads to.
* **`mem_explore_iff`**: if what the worklist leads to is unseen, just that is visited.
-/

namespace MessagePassing

variable {α : Type} [DecidableEq α] {next : α → List α} {pending unseen : List α}

/-- `next` leads from `a` to `b` in any number of steps. -/
def Leads (next : α → List α) (a b : α) : Prop :=
  Relation.ReflTransGen (fun x y => y ∈ next x) a b

/-- Only unseen items are visited. -/
theorem mem_unseen_of_mem_explore {a : α} (h : a ∈ explore next pending unseen) : a ∈ unseen := by
  fun_induction explore next pending unseen with
  | case1 => exact absurd h List.not_mem_nil
  | case2 unseen b rest hb ih =>
    rcases List.mem_cons.mp h with rfl | h
    · exact hb
    · exact List.mem_of_mem_erase (ih h)
  | case3 unseen b rest hb ih => exact ih h

/-- The worklist is worked off. -/
theorem mem_explore_of_mem_pending {a : α} (hp : a ∈ pending) (hu : a ∈ unseen) :
    a ∈ explore next pending unseen := by
  fun_induction explore next pending unseen with
  | case1 => exact absurd hp List.not_mem_nil
  | case2 unseen b rest hb ih =>
    by_cases hab : a = b
    · exact List.mem_cons.mpr (Or.inl hab)
    · have ha : a ∈ next b ++ rest :=
        List.mem_append_right _ ((List.mem_cons.mp hp).resolve_left hab)
      exact List.mem_cons_of_mem _ (ih ha ((List.mem_erase_of_ne hab).mpr hu))
  | case3 unseen b rest hb ih =>
    rcases List.mem_cons.mp hp with rfl | hp
    · exact absurd hu hb
    · exact ih hp hu

/-- What follows a visited item is visited. -/
theorem mem_explore_of_mem_next {a b : α} (ha : a ∈ explore next pending unseen)
    (hb : b ∈ next a) (hu : b ∈ unseen) : b ∈ explore next pending unseen := by
  fun_induction explore next pending unseen with
  | case1 => exact absurd ha List.not_mem_nil
  | case2 unseen c rest hc ih =>
    by_cases hbc : b = c
    · exact List.mem_cons.mpr (Or.inl hbc)
    · have hu' : b ∈ unseen.erase c := (List.mem_erase_of_ne hbc).mpr hu
      rcases List.mem_cons.mp ha with rfl | ha
      · exact List.mem_cons_of_mem _
          (mem_explore_of_mem_pending (List.mem_append_left _ hb) hu')
      · exact List.mem_cons_of_mem _ (ih ha hu')
  | case3 unseen c rest hc ih => exact ih ha hu

/-- The worklist leads to every visited item. -/
theorem leads_of_mem_explore {a : α} (h : a ∈ explore next pending unseen) :
    ∃ p ∈ pending, Leads next p a := by
  fun_induction explore next pending unseen with
  | case1 => exact absurd h List.not_mem_nil
  | case2 unseen b rest hb ih =>
    rcases List.mem_cons.mp h with rfl | h
    · exact ⟨a, List.mem_cons_self, Relation.ReflTransGen.refl⟩
    · obtain ⟨p, hp, hpa⟩ := ih h
      rcases List.mem_append.mp hp with hp | hp
      · exact ⟨b, List.mem_cons_self, Relation.ReflTransGen.head hp hpa⟩
      · exact ⟨p, List.mem_cons_of_mem _ hp, hpa⟩
  | case3 unseen b rest hb ih =>
    obtain ⟨p, hp, hpa⟩ := ih h
    exact ⟨p, List.mem_cons_of_mem _ hp, hpa⟩

/-- **An exploration of a closed universe visits what the worklist leads to.** -/
theorem mem_explore_iff (hp : ∀ p ∈ pending, p ∈ unseen)
    (hn : ∀ a ∈ unseen, ∀ b ∈ next a, b ∈ unseen) {a : α} :
    a ∈ explore next pending unseen ↔ ∃ p ∈ pending, Leads next p a := by
  refine ⟨leads_of_mem_explore, fun h => ?_⟩
  obtain ⟨p, hpp, hpa⟩ := h
  induction hpa with
  | refl => exact mem_explore_of_mem_pending hpp (hp p hpp)
  | tail _ hbc ih =>
    exact mem_explore_of_mem_next ih hbc (hn _ (mem_unseen_of_mem_explore ih) _ hbc)

end MessagePassing
