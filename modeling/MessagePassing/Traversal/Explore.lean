/-!
# Exploration

A worklist holds items to visit, the next one in front. Visiting an item puts the items that follow
it before the rest of the list; an item that was visited, or that lies outside the given universe,
is passed over. Every visit takes one item from those not seen yet, which ends the exploration.

* `explore next pending unseen` lists the visited items in the order of their visits.
-/

namespace MessagePassing

variable {α : Type} [DecidableEq α]

/-- The items visited from a worklist, each once, in the order of the visits. Only items that are
still unseen are visited. -/
def explore (next : α → List α) (pending unseen : List α) : List α :=
  match pending with
  | [] => []
  | a :: rest =>
    if a ∈ unseen then a :: explore next (next a ++ rest) (unseen.erase a)
    else explore next rest unseen
termination_by (unseen.length, pending.length)
decreasing_by
  · rename_i h
    simp only [List.length_erase_of_mem h]
    have := List.length_pos_of_mem h
    exact Prod.Lex.left _ _ (by omega)
  · exact Prod.Lex.right _ (by simp)

end MessagePassing
