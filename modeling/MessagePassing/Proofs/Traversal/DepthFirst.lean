import Mathlib.Data.List.Basic
import MessagePassing.Proofs.Traversal.Exploration
import MessagePassing.Traversal.PostOrder

/-!
# The order of a depth-first walk

A walk keeps a stack: the visits that leave a node are due in the order in which the nodes were
entered, the latest first, and each node was entered along an arc from the one below it. From this
it follows where the two ends of an arc come in the order, and which arcs are back arcs.

Results, for a graph whose arcs run between its nodes:
* `mem_order_iff`, `nodup_order`: the order lists every node once.
* **`mem_back_iff`**: an arc is a back arc just when the node that it leads to does not come before
  the one that it starts from.
* **`back_eq_nil_iff`**: there are no back arcs just when there are no cycles.
-/

namespace MessagePassing

variable {α : Type}

/-! ## Precedence in a list -/

/-- `a` comes before `b` in a list. -/
def Precedes (l : List α) (a b : α) : Prop := [a, b].Sublist l

namespace Precedes

variable {l l' : List α} {a b c : α}

theorem mem_right (h : Precedes l a b) : b ∈ l := h.subset (by simp)

theorem mono (h : Precedes l a b) (hl : l.Sublist l') : Precedes l' a b := h.trans hl

/-- What is in the first part of a list comes before what is in the second. -/
theorem append (ha : a ∈ l) (hb : b ∈ l') : Precedes (l ++ l') a b :=
  (List.singleton_sublist.mpr ha).append (List.singleton_sublist.mpr hb)

/-- The first item comes before those after it. -/
theorem cons (hb : b ∈ l) : Precedes (a :: l) a b :=
  append (List.mem_singleton_self a) hb

/-- In a list without repetition, only the items up to `b` come before `b`. -/
theorem mem_of_eq_append {pre post : List α} (hn : l.Nodup) (h : Precedes l a b)
    (hl : l = pre ++ b :: post) : a ∈ pre := by
  subst hl
  obtain ⟨-, -, hd⟩ := List.nodup_append.mp hn
  obtain ⟨s, t, hst, hs, ht⟩ := List.sublist_append_iff.mp h
  rcases s with _ | ⟨x, s⟩
  · -- both items would stand from `b` on, with `b` not in front
    have ht' : [a, b].Sublist (b :: post) := by
      have e : t = [a, b] := hst.symm
      exact e ▸ ht
    have hb : b ∈ post := by
      cases ht' with
      | cons _ h => exact h.subset (by simp)
      | cons_cons _ h => exact h.subset (by simp)
    have hpost := (List.nodup_append.mp hn).2.1
    exact absurd hb (List.nodup_cons.mp hpost).1
  · have e : x = a := by
      have := congrArg List.head? hst
      simpa using this.symm
    exact e ▸ hs.subset List.mem_cons_self

variable [DecidableEq α]

/-- In a list without repetition, what comes first is told by the places. -/
theorem iff_idxOf_lt (hn : l.Nodup) :
    Precedes l a b ↔ b ∈ l ∧ l.idxOf a < l.idxOf b := by
  constructor
  · intro h
    obtain ⟨pre, post, hl⟩ := List.append_of_mem h.mem_right
    have ha := h.mem_of_eq_append hn hl
    refine ⟨h.mem_right, ?_⟩
    subst hl
    have hb : b ∉ pre := fun hb =>
      (List.nodup_append.mp hn).2.2 b hb b List.mem_cons_self rfl
    rw [List.idxOf_append_of_mem ha, List.idxOf_append_of_notMem hb]
    have := List.idxOf_lt_length_of_mem ha
    omega
  · rintro ⟨hb, hlt⟩
    obtain ⟨pre, post, hl⟩ := List.append_of_mem hb
    subst hl
    by_cases ha : a ∈ pre
    · exact append ha List.mem_cons_self
    · by_cases hbp : b ∈ pre
      · rw [List.idxOf_append_of_notMem ha, List.idxOf_append_of_mem hbp] at hlt
        have := List.idxOf_lt_length_of_mem hbp
        omega
      · rw [List.idxOf_append_of_notMem ha, List.idxOf_append_of_notMem hbp,
          List.idxOf_cons_self] at hlt
        omega

theorem irrefl (hn : l.Nodup) : ¬ Precedes l a a := fun h =>
  Nat.lt_irrefl _ ((iff_idxOf_lt hn).mp h).2

theorem trans (hn : l.Nodup) (hab : Precedes l a b) (hbc : Precedes l b c) : Precedes l a c := by
  rw [iff_idxOf_lt hn] at *
  exact ⟨hbc.1, Nat.lt_trans hab.2 hbc.2⟩

theorem asymm (hn : l.Nodup) (h : Precedes l a b) : ¬ Precedes l b a := fun h' =>
  irrefl hn (h.trans hn h')

end Precedes

/-! ## The stack of a walk -/

/-- The nodes being walked, the one entered last in front. -/
def stack (due : List (Visit α)) : List α :=
  due.filterMap fun
    | .leave a => some a
    | .enter _ _ => none

@[simp] theorem stack_nil : stack ([] : List (Visit α)) = [] := rfl

@[simp] theorem stack_leave (a : α) (due : List (Visit α)) :
    stack (.leave a :: due) = a :: stack due := rfl

@[simp] theorem stack_enter (u v : α) (due : List (Visit α)) :
    stack (.enter u v :: due) = stack due := rfl

@[simp] theorem mem_stack {a : α} {due : List (Visit α)} : a ∈ stack due ↔ .leave a ∈ due := by
  unfold stack
  rw [List.mem_filterMap]
  constructor
  · rintro ⟨x, hx, h⟩
    cases x with
    | leave b => cases h; exact hx
    | enter u v => contradiction
  · intro h
    exact ⟨_, h, rfl⟩

@[simp] theorem stack_map_enter (u : α) (l : List α) (due : List (Visit α)) :
    stack (l.map (.enter u) ++ due) = stack due := by
  induction l with
  | nil => rfl
  | cons v l ih => exact ih

/-- The visits that are due are those of a depth-first walk: a node is entered along an arc from the
node on top of the stack, or as a root while the stack is empty. -/
inductive Stacked (next : α → List α) : List (Visit α) → Prop
  | nil : Stacked next []
  | leave {a : α} {rest : List (Visit α)} (hr : Stacked next rest)
      (ha : ∀ b, (stack rest).head? = some b → a ∈ next b) : Stacked next (.leave a :: rest)
  | root {a : α} {rest : List (Visit α)} (hr : Stacked next rest) (he : stack rest = []) :
      Stacked next (.enter a a :: rest)
  | arc {u v : α} {rest : List (Visit α)} (hr : Stacked next rest)
      (hu : (stack rest).head? = some u) (hv : v ∈ next u) : Stacked next (.enter u v :: rest)

namespace Stacked

variable {next : α → List α} {due rest : List (Visit α)} {u v : α}

theorem tail {x : Visit α} (h : Stacked next (x :: rest)) : Stacked next rest := by
  cases h <;> assumption

/-- Entering a node puts its arcs on top of it. -/
theorem enter (h : Stacked next (.enter u v :: rest)) :
    Stacked next ((next v).map (.enter v) ++ .leave v :: rest) := by
  have hl : Stacked next (.leave v :: rest) := by
    refine leave h.tail fun b hb => ?_
    cases h with
    | root hr he => rw [he] at hb; contradiction
    | arc hr hu hv =>
      rw [hu] at hb
      cases hb
      exact hv
  suffices ∀ l : List α, (∀ w ∈ l, w ∈ next v) →
      Stacked next (l.map (.enter v) ++ .leave v :: rest) from this _ fun _ hw => hw
  intro l hsub
  induction l with
  | nil => exact hl
  | cons w l ih =>
    refine arc (ih fun x hx => hsub x (List.mem_cons_of_mem _ hx)) ?_ (hsub w List.mem_cons_self)
    simp

/-- Every node on the stack leads to the one on top. -/
theorem leads_top (h : Stacked next due) (hu : (stack due).head? = some u) (hv : v ∈ stack due) :
    Leads next v u := by
  induction h generalizing u with
  | nil => contradiction
  | @leave a rest _ ha ih =>
    rw [stack_leave] at hu hv
    obtain rfl : a = u := by simpa using hu
    rcases List.mem_cons.mp hv with rfl | hv
    · exact Relation.ReflTransGen.refl
    · cases hs : (stack rest).head? with
      | none => rw [List.head?_eq_none_iff] at hs; rw [hs] at hv; contradiction
      | some b => exact Relation.ReflTransGen.tail (ih hs hv) (ha b hs)
  | root _ he ih => exact ih hu hv
  | arc _ _ _ ih => exact ih hu hv

end Stacked

/-! ## What a walk lists -/

variable [DecidableEq α] {next : α → List α} {due : List (Visit α)} {unseen : List α}

/-- The nodes on the stack are left from the top down. -/
theorem stack_sublist_order : (stack due).Sublist (walk next due unseen).order := by
  fun_induction walk next due unseen with
  | case1 => exact List.Sublist.refl _
  | case2 unseen a rest w ih => exact ih.cons_cons a
  | case3 unseen u v rest hv ih =>
    refine List.Sublist.trans ?_ ih
    rw [stack_enter, stack_map_enter, stack_leave]
    exact List.sublist_cons_self v _
  | case4 unseen u v rest hv w hr ih => exact ih
  | case5 unseen u v rest hv w hr ih => exact ih

theorem mem_stack_or_unseen {a : α} (h : a ∈ (walk next due unseen).order) :
    a ∈ stack due ∨ a ∈ unseen := by
  fun_induction walk next due unseen with
  | case1 => exact absurd h List.not_mem_nil
  | case2 unseen b rest w ih =>
    rw [stack_leave, List.mem_cons]
    rcases List.mem_cons.mp h with rfl | h
    · exact Or.inl (Or.inl rfl)
    · exact (ih h).imp_left Or.inr
  | case3 unseen u v rest hv ih =>
    have := ih h
    rw [stack_map_enter, stack_leave, List.mem_cons] at this
    rcases this with (rfl | h) | h
    · exact Or.inr hv
    · exact Or.inl h
    · exact Or.inr (List.mem_of_mem_erase h)
  | case4 unseen u v rest hv w hr ih => exact ih h
  | case5 unseen u v rest hv w hr ih => exact ih h

/-- Entering an unseen node puts it on the stack. -/
theorem nodup_enter {l : List α} {a : α} (ha : a ∈ unseen) (hn : (l ++ unseen).Nodup) :
    (a :: l ++ unseen.erase a).Nodup :=
  (((List.perm_cons_erase ha).append_left l).trans List.perm_middle).nodup_iff.mp hn

theorem nodup_walk_order (hn : (stack due ++ unseen).Nodup) :
    (walk next due unseen).order.Nodup := by
  fun_induction walk next due unseen with
  | case1 => exact List.nodup_nil
  | case2 unseen a rest w ih =>
    rw [stack_leave, List.cons_append, List.nodup_cons] at hn
    refine List.nodup_cons.mpr ⟨fun h => hn.1 ?_, ih hn.2⟩
    exact List.mem_append.mpr (mem_stack_or_unseen h)
  | case3 unseen u v rest hv ih =>
    apply ih
    rw [stack_map_enter, stack_leave]
    exact nodup_enter hv hn
  | case4 unseen u v rest hv w hr ih => exact ih hn
  | case5 unseen u v rest hv w hr ih => exact ih hn

/-- Every unseen node that is due to be entered is listed. -/
theorem mem_order_of_enter {u a : α} (h : .enter u a ∈ due) (ha : a ∈ unseen) :
    a ∈ (walk next due unseen).order := by
  fun_induction walk next due unseen with
  | case1 => exact absurd h List.not_mem_nil
  | case2 unseen b rest w ih =>
    refine List.mem_cons_of_mem _ (ih ?_ ha)
    simpa using h
  | case3 unseen x v rest hv ih =>
    by_cases hav : a = v
    · apply stack_sublist_order.subset
      simp [hav]
    · refine ih ?_ ((List.mem_erase_of_ne hav).mpr ha)
      have hr : Visit.enter u a ∈ rest := by simpa [hav] using h
      exact List.mem_append_right _ (List.mem_cons_of_mem _ hr)
  | case4 unseen x v rest hv w hr ih =>
    refine ih ?_ ha
    have hav : a ≠ v := fun e => hv (e ▸ ha)
    simpa [hav] using h
  | case5 unseen x v rest hv w hr ih =>
    refine ih ?_ ha
    have hav : a ≠ v := fun e => hv (e ▸ ha)
    simpa [hav] using h

/-! ## Where the ends of an arc come -/

/-- The arc from `u` to `v` is still to be followed while `u` is being walked. -/
def Pending (due : List (Visit α)) (u v : α) : Prop :=
  ∃ rest, (.enter u v :: rest).IsSuffix due ∧ u ∈ stack rest

omit [DecidableEq α] in
theorem not_pending_nil {u v : α} : ¬ Pending ([] : List (Visit α)) u v := by
  rintro ⟨rest, h, -⟩
  exact absurd (List.suffix_nil.mp h) (List.cons_ne_nil _ _)

omit [DecidableEq α] in
theorem pending_cons {x : Visit α} {rest : List (Visit α)} {u v : α} :
    Pending (x :: rest) u v ↔ (x = .enter u v ∧ u ∈ stack rest) ∨ Pending rest u v := by
  unfold Pending
  simp only [List.suffix_cons_iff, List.cons.injEq]
  constructor
  · rintro ⟨r, ⟨rfl, rfl⟩ | h, hu⟩
    · exact Or.inl ⟨rfl, hu⟩
    · exact Or.inr ⟨r, h, hu⟩
  · rintro (⟨rfl, hu⟩ | ⟨r, h, hu⟩)
    · exact ⟨rest, Or.inl ⟨rfl, rfl⟩, hu⟩
    · exact ⟨r, Or.inr h, hu⟩

omit [DecidableEq α] in
/-- Entering a node makes its arcs pending. -/
theorem pending_enter {y u v : α} {l : List α} {rest : List (Visit α)} :
    Pending (l.map (.enter y) ++ .leave y :: rest) u v ↔ (u = y ∧ v ∈ l) ∨ Pending rest u v := by
  induction l with
  | nil => simp [pending_cons]
  | cons w l ih =>
    rw [List.map_cons, List.cons_append, pending_cons, ih, stack_map_enter, stack_leave,
      Visit.enter.injEq, List.mem_cons (a := v)]
    constructor
    · rintro (⟨⟨rfl, rfl⟩, -⟩ | ⟨rfl, hv⟩ | h)
      · exact Or.inl ⟨rfl, Or.inl rfl⟩
      · exact Or.inl ⟨rfl, Or.inr hv⟩
      · exact Or.inr h
    · rintro (⟨rfl, rfl | hv⟩ | h)
      · exact Or.inl ⟨⟨rfl, rfl⟩, List.mem_cons_self⟩
      · exact Or.inr (Or.inl ⟨rfl, hv⟩)
      · exact Or.inr (Or.inr h)

/-- The arcs that are still to be followed lead to nodes that were left, are being walked, or are
unseen. The nodes in `done` were left. -/
def Known (next : α → List α) (due : List (Visit α)) (unseen done : List α) : Prop :=
  ∀ u v, Pending due u v ∨ u ∈ unseen ∧ v ∈ next u → v ∈ done ∨ v ∈ stack due ∨ v ∈ unseen

theorem eq_or_mem_erase {a b : α} {l : List α} (h : a ∈ l) : a = b ∨ a ∈ l.erase b := by
  by_cases hab : a = b
  · exact Or.inl hab
  · exact Or.inr ((List.mem_erase_of_ne hab).mpr h)

namespace Known

variable {rest : List (Visit α)} {done : List α} {x y : α}

omit [DecidableEq α] in
/-- A node that is left goes from the stack to the nodes that were left. -/
theorem leave (h : Known next (.leave y :: rest) unseen done) :
    Known next rest unseen (done ++ [y]) := by
  intro u v huv
  have := h u v (huv.imp_left fun h => pending_cons.mpr (Or.inr h))
  rw [stack_leave, List.mem_cons] at this
  rw [List.mem_append, List.mem_singleton]
  tauto

omit [DecidableEq α] in
/-- An arc may be passed over. -/
theorem skip (h : Known next (.enter x y :: rest) unseen done) : Known next rest unseen done :=
  fun u v huv => h u v (huv.imp_left fun h => pending_cons.mpr (Or.inr h))

/-- A node that is entered goes from the unseen nodes to the stack. -/
theorem enter (h : Known next (.enter x y :: rest) unseen done) (hy : y ∈ unseen) :
    Known next ((next y).map (.enter y) ++ .leave y :: rest) (unseen.erase y) done := by
  intro u v huv
  have hold : Pending rest u v ∨ u ∈ unseen ∧ v ∈ next u := by
    rcases huv with h | ⟨hu, hv⟩
    · rcases pending_enter.mp h with ⟨rfl, hv⟩ | h
      · exact Or.inr ⟨hy, hv⟩
      · exact Or.inl h
    · exact Or.inr ⟨List.mem_of_mem_erase hu, hv⟩
  rw [stack_map_enter, stack_leave, List.mem_cons]
  rcases h.skip u v hold with h | h | h
  · exact Or.inl h
  · exact Or.inr (Or.inl (Or.inr h))
  · rcases eq_or_mem_erase h with h | h
    · exact Or.inr (Or.inl (Or.inl h))
    · exact Or.inr (Or.inr h)

end Known

/-- An arc of a walk leads to a node that is left before the one it starts from, or it is a back
arc. The nodes in `done` were left before. -/
theorem precedes_or_mem_back {u v : α} (hn : (stack due ++ unseen).Nodup) :
    ∀ done : List α, Known next due unseen done →
      (Pending due u v ∨ u ∈ unseen ∧ u ∈ (walk next due unseen).order ∧ v ∈ next u) →
      Precedes (done ++ (walk next due unseen).order) v u ∨
        (u, v) ∈ (walk next due unseen).back := by
  fun_induction walk next due unseen with
  | case1 =>
    intro done _ h
    rcases h with h | ⟨-, h, -⟩
    · exact absurd h not_pending_nil
    · exact absurd h List.not_mem_nil
  | case2 unseen a rest w ih =>
    intro done hc h
    rw [stack_leave, List.cons_append, List.nodup_cons] at hn
    have ih' := ih hn.2 (done ++ [a]) hc.leave ?_
    · rwa [List.append_assoc, List.singleton_append] at ih'
    · rcases h with h | ⟨hu, ho, hv⟩
      · rcases pending_cons.mp h with ⟨h, -⟩ | h
        · contradiction
        · exact Or.inl h
      · rcases List.mem_cons.mp ho with rfl | ho
        · exact absurd (List.mem_append_right _ hu) hn.1
        · exact Or.inr ⟨hu, ho, hv⟩
  | case3 unseen x y rest hy ih =>
    intro done hc h
    rw [stack_enter] at hn
    rw [stack_map_enter, stack_leave] at ih
    replace ih := ih (nodup_enter hy hn) done (hc.enter hy)
    rcases h with h | ⟨hu, ho, hv⟩
    · rcases pending_cons.mp h with ⟨h, hu⟩ | h
      · -- the arc that is followed now: its end goes on top of the stack
        cases h
        have hs : (stack ((next v).map (.enter v) ++ .leave v :: rest)).Sublist
            (walk next ((next v).map (.enter v) ++ .leave v :: rest) (unseen.erase v)).order :=
          stack_sublist_order
        rw [stack_map_enter, stack_leave] at hs
        exact Or.inl (((Precedes.cons hu).mono hs).mono (List.sublist_append_right _ _))
      · exact ih (Or.inl (pending_enter.mpr (Or.inr h)))
    · rcases eq_or_mem_erase (b := y) hu with rfl | hu
      · exact ih (Or.inl (pending_enter.mpr (Or.inl ⟨rfl, hv⟩)))
      · exact ih (Or.inr ⟨hu, ho, hv⟩)
  | case4 unseen x y rest hy w hr ih =>
    intro done hc h
    rcases h with h | h
    · rcases pending_cons.mp h with ⟨h, -⟩ | h
      · cases h
        exact Or.inr List.mem_cons_self
      · exact (ih hn done hc.skip (Or.inl h)).imp_right (List.mem_cons_of_mem _)
    · exact (ih hn done hc.skip (Or.inr h)).imp_right (List.mem_cons_of_mem _)
  | case5 unseen x y rest hy w hr ih =>
    intro done hc h
    rcases h with h | h
    · rcases pending_cons.mp h with ⟨h, hu⟩ | h
      · -- the node was entered before and is not being walked, so it was left
        cases h
        have := hc u v (Or.inl (pending_cons.mpr (Or.inl ⟨rfl, hu⟩)))
        rw [stack_enter, mem_stack] at this
        have hv : v ∈ done := by tauto
        exact Or.inl (Precedes.append hv (stack_sublist_order.subset hu))
      · exact ih hn done hc.skip (Or.inl h)
    · exact ih hn done hc.skip (Or.inr h)

/-- A back arc leads from the top of the stack to a node on it. -/
theorem mem_back {u v : α} (hs : Stacked next due) (h : (u, v) ∈ (walk next due unseen).back) :
    v ∈ next u ∧ Leads next v u ∧ (u = v ∨ Precedes (walk next due unseen).order u v) := by
  fun_induction walk next due unseen with
  | case1 => exact absurd h List.not_mem_nil
  | case2 unseen a rest w ih =>
    obtain ⟨hv, hl, ho⟩ := ih hs.tail h
    exact ⟨hv, hl, ho.imp_right fun p => p.mono (List.sublist_cons_self _ _)⟩
  | case3 unseen x y rest hy ih => exact ih hs.enter h
  | case4 unseen x y rest hy w hr ih =>
    rcases List.mem_cons.mp h with h | h
    · cases h
      have hv := mem_stack.mpr hr
      cases hs with
      | root hs he => rw [he] at hv; contradiction
      | arc hs hu hn =>
        refine ⟨hn, hs.leads_top hu hv, ?_⟩
        obtain ⟨below, hb⟩ := List.head?_eq_some_iff.mp hu
        have hso : (stack rest).Sublist (walk next rest unseen).order := stack_sublist_order
        rw [hb] at hv hso
        exact (List.mem_cons.mp hv).imp Eq.symm fun h => (Precedes.cons h).mono hso
    · exact ih hs.tail h
  | case5 unseen x y rest hy w hr ih => exact ih hs.tail h

/-! ## Post-order of a graph -/

namespace Digraph

/-- The nodes are listed once each, and the arcs run between them. -/
structure Proper (d : Digraph α) : Prop where
  nodup : d.nodes.Nodup
  source_mem : ∀ a ∈ d.arcs, a.1 ∈ d.nodes
  target_mem : ∀ a ∈ d.arcs, a.2 ∈ d.nodes

theorem ofArcs_proper (nodes : List α) (arcs : List (α × α)) : (ofArcs nodes arcs).Proper := by
  refine ⟨nodup_distinct _, fun a ha => ?_, fun a ha => ?_⟩
  all_goals
    have ha : a ∈ arcs := mem_distinct.mp ha
    refine mem_distinct.mpr (List.mem_append_right _ (List.mem_flatMap.mpr ⟨a, ha, ?_⟩))
    simp

theorem mem_successors {d : Digraph α} {u v : α} : v ∈ d.successors u ↔ (u, v) ∈ d.arcs := by
  unfold successors
  rw [List.mem_map]
  constructor
  · rintro ⟨⟨a, b⟩, hab, rfl⟩
    obtain ⟨hab, h⟩ := List.mem_filter.mp hab
    rw [decide_eq_true_eq] at h
    exact h ▸ hab
  · intro h
    exact ⟨(u, v), List.mem_filter.mpr ⟨h, decide_eq_true rfl⟩, rfl⟩

omit [DecidableEq α] in
/-- A walk from every node starts with an empty stack. -/
theorem stacked_roots (next : α → List α) (l : List α) :
    Stacked next (l.map fun a => Visit.enter a a) ∧
      stack (l.map fun a => Visit.enter a a) = [] := by
  induction l with
  | nil => exact ⟨.nil, rfl⟩
  | cons a l ih => exact ⟨.root ih.1 ih.2, ih.2⟩

variable {d : Digraph α}

theorem nodup_order (hd : d.Proper) : d.postOrder.order.Nodup := by
  apply nodup_walk_order
  rw [(stacked_roots d.successors d.nodes).2]
  exact hd.nodup

/-- Every node is listed, and nothing else. -/
theorem mem_order_iff {a : α} : a ∈ d.postOrder.order ↔ a ∈ d.nodes := by
  constructor
  · intro h
    rcases mem_stack_or_unseen h with h | h
    · rw [(stacked_roots d.successors d.nodes).2] at h
      contradiction
    · exact h
  · intro h
    exact mem_order_of_enter (List.mem_map.mpr ⟨a, h, rfl⟩) h

/-- Along an arc that is no back arc, the node that the arc leads to comes first. -/
theorem precedes_of_mem_arcs (hd : d.Proper) {u v : α} (h : (u, v) ∈ d.arcs)
    (hb : (u, v) ∉ d.postOrder.back) : Precedes d.postOrder.order v u := by
  have hstack := (stacked_roots d.successors d.nodes).2
  have hroots : ∀ u v, ¬ Pending (d.nodes.map fun a => Visit.enter a a) u v := by
    rintro u v ⟨rest, ⟨pre, h⟩, hu⟩
    have hs := congrArg stack h
    rw [hstack] at hs
    have : u ∈ stack (pre ++ .enter u v :: rest) := by
      rw [mem_stack] at hu ⊢
      simp [hu]
    rw [hs] at this
    contradiction
  have hu : u ∈ d.nodes := hd.source_mem _ h
  refine (precedes_or_mem_back ?_ [] ?_ (Or.inr ⟨hu, ?_, ?_⟩)).resolve_right hb
  · rw [hstack]
    exact hd.nodup
  · rintro u v (h | ⟨-, h⟩)
    · exact absurd h (hroots u v)
    · exact Or.inr (Or.inr (hd.target_mem _ (mem_successors.mp h)))
  · exact mem_order_iff.mpr hu
  · exact mem_successors.mpr h

/-- **Back arcs are told by the order**: they lead to a node that does not come first. -/
theorem mem_back_iff (hd : d.Proper) {u v : α} :
    (u, v) ∈ d.postOrder.back ↔ (u, v) ∈ d.arcs ∧ ¬ Precedes d.postOrder.order v u := by
  constructor
  · intro h
    obtain ⟨hv, -, ho⟩ := mem_back (stacked_roots d.successors d.nodes).1 h
    refine ⟨mem_successors.mp hv, fun hp => ?_⟩
    rcases ho with rfl | ho
    · exact Precedes.irrefl (nodup_order hd) hp
    · exact Precedes.asymm (nodup_order hd) hp ho
  · rintro ⟨h, hp⟩
    by_contra hb
    exact hp (precedes_of_mem_arcs hd h hb)

/-- A back arc closes a cycle. -/
theorem leads_of_mem_back {u v : α} (h : (u, v) ∈ d.postOrder.back) : Leads d.successors v u :=
  (mem_back (stacked_roots d.successors d.nodes).1 h).2.1

/-- **There are back arcs just when there are cycles.** -/
theorem back_eq_nil_iff (hd : d.Proper) :
    d.postOrder.back = [] ↔ ∀ a, ¬ Relation.TransGen (fun u v => (u, v) ∈ d.arcs) a a := by
  constructor
  · intro hb
    have hstep : ∀ {u v}, Relation.TransGen (fun u v => (u, v) ∈ d.arcs) u v →
        Precedes d.postOrder.order v u := by
      intro u v h
      have hp : ∀ {u v}, (u, v) ∈ d.arcs → Precedes d.postOrder.order v u := fun h =>
        precedes_of_mem_arcs hd h (by rw [hb]; exact List.not_mem_nil)
      induction h with
      | single h => exact hp h
      | tail _ h ih => exact (hp h).trans (nodup_order hd) ih
    exact fun a h => Precedes.irrefl (nodup_order hd) (hstep h)
  · intro hc
    rw [List.eq_nil_iff_forall_not_mem]
    rintro ⟨u, v⟩ h
    refine hc u (Relation.TransGen.head' ((mem_back_iff hd).mp h).1 ?_)
    exact Relation.ReflTransGen.mono (fun a b hab => mem_successors.mp hab) _ _
      (leads_of_mem_back h)

end Digraph

end MessagePassing
