import Mathlib.Data.List.Permutation
import MessagePassing.Proofs.Traversal.DepthFirst

/-!
# Post-order from the labels of a depth-first traversal

A depth-first traversal may report what it does arc by arc: that it enters an unseen node, that it
meets a seen one, that it leaves a node. The post-order is then collected from the reports, with the
set of nodes that were entered and not left yet. This module says which reports belong to a
traversal of a graph and what is collected from them.

The traversal itself is not assumed to be written in one way: `Descends` relates a graph to the
reports of any traversal that takes the nodes, and the arcs from each node, in the order of
insertion.

Results, for a graph whose nodes and arcs are listed once each:
* `exists_labels`: there is a traversal.
* `collect_eq_postOrder`: what is collected is the walk of `Digraph.postOrder`.
* **`labels_ordered`**: the order lists every node once, and the back arcs are told by it.
-/

namespace MessagePassing

variable {α : Type}

/-! ## Reports of a traversal -/

/-- What a depth-first traversal reports. A root is reported as if an arc led to it from itself. -/
inductive Label (α : Type) where
  /-- An unseen node is entered along the arc. -/
  | forward (source target : α)
  /-- The arc leads to a node that was seen before. -/
  | nontree (source target : α)
  /-- The node that was entered along the arc is left. -/
  | reverse (source target : α)
deriving DecidableEq

/-- The reports on the arcs from `u` to the nodes of a list. The first list are the nodes that were
seen before, the last one those that were seen after. -/
inductive Descends (next : α → List α) :
    List α → α → List α → List (Label α) → List α → Prop
  | nil {seen : List α} {u : α} : Descends next seen u [] [] seen
  | old {seen seen' l : List α} {u v : α} {t : List (Label α)} (hv : v ∈ seen)
      (hr : Descends next seen u l t seen') :
      Descends next seen u (v :: l) (.nontree u v :: t) seen'
  | new {seen mid seen' l : List α} {u v : α} {b t : List (Label α)} (hv : v ∉ seen)
      (hb : Descends next (v :: seen) v (next v) b mid) (hr : Descends next mid u l t seen') :
      Descends next seen u (v :: l) (.forward u v :: (b ++ .reverse u v :: t)) seen'

/-- The reports of a traversal from the nodes of a list, which passes over those in `seen`. -/
inductive Traverses (next : α → List α) : List α → List α → List (Label α) → Prop
  | nil {seen : List α} : Traverses next seen [] []
  | old {seen l : List α} {v : α} {t : List (Label α)} (hv : v ∈ seen)
      (hr : Traverses next seen l t) : Traverses next seen (v :: l) t
  | root {seen mid l : List α} {v : α} {b t : List (Label α)} (hv : v ∉ seen)
      (hb : Descends next (v :: seen) v (next v) b mid) (hr : Traverses next mid l t) :
      Traverses next seen (v :: l) (.forward v v :: (b ++ .reverse v v :: t))

variable {next : α → List α} {seen seen' l nodes : List α} {u : α} {t : List (Label α)}

/-- No node is forgotten. -/
theorem Descends.subset (h : Descends next seen u l t seen') : seen ⊆ seen' := by
  induction h with
  | nil => exact fun _ h => h
  | old _ _ ih => exact ih
  | new _ _ _ ihb ihr => exact fun a ha => ihr (ihb (List.mem_cons_of_mem _ ha))

variable [DecidableEq α]

/-- Collects a walk from reports, where the nodes in `active` were entered and not left yet. -/
def collect (active : List α) : List (Label α) → Walk α
  | [] => ⟨[], []⟩
  | .forward _ v :: t => collect (active.insert v) t
  | .reverse _ v :: t =>
    let w := collect (active.erase v) t
    { w with order := v :: w.order }
  | .nontree u v :: t =>
    let w := collect active t
    if v ∈ active then { w with back := (u, v) :: w.back } else w

/-! ## Every graph has a traversal -/

/-- The nodes of a list that were not seen. -/
def unseenOf (nodes seen : List α) : List α := nodes.filter (· ∉ seen)

@[simp] theorem mem_unseenOf {a : α} : a ∈ unseenOf nodes seen ↔ a ∈ nodes ∧ a ∉ seen := by
  simp [unseenOf]

theorem length_unseenOf_le (h : seen ⊆ seen') :
    (unseenOf nodes seen').length ≤ (unseenOf nodes seen).length := by
  refine List.Sublist.length_le (List.monotone_filter_right nodes fun a ha => ?_)
  simp only [decide_eq_true_eq] at ha ⊢
  exact fun hs => ha (h hs)

/-- Seeing a node takes it out of the unseen ones. -/
theorem unseenOf_cons {v : α} (hn : nodes.Nodup) :
    unseenOf nodes (v :: seen) = (unseenOf nodes seen).erase v := by
  unfold unseenOf
  rw [List.Nodup.erase_eq_filter (hn.filter _), List.filter_filter]
  refine List.filter_congr fun a _ => ?_
  simp only [List.mem_cons, not_or, Bool.decide_and, decide_not, bne, beq_eq_decide]

/-- Arcs can be traversed, whatever was seen before. -/
theorem exists_descends (hn : nodes.Nodup) (hc : ∀ a ∈ nodes, ∀ b ∈ next a, b ∈ nodes) (n : ℕ) :
    ∀ {seen l : List α} (u : α), (unseenOf nodes seen).length < n → (∀ v ∈ l, v ∈ nodes) →
      ∃ t seen', Descends next seen u l t seen' := by
  -- the outer induction is on the unseen nodes, of which entering a node takes one away
  induction n with
  | zero => exact fun _ h => absurd h (Nat.not_lt_zero _)
  | succ n ihn =>
    intro seen l
    induction l generalizing seen with
    | nil => exact fun u _ _ => ⟨[], seen, .nil⟩
    | cons v l ihl =>
      intro u hlt hl
      have hl' : ∀ w ∈ l, w ∈ nodes := fun w hw => hl w (List.mem_cons_of_mem _ hw)
      by_cases hv : v ∈ seen
      · obtain ⟨t, seen', h⟩ := ihl u hlt hl'
        exact ⟨_, _, .old hv h⟩
      · have hvn : v ∈ nodes := hl v List.mem_cons_self
        have hless : (unseenOf nodes (v :: seen)).length < n := by
          have hmem : v ∈ unseenOf nodes seen := mem_unseenOf.mpr ⟨hvn, hv⟩
          have hpos := List.length_pos_of_mem hmem
          rw [unseenOf_cons hn, List.length_erase_of_mem hmem]
          omega
        obtain ⟨b, mid, hb⟩ := ihn v hless (hc v hvn)
        have hmid : seen ⊆ mid := fun a ha => hb.subset (List.mem_cons_of_mem _ ha)
        obtain ⟨t, seen', h⟩ := ihl u (Nat.lt_of_le_of_lt (length_unseenOf_le hmid) hlt) hl'
        exact ⟨_, _, .new hv hb h⟩

theorem exists_traverses (hn : nodes.Nodup) (hc : ∀ a ∈ nodes, ∀ b ∈ next a, b ∈ nodes)
    (hl : ∀ v ∈ l, v ∈ nodes) : ∃ t, Traverses next seen l t := by
  induction l generalizing seen with
  | nil => exact ⟨[], .nil⟩
  | cons v l ih =>
    have hl' : ∀ w ∈ l, w ∈ nodes := fun w hw => hl w (List.mem_cons_of_mem _ hw)
    by_cases hv : v ∈ seen
    · obtain ⟨t, h⟩ := ih hl'
      exact ⟨t, .old hv h⟩
    · obtain ⟨b, mid, hb⟩ :=
        exists_descends hn hc _ v (Nat.lt_succ_self _) (hc v (hl v List.mem_cons_self))
      obtain ⟨t, h⟩ := ih hl'
      exact ⟨_, .root hv hb h⟩

/-! ## What is collected is the walk -/

section Collecting

variable {rest : List (Visit α)} {t' : List (Label α)}

/-- Collecting the reports on some arcs comes to following them, if the same is true of what comes
after. -/
theorem Descends.walk_eq_collect (hn : nodes.Nodup) (hc : ∀ a ∈ nodes, ∀ b ∈ next a, b ∈ nodes)
    (h : Descends next seen u l t seen') (hl : ∀ v ∈ l, v ∈ nodes)
    (hs : ∀ a ∈ stack rest, a ∈ seen)
    (hr : walk next rest (unseenOf nodes seen') = collect (stack rest) t') :
    walk next (l.map (.enter u) ++ rest) (unseenOf nodes seen) =
      collect (stack rest) (t ++ t') := by
  induction h generalizing rest t' with
  | nil => exact hr
  | @old seen seen' l u v t hv _ ih =>
    have hunseen : v ∉ unseenOf nodes seen := fun h => (mem_unseenOf.mp h).2 hv
    have hrest := ih (fun w hw => hl w (List.mem_cons_of_mem _ hw)) hs hr
    have hmem : Visit.leave v ∈ l.map (.enter u) ++ rest ↔ v ∈ stack rest := by
      rw [← mem_stack, stack_map_enter]
    rw [List.map_cons, List.cons_append, walk, if_neg hunseen]
    simp only [List.cons_append, collect, hrest, hmem]
  | @new seen mid seen' l u v b t hv hb _ ihb ihr =>
    have hvn : v ∈ nodes := hl v List.mem_cons_self
    have hmid : ∀ a ∈ stack rest, a ∈ mid := fun a ha =>
      hb.subset (List.mem_cons_of_mem _ (hs a ha))
    have hrest := ihr (fun w hw => hl w (List.mem_cons_of_mem _ hw)) hmid hr
    -- below `v`, what comes after is to leave `v` and then to go on with `l`
    have hbelow : walk next (.leave v :: (l.map (.enter u) ++ rest)) (unseenOf nodes mid) =
        collect (v :: stack rest) (.reverse u v :: (t ++ t')) := by
      rw [walk, hrest, collect, List.erase_cons_head]
    have hstack : stack (.leave v :: (l.map (.enter u) ++ rest)) = v :: stack rest := by
      rw [stack_leave, stack_map_enter]
    have hsee : ∀ a ∈ v :: stack rest, a ∈ v :: seen := fun a ha =>
      List.mem_cons.mpr ((List.mem_cons.mp ha).imp_right (hs a))
    rw [List.map_cons, List.cons_append, walk, if_pos (mem_unseenOf.mpr ⟨hvn, hv⟩),
      ← unseenOf_cons hn, ihb (hc v hvn) (by rwa [hstack]) (by rw [hstack]; exact hbelow), hstack]
    have hfresh : v ∉ stack rest := fun h => hv (hs v h)
    rw [List.cons_append, collect, List.insert_of_not_mem hfresh, List.append_assoc,
      List.cons_append]

/-- Collecting the reports of a traversal comes to the walk from its roots. -/
theorem Traverses.walk_eq_collect (hn : nodes.Nodup) (hc : ∀ a ∈ nodes, ∀ b ∈ next a, b ∈ nodes)
    (h : Traverses next seen l t) (hl : ∀ v ∈ l, v ∈ nodes) :
    walk next (l.map fun a => .enter a a) (unseenOf nodes seen) = collect [] t := by
  induction h with
  | nil => simp [walk, collect]
  | @old seen l v t hv _ ih =>
    have hunseen : v ∉ unseenOf nodes seen := fun h => (mem_unseenOf.mp h).2 hv
    have hroots : Visit.leave v ∉ l.map fun a => Visit.enter a a := by simp
    rw [List.map_cons, walk, if_neg hunseen, if_neg hroots]
    exact ih fun w hw => hl w (List.mem_cons_of_mem _ hw)
  | @root seen mid l v b t hv hb _ ih =>
    have hvn : v ∈ nodes := hl v List.mem_cons_self
    have hrest := ih fun w hw => hl w (List.mem_cons_of_mem _ hw)
    have hstack : stack (.leave v :: l.map fun a => Visit.enter a a) = [v] := by
      rw [stack_leave, (Digraph.stacked_roots next l).2]
    have hbelow : walk next (.leave v :: l.map fun a => .enter a a) (unseenOf nodes mid) =
        collect [v] (.reverse v v :: t) := by
      rw [walk, hrest, collect, List.erase_cons_head]
    rw [List.map_cons, walk, if_pos (mem_unseenOf.mpr ⟨hvn, hv⟩), ← unseenOf_cons hn,
      hb.walk_eq_collect hn hc (hc v hvn) (by rw [hstack]; simp) (by rw [hstack]; exact hbelow),
      hstack, collect, List.insert_of_not_mem List.not_mem_nil]

end Collecting

/-! ## No back arc is met twice -/

omit [DecidableEq α] in
/-- An arc is pending only while the node it starts from is being walked. -/
theorem Pending.mem_stack {due : List (Visit α)} {u v : α} (h : Pending due u v) :
    u ∈ stack due := by
  obtain ⟨rest, ⟨pre, rfl⟩, hu⟩ := h
  rw [MessagePassing.mem_stack] at hu ⊢
  exact List.mem_append_right _ (List.mem_cons_of_mem _ hu)

/-- No arc is pending twice. -/
def Once : List (Visit α) → Prop
  | [] => True
  | .leave _ :: rest => Once rest
  | .enter u v :: rest => ¬ Pending rest u v ∧ Once rest

omit [DecidableEq α] in
/-- Entering a node makes each of its arcs pending once. -/
theorem Once.enter {y : α} {rest : List (Visit α)} (h : Once rest) (hy : y ∉ stack rest)
    (hl : l.Nodup) : Once (l.map (.enter y) ++ .leave y :: rest) := by
  induction l with
  | nil => exact h
  | cons w l ih =>
    obtain ⟨hw, hl⟩ := List.nodup_cons.mp hl
    refine ⟨fun hp => ?_, ih hl⟩
    rcases pending_enter.mp hp with ⟨-, hp⟩ | hp
    · exact hw hp
    · exact hy hp.mem_stack

omit [DecidableEq α] in
theorem once_roots (l : List α) : Once (l.map fun a => Visit.enter a a) := by
  induction l with
  | nil => trivial
  | cons a l ih =>
    refine ⟨fun hp => ?_, ih⟩
    have := hp.mem_stack
    rw [(Digraph.stacked_roots (fun _ => []) l).2] at this
    contradiction

variable {due : List (Visit α)} {unseen : List α}

/-- A back arc was pending, or starts from a node that is still unseen. -/
theorem pending_of_mem_back {u v : α} (hs : Stacked next due)
    (h : (u, v) ∈ (walk next due unseen).back) : Pending due u v ∨ u ∈ unseen := by
  fun_induction walk next due unseen with
  | case1 => exact absurd h List.not_mem_nil
  | case2 unseen a rest w ih =>
    exact (ih hs.tail h).imp_left fun hp => pending_cons.mpr (Or.inr hp)
  | case3 unseen x y rest hy ih =>
    rcases ih hs.enter h with hp | hu
    · rcases pending_enter.mp hp with ⟨rfl, -⟩ | hp
      · exact Or.inr hy
      · exact Or.inl (pending_cons.mpr (Or.inr hp))
    · exact Or.inr (List.mem_of_mem_erase hu)
  | case4 unseen x y rest hy w hr ih =>
    rcases List.mem_cons.mp h with h | h
    · cases h
      have hv := mem_stack.mpr hr
      cases hs with
      | root _ he => rw [he] at hv; contradiction
      | arc _ hu _ => exact Or.inl (pending_cons.mpr (Or.inl ⟨rfl, List.mem_of_mem_head? hu⟩))
    · exact (ih hs.tail h).imp_left fun hp => pending_cons.mpr (Or.inr hp)
  | case5 unseen x y rest hy w hr ih =>
    exact (ih hs.tail h).imp_left fun hp => pending_cons.mpr (Or.inr hp)

theorem nodup_walk_back (hnext : ∀ a, (next a).Nodup) (hs : Stacked next due) (ho : Once due)
    (hn : (stack due ++ unseen).Nodup) : (walk next due unseen).back.Nodup := by
  fun_induction walk next due unseen with
  | case1 => exact List.nodup_nil
  | case2 unseen a rest w ih =>
    rw [stack_leave, List.cons_append, List.nodup_cons] at hn
    exact ih hs.tail ho hn.2
  | case3 unseen x y rest hy ih =>
    rw [stack_enter] at hn
    have hfresh : y ∉ stack rest := fun h => (List.nodup_append.mp hn).2.2 y h y hy rfl
    refine ih hs.enter (ho.2.enter hfresh (hnext y)) ?_
    rw [stack_map_enter, stack_leave]
    exact nodup_enter hy hn
  | case4 unseen x y rest hy w hr ih =>
    refine List.nodup_cons.mpr ⟨fun h => ?_, ih hs.tail ho.2 hn⟩
    rcases pending_of_mem_back hs.tail h with hp | hx
    · exact ho.1 hp
    · -- `x` is on the stack, as `y` is, so it is not unseen
      have hstack := mem_stack.mpr hr
      cases hs with
      | root _ he => rw [he] at hstack; contradiction
      | arc _ hu _ =>
        exact (List.nodup_append.mp hn).2.2 x (List.mem_of_mem_head? hu) x hx rfl
  | case5 unseen x y rest hy w hr ih => exact ih hs.tail ho.2 hn

/-! ## Post-order of a graph -/

namespace Digraph

/-- The reports of a depth-first traversal that starts from the nodes in order. -/
def Labelled (d : Digraph α) (t : List (Label α)) : Prop := Traverses d.successors [] d.nodes t

/-- The nodes and the arcs are listed once each, and the arcs run between the nodes. -/
structure WellFormed (d : Digraph α) : Prop extends Proper d where
  arcs_nodup : d.arcs.Nodup

theorem ofArcs_wellFormed (nodes : List α) (arcs : List (α × α)) :
    (ofArcs nodes arcs).WellFormed :=
  { ofArcs_proper nodes arcs with arcs_nodup := nodup_distinct _ }

/-- What a post-order and its back arcs are to a graph. -/
structure Ordered (d : Digraph α) (w : Walk α) : Prop where
  /-- Every node is listed once, and nothing else. -/
  nodup : w.order.Nodup
  mem_iff : ∀ a, a ∈ w.order ↔ a ∈ d.nodes
  /-- The back arcs are the arcs to a node that does not come first, each once. -/
  back_nodup : w.back.Nodup
  mem_back : ∀ u v, (u, v) ∈ w.back ↔ (u, v) ∈ d.arcs ∧ ¬ Precedes w.order v u
  /-- Along any other arc, the node that the arc leads to comes first. -/
  precedes : ∀ u v, (u, v) ∈ d.arcs → (u, v) ∉ w.back → Precedes w.order v u
  /-- The other arcs close no cycle. -/
  acyclic : ∀ a, ¬ Relation.TransGen (fun u v => (u, v) ∈ d.arcs ∧ (u, v) ∉ w.back) a a
  /-- There are no back arcs just when there are no cycles. -/
  back_eq_nil : w.back = [] ↔ ∀ a, ¬ Relation.TransGen (fun u v => (u, v) ∈ d.arcs) a a

variable {d : Digraph α}

theorem nodup_successors (hd : d.WellFormed) (a : α) : (d.successors a).Nodup := by
  refine List.Nodup.map_on ?_ (hd.arcs_nodup.filter _)
  rintro ⟨x, v⟩ hx ⟨y, w⟩ hy rfl
  have hx := of_decide_eq_true (List.mem_filter.mp hx).2
  have hy := of_decide_eq_true (List.mem_filter.mp hy).2
  exact Prod.ext (hx.trans hy.symm) rfl

theorem nodup_back (hd : d.WellFormed) : d.postOrder.back.Nodup := by
  obtain ⟨hs, he⟩ := stacked_roots d.successors d.nodes
  refine nodup_walk_back (nodup_successors hd) hs (once_roots _) ?_
  rw [he]
  exact hd.nodup

/-- A path that follows no back arc leads backwards in the order. -/
theorem precedes_of_path (hd : d.Proper) {u v : α}
    (h : Relation.TransGen (fun u v => (u, v) ∈ d.arcs ∧ (u, v) ∉ d.postOrder.back) u v) :
    Precedes d.postOrder.order v u := by
  induction h with
  | single h => exact precedes_of_mem_arcs hd h.1 h.2
  | tail _ h ih => exact (precedes_of_mem_arcs hd h.1 h.2).trans (nodup_order hd) ih

theorem postOrder_ordered (hd : d.WellFormed) : Ordered d d.postOrder where
  nodup := nodup_order hd.toProper
  mem_iff _ := mem_order_iff
  back_nodup := nodup_back hd
  mem_back _ _ := mem_back_iff hd.toProper
  precedes _ _ := precedes_of_mem_arcs hd.toProper
  acyclic _ h := Precedes.irrefl (nodup_order hd.toProper) (precedes_of_path hd.toProper h)
  back_eq_nil := back_eq_nil_iff hd.toProper

theorem successors_mem_nodes (hd : d.Proper) :
    ∀ a ∈ d.nodes, ∀ b ∈ d.successors a, b ∈ d.nodes := fun _ _ _ hb =>
  hd.target_mem _ (mem_successors.mp hb)

theorem exists_labels (hd : d.Proper) : ∃ t, d.Labelled t :=
  exists_traverses hd.nodup (successors_mem_nodes hd) fun _ h => h

/-- What is collected from the reports of a traversal is the walk from every node. -/
theorem collect_eq_postOrder (hd : d.Proper) {t : List (Label α)} (h : d.Labelled t) :
    collect [] t = d.postOrder := by
  have := h.walk_eq_collect hd.nodup (successors_mem_nodes hd) fun _ h => h
  rw [← this, postOrder]
  simp [unseenOf]

/-- **The post-order of a graph.** There is a depth-first traversal, and what is collected from the
reports of any is `Digraph.postOrder`: an order that lists every node once, with the arcs that do
not lead to an earlier node as the back arcs, each once. Without them the graph has no cycle, and
the order is one in which every arc leads to an earlier node. -/
theorem labels_ordered (hd : d.WellFormed) :
    (∃ t, d.Labelled t) ∧
      ∀ t, d.Labelled t → collect [] t = d.postOrder ∧ Ordered d (collect [] t) := by
  refine ⟨exists_labels hd.toProper, fun t ht => ?_⟩
  rw [collect_eq_postOrder hd.toProper ht]
  exact ⟨rfl, postOrder_ordered hd⟩

/-- Three nodes in a cycle, one with an arc to itself, and an arc that leaves a node out. -/
def looped : Digraph ℕ := ofArcs [0] [(0, 1), (1, 2), (2, 0), (1, 1), (0, 2)]

theorem looped_labels_ordered :
    looped.WellFormed ∧ (∃ t, looped.Labelled t) ∧
      ∀ t, looped.Labelled t → collect [] t = ⟨[2, 1, 0], [(2, 0), (1, 1)]⟩ ∧
        Ordered looped ⟨[2, 1, 0], [(2, 0), (1, 1)]⟩ := by
  have hw : looped.postOrder = ⟨[2, 1, 0], [(2, 0), (1, 1)]⟩ := by cbv
  have hd : looped.WellFormed := ofArcs_wellFormed _ _
  obtain ⟨hex, h⟩ := labels_ordered hd
  refine ⟨hd, hex, fun t ht => ?_⟩
  obtain ⟨hc, ho⟩ := h t ht
  rw [hc, hw] at ho
  exact ⟨hc.trans hw, ho⟩

end Digraph

end MessagePassing
