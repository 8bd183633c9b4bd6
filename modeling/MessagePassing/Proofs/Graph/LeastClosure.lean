import Mathlib.Control.Traversable.Instances
import Mathlib.Data.List.Permutation
import Mathlib.Data.List.Sort
import Mathlib.Order.Bounds.Defs
import MessagePassing.Proofs.Graph.Closure

/-!
# The least closed set

A set of edges is closed if it has every edge, within the limit, at every node that it may grow
through. The closure of some seeds is the least closed set that holds them. The seeds may lie
outside the limit, and an empty limit is no limit.

A closure is not answered if it touches a node that does not exist. There is such a node only where
the value of a node has been refused.

Results:
* `Coherent.isLeast_closure`: the closure is the least closed set, in every graph.
* `closure_eq_of_iff`: sets with the same members have the same closure as lists.
* **`Built.closing`**: every closure is known, except where a node is missing, and closing sets is
  idempotent, monotone and additive.
* `not_known_refused`: the closure of an edge at a missing node is not known.
-/

namespace MessagePassing.Graph

variable {g : Graph} {e f : EdgeId} {stopAtSoft : Bool} {limit seeds S T l m : List EdgeId}

/-! ## Closed sets -/

/-- A set has every edge, within the limit, at every node of its edges that it may grow through. -/
def ClosedUnder (g : Graph) (stopAtSoft : Bool) (limit : List EdgeId) (C : Set EdgeId) : Prop :=
  ∀ e ∈ C, ∀ n ∈ g.endNodes e, ∀ x, g.nodes[n]? = some x →
    (stopAtSoft = true → x.deterministic = true) →
      ∀ f ∈ g.edgesAt n, limit = [] ∨ f ∈ limit → f ∈ C

/-- The closed sets that hold the seeds. -/
def closedOver (g : Graph) (stopAtSoft : Bool) (limit seeds : List EdgeId) : Set (Set EdgeId) :=
  {C | (∀ s ∈ seeds, s ∈ C) ∧ g.ClosedUnder stopAtSoft limit C}

/-- The order of the seeds does not matter, nor how often they are named. -/
theorem closedOver_ofList :
    g.closedOver stopAtSoft limit (Ascending.ofList S) = g.closedOver stopAtSoft limit S := by
  unfold closedOver
  simp only [Ascending.mem_ofList]

theorem closedUnder_iff {C : Set EdgeId} : g.ClosedUnder stopAtSoft limit C ↔
    ∀ e ∈ C, ∀ f, g.Spreads stopAtSoft limit e f → f ∈ C := by
  constructor
  · rintro h e he f ⟨n, hn, hf, hlim, x, hx, hdet⟩
    exact h e he n hn x hx hdet f hf hlim
  · intro h e he n hn x hx hdet f hf hlim
    exact h e he f ⟨n, hn, hf, hlim, x, hx, hdet⟩

/-- A closed set has what its edges lead to. -/
theorem ClosedUnder.mem_of_leads (hg : g.Coherent) {C : Set EdgeId}
    (hC : g.ClosedUnder stopAtSoft limit C) (h : Leads (g.neighbours stopAtSoft limit) e f)
    (he : e ∈ C) : f ∈ C := by
  induction h with
  | refl => exact he
  | tail _ hlast ih => exact closedUnder_iff.mp hC _ ih _ (hg.mem_neighbours_iff.mp hlast)

/-- **The closure is the least closed set that holds the seeds.** -/
theorem Coherent.isLeast_closure (hg : g.Coherent) (stopAtSoft : Bool) (limit : List EdgeId)
    (hs : ∀ s ∈ seeds, s < g.edges.length) :
    IsLeast (g.closedOver stopAtSoft limit seeds) {e | e ∈ g.closure stopAtSoft limit seeds} := by
  refine ⟨⟨fun s h => ?_, ?_⟩, ?_⟩
  · exact (hg.mem_closure_iff hs).mpr ⟨s, h, .refl⟩
  · refine closedUnder_iff.mpr fun e he f hf => ?_
    obtain ⟨s, h, hse⟩ := (hg.mem_closure_iff hs).mp he
    exact (hg.mem_closure_iff hs).mpr ⟨s, h, hse.tail (hg.mem_neighbours_iff.mpr hf)⟩
  · rintro C ⟨hseeds, hC⟩ e he
    obtain ⟨s, h, hse⟩ := (hg.mem_closure_iff hs).mp he
    exact hC.mem_of_leads hg hse (hseeds s h)

theorem pairwise_closure : (g.closure stopAtSoft limit seeds).Pairwise (· < ·) :=
  List.pairwise_lt_range.filter _

/-- Closures with the same members are the same list. -/
theorem closure_eq_of_iff
    (h : ∀ e, e ∈ g.closure stopAtSoft limit S ↔ e ∈ g.closure stopAtSoft limit T) :
    g.closure stopAtSoft limit S = g.closure stopAtSoft limit T :=
  pairwise_closure.eq_of_mem_iff pairwise_closure h

/-! ## Missing nodes -/

/-- An edge of the list has an end at a node that does not exist. -/
def TouchesMissing (g : Graph) (l : List EdgeId) : Prop :=
  ∃ e ∈ l, ∃ n ∈ g.endNodes e, g.nodes[n]? = none

theorem not_touchesMissing_iff :
    ¬g.TouchesMissing l ↔ ∀ e ∈ l, ∀ n ∈ g.endNodes e, n < g.nodes.length := by
  simp [TouchesMissing]

theorem withNodes_of_missing {α : Type} {nodes : List NodeId} {answer : α} {n : NodeId}
    (hn : n ∈ nodes) (h : g.nodes[n]? = none) : g.withNodes nodes answer = .error .outOfRange := by
  unfold withNodes
  refine if_neg fun hall => ?_
  have hlt := of_decide_eq_true (List.all_eq_true.mp hall n hn)
  exact Nat.not_le.mpr hlt (List.getElem?_eq_none_iff.mp h)

/-- The closure of seeds that exist is known, unless it touches a node that does not exist. -/
theorem knownClosure_of_lt (hs : ∀ s ∈ seeds, s < g.edges.length) :
    g.knownClosure stopAtSoft limit seeds = .ok (g.closure stopAtSoft limit seeds) ∧
        ¬g.TouchesMissing (g.closure stopAtSoft limit seeds) ∨
      g.knownClosure stopAtSoft limit seeds = .error .outOfRange ∧
        g.TouchesMissing (g.closure stopAtSoft limit seeds) := by
  by_cases h : g.TouchesMissing (g.closure stopAtSoft limit seeds)
  · refine Or.inr ⟨?_, h⟩
    obtain ⟨e, he, n, hn, hmissing⟩ := h
    unfold knownClosure withEnds
    rw [withEdges_eq_ok.mpr ⟨hs, rfl⟩, ok_bind,
      withEdges_eq_ok.mpr ⟨fun _ => lt_of_mem_closure, rfl⟩, ok_bind]
    exact withNodes_of_missing (mem_nodesOfEdges.mpr ⟨e, he, hn⟩) hmissing
  · exact Or.inl ⟨knownClosure_eq_ok.mpr ⟨hs, rfl, not_touchesMissing_iff.mp h⟩, h⟩

/-! ## Closing sets -/

/-- What closing sets of edges comes to, for one flag and one limit. -/
structure Closing (g : Graph) (stopAtSoft : Bool) (limit : List EdgeId) : Prop where
  /-- Edges that exist have a least closed set. It is the answer, unless it touches a node that does
  not exist. -/
  least : ∀ S : List EdgeId, (∀ s ∈ S, s < g.edges.length) →
    ∃ l, IsLeast (g.closedOver stopAtSoft limit S) {e | e ∈ l} ∧
      (g.knownClosure stopAtSoft limit S = .ok l ∧ ¬g.TouchesMissing l ∨
        g.knownClosure stopAtSoft limit S = .error .outOfRange ∧ g.TouchesMissing l)
  /-- There is an answer for all edges, if no value of a node has been refused. -/
  answers : g.Unspoilt → ∀ S : List EdgeId, (∀ s ∈ S, s < g.edges.length) →
    ∃ l, g.knownClosure stopAtSoft limit S = .ok l
  /-- A closure is its own closure. -/
  idempotent : ∀ S l, g.knownClosure stopAtSoft limit S = .ok l →
    g.knownClosure stopAtSoft limit l = .ok l
  /-- A larger set has a larger closure. -/
  monotone : ∀ S T l m, g.knownClosure stopAtSoft limit S = .ok l →
    g.knownClosure stopAtSoft limit T = .ok m → (∀ s ∈ S, s ∈ T) → ∀ e ∈ l, e ∈ m
  /-- The closure of a union is the union of the closures. -/
  union : ∀ S T l m, g.knownClosure stopAtSoft limit S = .ok l →
    g.knownClosure stopAtSoft limit T = .ok m →
    ∃ u, g.knownClosure stopAtSoft limit (S ++ T) = .ok u ∧ ∀ e, e ∈ u ↔ e ∈ l ∨ e ∈ m

/-- A known closure is the least closed set that holds its seeds. -/
theorem Coherent.isLeast_of_known (hg : g.Coherent)
    (h : g.knownClosure stopAtSoft limit S = .ok l) :
    IsLeast (g.closedOver stopAtSoft limit S) {e | e ∈ l} := by
  obtain ⟨hs, rfl, -⟩ := knownClosure_eq_ok.mp h
  exact hg.isLeast_closure stopAtSoft limit hs

theorem Coherent.idempotent_known (hg : g.Coherent)
    (h : g.knownClosure stopAtSoft limit S = .ok l) :
    g.knownClosure stopAtSoft limit l = .ok l := by
  obtain ⟨⟨-, hclosed⟩, -⟩ := hg.isLeast_of_known h
  obtain ⟨hs, rfl, hn⟩ := knownClosure_eq_ok.mp h
  have hlt : ∀ e ∈ g.closure stopAtSoft limit S, e < g.edges.length := fun _ => lt_of_mem_closure
  refine knownClosure_eq_ok.mpr ⟨hlt, ?_, hn⟩
  -- a closed set is the least closed set that holds its members
  obtain ⟨⟨hself, -⟩, hleast⟩ := hg.isLeast_closure stopAtSoft limit hlt
  exact closure_eq_of_iff fun e => ⟨fun he => hleast ⟨fun _ => id, hclosed⟩ he, hself e⟩

theorem Coherent.mem_known_append (hg : g.Coherent)
    (hS : g.knownClosure stopAtSoft limit S = .ok l)
    (hT : g.knownClosure stopAtSoft limit T = .ok m) :
    ∃ u, g.knownClosure stopAtSoft limit (S ++ T) = .ok u ∧ ∀ e, e ∈ u ↔ e ∈ l ∨ e ∈ m := by
  obtain ⟨hltS, rfl, hnS⟩ := knownClosure_eq_ok.mp hS
  obtain ⟨hltT, rfl, hnT⟩ := knownClosure_eq_ok.mp hT
  have hlt : ∀ s ∈ S ++ T, s < g.edges.length := fun s hs =>
    (List.mem_append.mp hs).elim (hltS s) (hltT s)
  have hmem : ∀ e, e ∈ g.closure stopAtSoft limit (S ++ T) ↔
      e ∈ g.closure stopAtSoft limit S ∨ e ∈ g.closure stopAtSoft limit T := by
    intro e
    rw [hg.mem_closure_iff hlt, hg.mem_closure_iff hltS, hg.mem_closure_iff hltT]
    simp only [List.mem_append, or_and_right, exists_or]
  refine ⟨_, knownClosure_eq_ok.mpr ⟨hlt, rfl, fun e he => ?_⟩, hmem⟩
  exact ((hmem e).mp he).elim (hnS e) (hnT e)

/-- **Closing a set of edges gives the least closed set**, in every graph that calls lead to. -/
theorem Built.closing (hg : g.Built) (stopAtSoft : Bool) (limit : List EdgeId) :
    g.Closing stopAtSoft limit where
  least S hs := ⟨_, hg.coherent.isLeast_closure stopAtSoft limit hs, knownClosure_of_lt hs⟩
  answers hu S hs := ⟨_, knownClosure_eq_ok.mpr ⟨hs, rfl, fun _ _ _ =>
    hu.listed.lt_of_mem_endNodes⟩⟩
  idempotent S l h := hg.coherent.idempotent_known h
  monotone S T l m hS hT hsub := by
    obtain ⟨⟨hheld, hclosed⟩, -⟩ := hg.coherent.isLeast_of_known hT
    exact (hg.coherent.isLeast_of_known hS).2 ⟨fun s hs => hheld s (hsub s hs), hclosed⟩
  union S T l m hS hT := hg.coherent.mem_known_append hS hT

/-- A function of three edges that dangle. -/
def threeWay : Graph :=
  let n : NodeRequest := { kind := "sum", interfaces := 3, deterministic := true }
  let g := Call.after (.addNode n) ∅
  let g := Call.after (.connect (.numbered 0) none (some "x") none) g
  let g := Call.after (.connect (.numbered 1) none (some "y") none) g
  Call.after (.connect (.numbered 2) none (some "z") none) g

/-- The limit holds for the edges that a set grows by, not for those that it grows from. -/
theorem closing_threeWay : threeWay.Built ∧ threeWay.Closing true [1] ∧
    threeWay.knownClosure true [1] [0] = .ok [0, 1] := by
  have hg : threeWay.Built := ((((Built.empty).after _).after _).after _).after _
  exact ⟨hg, hg.closing true [1], by cbv⟩

/-- An interface of a node whose value has been refused, and an edge that dangles there. -/
def refusedEnd : Graph :=
  Call.after (.connect (.numbered 0) none (some "x") none)
    (Call.after (.addNode unevenRequest) ∅)

/-- **The closure of an edge at a missing node is not known**, although the edge exists and is
closed on its own. -/
theorem not_known_refused : refusedEnd.Built ∧ (∀ s ∈ [0], s < refusedEnd.edges.length) ∧
    IsLeast (refusedEnd.closedOver true [] [0]) {0} ∧
    ∀ l, refusedEnd.knownClosure true [] [0] ≠ .ok l := by
  have hg : refusedEnd.Built := ((Built.empty).after _).after _
  have hs : ∀ s ∈ [0], s < refusedEnd.edges.length := by simp; cbv
  have hclosure : refusedEnd.closure true [] [0] = [0] := by cbv
  have hleast := hg.coherent.isLeast_closure true [] hs
  rw [hclosure] at hleast
  refine ⟨hg, hs, by simpa using hleast, fun l h => ?_⟩
  have herror : refusedEnd.knownClosure true [] [0] = .error .outOfRange := by cbv
  rw [herror] at h
  contradiction

end MessagePassing.Graph
