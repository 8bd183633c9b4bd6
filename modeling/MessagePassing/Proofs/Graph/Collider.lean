import MessagePassing.Graph.Collider
import MessagePassing.Proofs.Graph.Border
import MessagePassing.Proofs.Graph.Components

/-!
# What a collider is

A set of edges has a collider if two prior nodes at its border are linked within the set. The search
for one goes by components, and takes priors and borders relative to each of them. That comes to the
same, because a node has edges of one component only.

A prior node is only looked for at the border. A prior that has no further edge at all, such as one
with a single interface, is not at the border and is passed over, even where it meets another prior.

Results:
* `isPrior_iff`, `Coherent.mem_borderPriors_iff`: the test for prior nodes, alone and at the border.
* `Listed.hasColliderIn_eq_ok`: the search ends with an answer, if edges are listed.
* **`Built.hasColliderIn_iff_colliding`**: the answer says whether two linked prior nodes lie at the
  border.
* **`Built.hasColliderIn_iff_components`**: two priors of one component are noticed just if both
  have a further edge. `not_noticed_merge` shows two that are not.
* `not_colliding_refused`: after a refused value, a collider is reported where there is none.
-/

namespace MessagePassing.Graph

variable {g : Graph} {E F C : List EdgeId} {l : List (List EdgeId)} {n : NodeId}

/-! ## Prior nodes -/

/-- Of the interfaces of a node, the first has an edge of the set, and no other does. -/
structure PriorIn (g : Graph) (E : List EdgeId) (n : NodeId) : Prop where
  first : ∃ i, (g.interfacesOf n)[0]? = some i ∧ ∃ e ∈ E, g.edgeAt? i = some e
  others : ∀ p i, 0 < p → (g.interfacesOf n)[p]? = some i → ∀ e ∈ E, g.edgeAt? i ≠ some e

/-- A prior node at the border of a set. -/
structure BorderPrior (g : Graph) (E : List EdgeId) (n : NodeId) : Prop extends
    PriorIn g E n where
  inside : ∃ e ∈ g.edgesAt n, e ∈ E
  outside : ∃ f ∈ g.edgesAt n, f ∉ E

theorem isPrior_iff : g.isPrior E n = true ↔ g.PriorIn E n := by
  have hany : ∀ i, (g.edgeAt? i).any (· ∈ E) = true ↔ ∃ e ∈ E, g.edgeAt? i = some e := by
    intro i
    cases g.edgeAt? i <;> simp
  unfold isPrior
  cases h : g.interfacesOf n with
  | nil =>
    refine iff_of_false Bool.false_ne_true fun hp => ?_
    obtain ⟨i, hi, -⟩ := hp.first
    rw [h] at hi
    contradiction
  | cons first rest =>
    simp only [Bool.and_eq_true, List.all_eq_true, Bool.not_eq_true', ← Bool.not_eq_true, hany]
    constructor
    · rintro ⟨hfirst, hrest⟩
      refine ⟨⟨first, by rw [h]; rfl, hfirst⟩, fun p i hp hi e he hie => ?_⟩
      obtain ⟨q, rfl⟩ := Nat.exists_eq_succ_of_ne_zero hp.ne'
      rw [h, List.getElem?_cons_succ] at hi
      exact hrest i (List.mem_of_getElem? hi) ⟨e, he, hie⟩
    · intro hp
      obtain ⟨i, hi, hfirst⟩ := hp.first
      rw [h, List.getElem?_cons_zero] at hi
      cases hi
      refine ⟨hfirst, fun j hj ⟨e, he, hje⟩ => ?_⟩
      obtain ⟨q, hq⟩ := List.mem_iff_getElem?.mp hj
      refine hp.others (q + 1) j q.succ_pos ?_ e he hje
      rw [h, List.getElem?_cons_succ]
      exact hq

theorem mem_edgesAt_of_getElem? {p : Nat} {i : InterfaceId} {e : EdgeId}
    (hi : (g.interfacesOf n)[p]? = some i) (he : g.edgeAt? i = some e) : e ∈ g.edgesAt n :=
  List.mem_filterMap.mpr ⟨i, List.mem_of_getElem? hi, he⟩

/-- Whether a node is a prior at the border depends on the edges at the node only. -/
theorem BorderPrior.congr (h : ∀ e ∈ g.edgesAt n, e ∈ E ↔ e ∈ F) (hn : g.BorderPrior E n) :
    g.BorderPrior F n where
  first := by
    obtain ⟨i, hi, e, he, hie⟩ := hn.first
    exact ⟨i, hi, e, (h e (mem_edgesAt_of_getElem? hi hie)).mp he, hie⟩
  others p i hp hi e he hie :=
    hn.others p i hp hi e ((h e (mem_edgesAt_of_getElem? hi hie)).mpr he) hie
  inside := hn.inside.imp fun e he => ⟨he.1, (h e he.1).mp he.2⟩
  outside := hn.outside.imp fun f hf => ⟨hf.1, fun hF => hf.2 ((h f hf.1).mpr hF)⟩

/-- An interface of a node beside the first has an edge. -/
def FurtherEdge (g : Graph) (n : NodeId) : Prop :=
  ∃ p i, 0 < p ∧ (g.interfacesOf n)[p]? = some i ∧ (g.edgeAt? i).isSome

/-- A prior node is at the border just if it has a further edge. -/
theorem borderPrior_iff : g.BorderPrior E n ↔ g.PriorIn E n ∧ g.FurtherEdge n := by
  constructor
  · intro hn
    refine ⟨hn.toPriorIn, ?_⟩
    obtain ⟨f, hf, hout⟩ := hn.outside
    obtain ⟨i, hi, hif⟩ := List.mem_filterMap.mp hf
    obtain ⟨p, hp⟩ := List.mem_iff_getElem?.mp hi
    refine ⟨p, i, Nat.pos_of_ne_zero ?_, hp, by rw [hif]; rfl⟩
    rintro rfl
    obtain ⟨j, hj, e, he, hje⟩ := hn.first
    cases hj.symm.trans hp
    cases hje.symm.trans hif
    exact hout he
  · rintro ⟨hn, p, i, hp, hi, hif⟩
    obtain ⟨j, hj, e, he, hje⟩ := hn.first
    obtain ⟨f, hf⟩ := Option.isSome_iff_exists.mp hif
    exact ⟨hn, ⟨e, mem_edgesAt_of_getElem? hj hje, he⟩, f, mem_edgesAt_of_getElem? hi hf,
      fun hfE => hn.others p i hp hi f hfE hf⟩

theorem Coherent.mem_borderPriors_iff (hg : g.Coherent) (hl : g.Listed) :
    n ∈ g.borderPriors E ↔ g.BorderPrior E n := by
  unfold borderPriors
  rw [List.mem_filter, hg.mem_boundaryNodes_iff hl, isPrior_iff]
  exact ⟨fun ⟨⟨hin, hout⟩, hp⟩ => ⟨hp, hin, hout⟩, fun h => ⟨⟨h.inside, h.outside⟩, h.toPriorIn⟩⟩

/-- A connected set has a collider just if it has two prior nodes at its border. -/
theorem componentHasCollider_iff_mem : g.componentHasCollider C = true ↔
    ∃ m ∈ g.borderPriors C, ∃ n ∈ g.borderPriors C, m ≠ n := by
  have hnodup : (g.borderPriors C).Nodup :=
    (pairwise_boundaryNodes.filter _).imp fun h => Nat.ne_of_lt h
  unfold componentHasCollider
  rw [decide_eq_true_iff, one_lt_length_iff hnodup]

theorem Coherent.componentHasCollider_iff (hg : g.Coherent) (hl : g.Listed) :
    g.componentHasCollider C = true ↔ ∃ m n, m ≠ n ∧ g.BorderPrior C m ∧ g.BorderPrior C n := by
  rw [componentHasCollider_iff_mem]
  simp only [hg.mem_borderPriors_iff hl]
  constructor
  · rintro ⟨m, hm, n, hn, hne⟩
    exact ⟨m, n, hne, hm, hn⟩
  · rintro ⟨m, n, hne, hm, hn⟩
    exact ⟨m, hm, n, hn, hne⟩

/-! ## Colliders of a set -/

/-- Two prior nodes at the border of a set have edges that are linked within the set. -/
def Colliding (g : Graph) (E : List EdgeId) : Prop :=
  ∃ m n, m ≠ n ∧ g.BorderPrior E m ∧ g.BorderPrior E n ∧
    ∃ e ∈ g.edgesAt m, ∃ f ∈ g.edgesAt n, e ∈ E ∧ f ∈ E ∧ g.LinkedIn E e f

theorem Colliding.congr (h : ∀ e, e ∈ E ↔ e ∈ F) (hE : g.Colliding E) : g.Colliding F := by
  have hmeet : g.MeetIn E = g.MeetIn F := by
    funext e f
    unfold MeetIn
    rw [h e, h f]
  obtain ⟨m, n, hne, hm, hn, e, he, f, hf, heE, hfE, hlink⟩ := hE
  unfold LinkedIn at hlink
  rw [hmeet] at hlink
  exact ⟨m, n, hne, hm.congr fun e _ => h e, hn.congr fun e _ => h e, e, he, f, hf,
    (h e).mp heE, (h f).mp hfE, hlink⟩

/-- **Colliders of the components are those of the set.** A node with an edge of a component has the
same edges of the component as of the set. -/
theorem Coherent.hasCollider_iff (hg : g.Coherent) (hl : g.Listed)
    (hE : ∀ e ∈ E, e < g.edges.length) : g.hasCollider E = true ↔ g.Colliding E := by
  have hsame : ∀ {C k d}, C ∈ g.components E → d ∈ g.edgesAt k → d ∈ C →
      ∀ x ∈ g.edgesAt k, x ∈ C ↔ x ∈ E :=
    fun hC hd hdC x hx => hg.mem_component_iff_of_meet (hl.within E) hE hC hdC hd hx
  unfold hasCollider
  simp only [List.any_eq_true, hg.componentHasCollider_iff hl]
  constructor
  · rintro ⟨C, hC, m, n, hne, hm, hn⟩
    obtain ⟨e, he, heC⟩ := hm.inside
    obtain ⟨f, hf, hfC⟩ := hn.inside
    have hmE := hsame hC he heC
    have hnE := hsame hC hf hfC
    obtain ⟨-, s, -, hmem⟩ := (hg.mem_components_iff (hl.within E) hE).mp hC
    have hlink : g.LinkedIn E e f := ((hmem e).mp heC).symm.trans ((hmem f).mp hfC)
    exact ⟨m, n, hne, hm.congr hmE, hn.congr hnE, e, he, f, hf, (hmE e he).mp heC,
      (hnE f hf).mp hfC, hlink⟩
  · rintro ⟨m, n, hne, hm, hn, e, he, f, hf, heE, -, hlink⟩
    obtain ⟨C, hC, heC⟩ := hg.exists_mem_componentsFrom (E := E) hE heE
    obtain ⟨-, s, -, hmem⟩ := (hg.mem_components_iff (hl.within E) hE).mp hC
    have hfC : f ∈ C := (hmem f).mpr (((hmem e).mp heC).trans hlink)
    exact ⟨C, hC, m, n, hne, hm.congr fun x hx => (hsame hC he heC x hx).symm,
      hn.congr fun x hx => (hsame hC hf hfC x hx).symm⟩

/-! ## The search -/

theorem Listed.findCollider_eq_ok (hl : g.Listed) (h : ∀ C ∈ l, ∀ e ∈ C, e < g.edges.length) :
    g.findCollider l = .ok (l.any g.componentHasCollider) := by
  induction l with
  | nil => rfl
  | cons C l ih =>
    unfold findCollider
    rw [(hl.within C).withEnds_eq_ok (h C List.mem_cons_self), ok_bind, List.any_cons]
    cases g.componentHasCollider C with
    | true => rfl
    | false => exact ih fun D hD => h D (List.mem_cons_of_mem _ hD)

/-- The search ends with an answer about the edges in order. -/
theorem Listed.hasColliderIn_eq_ok (hl : g.Listed)
    (hE : ∀ e ∈ E, e < g.edges.length) :
    g.hasColliderIn E = .ok (g.hasCollider (Ascending.ofList E)) := by
  have hlt : ∀ e ∈ Ascending.ofList E, e < g.edges.length := fun e he =>
    hE e (Ascending.mem_ofList.mp he)
  have hknown : (Ascending.ofList E).filter (· < g.edges.length) = Ascending.ofList E :=
    List.filter_eq_self.mpr fun e he => decide_eq_true (hlt e he)
  have hcomponents : ∀ C ∈ g.components (Ascending.ofList E), ∀ e ∈ C, e < g.edges.length := by
    intro C hC e he
    obtain ⟨s, -, rfl⟩ := exists_of_mem_componentsFrom hC
    exact lt_of_mem_closure he
  unfold hasColliderIn
  dsimp only
  rw [hknown, hl.findCollider_eq_ok hcomponents, ok_bind]
  change (if g.hasCollider (Ascending.ofList E) = true then _ else _) = _
  cases g.hasCollider (Ascending.ofList E) with
  | true => rfl
  | false => exact withEdges_eq_ok.mpr ⟨hlt, rfl⟩

/-- **A collider is reported just if two prior nodes at the border of the set are linked within
it**, where edges are listed at their nodes. -/
theorem Built.hasColliderIn_iff_colliding (hg : g.Built) (hl : g.Listed) (E : List EdgeId)
    (hE : ∀ e ∈ E, e < g.edges.length) :
    ∃ answer, g.hasColliderIn E = .ok answer ∧ (answer = true ↔ g.Colliding E) := by
  have hlt : ∀ e ∈ Ascending.ofList E, e < g.edges.length := fun e he =>
    hE e (Ascending.mem_ofList.mp he)
  refine ⟨_, hl.hasColliderIn_eq_ok hE, ?_⟩
  rw [hg.coherent.hasCollider_iff hl hlt]
  exact ⟨Colliding.congr fun _ => Ascending.mem_ofList,
    Colliding.congr fun _ => Ascending.mem_ofList.symm⟩

/-- Two priors, the first two interfaces of which lead to a sum whose result dangles. -/
def mergeGraph (interfaces : Int) : Graph :=
  let prior (name : String) : NodeRequest := { kind := "prior", interfaces, name := some name }
  let sum : NodeRequest :=
    { kind := "addition", interfaces := 3, name := some "sum", deterministic := true }
  let g := Call.after (.addNode (prior "a")) ∅
  let g := Call.after (.addNode (prior "b")) g
  let g := Call.after (.addNode sum) g
  let g := Call.after (.connect (.named "a" 0) (some (.named "sum" 1)) (some "x") none) g
  let g := Call.after (.connect (.named "b" 0) (some (.named "sum" 2)) (some "z") none) g
  Call.after (.connect (.named "sum" 0) none (some "y") none) g

theorem intact_mergeGraph (interfaces : Int) : (mergeGraph interfaces).Intact :=
  .connect (.connect (.connect (.addNode (.addNode (.addNode .empty _ ⟨none, rfl⟩) _ ⟨none, rfl⟩) _
    ⟨none, rfl⟩) _ _ _ _) _ _ _ _) _ _ _ _

/-- The two priors have a second edge each, which dangles. -/
def siblingGraph : Graph :=
  let g := Call.after (.connect (.named "a" 1) none (some "p") none) (mergeGraph 2)
  Call.after (.connect (.named "b" 1) none (some "q") none) g

theorem intact_siblingGraph : siblingGraph.Intact :=
  .connect (.connect (intact_mergeGraph 2) _ _ _ _) _ _ _ _

theorem colliding_sibling : siblingGraph.Built ∧ siblingGraph.Listed ∧
    (∀ e ∈ [0, 1], e < siblingGraph.edges.length) ∧
    siblingGraph.hasColliderIn [0, 1] = .ok true ∧ siblingGraph.Colliding [0, 1] := by
  have hE : ∀ e ∈ [0, 1], e < siblingGraph.edges.length := by simp; cbv
  have hanswer : siblingGraph.hasColliderIn [0, 1] = .ok true := by cbv
  obtain ⟨answer, h, hiff⟩ := intact_siblingGraph.built.hasColliderIn_iff_colliding
    intact_siblingGraph.listed [0, 1] hE
  cases hanswer.symm.trans h
  exact ⟨intact_siblingGraph.built, intact_siblingGraph.listed, hE, hanswer, hiff.mp rfl⟩

/-- Two priors and a sum of two edges. Two interfaces that a refused value has left behind carry the
number of the first prior. An edge joins the second of them to the sum, the other edge of the sum
goes to the second prior, and the other interfaces of the priors have edges that dangle. -/
def straySum : Graph :=
  let prior : NodeRequest := { kind := "prior", interfaces := 2 }
  let sum : NodeRequest := { kind := "sum", interfaces := 2, deterministic := true }
  let g := Call.after (.addNode { unevenRequest with interfaces := 2 }) ∅
  let g := Call.after (.addNode prior) g
  let g := Call.after (.addNode prior) g
  let g := Call.after (.addNode sum) g
  let g := Call.after (.connect (.numbered 1) (some (.numbered 6)) (some "a") none) g
  let g := Call.after (.connect (.numbered 2) none (some "x") none) g
  let g := Call.after (.connect (.numbered 3) none (some "p") none) g
  let g := Call.after (.connect (.numbered 4) (some (.numbered 7)) (some "y") none) g
  Call.after (.connect (.numbered 5) none (some "q") none) g

theorem built_straySum : straySum.Built := by
  refine .after (.after (.after (.after (.after ?_ _) _) _) _) _
  exact (((Built.empty.after _).after _).after _).after _

theorem edgesAt_straySum (n : NodeId) :
    straySum.edgesAt n = [[1, 2], [3, 4], [0, 3]].getD n [] := by
  match n with
  | 0 => cbv
  | 1 => cbv
  | 2 => cbv
  | n + 3 =>
    have hlength : straySum.nodes.length = 3 := by cbv
    have hnode : straySum.nodes[n + 3]? = none := List.getElem?_eq_none (by omega)
    unfold edgesAt interfacesOf
    rw [hnode]
    rfl

/-- Where the edges of the first prior are listed, no other edge of the set is. -/
theorem eq_of_linkedIn_straySum {f : EdgeId} (h : straySum.LinkedIn [0, 1, 3] 1 f) : f = 1 := by
  induction h with
  | refl => rfl
  | tail _ hlast ih =>
    obtain ⟨-, hf, n, hen, hfn⟩ := hlast
    rw [ih, edgesAt_straySum] at hen
    rw [edgesAt_straySum] at hfn
    match n with
    | 0 =>
      rcases List.mem_pair.mp hfn with rfl | rfl
      · rfl
      · simp at hf
    | 1 => simp at hen
    | 2 => simp at hen
    | n + 3 => simp at hen

/-- The prior nodes of the set, and the edges that they have in it. -/
theorem BorderPrior.straySum {m : NodeId} {e : EdgeId} (hm : straySum.BorderPrior [0, 1, 3] m)
    (he : e ∈ straySum.edgesAt m) (hin : e ∈ [0, 1, 3]) : m = 0 ∧ e = 1 ∨ m = 1 ∧ e = 3 := by
  rw [edgesAt_straySum] at he
  match m with
  | 0 =>
    rcases List.mem_pair.mp he with rfl | rfl
    · exact Or.inl ⟨rfl, rfl⟩
    · simp at hin
  | 1 =>
    rcases List.mem_pair.mp he with rfl | rfl
    · exact Or.inr ⟨rfl, rfl⟩
    · simp at hin
  | 2 =>
    have hprior := isPrior_iff.mpr hm.toPriorIn
    have hnone : Graph.straySum.isPrior [0, 1, 3] 2 = false := by cbv
    rw [hnone] at hprior
    contradiction
  | m + 3 => simp at he

/-- **After a refused value, a collider may be reported where there is none**: the search takes the
edge of the stray interface to meet those of the first prior, which does not list it. -/
theorem not_colliding_refused : straySum.Built ∧ (∀ e ∈ [0, 1, 3], e < straySum.edges.length) ∧
    straySum.hasColliderIn [0, 1, 3] = .ok true ∧ ¬straySum.Colliding [0, 1, 3] := by
  refine ⟨built_straySum, by simp; cbv, by cbv, ?_⟩
  rintro ⟨m, n, hne, hm, hn, e, he, f, hf, heE, hfE, hlink⟩
  rcases hm.straySum he heE with ⟨rfl, rfl⟩ | ⟨rfl, rfl⟩ <;>
    rcases hn.straySum hf hfE with ⟨rfl, rfl⟩ | ⟨rfl, rfl⟩
  · exact hne rfl
  · exact absurd (eq_of_linkedIn_straySum hlink) (by decide)
  · exact absurd (eq_of_linkedIn_straySum hlink.symm) (by decide)
  · exact hne rfl

/-! ## Priors of one component -/

/-- **Two priors of one component are noticed just if both have a further edge**, where edges are
listed at their nodes. -/
theorem Built.hasColliderIn_iff_components (hg : g.Built) (hl : g.Listed) (E : List EdgeId)
    (hE : ∀ e ∈ E, e < g.edges.length) :
    ∃ answer, g.hasColliderIn E = .ok answer ∧
      (answer = true ↔ ∃ C ∈ g.components (Ascending.ofList E), ∃ m n, m ≠ n ∧
        (g.isPrior C m = true ∧ g.FurtherEdge m) ∧ (g.isPrior C n = true ∧ g.FurtherEdge n)) := by
  refine ⟨_, hl.hasColliderIn_eq_ok hE, ?_⟩
  unfold hasCollider
  simp only [List.any_eq_true, hg.coherent.componentHasCollider_iff hl, borderPrior_iff,
    isPrior_iff]

theorem noticed_sibling : siblingGraph.Built ∧ siblingGraph.Listed ∧
    (∀ e ∈ [0, 1], e < siblingGraph.edges.length) ∧
    siblingGraph.hasColliderIn [0, 1] = .ok true ∧
    ∃ C ∈ siblingGraph.components [0, 1], ∃ m n, m ≠ n ∧
      (siblingGraph.isPrior C m = true ∧ siblingGraph.FurtherEdge m) ∧
      (siblingGraph.isPrior C n = true ∧ siblingGraph.FurtherEdge n) := by
  have hE : ∀ e ∈ [0, 1], e < siblingGraph.edges.length := by simp; cbv
  have hanswer : siblingGraph.hasColliderIn [0, 1] = .ok true := by cbv
  obtain ⟨answer, h, hiff⟩ := intact_siblingGraph.built.hasColliderIn_iff_components
    intact_siblingGraph.listed [0, 1] hE
  cases hanswer.symm.trans h
  exact ⟨intact_siblingGraph.built, intact_siblingGraph.listed, hE, hanswer, hiff.mp rfl⟩

/-- **Two priors without a further edge are not noticed**, although they meet in one component. -/
theorem not_noticed_merge : (mergeGraph 1).Built ∧ (mergeGraph 1).Listed ∧
    (∀ e ∈ [0, 1, 2], e < (mergeGraph 1).edges.length) ∧
    (mergeGraph 1).components [0, 1, 2] = [[0, 1, 2]] ∧
    (∀ n ∈ [0, 1], (mergeGraph 1).isPrior [0, 1, 2] n = true ∧
      ((mergeGraph 1).nodes[n]?).map (·.isClamp) = some false) ∧
    (mergeGraph 1).hasColliderIn [0, 1, 2] = .ok false := by
  have hg := intact_mergeGraph 1
  refine ⟨hg.built, hg.listed, by simp; cbv, by cbv, ?_, by cbv⟩
  intro n hn
  rcases List.mem_pair.mp hn with rfl | rfl
  · exact ⟨by cbv, by cbv⟩
  · exact ⟨by cbv, by cbv⟩

end MessagePassing.Graph
