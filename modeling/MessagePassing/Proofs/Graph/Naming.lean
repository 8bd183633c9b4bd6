import MessagePassing.IdSource
import MessagePassing.Proofs.Graph.Closure

/-!
# Edges without a name

An edge that is added without a name gets a variable that is named for the number of the edge. Every
number is given once, so two such edges never get one variable. But callers name variables as they
like, and the name that is made up is not compared with those in use. Where a caller has asked for
it before, the new edge joins the variable of that caller.

* `Graph.Asked` is said of the graphs that calls lead to, with what was asked for each edge.

Results:
* `Asked.ownerOf?_eq`: the variable of an edge is the one that was asked for, or it is made up.
* `Built.exists_asked`: every graph that is built comes of such calls.
* **`Asked.unnamed_of_connect`**: what the variable of an edge without a name has, and when it is
  new.
* `not_own_taken`: an edge without a name may join the variable of another edge.
-/

namespace MessagePassing.Graph

variable {g g' : Graph} {names : List (Option String)} {tail : InterfaceRef}
  {head : Option InterfaceRef} {owner : Option String} {declared : Option TypeTerm} {e k : EdgeId}

/-! ## Made-up names -/

/-- The variable of an edge that is added without a name. -/
def variableName (e : EdgeId) : String :=
  s!"x_{e}"

theorem variableName_injective : Function.Injective variableName := fun _ _ h =>
  toString_injective ((String.append_right_inj "x_").mp h)

/-- An edge that is added takes the next number, and the name that is given or made up for it. -/
theorem connect_eq_ok : connect tail head owner declared g = .ok e g' ↔
    ∃ t h, g.joinedEnds tail head = .ok (t, h) ∧ e = g.edges.length ∧
      g' = g.join t h (owner.getD (variableName e)) declared := by
  unfold connect
  cases g.joinedEnds tail head with
  | error f => simp
  | ok ends =>
    obtain ⟨t, h⟩ := ends
    constructor
    · intro hc
      cases hc
      exact ⟨t, h, rfl, rfl, rfl⟩
    · rintro ⟨_, _, hends, rfl, rfl⟩
      cases hends
      rfl

/-! ## What was asked for -/

/-- The graphs that calls lead to, whether they succeed or fail, with the names that were asked for
their edges, in order; there is none where a caller left it out. -/
inductive Asked : List (Option String) → Graph → Prop
  | empty : Asked [] ∅
  | addNode {names : List (Option String)} {g : Graph} (h : Asked names g) (r : NodeRequest) :
      Asked names ((Graph.addNode r).outcome g).2
  | addClamp {names : List (Option String)} {g : Graph} (h : Asked names g) (value : Nested)
      (name : Option String) : Asked names ((Graph.addClamp value name).outcome g).2
  | refused {names : List (Option String)} {g g' : Graph} {tail : InterfaceRef}
      {head : Option InterfaceRef} {owner : Option String} {declared : Option TypeTerm}
      {f : Failure} (h : Asked names g)
      (hc : Graph.connect tail head owner declared g = .error f g') : Asked names g'
  | connect {names : List (Option String)} {g g' : Graph} {tail : InterfaceRef}
      {head : Option InterfaceRef} {owner : Option String} {declared : Option TypeTerm}
      {e : EdgeId} (h : Asked names g) (hc : Graph.connect tail head owner declared g = .ok e g') :
      Asked (names ++ [owner]) g'

theorem Asked.built (h : Asked names g) : g.Built := by
  induction h with
  | empty => exact .empty
  | addNode _ r ih => exact .addNode ih r
  | addClamp _ value name ih => exact .addClamp ih value name
  | refused _ hc ih => exact Attempt.outcome_snd_of_error hc ▸ .connect ih _ _ _ _
  | connect _ hc ih => exact Attempt.outcome_snd_of_ok hc ▸ .connect ih _ _ _ _

/-- Something was asked for each edge of a graph that is built. -/
theorem Built.exists_asked (h : g.Built) : ∃ names, Asked names g := by
  induction h with
  | empty => exact ⟨[], .empty⟩
  | addNode _ r ih => exact ih.imp fun _ h => .addNode h r
  | addClamp _ value name ih => exact ih.imp fun _ h => .addClamp h value name
  | @connect g _ tail head owner declared ih =>
    obtain ⟨names, h⟩ := ih
    cases hc : Graph.connect tail head owner declared g with
    | ok e g' =>
      rw [Attempt.outcome_snd_of_ok hc]
      exact ⟨_, .connect h hc⟩
    | error f g' =>
      rw [Attempt.outcome_snd_of_error hc]
      exact ⟨_, .refused h hc⟩

theorem edges_addNode (g : Graph) (r : NodeRequest) :
    ((Graph.addNode r).outcome g).2.edges = g.edges := by
  unfold Attempt.outcome Graph.addNode
  cases g.checkedName r with
  | error f => rfl
  | ok name => cases r.value.mapM Tensor.ofNested <;> rfl

theorem edges_addClamp (g : Graph) (value : Nested) (name : Option String) :
    ((Graph.addClamp value name).outcome g).2.edges = g.edges := by
  unfold Attempt.outcome Graph.addClamp
  cases h : Tensor.ofNested value with
  | error f => rfl
  | ok t => exact edges_addNode g _

/-- The variables of the edges are those that were asked for, or they are named for the edges. -/
theorem Asked.map_owner (h : Asked names g) :
    g.edges.map (·.owner) = names.mapIdx fun e name => name.getD (variableName e) := by
  induction h with
  | empty => rfl
  | addNode _ r ih => rw [edges_addNode, ih]
  | addClamp _ value name ih => rw [edges_addClamp, ih]
  | refused _ hc ih => rw [connect_eq_error hc, ih]
  | @connect names g _ _ _ owner declared _ _ hc ih =>
    obtain ⟨t, h, -, rfl, rfl⟩ := connect_eq_ok.mp hc
    have hlength : names.length = g.edges.length := by
      simpa using (congrArg List.length ih).symm
    rw [List.mapIdx_append, ← ih, List.mapIdx_singleton, Nat.zero_add, hlength]
    exact List.map_append

theorem Asked.length_eq (h : Asked names g) : names.length = g.edges.length := by
  simpa using (congrArg List.length h.map_owner).symm

/-- **The variable of an edge is the one that was asked for, or it is named for the edge.** -/
theorem Asked.ownerOf?_eq (h : Asked names g) (e : EdgeId) :
    g.ownerOf? e = (names[e]?).map fun name => name.getD (variableName e) := by
  rw [ownerOf?, ← List.getElem?_map, h.map_owner, List.getElem?_mapIdx]

/-- Where an edge has the name that is made up for another one, a caller has asked for it. -/
theorem Asked.ownerOf?_eq_iff (h : Asked names g) (hne : k ≠ e) :
    g.ownerOf? k = some (variableName e) ↔ names[k]? = some (some (variableName e)) := by
  rw [h.ownerOf?_eq]
  cases names[k]? with
  | none => simp
  | some name =>
    cases name with
    | none => simpa using variableName_injective.ne hne
    | some x => simp

/-- So it is with all edges of a variable that is named for an edge to come. -/
theorem Asked.mem_edgesOf_iff (h : Asked names g) (he : g.edges.length ≤ e) :
    k ∈ g.edgesOf (variableName e) ↔ names[k]? = some (some (variableName e)) := by
  have hg := h.built.coherent
  have howned : k ∈ g.edgesOf (variableName e) ↔ g.ownerOf? k = some (variableName e) :=
    ⟨hg.owner_of_mem_edgesOf, hg.mem_edgesOf_of_owner⟩
  rw [howned]
  by_cases hk : k < g.edges.length
  · exact h.ownerOf?_eq_iff (Nat.ne_of_lt (Nat.lt_of_lt_of_le hk he))
  · rw [ownerOf?, List.getElem?_eq_none (Nat.le_of_not_lt hk),
      List.getElem?_eq_none (h.length_eq ▸ Nat.le_of_not_lt hk)]
    simp

/-! ## Edges without a name -/

/-- What the variable of an edge is, that is added to a graph without a name. -/
structure Unnamed (names : List (Option String)) (g : Graph) (e : EdgeId) (g' : Graph) : Prop where
  /-- The edge has the next number, -/
  number : e = g.edges.length
  /-- and its variable is named for this number. -/
  owner : g'.ownerOf? e = some (variableName e)
  /-- Before, the variable had those edges for which callers have asked for this name, -/
  earlier : ∀ k, k ∈ g.edgesOf (variableName e) ↔ names[k]? = some (some (variableName e))
  /-- and now it has the new edge, too. -/
  joined : g'.edgesOf (variableName e) = g.edgesOf (variableName e) ++ [e]
  /-- Other variables are as they were. -/
  others : ∀ x, x ≠ variableName e → g'.edgesOf x = g.edgesOf x
  /-- So no earlier edge belongs to the variable just if no caller has asked for the name. -/
  own_iff : (∀ k < e, g'.ownerOf? k ≠ g'.ownerOf? e) ↔ some (variableName e) ∉ names

/-- **An edge without a name has a variable of its own, unless a caller has asked for the name that
is made up for it.** -/
theorem Asked.unnamed_of_connect (h : Asked names g)
    (hc : Graph.connect tail head none declared g = .ok e g') : Unnamed names g e g' := by
  have hafter : Asked (names ++ [none]) g' := .connect h hc
  obtain ⟨t, o, -, he, hg'⟩ := connect_eq_ok.mp hc
  rw [Option.getD_none] at hg'
  have hlength : names.length = e := h.length_eq.trans he.symm
  have howner : g'.ownerOf? e = some (variableName e) := by
    rw [hafter.ownerOf?_eq, ← hlength, List.getElem?_concat_length]
    rfl
  refine ⟨he, howner, fun k => h.mem_edgesOf_iff (Nat.le_of_eq he.symm), ?_, fun x hx => ?_, ?_⟩
  · rw [hg', edgesOf_join, if_pos rfl, he]
  · rw [hg', edgesOf_join, if_neg (Ne.symm hx)]
  · -- an earlier edge has the name just where a caller has asked for it
    have hearlier : ∀ k < e, g'.ownerOf? k = some (variableName e) ↔
        names[k]? = some (some (variableName e)) := by
      intro k hk
      rw [hafter.ownerOf?_eq_iff (Nat.ne_of_lt hk), List.getElem?_append_left (hlength ▸ hk)]
    rw [howner, List.mem_iff_getElem?]
    constructor
    · rintro hown ⟨k, hk⟩
      have hlt : k < e := hlength ▸ (List.getElem?_eq_some_iff.mp hk).1
      exact hown k hlt ((hearlier k hlt).mpr hk)
    · exact fun hnone k hk howns => hnone ⟨k, (hearlier k hk).mp howns⟩

/-- Two soft nodes, and an edge with a name that dangles at the first one. -/
def takenGraph (name : String) : Graph :=
  let n : NodeRequest := { kind := "prior", interfaces := 1 }
  let g := ((Graph.addNode n).outcome ((Graph.addNode n).outcome ∅).2).2
  ((Graph.connect (.numbered 0) none (some name) none).outcome g).2

theorem asked_takenGraph (name : String) : Asked [some name] (takenGraph name) :=
  .connect (.addNode (.addNode .empty _) _) (Attempt.eq_ok_of_outcome (a := 0) rfl)

/-- An edge without a name at the second node is the second edge. -/
theorem connect_takenGraph (name : String) : ∃ g',
    Graph.connect (.numbered 1) none none none (takenGraph name) = .ok 1 g' :=
  ⟨_, Attempt.eq_ok_of_outcome rfl⟩

/-- A name that would be made up for a third edge is not in the way of the second one. -/
theorem unnamed_second : Asked [some "x_2"] (takenGraph "x_2") ∧ ∃ g',
    Graph.connect (.numbered 1) none none none (takenGraph "x_2") = .ok 1 g' ∧
      Unnamed [some "x_2"] (takenGraph "x_2") 1 g' ∧
      ∀ k < 1, g'.ownerOf? k ≠ g'.ownerOf? 1 := by
  have hasked := asked_takenGraph "x_2"
  obtain ⟨g', hc⟩ := connect_takenGraph "x_2"
  have h := Asked.unnamed_of_connect hasked hc
  refine ⟨hasked, g', hc, h, h.own_iff.mpr ?_⟩
  have hne : variableName 1 ≠ variableName 2 := variableName_injective.ne (by decide)
  exact fun hmem => hne (Option.some.inj (List.mem_singleton.mp hmem))

/-- **An edge without a name may join the variable of another edge**, if a caller has named that one
as it would be named. -/
theorem not_own_taken : (takenGraph "x_1").Built ∧ ∃ g',
    Graph.connect (.numbered 1) none none none (takenGraph "x_1") = .ok 1 g' ∧
      (takenGraph "x_1").ownerOf? 0 = some "x_1" ∧ g'.ownerOf? 1 = some "x_1" ∧
      g'.edgesOf "x_1" = [0, 1] := by
  refine ⟨(asked_takenGraph "x_1").built, _, Attempt.eq_ok_of_outcome rfl, rfl, rfl, ?_⟩
  rfl

end MessagePassing.Graph
