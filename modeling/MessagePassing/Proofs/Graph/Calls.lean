import MessagePassing.Proofs.Graph.Construction

/-!
# Calls that fail

A call that fails leaves the graph as it was, with one exception. A node gets its interfaces before
its value is read, so a request whose checks pass and whose value is refused leaves the interfaces
behind. They carry the number of a node that does not exist; the next node gets that number and does
not list them.

Results:
* `addNode_eq_ok`, `addNode_eq_error`, `addClamp_eq_error`, `connect_eq_error`: what a call leaves.
* **`Built.leaves_of_error`**: a failed call changes a graph if and only if it spoils it, and what
  it leaves then are interfaces without a node and without an edge.
-/

namespace MessagePassing.Graph

variable {g g' : Graph} {r : NodeRequest} {n : Nat} {f : Failure}

/-! ## Calls -/

/-- A call that adds to a graph. -/
inductive Call where
  | addNode (request : NodeRequest)
  | addClamp (value : Nested) (name : Option String)
  | connect (tail : InterfaceRef) (head : Option InterfaceRef) (owner : Option String)
      (declared : Option TypeTerm)

/-- Makes a call, and answers the number of the node or the edge. -/
def Call.make : Call → Attempt Graph Nat
  | .addNode r => Graph.addNode r
  | .addClamp value name => Graph.addClamp value name
  | .connect tail head owner declared => Graph.connect tail head owner declared

/-- The graph after a call, which may have failed. -/
def Call.after (c : Call) (g : Graph) : Graph :=
  (c.make.outcome g).2

/-- Every check of a requested node passes, and its value is refused. -/
def Call.Spoils (g : Graph) : Call → Prop
  | .addNode r =>
    (∃ name, g.checkedName r = .ok name) ∧ ∃ f, r.value.mapM Tensor.ofNested = .error f
  | .addClamp .. | .connect .. => False

theorem Built.after (hg : g.Built) (c : Call) : (c.after g).Built := by
  cases c with
  | addNode r => exact .addNode hg r
  | addClamp value name => exact .addClamp hg value name
  | connect tail head owner declared => exact .connect hg tail head owner declared

/-! ## What a call leaves -/

/-- When the checks of a requested node pass, and how the node is then called. -/
theorem checkedName_eq_ok {name : String} : g.checkedName r = .ok name ↔
    1 ≤ r.interfaces ∧ (∀ handles ∈ r.handles, (handles.length : Int) = r.interfaces) ∧
      g.names.contains name = false ∧ r.name.getD s!"{r.kind}_{g.nodes.length}" = name := by
  unfold checkedName
  generalize r.name.getD s!"{r.kind}_{g.nodes.length}" = given
  have hname : (if g.names.contains given then
        (throw (.duplicateName given) >>= fun _ : PUnit => pure given) else pure given) =
      (.ok name : Except Failure String) ↔ g.names.contains name = false ∧ given = name := by
    rw [guard_eq_ok, pure_eq_ok]
    constructor
    · rintro ⟨h, rfl⟩
      exact ⟨by simpa using h, rfl⟩
    · rintro ⟨h, rfl⟩
      exact ⟨by simp [h], rfl⟩
  dsimp only
  rw [guard_eq_ok, Int.not_lt]
  refine and_congr_right fun _ => ?_
  cases r.handles with
  | none => simpa using hname
  | some handles =>
    dsimp only
    rw [guard_eq_ok, hname]
    simp

/-- A requested node has an interface. -/
theorem freshInterfaces_ne_nil {name : String} (h : g.checkedName r = .ok name) :
    g.freshInterfaces r ≠ [] := by
  have hpos := (checkedName_eq_ok.mp h).1
  unfold freshInterfaces
  simp only [ne_eq, List.map_eq_nil_iff, List.range_eq_nil]
  omega

/-- The graph with a requested node. -/
def withNode (g : Graph) (r : NodeRequest) (name : String) (observed : Option Tensor) : Graph :=
  { g.grow (g.freshInterfaces r) with
    nodes := g.nodes ++ [g.freshNode r name observed]
    names := g.names.insert name g.nodes.length }

theorem addNode_eq_ok : Graph.addNode r g = .ok n g' ↔
    ∃ name observed, g.checkedName r = .ok name ∧ r.value.mapM Tensor.ofNested = .ok observed ∧
      n = g.nodes.length ∧ g' = g.withNode r name observed := by
  unfold Graph.addNode
  cases g.checkedName r with
  | error e => simp
  | ok name => cases r.value.mapM Tensor.ofNested <;> simp [withNode, grow, eq_comm]

theorem addNode_eq_error : Graph.addNode r g = .error f g' ↔
    g.checkedName r = .error f ∧ g' = g ∨
      (∃ name, g.checkedName r = .ok name) ∧ r.value.mapM Tensor.ofNested = .error f ∧
        g' = g.grow (g.freshInterfaces r) := by
  unfold Graph.addNode
  cases g.checkedName r with
  | error e => simp [eq_comm]
  | ok name => cases r.value.mapM Tensor.ofNested <;> simp [grow, eq_comm]

/-- A clamp is a node whose value has been read before. -/
theorem addClamp_eq_error {value : Nested} {name : Option String}
    (h : Graph.addClamp value name g = .error f g') : g' = g := by
  unfold Graph.addClamp at h
  cases ht : Tensor.ofNested value with
  | error e =>
    rw [ht] at h
    cases h
    rfl
  | ok t =>
    rw [ht] at h
    rcases addNode_eq_error.mp h with ⟨-, hg⟩ | ⟨-, hv, -⟩
    · exact hg
    · rw [Option.mapM_some, ht] at hv
      contradiction

theorem connect_eq_error {tail : InterfaceRef} {head : Option InterfaceRef} {owner : Option String}
    {declared : Option TypeTerm} (h : Graph.connect tail head owner declared g = .error f g') :
    g' = g := by
  unfold Graph.connect at h
  cases hj : g.joinedEnds tail head with
  | error e =>
    rw [hj] at h
    cases h
    rfl
  | ok ends =>
    rw [hj] at h
    contradiction

/-- A failed call that spoils nothing changes nothing. -/
theorem Call.eq_of_error {c : Call} (h : c.make g = .error f g') (hc : ¬c.Spoils g) : g' = g := by
  cases c with
  | addNode r =>
    rcases addNode_eq_error.mp h with ⟨-, rfl⟩ | ⟨hr, hv, -⟩
    · rfl
    · exact absurd ⟨hr, f, hv⟩ hc
  | addClamp value name => exact addClamp_eq_error h
  | connect tail head owner declared => exact connect_eq_error h

/-! ## Failed calls -/

/-- An interface that carries the number of the next node. It has no edge, and no node lists it. -/
structure Orphan (g : Graph) (y : Interface) : Prop where
  node : y.node = g.nodes.length
  edge : y.edge = none
  partner : y.partner = none
  unlisted : ∀ x ∈ g.nodes, y.id ∉ x.interfaces

/-- What is left of a graph when a call fails. -/
structure Leaves (g : Graph) (c : Call) (g' : Graph) : Prop where
  /-- The graph is as it was, unless the call spoils it. -/
  eq_iff : g' = g ↔ ¬c.Spoils g
  nodes : g'.nodes = g.nodes
  edges : g'.edges = g.edges
  variableEdges : g'.variableEdges = g.variableEdges
  names : g'.names = g.names
  /-- No interface is lost or changed, and what is new has no node. -/
  interfaces : ∃ orphans, g'.interfaces = g.interfaces ++ orphans ∧ ∀ y ∈ orphans, g.Orphan y

theorem Leaves.of_eq {c : Call} (hc : ¬c.Spoils g) : g.Leaves c g where
  eq_iff := iff_of_true rfl hc
  nodes := rfl
  edges := rfl
  variableEdges := rfl
  names := rfl
  interfaces := ⟨[], (List.append_nil _).symm, nofun⟩

/-- The interfaces of a node are older than those made next. -/
theorem Coherent.orphan_of_mem (hg : g.Coherent) {y : Interface} (hy : y ∈ g.freshInterfaces r) :
    g.Orphan y := by
  obtain ⟨hedge, hpartner⟩ := free_of_mem_freshInterfaces hy
  obtain ⟨p, -, rfl⟩ := List.mem_map.mp hy
  refine ⟨rfl, hedge, hpartner, fun x hx hmem => ?_⟩
  obtain ⟨n, hn⟩ := List.mem_iff_getElem?.mp hx
  obtain ⟨y, hy, -⟩ := hg.interface_of_node hn hmem
  have hlt := (List.getElem?_eq_some_iff.mp hy).1
  dsimp only at hlt
  omega

/-- A call that spoils a graph leaves the interfaces that it has made. -/
theorem Coherent.leaves_grow (hg : g.Coherent)
    (h : Call.Spoils g (.addNode r)) : g.Leaves (.addNode r) (g.grow (g.freshInterfaces r)) where
  eq_iff := by
    obtain ⟨name, hname⟩ := h.1
    refine iff_of_false (fun heq => freshInterfaces_ne_nil hname ?_) (not_not_intro h)
    have hint : g.interfaces ++ g.freshInterfaces r = g.interfaces := congrArg interfaces heq
    simpa using hint
  nodes := rfl
  edges := rfl
  variableEdges := rfl
  names := rfl
  interfaces := ⟨_, rfl, fun _ hy => hg.orphan_of_mem hy⟩

/-- **A failed call leaves the graph as it was, unless all that is wrong is the value of a node.**
The interfaces of that node are left behind then, and nothing else is changed. -/
theorem Built.leaves_of_error (hg : g.Built) {c : Call} (h : c.make g = .error f g') :
    g.Leaves c g' := by
  by_cases hc : c.Spoils g
  · cases c with
    | addNode r =>
      rcases addNode_eq_error.mp h with ⟨hr, -⟩ | ⟨-, -, rfl⟩
      · obtain ⟨⟨name, hname⟩, -⟩ := hc
        rw [hr] at hname
        contradiction
      · exact hg.coherent.leaves_grow hc
    | addClamp value name => exact hc.elim
    | connect tail head owner declared => exact hc.elim
  · obtain rfl := Call.eq_of_error h hc
    exact .of_eq hc

/-- A node with rows of different lengths as its value. -/
def unevenRequest : NodeRequest where
  kind := "prior"
  interfaces := 1
  value := some (.list [.list [.num (.whole 1)], .list [.num (.whole 2), .num (.whole 3)]])

theorem leaves_uneven : ∃ f g', (Call.addNode unevenRequest).make ∅ = .error f g' ∧
    Leaves ∅ (.addNode unevenRequest) g' := by
  have h : (Call.addNode unevenRequest).make ∅ =
      .error .ragged ((Call.addNode unevenRequest).after ∅) :=
    Attempt.eq_error_of_outcome rfl
  exact ⟨_, _, h, Built.empty.leaves_of_error h⟩

/-- The value is refused, and the graph then has an interface of node 0 but no node. -/
theorem not_unchanged_uneven : ∃ g', (Call.addNode unevenRequest).make ∅ = .error .ragged g' ∧
    g'.nodes = [] ∧ g'.nodeIdOf? 0 = some 0 ∧ g'.interfaces ≠ (∅ : Graph).interfaces :=
  ⟨_, Attempt.eq_error_of_outcome rfl, rfl, rfl, List.cons_ne_nil _ _⟩

end MessagePassing.Graph
