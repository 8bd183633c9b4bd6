import MessagePassing.Proofs.Graph.Calls

/-!
# The tables of a graph

A graph keeps nodes, interfaces and edges in tables that refer to each other by number, a table of
names and a table of variables. Calls add to several of them at once. If no call spoils the graph,
the tables agree: each of them tells what the others say about it.

A call adds a node or an edge, or it leaves the graph as it is (`Coherent.grows_of_ok`,
`Call.eq_of_error`). What is numbered, named and listed is therefore an invariant of two steps
(`Arranged.withNode`, `Arranged.join`); how interfaces and edges refer to each other is `Coherent`.

Results:
* `Unspoilt.induct`: a property of the empty graph that each addition keeps holds of all graphs that
  are not spoilt.
* **`Unspoilt.represented`**: the tables of a graph that is not spoilt agree.
* `Built.positioned`: an interface tells its node and its position, in every graph.
* `Arranged.listed`: every interface is listed by its node.
-/

namespace MessagePassing.Graph

variable {g g' : Graph} {r : NodeRequest} {name : String} {observed : Option Tensor} {n : Nat}

/-! ## Graphs that are not spoilt -/

/-- What a call adds to a graph if it succeeds. -/
inductive Grows (g : Graph) : Graph → Prop
  | node {r : NodeRequest} {name : String} (hname : g.checkedName r = .ok name)
      (observed : Option Tensor) : Grows g (g.withNode r name observed)
  | edge {t : InterfaceId} {o : Option InterfaceId} {y : Interface}
      (ht : g.interfaces[t]? = some y) (hy : y.edge = none)
      (ho : ∀ j, o = some j → ∃ z, g.interfaces[j]? = some z ∧ z.edge = none ∧ z.node ≠ y.node)
      (owner : String) (declared : Option TypeTerm) : Grows g (g.join t o owner declared)

/-- The graphs that calls lead to, whether they succeed or fail, if no call spoils the graph. -/
inductive Unspoilt : Graph → Prop
  | empty : Unspoilt ∅
  | call {g : Graph} (hg : Unspoilt g) (c : Call) (hc : ¬c.Spoils g) : Unspoilt (c.after g)

/-- **A call that succeeds adds one node or one edge.** -/
theorem Coherent.grows_of_ok (hg : g.Coherent) {c : Call} (h : c.make g = .ok n g') :
    g.Grows g' := by
  cases c with
  | addNode r =>
    obtain ⟨name, observed, hname, -, -, rfl⟩ := addNode_eq_ok.mp h
    exact .node hname observed
  | addClamp value name =>
    obtain ⟨t, u, ht, h⟩ := Attempt.bind_eq_ok.mp h
    obtain ⟨-, rfl⟩ := Attempt.liftM_eq_ok.mp ht
    obtain ⟨name, observed, hname, -, -, rfl⟩ := addNode_eq_ok.mp h
    exact .node hname observed
  | connect tail head owner declared =>
    change Graph.connect tail head owner declared g = _ at h
    unfold Graph.connect at h
    cases hj : g.joinedEnds tail head with
    | error f => rw [hj] at h; contradiction
    | ok ends =>
      rw [hj] at h
      cases h
      obtain ⟨y, ht, hy, ho⟩ := hg.of_joinedEnds hj
      exact .edge ht hy ho _ _

theorem Unspoilt.built (h : Unspoilt g) : Built g := by
  induction h with
  | empty => exact .empty
  | call _ c _ ih => exact ih.after c

/-- A call that spoils nothing adds one node or one edge, or it changes nothing. -/
theorem Built.grows_or_eq (hg : g.Built) {c : Call} (hc : ¬c.Spoils g) :
    g.Grows (c.after g) ∨ c.after g = g := by
  unfold Call.after
  cases h : c.make g with
  | ok n g' =>
    rw [Attempt.outcome_snd_of_ok h]
    exact Or.inl (hg.coherent.grows_of_ok h)
  | error f g' =>
    rw [Attempt.outcome_snd_of_error h]
    exact Or.inr (Call.eq_of_error h hc)

theorem Unspoilt.induct {P : Graph → Prop} (hempty : P ∅)
    (hgrows : ∀ g g', g.Built → P g → g.Grows g' → P g') (h : Unspoilt g) : P g := by
  induction h with
  | empty => exact hempty
  | @call g hg c hc ih =>
    rcases hg.built.grows_or_eq hc with hgrow | heq
    · exact hgrows _ _ hg.built ih hgrow
    · rwa [heq]

/-! ## Positions -/

theorem length_freshInterfaces : (g.freshInterfaces r).length = r.interfaces.toNat := by
  simp [freshInterfaces]

theorem getElem?_freshInterfaces {p : Nat} {y : Interface}
    (h : (g.freshInterfaces r)[p]? = some y) :
    y.id = g.interfaces.length + p ∧ y.node = g.nodes.length ∧ y.position = p := by
  unfold freshInterfaces at h
  rw [List.getElem?_map, Option.map_eq_some_iff] at h
  obtain ⟨q, hq, rfl⟩ := h
  obtain ⟨hlt, rfl⟩ := List.getElem?_eq_some_iff.mp hq
  simp

/-- The interfaces of a requested node follow those that there are. -/
theorem interfaces_freshNode : (g.freshNode r name observed).interfaces =
    List.range' g.interfaces.length r.interfaces.toNat := by
  unfold freshNode freshInterfaces
  rw [List.map_map, List.range'_eq_map_range]
  rfl

/-- The interface at a place of a node tells the node and the place. -/
def Positioned (g : Graph) : Prop :=
  ∀ {n : NodeId} {x : Node} {p : Nat} {i : InterfaceId}, g.nodes[n]? = some x →
    x.interfaces[p]? = some i → ∃ y, g.interfaces[i]? = some y ∧ y.node = n ∧ y.position = p

theorem Positioned.grow (hg : g.Positioned) (l : List Interface) : (g.grow l).Positioned := by
  intro n x p i hn hp
  obtain ⟨y, hy, h⟩ := hg hn hp
  exact ⟨y, getElem?_append_of_some hy, h⟩

theorem Positioned.withNode (hg : g.Positioned) : (g.withNode r name observed).Positioned := by
  intro n x p i hn hp
  rcases getElem?_append_singleton hn with hn | ⟨rfl, rfl⟩
  · exact hg.grow (g.freshInterfaces r) hn hp
  · rw [interfaces_freshNode] at hp
    obtain ⟨hlt, rfl⟩ := List.getElem?_eq_some_iff.mp hp
    rw [List.length_range', ← length_freshInterfaces (g := g)] at hlt
    have hy := List.getElem?_eq_getElem hlt
    refine ⟨_, ?_, (getElem?_freshInterfaces hy).2⟩
    change (g.interfaces ++ g.freshInterfaces r)[_]? = _
    rw [List.getElem_range', Nat.one_mul, List.getElem?_append_right (Nat.le_add_right _ _),
      Nat.add_sub_cancel_left]
    exact hy

theorem exists_getElem?_join {t : InterfaceId} {o : Option InterfaceId} {owner : String}
    {declared : Option TypeTerm} (hne : o ≠ some t) {i : InterfaceId} {y : Interface}
    (h : g.interfaces[i]? = some y) : ∃ z, (g.join t o owner declared).interfaces[i]? = some z ∧
      z.node = y.node ∧ z.position = y.position := by
  rw [getElem?_join hne, h, Option.map_some]
  refine ⟨_, rfl, ?_⟩
  split
  · exact ⟨rfl, rfl⟩
  · split <;> exact ⟨rfl, rfl⟩

theorem Positioned.join (hg : g.Positioned) {t : InterfaceId} {o : Option InterfaceId}
    {owner : String} {declared : Option TypeTerm} (hne : o ≠ some t) :
    (g.join t o owner declared).Positioned := by
  intro n x p i hn hp
  obtain ⟨y, hy, hnode, hposition⟩ := hg hn hp
  obtain ⟨z, hz, hzn, hzp⟩ := exists_getElem?_join hne hy
  exact ⟨z, hz, hzn.trans hnode, hzp.trans hposition⟩

theorem Positioned.grows (hg : g.Positioned) (h : g.Grows g') : g'.Positioned := by
  cases h with
  | node hname observed => exact hg.withNode
  | edge ht hy ho owner declared => exact hg.join (ne_of_free ht ho)

theorem Positioned.after (h : g.Positioned) (hg : g.Built) (c : Call) :
    (c.after g).Positioned := by
  unfold Call.after
  cases hc : c.make g with
  | ok n g' =>
    rw [Attempt.outcome_snd_of_ok hc]
    exact h.grows (hg.coherent.grows_of_ok hc)
  | error f g' =>
    rw [Attempt.outcome_snd_of_error hc]
    cases c with
    | addNode r =>
      rcases addNode_eq_error.mp hc with ⟨-, rfl⟩ | ⟨-, -, rfl⟩
      · exact h
      · exact h.grow _
    | addClamp value name => rwa [addClamp_eq_error hc]
    | connect tail head owner declared => rwa [connect_eq_error hc]

/-- **An interface tells its position**, also in a graph that a call has spoilt. -/
theorem Built.positioned (h : Built g) : g.Positioned := by
  induction h with
  | empty => exact fun hn => nomatch hn
  | addNode hg r ih => exact ih.after hg (.addNode r)
  | addClamp hg value name ih => exact ih.after hg (.addClamp value name)
  | connect hg tail head owner declared ih => exact ih.after hg (.connect tail head owner declared)

/-! ## Numbers, names and lists -/

/-- The numbers, names and lists of a graph. -/
structure Arranged (g : Graph) : Prop where
  /-- The number of an interface is its place. -/
  interface_id : ∀ {i : InterfaceId} {y : Interface}, g.interfaces[i]? = some y → y.id = i
  /-- The number of an edge is its place. -/
  edge_id : ∀ {k : EdgeId} {x : Edge}, g.edges[k]? = some x → x.id = k
  /-- A node has interfaces, and their numbers follow each other. -/
  consecutive : ∀ x ∈ g.nodes, ∃ first size, x.interfaces = List.range' first (size + 1)
  /-- The nodes in order list all interfaces in order, each of them once. -/
  partition : g.nodes.flatMap (·.interfaces) = List.range g.interfaces.length
  /-- An interface tells its node and its position there. -/
  position : ∀ {n : NodeId} {x : Node} {p : Nat} {i : InterfaceId}, g.nodes[n]? = some x →
    x.interfaces[p]? = some i → ∃ y, g.interfaces[i]? = some y ∧ y.node = n ∧ y.position = p
  /-- A name is listed with the node that has the name. -/
  names : ∀ {s : String} {n : NodeId},
    g.names.get? s = some n ↔ ∃ x, g.nodes[n]? = some x ∧ x.name = s
  /-- The edges of a variable are listed once each, oldest first. -/
  ascending : ∀ v, (g.edgesOf v).Pairwise (· < ·)

theorem arranged_empty : Arranged ∅ where
  interface_id h := nomatch h
  edge_id h := nomatch h
  consecutive := nofun
  partition := rfl
  position h := nomatch h
  names := by
    intro s n
    exact ⟨fun h => (nomatch h), fun ⟨_, h, _⟩ => (nomatch h)⟩
  ascending _ := List.Pairwise.nil

theorem Arranged.withNode (hg : g.Arranged) (hname : g.checkedName r = .ok name) :
    (g.withNode r name observed).Arranged where
  interface_id {i y} h := by
    change (g.interfaces ++ g.freshInterfaces r)[i]? = some y at h
    rw [List.getElem?_append] at h
    split at h
    · exact hg.interface_id h
    · rename_i hge
      exact (getElem?_freshInterfaces h).1.trans (Nat.add_sub_of_le (Nat.le_of_not_lt hge))
  edge_id h := hg.edge_id h
  consecutive x hx := by
    rcases List.mem_append.mp hx with hx | hx
    · exact hg.consecutive x hx
    · have hpos := (checkedName_eq_ok.mp hname).1
      refine ⟨g.interfaces.length, r.interfaces.toNat - 1, ?_⟩
      rw [List.mem_singleton.mp hx, interfaces_freshNode]
      congr 1
      omega
  partition := by
    change (g.nodes ++ [g.freshNode r name observed]).flatMap (·.interfaces) =
      List.range (g.interfaces ++ g.freshInterfaces r).length
    rw [List.flatMap_append, List.flatMap_singleton, hg.partition, interfaces_freshNode,
      List.length_append, length_freshInterfaces, List.range_add, List.range'_eq_map_range]
  position := Positioned.withNode hg.position
  names {s n} := by
    have hfree := (checkedName_eq_ok.mp hname).2.2.1
    change (g.names.insert name g.nodes.length).get? s = some n ↔
      ∃ x, (g.nodes ++ [g.freshNode r name observed])[n]? = some x ∧ x.name = s
    rw [Table.get?_insert]
    constructor
    · intro h
      split at h
      · rename_i hs
        cases h
        exact ⟨_, List.getElem?_concat_length, hs⟩
      · obtain ⟨x, hx, hs⟩ := hg.names.mp h
        exact ⟨x, getElem?_append_of_some hx, hs⟩
    · rintro ⟨x, hx, rfl⟩
      rcases getElem?_append_singleton hx with hx | ⟨rfl, rfl⟩
      · -- a name in use is not given again
        have hget := hg.names.mpr ⟨x, hx, rfl⟩
        have hne : name ≠ x.name := by
          rintro rfl
          simp [Table.contains, hget] at hfree
        rwa [if_neg hne]
      · exact if_pos rfl
  ascending := hg.ascending

section Joined

variable {t : InterfaceId} {o : Option InterfaceId} {y : Interface} {owner : String}
  {declared : Option TypeTerm}

/-- A join leaves every interface at its place. -/
theorem of_getElem?_join_place (hne : o ≠ some t) {i : InterfaceId} {z : Interface}
    (h : (g.join t o owner declared).interfaces[i]? = some z) :
    ∃ y, g.interfaces[i]? = some y ∧ z.id = y.id := by
  rw [getElem?_join hne] at h
  obtain ⟨y, hy, rfl⟩ := Option.map_eq_some_iff.mp h
  refine ⟨y, hy, ?_⟩
  split
  · rfl
  · split <;> rfl

theorem length_interfaces_join :
    (g.join t o owner declared).interfaces.length = g.interfaces.length := by
  cases o <;> simp [join]

theorem Arranged.join (hg : g.Arranged) (hc : g.Coherent) (hne : o ≠ some t) :
    (g.join t o owner declared).Arranged where
  interface_id h := by
    obtain ⟨y, hy, hid⟩ := of_getElem?_join_place hne h
    exact hid.trans (hg.interface_id hy)
  edge_id h := by
    rcases getElem?_append_singleton h with h | ⟨rfl, rfl⟩
    · exact hg.edge_id h
    · rfl
  consecutive := hg.consecutive
  partition := by
    rw [length_interfaces_join]
    exact hg.partition
  position := Positioned.join hg.position hne
  names := hg.names
  ascending v := by
    rw [edgesOf_join]
    split
    · -- the new edge has a greater number than those that there are
      refine List.pairwise_append.mpr ⟨hg.ascending v, List.pairwise_singleton _ _, ?_⟩
      intro e he e' he'
      obtain ⟨x, hx, -⟩ := hc.owner he
      rw [List.mem_singleton.mp he']
      exact (List.getElem?_eq_some_iff.mp hx).1
    · exact hg.ascending v

end Joined

theorem Arranged.grows (hg : g.Arranged) (hc : g.Coherent) (h : g.Grows g') : g'.Arranged := by
  cases h with
  | node hname observed => exact hg.withNode hname
  | edge ht hy ho owner declared => exact hg.join hc (ne_of_free ht ho)

theorem Unspoilt.arranged (h : Unspoilt g) : g.Arranged :=
  h.induct arranged_empty fun _ _ hg harranged hgrows => harranged.grows hg.coherent hgrows

/-- Every interface is listed by its node. -/
theorem Arranged.listed (h : g.Arranged) {i : InterfaceId} {n : NodeId}
    (hi : g.nodeIdOf? i = some n) : i ∈ g.interfacesOf n := by
  obtain ⟨y, hy, rfl⟩ := Option.map_eq_some_iff.mp hi
  have hlt := (List.getElem?_eq_some_iff.mp hy).1
  have hmem : i ∈ g.nodes.flatMap (·.interfaces) := by
    rw [h.partition]
    exact List.mem_range.mpr hlt
  obtain ⟨x, hx, hix⟩ := List.mem_flatMap.mp hmem
  obtain ⟨m, hm⟩ := List.mem_iff_getElem?.mp hx
  obtain ⟨p, hp⟩ := List.mem_iff_getElem?.mp hix
  obtain ⟨z, hz, hnode, -⟩ := h.position hm hp
  cases hy.symm.trans hz
  rw [hnode, interfacesOf, hm]
  exact hix

/-! ## What the tables say about each other -/

/-- The tables of a graph agree. -/
structure Represented (g : Graph) : Prop extends Arranged g where
  /-- The number of a node is its place. -/
  node_id : ∀ {n : NodeId} {x : Node}, g.nodes[n]? = some x → x.id = n
  /-- The ends of an edge exist. -/
  ends : ∀ {k : EdgeId} {x : Edge}, g.edges[k]? = some x → ∀ i ∈ x.ends, i < g.interfaces.length
  /-- An interface has an edge just when it is the tail or the head of the edge. -/
  edge_iff : ∀ {i : InterfaceId} {y : Interface} {k : EdgeId}, g.interfaces[i]? = some y →
    (y.edge = some k ↔ ∃ x, g.edges[k]? = some x ∧ (x.tail = i ∨ x.head = some i))
  /-- Two interfaces are partners just when they are the tail and the head of an edge. -/
  partner_iff : ∀ {i j : InterfaceId} {y : Interface}, g.interfaces[i]? = some y →
    (y.partner = some j ↔
      ∃ x ∈ g.edges, x.tail = i ∧ x.head = some j ∨ x.tail = j ∧ x.head = some i)
  /-- No edge joins two interfaces of one node. -/
  apart : ∀ x ∈ g.edges, ∀ h, x.head = some h → g.nodeIdOf? h ≠ g.nodeIdOf? x.tail
  /-- A variable lists the edges that belong to it. -/
  mem_edgesOf : ∀ {v : String} {k : EdgeId},
    k ∈ g.edgesOf v ↔ ∃ x, g.edges[k]? = some x ∧ x.owner = v
  /-- A variable has an edge. -/
  edgesOf_ne_nil : ∀ v, g.variableEdges.contains v = true → g.edgesOf v ≠ []

theorem Edge.mem_ends {x : Edge} {i : InterfaceId} :
    i ∈ x.ends ↔ x.tail = i ∨ x.head = some i := by
  unfold Edge.ends
  rw [List.mem_cons, Option.mem_toList, eq_comm]

theorem Coherent.edge_iff (hg : g.Coherent) {i : InterfaceId} {y : Interface} {k : EdgeId}
    (hy : g.interfaces[i]? = some y) :
    y.edge = some k ↔ ∃ x, g.edges[k]? = some x ∧ (x.tail = i ∨ x.head = some i) := by
  constructor
  · intro he
    obtain ⟨x, hx, hmem⟩ := hg.bound hy he
    exact ⟨x, hx, Edge.mem_ends.mp hmem⟩
  · rintro ⟨x, hx, rfl | hh⟩
    · obtain ⟨z, hz, he, -⟩ := hg.tail hx
      cases hy.symm.trans hz
      exact he
    · obtain ⟨z, hz, he, -⟩ := hg.head hx hh
      cases hy.symm.trans hz
      exact he

theorem Coherent.partner_iff (hg : g.Coherent) {i j : InterfaceId} {y : Interface}
    (hy : g.interfaces[i]? = some y) : y.partner = some j ↔
      ∃ x ∈ g.edges, x.tail = i ∧ x.head = some j ∨ x.tail = j ∧ x.head = some i := by
  constructor
  · intro hp
    have hpartner : g.partner? i = some j := by rw [partner?, hy, Option.bind_some, hp]
    obtain ⟨e, x, -, hx, h⟩ := hg.exists_of_partner hpartner
    exact ⟨x, List.mem_of_getElem? hx, h⟩
  · rintro ⟨x, hx, h⟩
    obtain ⟨k, hk⟩ := List.mem_iff_getElem?.mp hx
    rcases h with ⟨rfl, hh⟩ | ⟨rfl, hh⟩
    · obtain ⟨z, hz, -, hp⟩ := hg.tail hk
      cases hy.symm.trans hz
      exact hp.trans hh
    · obtain ⟨z, hz, -, hp⟩ := hg.head hk hh
      cases hy.symm.trans hz
      exact hp

/-- **The tables of a graph agree, if no call has spoilt it.** -/
theorem Unspoilt.represented (h : Unspoilt g) : g.Represented where
  toArranged := h.arranged
  node_id := h.built.coherent.node_id
  ends hk i hi := by
    rcases Edge.mem_ends.mp hi with rfl | hh
    · obtain ⟨z, hz, -⟩ := h.built.coherent.tail hk
      exact (List.getElem?_eq_some_iff.mp hz).1
    · obtain ⟨z, hz, -⟩ := h.built.coherent.head hk hh
      exact (List.getElem?_eq_some_iff.mp hz).1
  edge_iff := h.built.coherent.edge_iff
  partner_iff := h.built.coherent.partner_iff
  apart x hx j hj := by
    obtain ⟨k, hk⟩ := List.mem_iff_getElem?.mp hx
    exact h.built.coherent.nodes_ne hk hj
  mem_edgesOf {v k} := by
    constructor
    · exact h.built.coherent.owner
    · rintro ⟨x, hx, rfl⟩
      exact h.built.coherent.owned hx
  edgesOf_ne_nil v hv := by
    obtain ⟨e, he⟩ := h.built.exists_edge hv
    exact List.ne_nil_of_mem he

theorem not_spoils_of_none (h : r.value = none) : ¬Call.Spoils g (.addNode r) := by
  rintro ⟨-, f, hf⟩
  rw [h] at hf
  contradiction

/-- An equality, an observed value and two edges of one variable: the first joins a free interface
of the equality to the last one of the observed node, the second dangles. The last call fails. -/
def observedStar : Graph :=
  let n : NodeRequest :=
    { kind := "equality", interfaces := 3, name := some "e", symmetric := true }
  let g := Call.after (.addNode n) ∅
  let g := Call.after (.addClamp (.num (.whole 1)) (some "o")) g
  let g := Call.after (.connect (.anyFree (-2)) (some (.named "o" (-1))) (some "x") none) g
  let g := Call.after (.connect (.anyFree 0) none (some "x") none) g
  Call.after (.connect (.numbered 0) none (some "y") none) g

theorem represented_observedStar :
    observedStar.Represented ∧ observedStar.edgesOf "x" = [0, 1] ∧ observedStar.edgesOf "y" = [] :=
  ⟨Unspoilt.represented <| .call (.call (.call (.call (.call .empty _ (not_spoils_of_none rfl))
    _ id) _ id) _ id) _ id, rfl, rfl⟩

end MessagePassing.Graph
