import MessagePassing.Graph.Build
import MessagePassing.Graph.Incidence
import MessagePassing.Proofs.Outcome

/-!
# What holds of every graph that is built

A graph grows by calls that add a node, add an observed value or join two interfaces. A call may
fail, and one that is refused a ragged value leaves interfaces without a node behind. `Built` takes
in all of these graphs.

Results:
* **`Built.coherent`**: in every graph that is built, numbers are places, the ends of an edge point
  at the edge and at each other, and the edges of a variable are those that it owns.
* `Built.exists_edge`: a variable is there only with an edge.
* `Built.nodup_edgesAt`: an edge meets a node at one interface only.
* `Clamped.observedAtOnePlace`: if observed nodes are added as clamps, each has one interface.
* `Coherent.partner_symm`, `Coherent.node_ne_of_partner`: being at the other end of an edge is
  symmetric, and the other end belongs to another node.
-/

namespace MessagePassing

namespace Graph

/-- The graphs that calls lead to, whether they succeed or fail. -/
inductive Built : Graph → Prop
  | empty : Built ∅
  | addNode {g : Graph} (hg : Built g) (r : NodeRequest) : Built ((Graph.addNode r).outcome g).2
  | addClamp {g : Graph} (hg : Built g) (value : Nested) (name : Option String) :
      Built ((Graph.addClamp value name).outcome g).2
  | connect {g : Graph} (hg : Built g) (tail : InterfaceRef) (head : Option InterfaceRef)
      (owner : Option String) (declared : Option TypeTerm) :
      Built ((Graph.connect tail head owner declared).outcome g).2

/-- Numbers are places, and the references between nodes, interfaces, edges and variables agree. -/
structure Coherent (g : Graph) : Prop where
  node_id : ∀ {n : NodeId} {x : Node}, g.nodes[n]? = some x → x.id = n
  interface_of_node : ∀ {n : NodeId} {x : Node} {i : InterfaceId}, g.nodes[n]? = some x →
    i ∈ x.interfaces → ∃ y, g.interfaces[i]? = some y ∧ y.node = n
  tail : ∀ {e : EdgeId} {x : Edge}, g.edges[e]? = some x →
    ∃ y, g.interfaces[x.tail]? = some y ∧ y.edge = some e ∧ y.partner = x.head
  head : ∀ {e : EdgeId} {x : Edge} {h : InterfaceId}, g.edges[e]? = some x → x.head = some h →
    ∃ y, g.interfaces[h]? = some y ∧ y.edge = some e ∧ y.partner = some x.tail
  nodes_ne : ∀ {e : EdgeId} {x : Edge} {h : InterfaceId}, g.edges[e]? = some x →
    x.head = some h → g.nodeIdOf? h ≠ g.nodeIdOf? x.tail
  bound : ∀ {i : InterfaceId} {y : Interface} {e : EdgeId}, g.interfaces[i]? = some y →
    y.edge = some e → ∃ x, g.edges[e]? = some x ∧ i ∈ x.ends
  free : ∀ {i : InterfaceId} {y : Interface}, g.interfaces[i]? = some y → y.edge = none →
    y.partner = none
  owned : ∀ {e : EdgeId} {x : Edge}, g.edges[e]? = some x → e ∈ g.edgesOf x.owner
  owner : ∀ {v : String} {e : EdgeId}, e ∈ g.edgesOf v → ∃ x, g.edges[e]? = some x ∧ x.owner = v

/-! ## Fresh interfaces and nodes -/

theorem getElem?_append_of_some {α : Type} {l l' : List α} {i : Nat} {a : α}
    (h : l[i]? = some a) : (l ++ l')[i]? = some a := by
  rw [List.getElem?_append_left (List.getElem?_eq_some_iff.mp h).1]
  exact h

theorem getElem?_append_singleton {α : Type} {l : List α} {i : Nat} {a b : α}
    (h : (l ++ [a])[i]? = some b) : l[i]? = some b ∨ i = l.length ∧ a = b := by
  rw [List.getElem?_append] at h
  split at h
  · exact Or.inl h
  · rw [List.getElem?_singleton] at h
    split at h
    · exact Or.inr ⟨by omega, Option.some.inj h⟩
    · contradiction

variable {g : Graph}

theorem nodeIdOf?_of_some {i : InterfaceId} {y : Interface} (h : g.interfaces[i]? = some y) :
    g.nodeIdOf? i = some y.node := by
  unfold nodeIdOf?
  rw [h, Option.map_some]

/-- The graph with further interfaces. -/
def grow (g : Graph) (l : List Interface) : Graph :=
  { g with interfaces := g.interfaces ++ l }

/-- Interfaces without an edge may be added. -/
theorem Coherent.grow (hg : g.Coherent) {l : List Interface}
    (hl : ∀ y ∈ l, y.edge = none ∧ y.partner = none) : (g.grow l).Coherent := by
  have old : ∀ {i : InterfaceId} {y}, g.interfaces[i]? = some y →
      (g.grow l).interfaces[i]? = some y := fun h =>
    getElem?_append_of_some h
  have split : ∀ {i : InterfaceId} {y}, (g.grow l).interfaces[i]? = some y →
      g.interfaces[i]? = some y ∨ y ∈ l := by
    intro i y h
    unfold Graph.grow at h
    rw [List.getElem?_append] at h
    split at h
    · exact Or.inl h
    · exact Or.inr (List.mem_of_getElem? h)
  refine ⟨hg.node_id, fun hn hi => ?_, fun he => ?_, fun he hh => ?_, fun he hh => ?_,
    fun hi hy => ?_, fun hi hy => ?_, hg.owned, hg.owner⟩
  · obtain ⟨y, hy, hn⟩ := hg.interface_of_node hn hi
    exact ⟨y, old hy, hn⟩
  · obtain ⟨y, hy, h⟩ := hg.tail he
    exact ⟨y, old hy, h⟩
  · obtain ⟨y, hy, h⟩ := hg.head he hh
    exact ⟨y, old hy, h⟩
  · obtain ⟨y, hy, -⟩ := hg.tail he
    obtain ⟨z, hz, -⟩ := hg.head he hh
    have := hg.nodes_ne he hh
    rw [nodeIdOf?_of_some hy, nodeIdOf?_of_some hz] at this
    rwa [nodeIdOf?_of_some (old hy), nodeIdOf?_of_some (old hz)]
  · rcases split hi with hi | hi
    · exact hg.bound hi hy
    · rw [(hl _ hi).1] at hy
      contradiction
  · rcases split hi with hi | hi
    · exact hg.free hi hy
    · exact (hl _ hi).2

/-- A node may be added that owns interfaces made for it. -/
theorem Coherent.addNode (hg : g.Coherent) {x : Node} {names : Table String NodeId}
    (hx : x.id = g.nodes.length)
    (hi : ∀ i ∈ x.interfaces, ∃ y, g.interfaces[i]? = some y ∧ y.node = g.nodes.length) :
    Coherent { g with nodes := g.nodes ++ [x], names } where
  node_id h := by
    rcases getElem?_append_singleton h with h | ⟨rfl, rfl⟩
    · exact hg.node_id h
    · exact hx
  interface_of_node h hmem := by
    rcases getElem?_append_singleton h with h | ⟨rfl, rfl⟩
    · exact hg.interface_of_node h hmem
    · exact hi _ hmem
  tail := hg.tail
  head := hg.head
  nodes_ne := hg.nodes_ne
  bound := hg.bound
  free := hg.free
  owned := hg.owned
  owner := hg.owner

theorem free_of_mem_freshInterfaces {r : NodeRequest} {y : Interface}
    (h : y ∈ g.freshInterfaces r) : y.edge = none ∧ y.partner = none := by
  obtain ⟨p, -, rfl⟩ := List.mem_map.mp h
  exact ⟨rfl, rfl⟩

/-- The interfaces that are made for a node stand at the places that it lists. -/
theorem getElem?_of_mem_freshNode {r : NodeRequest} {name : String} {observed : Option Tensor}
    {i : InterfaceId} (h : i ∈ (g.freshNode r name observed).interfaces) :
    ∃ y, (g.grow (g.freshInterfaces r)).interfaces[i]? = some y ∧ y.node = g.nodes.length := by
  obtain ⟨y, hy, rfl⟩ := List.mem_map.mp h
  obtain ⟨p, hp, rfl⟩ := List.mem_map.mp hy
  have hget : (g.freshInterfaces r)[p]? = some
      { id := g.interfaces.length + p, node := g.nodes.length, position := p
        handle := r.handles.bind (·[p]?) } := by
    rw [freshInterfaces, List.getElem?_map, List.getElem?_range (List.mem_range.mp hp)]
    rfl
  unfold Graph.grow
  rw [List.getElem?_append_right (Nat.le_add_right _ _), Nat.add_sub_cancel_left, hget]
  exact ⟨_, rfl, rfl⟩

theorem coherent_addNode (hg : g.Coherent) (r : NodeRequest) :
    ((Graph.addNode r).outcome g).2.Coherent := by
  have hgrow := hg.grow (l := g.freshInterfaces r) fun y hy => free_of_mem_freshInterfaces hy
  unfold Attempt.outcome Graph.addNode
  cases g.checkedName r with
  | error f => exact hg
  | ok name =>
    cases r.value.mapM Tensor.ofNested with
    | error f => exact hgrow
    | ok observed =>
      exact hgrow.addNode (x := g.freshNode r name observed) rfl
        fun i hi => getElem?_of_mem_freshNode hi

theorem coherent_addClamp (hg : g.Coherent) (value : Nested) (name : Option String) :
    ((Graph.addClamp value name).outcome g).2.Coherent := by
  unfold Attempt.outcome Graph.addClamp
  cases h : Tensor.ofNested value with
  | error f => exact hg
  | ok t => exact coherent_addNode hg _

/-! ## Joined interfaces -/

theorem mem_of_entryAtOffset {α : Type} {l : List α} {i : Int} {a : α}
    (h : entryAtOffset l i = .ok a) : a ∈ l := by
  have at_ : ∀ k, entryAt l k = .ok a → a ∈ l := by
    intro k hk
    unfold entryAt at hk
    split at hk
    · rename_i b hb
      cases hk
      exact List.mem_of_getElem? hb
    · contradiction
  unfold entryAtOffset at h
  split at h
  · exact at_ _ h
  · split at h
    · exact at_ _ h
    · contradiction

theorem node_eq_ok {n : NodeId} {x : Node} : g.node n = .ok x ↔ g.nodes[n]? = some x := by
  unfold node entryAt
  cases g.nodes[n]? <;> simp

theorem edge_eq_ok {e : EdgeId} {x : Edge} : g.edge e = .ok x ↔ g.edges[e]? = some x := by
  unfold edge entryAt
  cases g.edges[e]? <;> simp

theorem nodeOf_eq_ok {i : InterfaceId} {x : Node} : g.nodeOf i = .ok x ↔ g.nodeOf? i = some x := by
  unfold nodeOf
  cases g.nodeOf? i <;> simp

/-- A caller can only refer to an interface that exists. -/
theorem Coherent.exists_of_locate (hg : g.Coherent) {r : InterfaceRef} {i : InterfaceId}
    (h : g.locate r = .ok i) : ∃ y, g.interfaces[i]? = some y := by
  have owned : ∀ {x : Node}, x ∈ g.nodes → i ∈ x.interfaces → ∃ y, g.interfaces[i]? = some y := by
    intro x hx hi
    obtain ⟨n, hn⟩ := List.mem_iff_getElem?.mp hx
    exact (hg.interface_of_node hn hi).imp fun _ h => h.1
  cases r with
  | numbered k =>
    simp only [locate] at h
    split at h
    · cases h
      exact ⟨_, List.getElem?_eq_getElem (by omega)⟩
    · contradiction
  | anyFree n =>
    obtain ⟨x, hn, h⟩ := bind_eq_ok.mp (show g.firstFree n = .ok i from h)
    cases hs : x.symmetric with
    | false => rw [hs] at h; contradiction
    | true =>
      rw [hs] at h
      simp only [Bool.not_true, Bool.false_eq_true, if_false] at h
      split at h
      · rename_i j hj
        obtain rfl : j = i := pure_eq_ok.mp h
        exact owned (mem_of_entryAtOffset hn) (List.mem_of_find?_eq_some hj)
      · contradiction
  | named name k =>
    obtain ⟨x, hn, h⟩ := bind_eq_ok.mp h
    unfold nodeNamed at hn
    split at hn
    · exact owned (List.mem_of_getElem? (node_eq_ok.mp hn)) (mem_of_entryAtOffset h)
    · contradiction

/-- Ends that may be joined are free and belong to different nodes. -/
theorem of_checkJoin {t : InterfaceId} {o : Option InterfaceId} (h : g.checkJoin t o = .ok ()) :
    g.edgeAt? t = none ∧ ∀ j, o = some j → g.edgeAt? j = none ∧ g.nodeIdOf? j ≠ g.nodeIdOf? t := by
  unfold checkJoin at h
  dsimp only at h
  split at h
  · obtain ⟨_, _, h⟩ := bind_eq_ok.mp h
    contradiction
  · rename_i hne
    split at h
    · contradiction
    · rename_i hfree
      simp only [Bool.or_eq_true, Option.isSome_iff_ne_none, not_or, not_not] at hfree
      refine ⟨hfree.1, fun j hj => ?_⟩
      subst hj
      simpa using And.intro hfree.2 hne

/-- What a join makes of the interfaces. -/
theorem getElem?_join {t : InterfaceId} {o : Option InterfaceId} {owner : String}
    {declared : Option TypeTerm} (hne : o ≠ some t) (i : InterfaceId) :
    (g.join t o owner declared).interfaces[i]? = (g.interfaces[i]?).map fun y =>
      if i = t then { y with edge := some g.edges.length, partner := o }
      else if o = some i then { y with edge := some g.edges.length, partner := some t }
      else y := by
  cases o with
  | none =>
    simp only [join, List.getElem?_modify, reduceCtorEq, if_false]
    by_cases h : i = t
    · simp [h]
    · simp [h, Ne.symm h]
  | some j =>
    have hjt : j ≠ t := fun h => hne (h ▸ rfl)
    simp only [join, List.getElem?_modify, Option.some.injEq]
    by_cases h : i = t
    · subst h
      simp [hjt]
    · by_cases hj : j = i
      · subst hj
        simp [h, Ne.symm h]
      · simp [h, Ne.symm h, hj]

section Joined

variable {t : InterfaceId} {o : Option InterfaceId} {owner : String} {declared : Option TypeTerm}

theorem getElem?_join_tail (hne : o ≠ some t) {y : Interface} (h : g.interfaces[t]? = some y) :
    (g.join t o owner declared).interfaces[t]? =
      some { y with edge := some g.edges.length, partner := o } := by
  rw [getElem?_join hne, h, Option.map_some, if_pos rfl]

theorem getElem?_join_head (hne : o ≠ some t) {j : InterfaceId} {y : Interface} (hj : o = some j)
    (h : g.interfaces[j]? = some y) :
    (g.join t o owner declared).interfaces[j]? =
      some { y with edge := some g.edges.length, partner := some t } := by
  have hjt : j ≠ t := fun h => hne (h ▸ hj)
  rw [getElem?_join hne, h, Option.map_some, if_neg hjt, if_pos hj]

/-- A join leaves every interface to its node. -/
theorem nodeIdOf?_join (hne : o ≠ some t) (i : InterfaceId) :
    (g.join t o owner declared).nodeIdOf? i = g.nodeIdOf? i := by
  unfold nodeIdOf?
  rw [getElem?_join hne, Option.map_map]
  congr 1
  funext y
  rw [Function.comp_apply]
  split
  · rfl
  · split <;> rfl

theorem edgesOf_join (v : String) :
    (g.join t o owner declared).edgesOf v =
      if owner = v then g.edgesOf v ++ [g.edges.length] else g.edgesOf v := by
  unfold edgesOf join
  rw [Table.get?_insert]
  split
  · rename_i h
    subst h
    rfl
  · rfl

/-- An interface of a joined graph is an end of the new edge, or it is as it was. -/
theorem of_getElem?_join (hne : o ≠ some t) {i : InterfaceId} {z : Interface}
    (h : (g.join t o owner declared).interfaces[i]? = some z) :
    (i = t ∨ o = some i) ∧ z.edge = some g.edges.length ∨ g.interfaces[i]? = some z := by
  rw [getElem?_join hne] at h
  obtain ⟨w, hw, rfl⟩ := Option.map_eq_some_iff.mp h
  split
  · rename_i hit
    exact Or.inl ⟨Or.inl hit, rfl⟩
  · split
    · rename_i hio
      exact Or.inl ⟨Or.inr hio, rfl⟩
    · exact Or.inr hw

/-- The two ends of a new edge differ, if they are of different nodes. -/
theorem ne_of_free {y : Interface} (ht : g.interfaces[t]? = some y)
    (ho : ∀ j, o = some j → ∃ z, g.interfaces[j]? = some z ∧ z.edge = none ∧ z.node ≠ y.node) :
    o ≠ some t := by
  intro h
  obtain ⟨z, hz, -, hn⟩ := ho t h
  rw [ht] at hz
  cases hz
  exact hn rfl

/-- An interface that is bound before is no end of the new edge. -/
theorem getElem?_join_of_bound {y : Interface} (ht : g.interfaces[t]? = some y)
    (hy : y.edge = none)
    (ho : ∀ j, o = some j → ∃ z, g.interfaces[j]? = some z ∧ z.edge = none ∧ z.node ≠ y.node)
    {i : InterfaceId} {z : Interface} {e : EdgeId} (hz : g.interfaces[i]? = some z)
    (he : z.edge = some e) : (g.join t o owner declared).interfaces[i]? = some z := by
  have hit : i ≠ t := by
    rintro rfl
    cases ht.symm.trans hz
    rw [hy] at he
    contradiction
  have hio : o ≠ some i := by
    intro hj
    obtain ⟨w, hw, hwe, -⟩ := ho i hj
    cases hw.symm.trans hz
    rw [hwe] at he
    contradiction
  rw [getElem?_join (ne_of_free ht ho), hz, Option.map_some, if_neg hit, if_neg hio]

/-- Free interfaces of different nodes may be joined. -/
theorem Coherent.join (hg : g.Coherent) {y : Interface} (ht : g.interfaces[t]? = some y)
    (hy : y.edge = none)
    (ho : ∀ j, o = some j → ∃ z, g.interfaces[j]? = some z ∧ z.edge = none ∧ z.node ≠ y.node) :
    (g.join t o owner declared).Coherent := by
  have hne := ne_of_free ht ho
  have new_edge : (g.join t o owner declared).edges[g.edges.length]? =
      some ⟨g.edges.length, t, o, owner, declared⟩ := by
    simp [Graph.join]
  have old_edge : ∀ {e : EdgeId} {x}, g.edges[e]? = some x →
      (g.join t o owner declared).edges[e]? = some x := fun h => getElem?_append_of_some h
  refine ⟨hg.node_id, fun {n x i} hn hi => ?_, fun he => ?_, fun he hh => ?_,
    fun he hh => ?_, fun {i z e} hi hz => ?_, fun {i z} hi hz => ?_, fun {e x} he => ?_,
    fun {v e} he => ?_⟩
  · obtain ⟨z, hz, hn⟩ := hg.interface_of_node hn hi
    have hid : (g.join t o owner declared).nodeIdOf? i = g.nodeIdOf? i := nodeIdOf?_join hne i
    rw [nodeIdOf?_of_some hz, nodeIdOf?, Option.map_eq_some_iff] at hid
    obtain ⟨w, hw, hwz⟩ := hid
    exact ⟨w, hw, hwz.trans hn⟩
  · rcases getElem?_append_singleton he with he | ⟨rfl, rfl⟩
    · obtain ⟨z, hz, hze, hp⟩ := hg.tail he
      exact ⟨z, getElem?_join_of_bound ht hy ho hz hze, hze, hp⟩
    · exact ⟨_, getElem?_join_tail hne ht, rfl, rfl⟩
  · rcases getElem?_append_singleton he with he | ⟨rfl, rfl⟩
    · obtain ⟨z, hz, hze, hp⟩ := hg.head he hh
      exact ⟨z, getElem?_join_of_bound ht hy ho hz hze, hze, hp⟩
    · obtain ⟨z, hz, -⟩ := ho _ hh
      exact ⟨_, getElem?_join_head hne hh hz, rfl, rfl⟩
  · rw [nodeIdOf?_join hne, nodeIdOf?_join hne]
    rcases getElem?_append_singleton he with he | ⟨rfl, rfl⟩
    · exact hg.nodes_ne he hh
    · obtain ⟨z, hz, -, hn⟩ := ho _ hh
      rw [nodeIdOf?_of_some hz, nodeIdOf?_of_some ht]
      simpa using hn
  · rcases of_getElem?_join hne hi with ⟨hend, hedge⟩ | hi
    · cases hz.symm.trans hedge
      refine ⟨_, new_edge, ?_⟩
      rcases hend with rfl | hio
      · exact List.mem_cons_self
      · refine List.mem_cons_of_mem _ ?_
        rw [hio]
        exact List.mem_singleton_self i
    · obtain ⟨x, hx, hmem⟩ := hg.bound hi hz
      exact ⟨x, old_edge hx, hmem⟩
  · rcases of_getElem?_join hne hi with ⟨-, hedge⟩ | hi
    · cases hz.symm.trans hedge
    · exact hg.free hi hz
  · rw [edgesOf_join]
    rcases getElem?_append_singleton he with he | ⟨rfl, rfl⟩
    · split
      · exact List.mem_append_left _ (hg.owned he)
      · exact hg.owned he
    · rw [if_pos rfl]
      exact List.mem_append_right _ (List.mem_singleton_self _)
  · rw [edgesOf_join] at he
    split at he
    · rename_i hv
      rcases List.mem_append.mp he with he | he
      · obtain ⟨x, hx, hxv⟩ := hg.owner he
        exact ⟨x, old_edge hx, hxv⟩
      · rw [List.mem_singleton.mp he]
        exact ⟨_, new_edge, hv⟩
    · obtain ⟨x, hx, hxv⟩ := hg.owner he
      exact ⟨x, old_edge hx, hxv⟩

end Joined

/-- The ends that an edge is asked to join exist, are free and belong to different nodes. -/
theorem Coherent.of_joinedEnds (hg : g.Coherent) {tail : InterfaceRef} {head : Option InterfaceRef}
    {t : InterfaceId} {o : Option InterfaceId} (h : g.joinedEnds tail head = .ok (t, o)) :
    ∃ y, g.interfaces[t]? = some y ∧ y.edge = none ∧
      ∀ j, o = some j → ∃ z, g.interfaces[j]? = some z ∧ z.edge = none ∧ z.node ≠ y.node := by
  obtain ⟨t', ht, h⟩ := bind_eq_ok.mp h
  obtain ⟨o', ho, h⟩ := bind_eq_ok.mp h
  obtain ⟨_, hc, h⟩ := bind_eq_ok.mp h
  cases pure_eq_ok.mp h
  obtain ⟨hfree, hhead⟩ := of_checkJoin hc
  obtain ⟨y, hy⟩ := hg.exists_of_locate ht
  have edge_of : ∀ {i : InterfaceId} {z}, g.interfaces[i]? = some z → g.edgeAt? i = z.edge :=
    fun h => by rw [edgeAt?, h, Option.bind_some]
  refine ⟨y, hy, (edge_of hy).symm.trans hfree, fun j hjo => ?_⟩
  have hz : ∃ z, g.interfaces[j]? = some z := by
    cases head with
    | none => cases pure_eq_ok.mp ho; contradiction
    | some r =>
      obtain ⟨k, hk, ho⟩ := bind_eq_ok.mp ho
      cases pure_eq_ok.mp ho
      cases hjo
      exact hg.exists_of_locate hk
  obtain ⟨z, hz⟩ := hz
  obtain ⟨hfree', hn⟩ := hhead j hjo
  rw [nodeIdOf?_of_some hz, nodeIdOf?_of_some hy] at hn
  exact ⟨z, hz, (edge_of hz).symm.trans hfree', fun h => hn (congrArg some h)⟩

theorem coherent_connect (hg : g.Coherent) (tail : InterfaceRef) (head : Option InterfaceRef)
    (owner : Option String) (declared : Option TypeTerm) :
    ((Graph.connect tail head owner declared).outcome g).2.Coherent := by
  unfold Attempt.outcome Graph.connect
  cases hj : g.joinedEnds tail head with
  | error f => exact hg
  | ok ends =>
    obtain ⟨y, ht, hy, ho⟩ := hg.of_joinedEnds hj
    exact hg.join ht hy ho

/-! ## Every graph that is built -/

theorem coherent_empty : Coherent ∅ where
  node_id h := nomatch h
  interface_of_node h := nomatch h
  tail h := nomatch h
  head h := nomatch h
  nodes_ne h := nomatch h
  bound h := nomatch h
  free h := nomatch h
  owned h := nomatch h
  owner h := nomatch h

/-- **Every graph that is built is coherent.** -/
theorem Built.coherent (h : Built g) : g.Coherent := by
  induction h with
  | empty => exact coherent_empty
  | addNode _ r ih => exact coherent_addNode ih r
  | addClamp _ value name ih => exact coherent_addClamp ih value name
  | connect _ tail head owner declared ih => exact coherent_connect ih tail head owner declared

theorem variableEdges_addNode (g : Graph) (r : NodeRequest) :
    ((Graph.addNode r).outcome g).2.variableEdges = g.variableEdges := by
  unfold Attempt.outcome Graph.addNode
  cases g.checkedName r with
  | error f => rfl
  | ok name => cases r.value.mapM Tensor.ofNested <;> rfl

theorem variableEdges_addClamp (g : Graph) (value : Nested) (name : Option String) :
    ((Graph.addClamp value name).outcome g).2.variableEdges = g.variableEdges := by
  unfold Attempt.outcome Graph.addClamp
  cases h : Tensor.ofNested value with
  | error f => rfl
  | ok t => exact variableEdges_addNode g _

/-- **Every variable has an edge.** -/
theorem Built.exists_edge {v : String} (h : Built g) (hv : g.variableEdges.contains v = true) :
    ∃ e, e ∈ g.edgesOf v := by
  induction h with
  | empty => contradiction
  | addNode _ r ih =>
    rw [variableEdges_addNode] at hv
    unfold edgesOf
    rw [variableEdges_addNode]
    exact ih hv
  | addClamp _ value name ih =>
    rw [variableEdges_addClamp] at hv
    unfold edgesOf
    rw [variableEdges_addClamp]
    exact ih hv
  | @connect g _ tail head owner declared ih =>
    unfold Attempt.outcome Graph.connect at hv ⊢
    cases hj : g.joinedEnds tail head with
    | error f =>
      rw [hj] at hv
      exact ih hv
    | ok ends =>
      rw [hj] at hv
      dsimp only at hv ⊢
      rw [edgesOf_join]
      split
      · exact ⟨_, List.mem_append_right _ (List.mem_singleton_self _)⟩
      · rename_i hne
        refine ih ?_
        unfold join Table.contains at hv
        rwa [Table.get?_insert, if_neg hne] at hv

namespace Coherent

variable {i j : InterfaceId}

theorem exists_of_partner (hg : g.Coherent) (h : g.partner? i = some j) :
    ∃ e x, g.edgeAt? i = some e ∧ g.edges[e]? = some x ∧
      (x.tail = i ∧ x.head = some j ∨ x.tail = j ∧ x.head = some i) := by
  obtain ⟨y, hy, hp⟩ := Option.bind_eq_some_iff.mp h
  cases he : y.edge with
  | none => rw [hg.free hy he] at hp; contradiction
  | some e =>
    obtain ⟨x, hx, hmem⟩ := hg.bound hy he
    refine ⟨e, x, by rw [edgeAt?, hy, Option.bind_some, he], hx, ?_⟩
    rcases List.mem_cons.mp hmem with rfl | hmem
    · obtain ⟨z, hz, -, hzp⟩ := hg.tail hx
      rw [hy] at hz
      cases hz
      exact Or.inl ⟨rfl, hzp.symm.trans hp⟩
    · have hh : x.head = some i := by simpa using hmem
      obtain ⟨z, hz, -, hzp⟩ := hg.head hx hh
      rw [hy] at hz
      cases hz
      rw [hzp] at hp
      exact Or.inr ⟨Option.some.inj hp, hh⟩

/-- The two ends of an edge know each other. -/
theorem partner_symm (hg : g.Coherent) (h : g.partner? i = some j) : g.partner? j = some i := by
  obtain ⟨e, x, -, hx, ⟨rfl, hh⟩ | ⟨rfl, hh⟩⟩ := hg.exists_of_partner h
  · obtain ⟨z, hz, -, hp⟩ := hg.head hx hh
    rw [partner?, hz, Option.bind_some, hp]
  · obtain ⟨z, hz, -, hp⟩ := hg.tail hx
    rw [partner?, hz, Option.bind_some, hp, hh]

/-- The two ends of an edge have the edge. -/
theorem edgeAt_partner (hg : g.Coherent) (h : g.partner? i = some j) :
    g.edgeAt? j = g.edgeAt? i := by
  obtain ⟨e, x, he, hx, ⟨rfl, hh⟩ | ⟨rfl, hh⟩⟩ := hg.exists_of_partner h
  · obtain ⟨z, hz, hze, -⟩ := hg.head hx hh
    rw [he, edgeAt?, hz, Option.bind_some, hze]
  · obtain ⟨z, hz, hze, -⟩ := hg.tail hx
    rw [he, edgeAt?, hz, Option.bind_some, hze]

/-- The two ends of an edge belong to different nodes. -/
theorem node_ne_of_partner (hg : g.Coherent) (h : g.partner? i = some j) :
    g.nodeIdOf? i ≠ g.nodeIdOf? j := by
  obtain ⟨e, x, -, hx, ⟨rfl, hh⟩ | ⟨rfl, hh⟩⟩ := hg.exists_of_partner h
  · exact (hg.nodes_ne hx hh).symm
  · exact hg.nodes_ne hx hh

end Coherent

/-! ## The edges at a node -/

/-- A call that adds a node leaves the nodes as they are, or it succeeds and adds one with the value
that it was given. -/
theorem nodes_addNode (g : Graph) (r : NodeRequest) :
    ((Graph.addNode r).outcome g).2.nodes = g.nodes ∨
      (∃ n h, Graph.addNode r g = .ok n h) ∧ ∃ name observed,
        r.value.mapM Tensor.ofNested = .ok observed ∧
        ((Graph.addNode r).outcome g).2.nodes = g.nodes ++ [g.freshNode r name observed] := by
  unfold Attempt.outcome Graph.addNode
  cases g.checkedName r with
  | error f => exact Or.inl rfl
  | ok name =>
    cases hv : r.value.mapM Tensor.ofNested with
    | error f => exact Or.inl rfl
    | ok observed => exact Or.inr ⟨⟨_, _, rfl⟩, name, observed, rfl, rfl⟩

/-- A node lists each of its interfaces once. -/
def ListsOnce (g : Graph) : Prop :=
  ∀ {n : NodeId} {x : Node}, g.nodes[n]? = some x → x.interfaces.Nodup

theorem ListsOnce.addNode (hg : ListsOnce g) (r : NodeRequest) :
    ListsOnce ((Graph.addNode r).outcome g).2 := by
  intro n x hn
  rcases nodes_addNode g r with hnodes | ⟨-, name, observed, -, hnodes⟩
  · rw [hnodes] at hn
    exact hg hn
  · rw [hnodes] at hn
    rcases getElem?_append_singleton hn with hn | ⟨-, rfl⟩
    · exact hg hn
    · unfold freshNode freshInterfaces
      rw [List.map_map]
      exact List.Pairwise.map _ (fun _ _ hne h => hne (Nat.add_left_cancel h)) List.nodup_range

/-- **A node lists each of its interfaces once.** -/
theorem Built.listsOnce (h : Built g) : ListsOnce g := by
  induction h with
  | empty => exact fun hn => nomatch hn
  | addNode _ r ih => exact ih.addNode r
  | @addClamp g _ value name ih =>
    unfold Attempt.outcome Graph.addClamp
    cases Tensor.ofNested value with
    | error f => exact ih
    | ok t => exact ih.addNode _
  | @connect g _ tail head owner declared ih =>
    unfold Attempt.outcome Graph.connect
    cases g.joinedEnds tail head with
    | error f => exact ih
    | ok ends => exact ih

/-- Two interfaces of one node have different edges. -/
theorem Coherent.eq_of_edgeAt (hg : g.Coherent) {i j : InterfaceId} {e : EdgeId}
    (hi : g.edgeAt? i = some e) (hj : g.edgeAt? j = some e)
    (hn : g.nodeIdOf? i = g.nodeIdOf? j) : i = j := by
  obtain ⟨y, hy, hye⟩ := Option.bind_eq_some_iff.mp hi
  obtain ⟨z, hz, hze⟩ := Option.bind_eq_some_iff.mp hj
  obtain ⟨x, hx, hix⟩ := hg.bound hy hye
  obtain ⟨x', hx', hjx⟩ := hg.bound hz hze
  cases hx.symm.trans hx'
  -- both are ends of the edge, and its two ends are at different nodes
  rcases List.mem_cons.mp hix with rfl | hix <;> rcases List.mem_cons.mp hjx with rfl | hjx
  · rfl
  · exact absurd hn.symm (hg.nodes_ne hx (Option.mem_toList.mp hjx))
  · exact absurd hn (hg.nodes_ne hx (Option.mem_toList.mp hix))
  · exact Option.some.inj ((Option.mem_toList.mp hix).symm.trans (Option.mem_toList.mp hjx))

/-- **An edge meets a node at one interface only.** -/
theorem Built.nodup_edgesAt (h : Built g) (n : NodeId) : (g.edgesAt n).Nodup := by
  unfold edgesAt interfacesOf
  cases hn : g.nodes[n]? with
  | none => exact List.nodup_nil
  | some x =>
    have hnode : ∀ i ∈ x.interfaces, g.nodeIdOf? i = some n := fun i hi => by
      obtain ⟨y, hy, hyn⟩ := h.coherent.interface_of_node hn hi
      rw [nodeIdOf?_of_some hy, hyn]
    refine List.pairwise_filterMap.mpr ((h.listsOnce hn).imp_of_mem ?_)
    rintro i j hi hj hij e he _ hf rfl
    exact hij (h.coherent.eq_of_edgeAt he hf ((hnode i hi).trans (hnode j hj).symm))

/-! ## Graphs whose observed values are clamps -/

/-- The graphs that calls lead to whose observed nodes are all added as such: a call that adds any
other node has no value, or it fails. -/
inductive Clamped : Graph → Prop
  | empty : Clamped ∅
  | addNode {g : Graph} (hg : Clamped g) (r : NodeRequest)
      (hr : r.value = none ∨ ∃ f h, Graph.addNode r g = .error f h) :
      Clamped ((Graph.addNode r).outcome g).2
  | addClamp {g : Graph} (hg : Clamped g) (value : Nested) (name : Option String) :
      Clamped ((Graph.addClamp value name).outcome g).2
  | connect {g : Graph} (hg : Clamped g) (tail : InterfaceRef) (head : Option InterfaceRef)
      (owner : Option String) (declared : Option TypeTerm) :
      Clamped ((Graph.connect tail head owner declared).outcome g).2

theorem Clamped.built (h : Clamped g) : Built g := by
  induction h with
  | empty => exact .empty
  | addNode _ r _ ih => exact .addNode ih r
  | addClamp _ value name ih => exact .addClamp ih value name
  | connect _ tail head owner declared ih => exact .connect ih tail head owner declared

/-- An observed node has one interface. -/
def ObservedAtOnePlace (g : Graph) : Prop :=
  ∀ {n : NodeId} {x : Node}, g.nodes[n]? = some x → x.isClamp → x.interfaces.length = 1

theorem ObservedAtOnePlace.addNode (hg : ObservedAtOnePlace g) {r : NodeRequest}
    (hr : (r.value = none ∨ ∃ f h, Graph.addNode r g = .error f h) ∨ r.interfaces = 1) :
    ObservedAtOnePlace ((Graph.addNode r).outcome g).2 := by
  intro n x hn hx
  rcases nodes_addNode g r with hnodes | ⟨⟨m, h', hok⟩, name, observed, hv, hnodes⟩
  · rw [hnodes] at hn
    exact hg hn hx
  · rw [hnodes] at hn
    rcases getElem?_append_singleton hn with hn | ⟨-, rfl⟩
    · exact hg hn hx
    · rcases hr with (hr | ⟨f, h, hr⟩) | hr
      · rw [hr] at hv
        cases hv
        contradiction
      · rw [hok] at hr
        contradiction
      · unfold freshNode freshInterfaces
        rw [hr]
        rfl

/-- **An observed node has one interface**, if it is added as a clamp. -/
theorem Clamped.observedAtOnePlace (h : Clamped g) : ObservedAtOnePlace g := by
  induction h with
  | empty => exact fun hn => nomatch hn
  | addNode _ r hr ih => exact ih.addNode (Or.inl hr)
  | @addClamp g _ value name ih =>
    unfold Attempt.outcome Graph.addClamp
    cases Tensor.ofNested value with
    | error f => exact ih
    | ok t => exact ih.addNode (Or.inr rfl)
  | @connect g _ tail head owner declared ih =>
    unfold Attempt.outcome Graph.connect
    cases g.joinedEnds tail head with
    | error f => exact ih
    | ok ends => exact ih

end Graph

end MessagePassing
