import MessagePassing.View
import MessagePassing.Proofs.Graph.LeastClosure
import MessagePassing.Proofs.Assembly.Development
import MessagePassing.Proofs.Assembly.Entrances
import MessagePassing.Proofs.Assembly.Tabulation

/-!
# Drawings of assembled blocks

A drawing is put together from sets that are computed apart: the nodes from the ends of edges, the
edges from the block and its border, and the messages along an edge from the schedule. They fit
together if the block has all edges of its variables. The schedule then runs along edges of the
block only, and the places of the messages along an edge are a part of the numbering of the
schedule.

The nodes at the far ends of border edges are not touched by the block. They are the only ones that
can be missing, which takes a refused value.

Results:
* `Numbered.pairwise_messagesAlong`, `length_messagesAlong_le`: the messages along one edge.
* `View.exists_drawEdge?_iff`: which edges are drawn.
* **`Posterior.Developed.drawn`**: the drawing of an assembled block shows the block, unless a node
  is missing.
* `Posterior.not_drawn_stray`: an assembled block that cannot be drawn.
-/

namespace MessagePassing

namespace Graph

variable {g : Graph} {l : List NodeId} {internal : List EdgeId} {e : EdgeId} {n : NodeId}

/-! ## Nodes -/

/-- Nodes that exist are found in order, by their numbers. -/
theorem Coherent.mapM_node (hg : g.Coherent) (hl : ∀ n ∈ l, n < g.nodes.length) :
    ∃ nodes, l.mapM g.node = .ok nodes ∧ nodes.map (·.id) = l ∧
      ∀ x ∈ nodes, g.nodes[x.id]? = some x := by
  induction l with
  | nil => exact ⟨[], rfl, rfl, nofun⟩
  | cons n l ih =>
    obtain ⟨hn, hl⟩ := List.forall_mem_cons.mp hl
    obtain ⟨nodes, hnodes, hids, hfound⟩ := ih hl
    have hx := List.getElem?_eq_getElem hn
    have hid := hg.node_id hx
    refine ⟨g.nodes[n] :: nodes, ?_, ?_, List.forall_mem_cons.mpr ⟨?_, hfound⟩⟩
    · exact mapM_eq_ok.mpr (.cons (node_eq_ok.mpr hx) (mapM_eq_ok.mp hnodes))
    · rw [List.map_cons, hid, hids]
    · rw [hid, hx]

theorem mapM_node_of_missing (hn : n ∈ l) (h : g.nodes[n]? = none) :
    l.mapM g.node = .error .outOfRange := by
  have hfails : FailsOnly (· = Failure.outOfRange) (l.mapM g.node) := FailsOnly.mapM fun m _ => by
    unfold node entryAt
    split
    · exact .ok _
    · exact .error rfl
  cases hm : l.mapM g.node with
  | error f => rw [hfails f hm]
  | ok nodes =>
    obtain ⟨x, -, hx⟩ := exists_mem_of_mapM hm hn
    rw [node_eq_ok, h] at hx
    contradiction

/-- An end of an edge has a node, if the edge has its nodes. -/
theorem Coherent.exists_nodeOf? {i : InterfaceId} (hg : g.Coherent) (hi : i ∈ g.ends e)
    (hn : ∀ n ∈ g.endNodes e, n < g.nodes.length) : ∃ x, g.nodeOf? i = some x := by
  obtain ⟨y, hy, -⟩ := Option.bind_eq_some_iff.mp (hg.edgeAt_of_mem_ends hi)
  have hlt := hn y.node (List.mem_filterMap.mpr ⟨i, hi, by rw [hy, Option.map_some]⟩)
  exact ⟨_, Option.bind_eq_some_iff.mpr ⟨y, hy, List.getElem?_eq_getElem hlt⟩⟩

/-! ## Edges at the border -/

theorem Coherent.lt_of_mem_externalEdges (hg : g.Coherent) (he : e ∈ g.externalEdges internal) :
    e < g.edges.length := by
  obtain ⟨⟨_, -, _, -, he⟩, -⟩ := mem_externalEdges.mp he
  exact hg.lt_of_mem_edgesAt he

theorem length_ends_le (g : Graph) (e : EdgeId) : (g.ends e).length ≤ 2 := by
  unfold ends
  cases g.edges[e]? with
  | none => exact Nat.zero_le 2
  | some x =>
    change x.head.toList.length + 1 ≤ 2
    cases x.head <;> simp

end Graph

/-! ## Edges as they are drawn -/

namespace View

variable {g : Graph} {v : View} {l : List EdgeId} {e : EdgeId} {x : DrawnEdge}

theorem drawEdge?_eq_some : v.drawEdge? g e = some x ↔ ∃ y tail h head, g.edges[e]? = some y ∧
    g.nodeOf? y.tail = some tail ∧ y.head = some h ∧ g.nodeOf? h = some head ∧
      { id := e, tail := tail.id, head := head.id, owner := y.owner, internal := e ∈ v.internal,
        messages := v.messagesAlong g e : DrawnEdge } = x := by
  unfold drawEdge?
  simp only [Option.bind_eq_bind, Option.bind_eq_some_iff, Option.pure_def, Option.some.injEq]
  constructor
  · rintro ⟨y, hy, tail, htail, h, hh, head, hhead, hx⟩
    exact ⟨y, tail, h, head, hy, htail, hh, hhead, hx⟩
  · rintro ⟨y, tail, h, head, hy, htail, hh, hhead, hx⟩
    exact ⟨y, hy, tail, htail, h, hh, head, hhead, hx⟩

theorem id_of_drawEdge? (h : v.drawEdge? g e = some x) : x.id = e := by
  obtain ⟨_, _, _, _, -, -, -, -, rfl⟩ := drawEdge?_eq_some.mp h
  rfl

theorem messages_of_drawEdge? (h : v.drawEdge? g e = some x) :
    x.messages = v.messagesAlong g x.id := by
  obtain ⟨_, _, _, _, -, -, -, -, rfl⟩ := drawEdge?_eq_some.mp h
  rfl

theorem internal_of_drawEdge? (h : v.drawEdge? g e = some x) :
    x.internal = true ↔ x.id ∈ v.internal := by
  obtain ⟨_, _, _, _, -, -, -, -, rfl⟩ := drawEdge?_eq_some.mp h
  exact decide_eq_true_iff

theorem ownerOf?_of_drawEdge? (h : v.drawEdge? g e = some x) : g.ownerOf? x.id = some x.owner := by
  obtain ⟨y, _, _, _, hy, -, -, -, rfl⟩ := drawEdge?_eq_some.mp h
  exact Option.map_eq_some_iff.mpr ⟨y, hy, rfl⟩

/-- An edge is drawn between the nodes at its ends. -/
theorem endNodes_of_drawEdge? (hg : g.Coherent) (h : v.drawEdge? g e = some x) :
    g.endNodes x.id = [x.tail, x.head] := by
  obtain ⟨y, tail, i, head, hy, htail, hi, hhead, rfl⟩ := drawEdge?_eq_some.mp h
  obtain ⟨s, hs, htail⟩ := Option.bind_eq_some_iff.mp htail
  obtain ⟨t, ht, hhead⟩ := Option.bind_eq_some_iff.mp hhead
  have hends : g.ends e = [y.tail, i] := by simp [Graph.ends, hy, Edge.ends, hi]
  simp [Graph.endNodes, hends, hs, ht, hg.node_id htail, hg.node_id hhead]

/-- An edge that has its nodes is drawn, unless it dangles. -/
theorem exists_drawEdge?_iff (hg : g.Coherent) (he : e < g.edges.length)
    (hn : ∀ n ∈ g.endNodes e, n < g.nodes.length) :
    (∃ x, v.drawEdge? g e = some x) ↔ ¬g.Dangles e := by
  have hy := List.getElem?_eq_getElem he
  have hnodes : ∀ i ∈ g.edges[e].ends, ∃ x, g.nodeOf? i = some x := fun i hi => by
    refine hg.exists_nodeOf? ?_ hn
    rwa [Graph.ends, hy]
  constructor
  · rintro ⟨x, hx⟩ ⟨z, hz, hdangles⟩
    obtain ⟨y, _, h, _, hy', -, hh, -, -⟩ := drawEdge?_eq_some.mp hx
    cases hz.symm.trans hy'
    rw [hdangles] at hh
    contradiction
  · intro hd
    obtain ⟨h, hh⟩ := Option.ne_none_iff_exists'.mp fun hnone => hd ⟨_, hy, hnone⟩
    obtain ⟨tail, htail⟩ := hnodes _ List.mem_cons_self
    obtain ⟨head, hhead⟩ := hnodes h (List.mem_cons_of_mem _ (Option.mem_toList.mpr hh))
    exact ⟨_, drawEdge?_eq_some.mpr ⟨_, tail, h, head, hy, htail, hh, hhead, rfl⟩⟩

/-! ## Lists of drawn edges -/

theorem drawEdge?_of_mem (hx : x ∈ l.filterMap (v.drawEdge? g)) :
    v.drawEdge? g x.id = some x := by
  obtain ⟨e, -, hx⟩ := List.mem_filterMap.mp hx
  rwa [id_of_drawEdge? hx]

theorem mem_map_id_drawEdge? : e ∈ (l.filterMap (v.drawEdge? g)).map (·.id) ↔
    e ∈ l ∧ ∃ x, v.drawEdge? g e = some x := by
  simp only [List.mem_map, List.mem_filterMap]
  constructor
  · rintro ⟨x, ⟨f, hf, hx⟩, rfl⟩
    rw [id_of_drawEdge? hx]
    exact ⟨hf, x, hx⟩
  · rintro ⟨he, x, hx⟩
    exact ⟨x, ⟨e, he, hx⟩, id_of_drawEdge? hx⟩

/-- Edges are drawn in the order in which they come. -/
theorem pairwise_drawEdge? (hl : l.Pairwise (· < ·)) :
    ((l.filterMap (v.drawEdge? g)).map (·.id)).Pairwise (· < ·) := by
  refine List.pairwise_map.mpr (hl.filterMap _ fun e f hef x hx y hy => ?_)
  rwa [id_of_drawEdge? hx, id_of_drawEdge? hy]

end View

/-! ## Messages along an edge -/

namespace Block

variable {g : Graph} {b : Block} {e : EdgeId} {i : InterfaceId} {k : Int} {s : ScheduleEntry}

theorem mem_messagesAlong : k ∈ (b.view g).messagesAlong g e ↔
    ∃ s ∈ b.schedule, g.edgeAt? s.interface = some e ∧ s.place = k := by
  simp only [View.messagesAlong, view, List.mem_map, List.mem_filter, decide_eq_true_eq, and_assoc]

/-- The places along an edge are a part of the places of the schedule, in their order. -/
theorem messagesAlong_sublist (b : Block) (g : Graph) (e : EdgeId) :
    ((b.view g).messagesAlong g e).Sublist (b.schedule.map (·.place)) :=
  List.filter_sublist.map _

theorem place_eq (s : ScheduleEntry) : s.place = (s.order.map Int.ofNat).getD (-1) := by
  unfold ScheduleEntry.place
  cases s.order <;> rfl

/-- The places of an assembled block ascend. -/
theorem Numbered.pairwise_place (h : b.Numbered) :
    (b.schedule.map (·.place)).Pairwise (· < ·) := by
  have hplaces : b.schedule.map (·.place) = (List.range b.schedule.length).map Int.ofNat := by
    calc b.schedule.map (·.place)
      _ = (b.schedule.map (·.order)).map fun o => (o.map Int.ofNat).getD (-1) := by
        rw [List.map_map]
        exact List.map_congr_left fun s _ => place_eq s
      _ = (List.range b.schedule.length).map Int.ofNat := by
        rw [h, List.map_map]
        rfl
  rw [hplaces]
  exact List.pairwise_lt_range.map _ fun _ _ => Int.ofNat_lt.mpr

theorem Numbered.nodup_place (h : b.Numbered) : (b.schedule.map (·.place)).Nodup :=
  h.pairwise_place.imp fun h => Int.ne_of_lt h

theorem Numbered.pairwise_messagesAlong (h : b.Numbered) (g : Graph) (e : EdgeId) :
    ((b.view g).messagesAlong g e).Pairwise (· < ·) :=
  h.pairwise_place.sublist (b.messagesAlong_sublist g e)

/-- The place of a message is listed once along its edge. -/
theorem Numbered.count_messagesAlong (h : b.Numbered) (hs : s ∈ b.schedule)
    (he : g.edgeAt? s.interface = some e) :
    ((b.view g).messagesAlong g e).count s.place = 1 :=
  List.count_eq_one_of_mem (h.nodup_place.sublist (b.messagesAlong_sublist g e))
    (mem_messagesAlong.mpr ⟨s, hs, he, rfl⟩)

/-- A place is listed along one edge only. -/
theorem Numbered.edgeAt_of_mem_messagesAlong (h : b.Numbered) (hs : s ∈ b.schedule)
    (hmem : s.place ∈ (b.view g).messagesAlong g e) : g.edgeAt? s.interface = some e := by
  obtain ⟨t, ht, hte, hplace⟩ := mem_messagesAlong.mp hmem
  obtain rfl := List.inj_on_of_nodup_map h.nodup_place ht hs hplace
  exact hte

/-- At most two messages run along an edge, one from each end. -/
theorem length_messagesAlong_le (hg : g.Coherent) (hn : b.order.Nodup) (e : EdgeId) :
    ((b.view g).messagesAlong g e).length ≤ 2 := by
  set along := b.schedule.filter fun s => g.edgeAt? s.interface = some e with halong
  have hnodup : (along.map (·.interface)).Nodup := hn.sublist (List.filter_sublist.map _)
  have hends : along.map (·.interface) ⊆ g.ends e := fun i hi => by
    obtain ⟨s, hs, rfl⟩ := List.mem_map.mp hi
    exact hg.mem_ends (of_decide_eq_true (List.mem_filter.mp hs).2)
  calc ((b.view g).messagesAlong g e).length = along.length := List.length_map _
    _ = (along.map (·.interface)).length := (List.length_map _).symm
    _ ≤ (g.ends e).length := (hnodup.subperm hends).length_le
    _ ≤ 2 := g.length_ends_le e

/-- The messages of a block that has all edges of its variables run along these edges. -/
theorem Anchored.exists_internal (h : b.Anchored g) (hall : b.Whole g) (hi : i ∈ b.order) :
    ∃ e ∈ b.internal, g.edgeAt? i = some e :=
  hall.exists_internal (h.scheduled i hi)

/-- No message runs along an edge outside the block. -/
theorem Anchored.messagesAlong_eq_nil (h : b.Anchored g) (hall : b.Whole g)
    (he : e ∉ b.internal) : (b.view g).messagesAlong g e = [] := by
  refine List.eq_nil_iff_forall_not_mem.mpr fun k hk => ?_
  obtain ⟨s, hs, hse, -⟩ := mem_messagesAlong.mp hk
  obtain ⟨f, hf, hsf⟩ := h.exists_internal hall (List.mem_map_of_mem hs)
  cases hse.symm.trans hsf
  exact he hf

theorem whole_of_scope {x : String} (hs : b.scope = [x]) (h : ∀ e ∈ g.edgesOf x, e ∈ b.internal) :
    b.Whole g := fun y hy => by
  rw [hs, List.mem_singleton] at hy
  exact hy ▸ h

/-! ## Drawings -/

/-- The drawing shows the block: the nodes that the block and the edges at its border touch, these
edges, unless they dangle, and every message at its edge. -/
structure Shown (g : Graph) (b : Block) (d : Drawing) : Prop where
  /-- The nodes are those of the graph, by number. -/
  nodes_found : ∀ x ∈ d.nodes, g.nodes[x.id]? = some x
  nodes_ascending : (d.nodes.map (·.id)).Pairwise (· < ·)
  mem_nodes : ∀ n, n ∈ d.nodes.map (·.id) ↔
    ∃ e, (e ∈ b.internal ∨ e ∈ g.externalEdges b.internal) ∧ n ∈ g.endNodes e
  edges_ascending : (d.edges.map (·.id)).Pairwise (· < ·)
  mem_edges : ∀ e, e ∈ d.edges.map (·.id) ↔
    (e ∈ b.internal ∨ e ∈ g.externalEdges b.internal) ∧ ¬g.Dangles e
  ends : ∀ x ∈ d.edges, g.endNodes x.id = [x.tail, x.head]
  owner : ∀ x ∈ d.edges, g.ownerOf? x.id = some x.owner
  internal : ∀ x ∈ d.edges, (x.internal = true ↔ x.id ∈ b.internal)
  /-- A message along an edge that does not dangle is shown at this edge once, and at no other. -/
  message : ∀ s ∈ b.schedule, ∀ e, g.edgeAt? s.interface = some e → ¬g.Dangles e →
    ∃ x ∈ d.edges, x.id = e ∧ x.messages.count s.place = 1 ∧
      ∀ y ∈ d.edges, s.place ∈ y.messages → y = x
  /-- Nothing else is shown at the edges. -/
  scheduled : ∀ x ∈ d.edges, ∀ k ∈ x.messages,
    ∃ s ∈ b.schedule, g.edgeAt? s.interface = some x.id ∧ s.place = k
  messages_ascending : ∀ x ∈ d.edges, x.messages.Pairwise (· < ·)
  messages_length : ∀ x ∈ d.edges, x.messages.length ≤ 2
  /-- No message is shown at the border. -/
  border : ∀ x ∈ d.edges, x.id ∉ b.internal → x.messages = []

/-- What drawing the block comes to. -/
structure DrawnIn (g : Graph) (b : Block) : Prop where
  /-- The drawing shows the block, if the edges at the border have all their nodes. -/
  shown : ¬g.TouchesMissing (g.externalEdges b.internal) →
    ∃ d, (b.view g).draw g = .ok d ∧ b.Shown g d
  /-- There is none, if a node is missing. -/
  missing : g.TouchesMissing (g.externalEdges b.internal) →
    (b.view g).draw g = .error .outOfRange
  /-- No node is missing, if no value of a node has been refused. -/
  unspoilt : g.Unspoilt → ¬g.TouchesMissing (g.externalEdges b.internal)

theorem mem_drawnNodes {n : NodeId} :
    n ∈ Ascending.ofList ((b.view g).nodes ++ g.nodesOfEdges (b.view g).external) ↔
      ∃ e, (e ∈ b.internal ∨ e ∈ g.externalEdges b.internal) ∧ n ∈ g.endNodes e := by
  rw [Ascending.mem_ofList, List.mem_append]
  change n ∈ g.nodesOfEdges b.internal ∨ n ∈ g.nodesOfEdges (g.externalEdges b.internal) ↔ _
  simp only [Graph.mem_nodesOfEdges, or_and_right, exists_or]

theorem mem_drawnEdges : e ∈ Ascending.ofList ((b.view g).internal ++ (b.view g).external) ↔
    e ∈ b.internal ∨ e ∈ g.externalEdges b.internal := by
  rw [Ascending.mem_ofList, List.mem_append]
  rfl

/-- An edge of the block or at its border is drawn, unless it dangles. -/
theorem Anchored.exists_drawEdge?_iff (h : b.Anchored g) (hg : g.Coherent)
    (hborder : ∀ e ∈ g.externalEdges b.internal, ∀ n ∈ g.endNodes e, n < g.nodes.length)
    (he : e ∈ b.internal ∨ e ∈ g.externalEdges b.internal) :
    (∃ x, (b.view g).drawEdge? g e = some x) ↔ ¬g.Dangles e :=
  View.exists_drawEdge?_iff hg (he.elim (h.edges e) hg.lt_of_mem_externalEdges)
    (he.elim (h.nodes e) (hborder e))

/-- **The drawing of an assembled block shows it**, if the edges at the border have their nodes. -/
theorem Numbered.shown (h : b.Numbered) (hg : g.Coherent) (ha : b.Anchored g) (hall : b.Whole g)
    (hborder : ∀ e ∈ g.externalEdges b.internal, ∀ n ∈ g.endNodes e, n < g.nodes.length) :
    ∃ d, (b.view g).draw g = .ok d ∧ b.Shown g d := by
  obtain ⟨nodes, hdraw, hids, hfound⟩ := hg.mapM_node
    (l := Ascending.ofList ((b.view g).nodes ++ g.nodesOfEdges (b.view g).external)) fun n hn => by
      obtain ⟨e, he, hn⟩ := mem_drawnNodes.mp hn
      exact he.elim (ha.nodes e · n hn) (hborder e · n hn)
  let edges := (Ascending.ofList ((b.view g).internal ++ (b.view g).external)).filterMap
    ((b.view g).drawEdge? g)
  have hedge : ∀ x ∈ edges, (b.view g).drawEdge? g x.id = some x :=
    fun _ hx => View.drawEdge?_of_mem hx
  have hmessages : ∀ x ∈ edges, x.messages = (b.view g).messagesAlong g x.id :=
    fun x hx => View.messages_of_drawEdge? (hedge x hx)
  have hmem : ∀ e, e ∈ edges.map (·.id) ↔
      (e ∈ b.internal ∨ e ∈ g.externalEdges b.internal) ∧ ¬g.Dangles e := fun e => by
    rw [View.mem_map_id_drawEdge?, mem_drawnEdges]
    exact and_congr_right (ha.exists_drawEdge?_iff hg hborder)
  have hshown : b.Shown g ⟨nodes, edges⟩ := {
    nodes_found := hfound
    nodes_ascending := hids ▸ Ascending.pairwise_ofList _
    mem_nodes := fun n => by rw [hids, mem_drawnNodes]
    edges_ascending := View.pairwise_drawEdge? (Ascending.pairwise_ofList _)
    mem_edges := hmem
    ends := fun x hx => View.endNodes_of_drawEdge? hg (hedge x hx)
    owner := fun x hx => View.ownerOf?_of_drawEdge? (hedge x hx)
    internal := fun x hx => View.internal_of_drawEdge? (hedge x hx)
    message := fun s hs e he hd => by
      obtain ⟨f, hf, hsf⟩ := ha.exists_internal hall (List.mem_map_of_mem hs)
      cases he.symm.trans hsf
      obtain ⟨x, hx, rfl⟩ := List.mem_map.mp ((hmem e).mpr ⟨Or.inl hf, hd⟩)
      refine ⟨x, hx, rfl, ?_, fun y hy hplace => ?_⟩
      · rw [hmessages x hx]
        exact h.count_messagesAlong hs he
      · -- two drawn edges of one number are the same
        rw [hmessages y hy] at hplace
        have hid := he.symm.trans (h.edgeAt_of_mem_messagesAlong hs hplace)
        have hy := hedge y hy
        rw [← Option.some.inj hid, hedge x hx] at hy
        exact (Option.some.inj hy).symm
    scheduled := fun x hx k hk => mem_messagesAlong.mp (hmessages x hx ▸ hk)
    messages_ascending := fun x hx => hmessages x hx ▸ h.pairwise_messagesAlong g x.id
    messages_length := fun x hx => hmessages x hx ▸ length_messagesAlong_le hg ha.nodup x.id
    border := fun x hx hout => (hmessages x hx).trans (ha.messagesAlong_eq_nil hall hout) }
  refine ⟨_, ?_, hshown⟩
  unfold View.draw
  rw [hdraw]
  rfl

/-- A block that touches a missing node at its border has no drawing. -/
theorem draw_of_touchesMissing (h : g.TouchesMissing (g.externalEdges b.internal)) :
    (b.view g).draw g = .error .outOfRange := by
  obtain ⟨e, he, n, hn, hmissing⟩ := h
  unfold View.draw
  rw [Graph.mapM_node_of_missing (mem_drawnNodes.mpr ⟨e, Or.inr he, hn⟩) hmissing]
  rfl

end Block

namespace Posterior

variable {g : Graph} {p : Posterior} {A : Set String} {id : String} {b : Block}

/-- **The drawing of an assembled block shows every message once**, if the block has all edges of
its variables, and if no node is missing at the far end of an edge at its border. -/
theorem Developed.drawn (h : Developed g p A) (hb : p.block id = .ok b) (hid : id ∈ A)
    (hall : b.Whole g) : b.DrawnIn g := by
  have hb := block_eq_ok.mp hb
  have hg := h.built.coherent
  refine ⟨fun hpresent => ?_, Block.draw_of_touchesMissing, fun hu => ?_⟩
  · exact (h.numbered hb hid).shown hg (h.anchored hb) hall
      (Graph.not_touchesMissing_iff.mp hpresent)
  · exact Graph.not_touchesMissing_iff.mpr fun _ _ _ hn => hu.listed.lt_of_mem_endNodes hn

theorem block_of_mapM_singleton (h : [id].mapM p.block = .ok [b]) : p.block id = .ok b := by
  obtain ⟨k, hk, hb⟩ := exists_of_mem_mapM h List.mem_cons_self
  rwa [List.mem_singleton.mp hk] at hb

/-- Both messages along the edge that does not dangle are shown at it, and none at the edges at the
border, which lead to the prior and to the observed value. -/
theorem drawn_noisy : ∃ q b A, Developed noisyGraph q A ∧ q.block "x" = .ok b ∧ "x" ∈ A ∧
    b.Whole noisyGraph ∧ b.DrawnIn noisyGraph ∧
    ∃ d, (b.view noisyGraph).draw noisyGraph = .ok d ∧ d.nodes.map (·.id) = [0, 1, 2, 3] ∧
      d.edges.map (fun x => (x.id, x.internal, x.messages)) =
        [(0, true, [0, 1]), (2, false, []), (3, false, [])] := by
  have hok : ((compile noisyGraph noisyCatalogue [] none).outcome noisyPosterior).1 =
      .ok ["x"] := by cbv
  have hblock : (((compile noisyGraph noisyCatalogue [] none).outcome
      noisyPosterior).2.blocks.get? "x").map (fun b => (b.scope, b.internal,
        ((b.view noisyGraph).draw noisyGraph).map fun d => (d.nodes.map (·.id),
          d.edges.map fun x => (x.id, x.internal, x.messages)))) =
      some (["x"], [0, 1], .ok ([0, 1, 2, 3],
        [(0, true, [0, 1]), (2, false, []), (3, false, [])])) := by cbv
  obtain ⟨q, b, h, hb, hparts⟩ := exists_block_of_outcome hok hblock
  simp only [Prod.mk.injEq] at hparts
  obtain ⟨hscope, hinternal, hdraw⟩ := hparts
  obtain ⟨d, hd, hd'⟩ := map_eq_ok.mp hdraw
  rw [Prod.mk.injEq] at hd'
  have hdev : Developed noisyGraph q (∅ ∪ {k | k ∈ ["x"]}) :=
    .compile (.addBlock (.fresh built_noisyGraph _) _ _) h
  have hx : "x" ∈ (∅ ∪ {k | k ∈ ["x"]} : Set String) := Or.inr List.mem_cons_self
  have hwhole : b.Whole noisyGraph := by
    have hedges : noisyGraph.edgesOf "x" = [0] := by cbv
    refine Block.whole_of_scope hscope ?_
    rw [hedges, hinternal]
    decide
  have hb := block_of_mapM_singleton hb
  exact ⟨q, b, _, hdev, hb, hx, hwhole, hdev.drawn hb hx hwhole, d, hd, hd'⟩

/-- A factor with an observed value and two edges. One of them dangles, the other leads to an
interface that a refused value has left behind. -/
def farGraph : Graph :=
  let obs : NodeRequest := { kind := "obs", interfaces := 2, value := some (.num (.whole 1)) }
  let g := Graph.Call.after (.addNode obs) ∅
  let g := Graph.Call.after (.addNode Graph.unevenRequest) g
  let g := Graph.Call.after (.connect (.numbered 0) none (some "x") none) g
  Graph.Call.after (.connect (.numbered 1) (some (.numbered 2)) (some "y") none) g

theorem built_farGraph : farGraph.Built :=
  (((Graph.Built.empty.after _).after _).after _).after _

/-- The posterior with a block for the first variable. -/
def farPosterior : Posterior :=
  ((addBlock farGraph ["x"] (some "x")).outcome { options := wholeOptions }).2

/-- **After a refused value, an assembled block may have no drawing**: the edge at its border leads
to a node that does not exist. -/
theorem not_drawn_stray : ∃ q b A, Developed farGraph q A ∧ q.block "x" = .ok b ∧ "x" ∈ A ∧
    b.Whole farGraph ∧ (b.view farGraph).draw farGraph = .error .outOfRange := by
  have hok : ((compile farGraph ∅ [] none).outcome farPosterior).1 = .ok ["x"] := by cbv
  have hblock : (((compile farGraph ∅ [] none).outcome
      farPosterior).2.blocks.get? "x").map (fun b => (b.scope, b.internal,
        ((b.view farGraph).draw farGraph).map fun _ => ())) =
      some (["x"], [0], .error .outOfRange) := by cbv
  obtain ⟨q, b, h, hb, hparts⟩ := exists_block_of_outcome hok hblock
  simp only [Prod.mk.injEq] at hparts
  obtain ⟨hscope, hinternal, hdraw⟩ := hparts
  have hdev : Developed farGraph q (∅ ∪ {k | k ∈ ["x"]}) :=
    .compile (.addBlock (.fresh built_farGraph _) _ _) h
  refine ⟨q, b, _, hdev, block_of_mapM_singleton hb, Or.inr List.mem_cons_self, ?_, ?_⟩
  · have hedges : farGraph.edgesOf "x" = [0] := by cbv
    refine Block.whole_of_scope hscope ?_
    rw [hedges, hinternal]
    decide
  · cases hd : (b.view farGraph).draw farGraph with
    | error f =>
      rw [hd] at hdraw
      cases hdraw
      rfl
    | ok d =>
      rw [hd] at hdraw
      contradiction

end Posterior

end MessagePassing
