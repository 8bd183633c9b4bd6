import Mathlib.Data.Set.Insert
import MessagePassing.Proofs.Assembly.Ownership

/-!
# Posteriors over graphs that grow

Callers may add to the graph at any time, also after blocks have been made, scheduled or assembled
for it. Nothing that a call adds takes away or changes what is there, so what a block refers to
stays what it is. This module follows a graph together with a posterior, and which blocks of the
posterior are assembled.

* `Graph.Extends` compares a graph with a larger one; `Graph.Built.extends_after` says that calls
  lead to larger graphs only.
* `Developed` is said of a graph, a posterior and the names of the blocks that are assembled.

Results:
* **`Developed.anchored`**: every block refers to edges and nodes of the graph.
* **`Developed.numbered`**: the entries of the schedule of an assembled block are numbered in order.
-/

namespace MessagePassing

open Attempt (Keeps)

/-! ## Larger graphs -/

namespace Graph

/-- All that is in a graph is in another one, too, which may have more. -/
structure Extends (g g' : Graph) : Prop where
  nodes : g.nodes.length ≤ g'.nodes.length
  edges : ∀ {e : EdgeId} {x : Edge}, g.edges[e]? = some x → g'.edges[e]? = some x
  nodeIdOf : ∀ {i : InterfaceId} {n : NodeId}, g.nodeIdOf? i = some n → g'.nodeIdOf? i = some n
  edgeAt : ∀ {i : InterfaceId} {e : EdgeId}, g.edgeAt? i = some e → g'.edgeAt? i = some e
  edgesOf : ∀ {x : String} {e : EdgeId}, e ∈ g.edgesOf x → e ∈ g'.edgesOf x

variable {g g' : Graph} {e : EdgeId}

/-- Interfaces may be added at the end. -/
theorem Extends.of_interfaces (hnodes : g.nodes.length ≤ g'.nodes.length)
    (hedges : g'.edges = g.edges) (hvariables : g'.variableEdges = g.variableEdges)
    {l : List Interface} (hl : g'.interfaces = g.interfaces ++ l) : g.Extends g' where
  nodes := hnodes
  edges h := by rwa [hedges]
  nodeIdOf h := by
    obtain ⟨y, hy, rfl⟩ := Option.map_eq_some_iff.mp h
    exact nodeIdOf?_of_some (hl ▸ getElem?_append_of_some hy)
  edgeAt h := by
    obtain ⟨y, hy, hye⟩ := Option.bind_eq_some_iff.mp h
    exact Option.bind_eq_some_iff.mpr ⟨y, hl ▸ getElem?_append_of_some hy, hye⟩
  edgesOf h := by
    unfold Graph.edgesOf at h ⊢
    rwa [hvariables]

theorem Grows.extends (h : g.Grows g') : g.Extends g' := by
  cases h with
  | node hname observed =>
    refine .of_interfaces ?_ rfl rfl rfl
    simp [withNode]
  | @edge t o y ht hy ho owner declared =>
    have hne := ne_of_free ht ho
    refine ⟨Nat.le_refl _, fun h => getElem?_append_of_some h, fun {i n} h => ?_, fun {i e} h => ?_,
      fun {x e} h => ?_⟩
    · rwa [nodeIdOf?_join hne]
    · obtain ⟨z, hz, hze⟩ := Option.bind_eq_some_iff.mp h
      exact Option.bind_eq_some_iff.mpr ⟨z, getElem?_join_of_bound ht hy ho hz hze, hze⟩
    · rw [edgesOf_join]
      split
      · exact List.mem_append_left _ h
      · exact h

/-- **A call takes nothing away**, whether it succeeds or fails. -/
theorem Built.extends_after (hg : g.Built) (c : Call) : g.Extends (c.after g) := by
  unfold Call.after
  cases h : c.make g with
  | ok n g' =>
    rw [Attempt.outcome_snd_of_ok h]
    exact (hg.coherent.grows_of_ok h).extends
  | error f g' =>
    rw [Attempt.outcome_snd_of_error h]
    have hleft := hg.leaves_of_error h
    obtain ⟨orphans, horphans, -⟩ := hleft.interfaces
    exact .of_interfaces (le_of_eq (congrArg List.length hleft.nodes.symm)) hleft.edges
      hleft.variableEdges horphans

/-- An edge keeps its ends and their nodes. -/
theorem Extends.endNodes_eq (h : g.Extends g') (hg : g.Coherent) (he : e < g.edges.length) :
    g'.endNodes e = g.endNodes e := by
  have hx := List.getElem?_eq_getElem he
  have hends : g'.ends e = g.ends e := by
    unfold ends
    rw [hx, h.edges hx]
  unfold endNodes
  rw [hends]
  refine List.filterMap_congr fun i hi => ?_
  obtain ⟨y, hy, -⟩ := Option.bind_eq_some_iff.mp (hg.edgeAt_of_mem_ends hi)
  change g'.nodeIdOf? i = g.nodeIdOf? i
  rw [nodeIdOf?_of_some hy, h.nodeIdOf (nodeIdOf?_of_some hy)]

end Graph

/-! ## What a block refers to -/

namespace Block

variable {g g' : Graph} {b b' : Block} {sites : List InterfaceId}

/-- What a block refers to is there: its edges exist with the nodes at their ends, and its messages
run along edges, each of them once. -/
structure Anchored (g : Graph) (b : Block) : Prop where
  ascending : b.internal.Pairwise (· < ·)
  edges : ∀ e ∈ b.internal, e < g.edges.length
  nodes : ∀ e ∈ b.internal, ∀ n ∈ g.endNodes e, n < g.nodes.length
  nodup : b.order.Nodup
  /-- A message runs along an edge of the block or of a variable in its scope. -/
  scheduled : ∀ i ∈ b.order,
    ∃ e, g.edgeAt? i = some e ∧ (e ∈ b.internal ∨ ∃ x ∈ b.scope, e ∈ g.edgesOf x)
  /-- A block without edges has no messages. -/
  idle : b.internal = [] → b.order = []

theorem Anchored.of_eq (h : b.Anchored g) (ho : b'.outline = b.outline)
    (hs : b'.order = b.order) : b'.Anchored g := by
  have hinternal : b'.internal = b.internal := congrArg (·.internal) ho
  have hscope : b'.scope = b.scope := congrArg (·.scope) ho
  obtain ⟨h₁, h₂, h₃, h₄, h₅, h₆⟩ := h
  constructor <;> simpa only [hinternal, hs, hscope]

theorem anchored_ofSkeleton (g : Graph) : OfSkeleton (Anchored g) := fun b b' h hb => by
  refine hb.of_eq (outline_of_skeleton h) ?_
  rw [← order_skeleton b', h, order_skeleton]

/-- A block refers to the same in a larger graph. -/
theorem Anchored.extends (h : b.Anchored g) (hg : g.Coherent) (hx : g.Extends g') :
    b.Anchored g' where
  ascending := h.ascending
  edges e he := (List.getElem?_eq_some_iff.mp
    (hx.edges (List.getElem?_eq_getElem (h.edges e he)))).1
  nodes e he n hn := by
    rw [hx.endNodes_eq hg (h.edges e he)] at hn
    exact Nat.lt_of_lt_of_le (h.nodes e he n hn) hx.nodes
  nodup := h.nodup
  scheduled i hi := by
    obtain ⟨e, he, hin⟩ := h.scheduled i hi
    exact ⟨e, hx.edgeAt he, hin.imp_right fun ⟨x, hxs, hex⟩ => ⟨x, hxs, hx.edgesOf hex⟩⟩
  idle := h.idle

theorem anchored_of_ofVariables {id : String} {requested : List String}
    (h : ofVariables g id requested = .ok b) : b.Anchored g := by
  have horder : b.order = [] := by
    rw [← (of_ofVariables h).2]
    rfl
  have hinternal : b.internal = [] ∨ ∃ edges, g.knownClosure true [] edges = .ok b.internal := by
    unfold ofVariables at h
    split at h
    · cases h
      exact Or.inl rfl
    · obtain ⟨edges, -, h⟩ := bind_eq_ok.mp h
      obtain ⟨internal, hinternal, h⟩ := bind_eq_ok.mp h
      cases pure_eq_ok.mp h
      exact Or.inr ⟨edges, hinternal⟩
  have hnone : ∀ i ∈ b.order, ∃ e, g.edgeAt? i = some e ∧
      (e ∈ b.internal ∨ ∃ x ∈ b.scope, e ∈ g.edgesOf x) := by
    rw [horder]
    exact fun i hi => absurd hi List.not_mem_nil
  rcases hinternal with hnil | ⟨edges, hinternal⟩
  · refine ⟨?_, ?_, ?_, horder ▸ List.nodup_nil, hnone, fun _ => horder⟩ <;> simp [hnil]
  · obtain ⟨-, hclosure, hends⟩ := Graph.knownClosure_eq_ok.mp hinternal
    refine ⟨hclosure ▸ Graph.pairwise_closure, fun e he => ?_, hends, horder ▸ List.nodup_nil,
      hnone, fun _ => horder⟩
    exact Graph.lt_of_mem_closure (hclosure ▸ he)

theorem Anchored.withSchedule (h : b.Anchored g) (hg : g.Coherent)
    (hs : b.withSchedule g sites = .ok b') : b'.Anchored g := by
  have hp := planned_of_withSchedule hs
  have hnodup := hp.nodup_order
  have hscheduled := fun i => hp.of_mem_order (i := i) hg
  obtain ⟨hne, -, rfl⟩ := withSchedule_eq_ok.mp hs
  refine ⟨h.ascending, h.edges, h.nodes, hnodup, hscheduled, fun hnil => ?_⟩
  have hnil : b.internal = [] := hnil
  simp [isEmpty, hnil] at hne

theorem Anchored.withMarginalTable (h : b.Anchored g) (ht : b.withMarginalTable g = .ok b') :
    b'.Anchored g := by
  obtain ⟨single, joint, -, -, rfl⟩ := withMarginalTable_eq_ok.mp ht
  exact h.of_eq rfl rfl

/-- What a caller wants of a message leaves its entry where it is. -/
theorem constrain_cases (b : Block) (i : Int) (type : Option TypeTerm) (method : Option String) :
    ((constrain i type method).outcome b).2 = b ∨ ∃ e ∈ b.schedule,
      ((constrain i type method).outcome b).2 =
        { b with schedule := b.schedule.map fun f =>
            if f.interface = e.interface then { e with constraint := type, method } else f } := by
  unfold Attempt.outcome constrain
  cases he : b.schedule.find? fun e => Int.ofNat e.interface = i with
  | none => exact Or.inl rfl
  | some e => exact Or.inr ⟨e, List.mem_of_find?_eq_some he, rfl⟩

theorem Anchored.constrain (h : b.Anchored g) (i : Int) (type : Option TypeTerm)
    (method : Option String) : ((Block.constrain i type method).outcome b).2.Anchored g := by
  rcases b.constrain_cases i type method with heq | ⟨e, -, heq⟩
  · rwa [heq]
  · rw [heq]
    refine h.of_eq rfl ?_
    unfold order
    rw [List.map_map]
    refine List.map_congr_left fun f _ => ?_
    rw [Function.comp_apply]
    split
    · rename_i hfe
      exact hfe.symm
    · rfl

/-! ## Numbered schedules -/

/-- The entries of the schedule are numbered in order. -/
def Numbered (b : Block) : Prop :=
  b.schedule.map (·.order) = (List.range b.schedule.length).map some

theorem Numbered.of_schedule (h : b.Numbered) (hs : b'.schedule = b.schedule) : b'.Numbered := by
  unfold Numbered
  rwa [hs]

theorem numbered_of_order_eq_nil (h : b.order = []) : b.Numbered := by
  unfold Numbered
  rw [List.map_eq_nil_iff.mp h]
  rfl

theorem order_of_infer {s : Surroundings} {known : Table InterfaceId TypeTerm} {place : Nat}
    {e e' : ScheduleEntry} (h : ScheduleEntry.infer s known place e = .ok () e') :
    e'.order = some place := by
  obtain ⟨_, e₁, h₁, h⟩ := Attempt.bind_eq_ok.mp h
  obtain rfl := Attempt.modify_eq_ok.mp h₁
  -- the number is written down first, and nothing that follows changes it
  refine Keeps.of_ok (I := fun e : ScheduleEntry => e.order = some place) ?_ rfl h
  refine Keeps.bind Keeps.get fun _ => Keeps.bind (Keeps.liftM _) fun node => ?_
  split
  · exact Keeps.modify fun _ h => h
  · exact Keeps.bind (Keeps.liftM _) fun _ => Keeps.bind (Keeps.modify fun _ h => h) fun _ =>
      Keeps.bind (Keeps.ofExcept _) fun _ => Keeps.bind (Keeps.modify fun _ h => h) fun _ =>
      Keeps.bind (Keeps.liftM _) fun _ => Keeps.modify fun _ h => h

theorem order_of_inferEntries {s : Surroundings} {known : Table InterfaceId TypeTerm} {place : Nat}
    {l l' : List ScheduleEntry} (h : inferEntries s known place l = .ok () l') :
    l'.map (·.order) = (List.range' place l'.length).map some := by
  induction l generalizing known place l' with
  | nil =>
    cases h
    rfl
  | cons e l ih =>
    obtain ⟨e', rest, he, hrest, rfl⟩ := inferEntries_cons_eq_ok h
    rw [List.map_cons, order_of_infer he, ih hrest, List.length_cons, List.range'_succ,
      List.map_cons]

/-- Assembling numbers the entries. -/
theorem numbered_of_assemble {c : Catalogue} {id : String} {p q : Posterior}
    (hp : p.Each fun _ => True) (h : Posterior.assemble g c id p = .ok () q) :
    ∃ b, q.blocks.get? id = some b ∧ b.Numbered := by
  obtain ⟨b, l, b', p₁, p₂, r, -, hinfer, hseeds, -, -, -, hq⟩ :=
    Posterior.exists_parts_of_assemble (I := fun _ => True) (fun _ _ _ _ _ _ => trivial)
      (fun _ _ => trivial) hp trivial h
  refine ⟨_, hq, ?_⟩
  have hunseeded : b'.schedule.map ScheduleEntry.unseeded = l.map ScheduleEntry.unseeded :=
    (seeds_of_designateSeeds hseeds).1
  have horder : b'.schedule.map (·.order) = l.map (·.order) := by
    have := congrArg (List.map (·.order)) hunseeded
    rwa [List.map_map, List.map_map] at this
  have hlength : b'.schedule.length = l.length := by
    simpa using congrArg List.length hunseeded
  unfold Numbered
  rw [horder, hlength, order_of_inferEntries hinfer, List.range_eq_range']

theorem Numbered.constrain (h : b.Numbered) (hn : b.order.Nodup) (i : Int)
    (type : Option TypeTerm) (method : Option String) :
    ((Block.constrain i type method).outcome b).2.Numbered := by
  rcases b.constrain_cases i type method with heq | ⟨e, he, heq⟩
  · rwa [heq]
  · have horder : (b.schedule.map fun f =>
        if f.interface = e.interface then { e with constraint := type, method } else f).map
          (·.order) = b.schedule.map (·.order) := by
      rw [List.map_map]
      refine List.map_congr_left fun f hf => ?_
      rw [Function.comp_apply]
      split
      · rename_i hfe
        -- the entry is the only one of its interface
        obtain rfl : f = e := List.inj_on_of_nodup_map hn hf he hfe
        rfl
      · rfl
    rw [heq]
    unfold Numbered
    rw [horder, List.length_map]
    exact h

end Block

/-! ## Graphs and posteriors that calls lead to -/

namespace Posterior

variable {g : Graph} {p q : Posterior} {A : Set String} {c : Catalogue} {id : String}
  {sites : List InterfaceId} {ids : List String} {f : Failure} {b : Block}

/-- The graphs and posteriors that calls lead to, in any order, whether they succeed or fail, with
the names of the blocks that are assembled. A block is assembled once its assembly, or a compilation
that includes it, has succeeded; it stays so until it is scheduled anew or its assembly fails. -/
inductive Developed : Graph → Posterior → Set String → Prop
  | fresh {g : Graph} (hg : g.Built) (o : Options) : Developed g { options := o } ∅
  | grow {g : Graph} {p : Posterior} {A : Set String} (h : Developed g p A) (call : Graph.Call) :
      Developed (call.after g) p A
  | addBlock {g : Graph} {p : Posterior} {A : Set String} (h : Developed g p A)
      (requested : List String) (id : Option String) :
      Developed g ((Posterior.addBlock g requested id).outcome p).2 A
  | schedule {g : Graph} {p q : Posterior} {A : Set String} {b : Block} {id : String}
      {sites : List InterfaceId} (h : Developed g p A)
      (hq : scheduleBlock g sites id p = .ok b q) : Developed g q (A \ {id})
  | scheduleFails {g : Graph} {p q : Posterior} {A : Set String} {f : Failure} {id : String}
      {sites : List InterfaceId} (h : Developed g p A)
      (hq : scheduleBlock g sites id p = .error f q) : Developed g q A
  | tabulate {g : Graph} {p : Posterior} {A : Set String} (h : Developed g p A) (id : String) :
      Developed g ((tabulateBlock g id).outcome p).2 A
  | constrain {g : Graph} {p : Posterior} {A : Set String} (h : Developed g p A) (id : String)
      (i : Int) (type : Option TypeTerm) (method : Option String) :
      Developed g ((onBlock id fun _ => Block.constrain i type method).outcome p).2 A
  | assemble {g : Graph} {p q : Posterior} {A : Set String} {c : Catalogue} {id : String}
      (h : Developed g p A) (hq : Posterior.assemble g c id p = .ok () q) :
      Developed g q (insert id A)
  | assembleFails {g : Graph} {p q : Posterior} {A : Set String} {c : Catalogue} {f : Failure}
      {id : String} (h : Developed g p A) (hq : Posterior.assemble g c id p = .error f q) :
      Developed g q (A \ {id})
  | makeRunnable {g : Graph} {p : Posterior} {A : Set String} (h : Developed g p A)
      (id : String) : Developed g ((Posterior.makeRunnable id).outcome p).2 A
  | compile {g : Graph} {p q : Posterior} {A : Set String} {c : Catalogue} {ids : List String}
      {sites : List InterfaceId} {reject : Option Bool} (h : Developed g p A)
      (hq : Posterior.compile g c sites reject p = .ok ids q) : Developed g q (A ∪ {k | k ∈ ids})
  | compileFails {g : Graph} {p q : Posterior} {A : Set String} {c : Catalogue} {f : Failure}
      {sites : List InterfaceId} {reject : Option Bool} (h : Developed g p A)
      (hq : Posterior.compile g c sites reject p = .error f q) : Developed g q ∅
  | report {g : Graph} {p : Posterior} {A : Set String} (h : Developed g p A)
      (phases : Table (String × InterfaceId) Phase) (warnings : List Warning) :
      Developed g { p with phases, warnings } A

/-- What is told of each block: what it refers to is there, and it is numbered if it is
assembled. -/
def Tracked (g : Graph) (A : Set String) (b : Block) : Prop :=
  b.Anchored g ∧ (b.id ∈ A → b.Numbered)

theorem Tracked.mono {B : Set String} (h : Tracked g A b) (hB : b.id ∈ B → b.id ∈ A) :
    Tracked g B b :=
  ⟨h.1, fun hb => h.2 (hB hb)⟩

/-- A schedule that cannot be made leaves the blocks as they are. -/
theorem tracked_of_scheduleFails (h : scheduleBlock g sites id p = .error f q)
    (hp : Each (Tracked g A) p) : Each (Tracked g A) q := by
  rcases Attempt.bind_eq_error.mp h with h | ⟨_, _, -, h⟩
  · rw [replaceBlock_eq] at h
    rcases onBlock_eq_error h with rfl | ⟨b, b', hb, hx, rfl⟩
    · exact hp
    · unfold replacement at hx
      split at hx
      · contradiction
      · cases hx
        exact hp.putBlock (hp id b hb).2
  · contradiction

/-- Assembling a block leaves the others assembled as they are. -/
theorem keeps_assemble_tracked (c : Catalogue) (id : String) :
    Keeps (Each (Tracked g (A \ {id}))) (assemble g c id) := by
  refine keeps_assemble fun b b' hid hs hb => ⟨Block.anchored_ofSkeleton g b b' hs hb.1, ?_⟩
  have hid' : b'.id = id := (Block.id_of_outline (Block.outline_of_skeleton hs)).trans hid
  exact fun h => absurd hid' h.2

/-- Compiling keeps what all blocks refer to. -/
theorem keeps_compile_anchored (hg : g.Coherent) (c : Catalogue) (sites : List InterfaceId)
    (reject : Option Bool) : Keeps (Each (Block.Anchored g)) (compile g c sites reject) := by
  have hS := Block.anchored_ofSkeleton g
  refine keeps_compile_of (fun sites id => ?_) (fun id => ?_) (fun _ _ h => h)
    (fun id => keeps_assemble fun b b' _ => hS b b')
    (fun id => keeps_makeRunnable fun b _ => hS b _ rfl) sites reject
  · exact Keeps.bind (keeps_replaceBlock fun _ _ _ hb h => hb.withSchedule hg h) fun _ =>
      Keeps.bind (keeps_modify fun _ => rfl) fun _ => Keeps.pure _
  · exact keeps_replaceBlock fun _ _ _ hb h => hb.withMarginalTable h

/-- Compiling numbers the blocks that it answers. -/
theorem numbered_of_compile {reject : Option Bool} (hp : Each (fun _ => True) p)
    (h : compile g c sites reject p = .ok ids q) :
    Each (fun b => b.id ∈ ids → b.Numbered) q := by
  obtain ⟨rfl, p₁, p₂, hprepare, hassemble, hrun⟩ := compile_eq_ok.mp h
  have hp₁ := (holds_of_forM_prepare (A := fun _ => True) (fun _ _ _ _ _ => trivial) hp hprepare).1
  have hp₂ : Each (fun b => b.id ∈ p.inhabited → b.Numbered) p₂ :=
    holds_of_assembleAll (fun _ => keeps_assemble fun _ _ _ _ _ => trivial)
      (fun _ _ _ => Block.numbered_of_assemble) hp₁ (hp₁.mono fun b _ hk => Or.inl hk) hassemble
  exact (Keeps.forM fun k _ => keeps_makeRunnable fun b _ hb hk =>
    (hb hk).of_schedule rfl).of_ok hp₂ hrun

/-- A block that compiling does not answer has no edges. -/
theorem internal_eq_nil_of_compile {reject : Option Bool} (hp : Each (fun _ => True) p)
    (h : compile g c sites reject p = .ok ids q) :
    Each (fun b => b.id ∉ ids → b.internal = []) q := by
  have hP : Block.OfOutline fun b => b.id ∉ ids → b.internal = [] := fun b b' ho hb hk => by
    have hinternal : b'.internal = b.internal := congrArg (·.internal) ho
    rw [hinternal]
    exact hb (Block.id_of_outline ho ▸ hk)
  refine (keeps_compile hP (fun b => hP b _ rfl) sites reject).of_ok (fun k b hb => ?_) h
  obtain ⟨rfl, -⟩ := compile_eq_ok.mp h
  refine ⟨(hp k b hb).1, fun hk => ?_⟩
  rw [(hp k b hb).1] at hk
  by_contra hne
  exact hk (mem_inhabited hb (by simpa [Block.isEmpty] using hne))

/-- **Each call keeps track of the blocks.** -/
theorem Developed.tracked (h : Developed g p A) : g.Built ∧ Each (Tracked g A) p := by
  induction h with
  | fresh hg o => exact ⟨hg, fun _ _ h => nomatch h⟩
  | grow _ call ih =>
    obtain ⟨hg, hp⟩ := ih
    have hx := hg.extends_after call
    exact ⟨hg.after call, hp.mono fun b hb => ⟨hb.1.extends hg.coherent hx, hb.2⟩⟩
  | addBlock _ requested id ih =>
    refine ⟨ih.1, keeps_addBlock (fun b requested hb => ?_) requested id _ ih.2⟩
    have hb' := Block.anchored_of_ofVariables hb
    refine ⟨hb', fun _ => Block.numbered_of_order_eq_nil ?_⟩
    rw [← (Block.of_ofVariables hb).2]
    rfl
  | @schedule g p q A b' id sites _ hq ih =>
    obtain ⟨hg, hp⟩ := ih
    obtain ⟨b, hb, hs, rfl⟩ := scheduleBlock_eq_ok.mp hq
    obtain ⟨hid, hanchored, -⟩ := hp id b hb
    have hid' : b'.id = id := (Block.id_of_outline (Block.outline_of_withSchedule hs)).trans hid
    refine ⟨hg, Each.putBlock (hp.mono fun b hb => hb.mono And.left) ?_⟩
    exact ⟨hanchored.withSchedule hg.coherent hs, fun h => absurd hid' h.2⟩
  | scheduleFails _ hq ih => exact ⟨ih.1, tracked_of_scheduleFails hq ih.2⟩
  | tabulate _ id ih =>
    refine ⟨ih.1, keeps_replaceBlock (fun b b' _ hb ht => ?_) _ ih.2⟩
    refine ⟨hb.1.withMarginalTable ht, ?_⟩
    obtain ⟨single, joint, -, -, rfl⟩ := Block.withMarginalTable_eq_ok.mp ht
    exact fun h => (hb.2 h).of_schedule rfl
  | constrain _ id i type method ih =>
    refine ⟨ih.1, keeps_onBlock (fun p b _ hb => ?_) _ ih.2⟩
    refine ⟨hb.1.constrain i type method, fun h => (hb.2 ?_).constrain hb.1.nodup i type method⟩
    rcases b.constrain_cases i type method with heq | ⟨e, -, heq⟩ <;> rwa [heq] at h
  | @assemble g p q A c id _ hq ih =>
    obtain ⟨hg, hp⟩ := ih
    have hkept := (keeps_assemble_tracked (A := A) c id).of_ok
      (hp.mono fun b hb => hb.mono And.left) hq
    obtain ⟨b, hb, hnumbered⟩ := Block.numbered_of_assemble (hp.mono fun _ _ => trivial) hq
    refine ⟨hg, fun k b' hb' => ⟨(hkept k b' hb').1, (hkept k b' hb').2.1, fun hk => ?_⟩⟩
    by_cases hbk : b'.id = id
    · rw [← (hkept k b' hb').1, hbk, hb] at hb'
      exact Option.some.inj hb' ▸ hnumbered
    · exact (hkept k b' hb').2.2 ⟨(Set.mem_insert_iff.mp hk).resolve_left hbk, hbk⟩
  | assembleFails _ hq ih =>
    exact ⟨ih.1, (keeps_assemble_tracked _ _).of_error (ih.2.mono fun b hb => hb.mono And.left) hq⟩
  | makeRunnable _ id ih =>
    refine ⟨ih.1, keeps_makeRunnable (fun b _ hb => ?_) _ ih.2⟩
    exact ⟨hb.1.of_eq rfl rfl, fun h => (hb.2 h).of_schedule rfl⟩
  | @compile g p q A c ids sites reject _ hq ih =>
    obtain ⟨hg, hp⟩ := ih
    have hall := hp.mono fun _ _ => trivial
    have hanchored := (keeps_compile_anchored hg.coherent _ _ _).of_ok (hp.mono fun _ hb => hb.1) hq
    refine ⟨hg, fun k b hb => ⟨(hanchored k b hb).1, (hanchored k b hb).2, fun _ => ?_⟩⟩
    by_cases hk : b.id ∈ ids
    · exact (numbered_of_compile hall hq k b hb).2 hk
    · exact Block.numbered_of_order_eq_nil
        ((hanchored k b hb).2.idle ((internal_eq_nil_of_compile hall hq k b hb).2 hk))
  | compileFails _ hq ih =>
    obtain ⟨hg, hp⟩ := ih
    refine ⟨hg, ((keeps_compile_anchored hg.coherent _ _ _).of_error
      (hp.mono fun _ hb => hb.1) hq).mono fun b hb => ⟨hb, fun h => absurd h (Set.notMem_empty _)⟩⟩
  | report _ phases warnings ih => exact ih

theorem Developed.built (h : Developed g p A) : g.Built :=
  h.tracked.1

/-- **What a block refers to is there**, however the graph has grown. -/
theorem Developed.anchored (h : Developed g p A) (hb : p.blocks.get? id = some b) :
    b.Anchored g :=
  (h.tracked.2 id b hb).2.1

/-- **The entries of an assembled block are numbered.** -/
theorem Developed.numbered (h : Developed g p A) (hb : p.blocks.get? id = some b) (hid : id ∈ A) :
    b.Numbered :=
  (h.tracked.2 id b hb).2.2 ((h.tracked.2 id b hb).1 ▸ hid)

end Posterior

end MessagePassing
