import MessagePassing.Proofs.Assembly.Ownership
import MessagePassing.Proofs.Run.Footprint

/-!
# Independent blocks may be run in any order

A pass over a compiled block reads the messages of its own schedule and the marginals that its
entries name. It changes these messages, its own seeds and marginals, and the edges of its own
variables. Two blocks that compute nothing in common, and of which neither reads a marginal of the
other, do not get in each other's way.

Results:
* `Block.confined_pass`: what a pass reads and changes.
* **`Posterior.comm_of_compile`**: independent blocks may be swapped.
-/

namespace MessagePassing

namespace Block

/-- The block reads the marginal of a target, to compute a message or the marginal of a cluster. -/
def ReadsMarginal (b : Block) (t : Target) : Prop :=
  (∃ e ∈ b.schedule, .marginal t ∈ e.inbounds) ∨
    ∃ m ∈ b.marginalTable, m.plan.isJoint ∧ .marginal t ∈ m.inbounds

/-- The blocks compute nothing in common, and neither reads a marginal of the other. -/
structure Independent (a b : Block) : Prop extends Apart a b where
  left : ∀ t, a.ReadsMarginal t → t ∉ b.marginalTargets
  right : ∀ t, b.ReadsMarginal t → t ∉ a.marginalTargets

theorem ReadsMarginal.mem_inbounds {b : Block} {t : Target} (h : b.ReadsMarginal t) :
    .marginal t ∈ (b.schedule.map (·.inbounds) ++ b.marginalTable.map (·.inbounds)).flatten := by
  rw [List.mem_flatten]
  rcases h with ⟨e, he, ht⟩ | ⟨m, hm, -, ht⟩
  · exact ⟨_, List.mem_append_left _ (List.mem_map_of_mem he), ht⟩
  · exact ⟨_, List.mem_append_right _ (List.mem_map_of_mem hm), ht⟩

/-- The places that a pass over the block reads. -/
def readSlots (b : Block) : Set Slot
  | .message i => i ∈ b.order
  | .phase id _ => id = b.id
  | .marginal t => b.ReadsMarginal t
  | .edge _ => False

/-- The places that a pass over the block may change. -/
def writeSlots (g : Graph) (b : Block) : Set Slot
  | .message i => i ∈ b.order
  | .phase id _ => id = b.id
  | .marginal t => t ∈ b.marginalTargets
  | .edge e => ∃ x, .variable x ∈ b.marginalTargets ∧ e ∈ g.edgesOf x

variable {a b : Block} {g : Graph} {c : Catalogue} {sites : List InterfaceId}

/-- Only the marginals of clusters are computed from other marginals. -/
theorem Compiled.isJoint_of_mem_inbounds (h : b.Compiled g c sites) {m : MarginalEntry}
    (hm : m ∈ b.marginalTable) {t : Target} (ht : .marginal t ∈ m.inbounds) : m.plan.isJoint := by
  obtain ⟨p, hsettled⟩ := h.assembled.marginals m hm
  cases hsettled with
  | copy _ _ hinbounds _ =>
    rw [hinbounds] at ht
    simp at ht
  | product _ _ _ _ hinbounds _ _ =>
    rw [hinbounds] at ht
    simp at ht
  | joint hplan _ _ _ _ _ _ =>
    rw [hplan]
    rfl

theorem slotsOf_subset_readSlots {l : List Source} (hmessages : ∀ i ∈ messagesOf l, i ∈ b.order)
    (hmarginals : ∀ t, .marginal t ∈ l → b.ReadsMarginal t) : slotsOf l ⊆ b.readSlots := by
  intro s hs
  rcases mem_slotsOf hs with ⟨i, hi, rfl⟩ | ⟨t, ht, rfl⟩
  · exact hmessages i hi
  · exact hmarginals t ht

/-- **A pass over a compiled block is confined** to its messages, its seeds, the marginals that it
reads, and the marginals that it computes. -/
theorem confined_pass (hb : b.Wired g) (h : b.Compiled g c sites) (o : Options) :
    Confined b.readSlots (b.writeSlots g) (b.pass g o) := by
  have hentry : ∀ e ∈ b.schedule,
      ({.message e.interface, .phase b.id e.interface} : Set Slot) ⊆ b.writeSlots g := by
    rintro e he _ (rfl | rfl)
    · exact List.mem_map_of_mem he
    · rfl
  rw [pass_eq, ← List.forM_eq_forM]
  refine Confined.forM fun x hx => ?_
  rcases mem_actions hx with ⟨e, he, rfl | rfl⟩ | ⟨m, hm, rfl⟩
  · refine (Action.confined _).mono ?_ (hentry e he)
    rintro _ rfl
    rfl
  · refine (Action.confined _).mono ?_ (hentry e he)
    rintro s (hs | rfl)
    · exact slotsOf_subset_readSlots (hb.entry_scheduled e he) (fun t ht => Or.inl ⟨e, he, ht⟩) hs
    · rfl
  · refine (Action.confined _).mono ?_ ?_
    · exact slotsOf_subset_readSlots (hb.marginal_scheduled m hm) fun t ht =>
        Or.inr ⟨m, hm, h.isJoint_of_mem_inbounds hm ht, ht⟩
    · rintro _ (rfl | ⟨x, hx, e, he, rfl⟩)
      · exact List.mem_map_of_mem hm
      · exact ⟨x, hx ▸ List.mem_map_of_mem hm, he⟩

/-! ## Independent blocks -/

theorem Independent.disjoint_reads (h : a.Independent b) (hid : a.id ≠ b.id) :
    Disjoint a.readSlots (b.writeSlots g) := by
  refine Set.disjoint_left.mpr fun s hr hw => ?_
  cases s with
  | message i => exact h.order i hr hw
  | phase id i => exact hid (hr.symm.trans hw)
  | marginal t => exact h.left t hr hw
  | edge e => exact hr

theorem Independent.symm (h : a.Independent b) : b.Independent a where
  order i hb ha := h.order i ha hb
  targets t hb ha := h.targets t ha hb
  left := h.right
  right := h.left

theorem Independent.disjoint_writes (h : a.Independent b) (hg : g.Coherent) (hid : a.id ≠ b.id) :
    Disjoint (a.writeSlots g) (b.writeSlots g) := by
  refine Set.disjoint_left.mpr fun s ha hb => ?_
  cases s with
  | message i => exact h.order i ha hb
  | phase id i => exact hid (ha.symm.trans hb)
  | marginal t => exact h.targets t ha hb
  | edge e =>
    -- an edge belongs to one variable
    obtain ⟨x, hx, hex⟩ := ha
    obtain ⟨y, hy, hey⟩ := hb
    cases (hg.owner_of_mem_edgesOf hex).symm.trans (hg.owner_of_mem_edgesOf hey)
    exact h.targets _ hx hy

end Block

namespace Posterior

variable {g : Graph} {c : Catalogue} {sites : List InterfaceId} {reject : Option Bool}
  {p q : Posterior} {ids : List String}

/-- A block that compiling answers is the one of its name. -/
theorem eq_of_mem_blocks {blocks : List Block} (hp : Built g p)
    (h : compile g c sites reject p = .ok ids q) (hblocks : ids.mapM q.block = .ok blocks)
    {a b : Block} (ha : a ∈ blocks) (hb : b ∈ blocks) (hid : a.id = b.id) : a = b := by
  have hq : Built g q := Attempt.outcome_snd_of_ok h ▸ Built.compile hp c sites reject
  have hget : ∀ x ∈ blocks, q.blocks.get? x.id = some x := by
    intro x hx
    obtain ⟨k, -, hk⟩ := exists_of_mem_mapM hblocks hx
    have hx := block_eq_ok.mp hk
    rw [(hq.madeFor k x hx).1, hx]
  exact Option.some.inj ((hget a ha).symm.trans (hid ▸ hget b hb))

/-- **Independent blocks of a compiled posterior may be run in any order.** If a pass over one and
then over the other succeeds, it does so the other way round, and every place of the memory holds
the same after it. -/
theorem comm_of_compile (hg : g.Built) (hp : Built g p)
    (h : compile g c sites reject p = .ok ids q) :
    ∃ blocks, ids.mapM q.block = .ok blocks ∧
      ∀ a ∈ blocks, ∀ b ∈ blocks, a.Independent b → ∀ o m m',
        (do a.pass g o; b.pass g o : Attempt Memory Unit) m = .ok () m' →
          ∃ m'', (do b.pass g o; a.pass g o : Attempt Memory Unit) m = .ok () m'' ∧
            ∀ s, m'.cell s = m''.cell s := by
  have hc := hg.coherent
  obtain ⟨blocks, hblocks, hcompiled⟩ := exists_blocks_of_compile hp h
  refine ⟨blocks, hblocks, fun a ha b hb hab o m m' hm => ?_⟩
  by_cases hid : a.id = b.id
  · obtain rfl := eq_of_mem_blocks hp h hblocks ha hb hid
    exact ⟨m', hm, fun _ => rfl⟩
  · obtain ⟨-, hma, hca⟩ := hcompiled a ha
    obtain ⟨-, hmb, hcb⟩ := hcompiled b hb
    have hxa := Block.confined_pass (Block.wired_of_compiled hc hma hca) hca o
    have hxb := Block.confined_pass (Block.wired_of_compiled hc hmb hcb) hcb o
    exact hxa.comm hxb (hab.disjoint_reads hid) (hab.symm.disjoint_reads (Ne.symm hid)).symm
      (hab.disjoint_writes hc hid) hm

/-- Two variables that are tied to a third one between them. -/
def hubGraph : Graph :=
  let pair : NodeRequest := { kind := "pair", interfaces := 2 }
  let prior : NodeRequest := { kind := "prior", interfaces := 1 }
  let t : TypeTerm := .dist "Gaussian" []
  let g := ((Graph.addNode pair).outcome ((Graph.addNode pair).outcome ∅).2).2
  let g := ((Graph.addNode prior).outcome ((Graph.addNode prior).outcome g).2).2
  let g := ((Graph.connect (.numbered 0) (some (.numbered 4)) (some "x") (some t)).outcome g).2
  let g := ((Graph.connect (.numbered 1) (some (.numbered 2)) (some "h") (some t)).outcome g).2
  ((Graph.connect (.numbered 3) (some (.numbered 5)) (some "y") (some t)).outcome g).2

theorem built_hubGraph : hubGraph.Built :=
  .connect (.connect (.connect (.addNode (.addNode (.addNode (.addNode .empty _) _) _) _)
    _ _ _ _) _ _ _ _) _ _ _ _

/-- A rule that answers a Gaussian, whatever arrives. -/
def hubRule (kind : String) (arity : Nat) (r : RuleType) (position : Option Int) : Rule where
  key := ⟨kind, r, position⟩
  inbounds := List.replicate arity .any
  outbound := .pattern (.dist "Gaussian" [])
  procedure := some fun _ => .ok (.dist "Gaussian" [] ∅)

/-- Rules for both ends of a tie, for what is known before, and for products. -/
def hubCatalogue : Catalogue :=
  ⟨[hubRule "pair" 2 .variational (some 0), hubRule "pair" 2 .variational (some 1),
    hubRule "prior" 1 .sumProduct (some 0), hubRule "product" 2 .product none]⟩

/-- The posterior with a block for each variable. -/
def hubPosterior : Posterior :=
  let p : Posterior := { options := wholeOptions }
  let p := ((addBlock hubGraph ["x"] (some "x")).outcome p).2
  let p := ((addBlock hubGraph ["h"] (some "h")).outcome p).2
  ((addBlock hubGraph ["y"] (some "y")).outcome p).2

theorem built_hubPosterior : Built hubGraph hubPosterior :=
  .addBlock (.addBlock (.addBlock (.fresh _) _ _) _ _) _ _

/-- The compiled posterior. -/
def hubCompiled : Posterior :=
  ((compile hubGraph hubCatalogue [] none).outcome hubPosterior).2

/-- A compiled block. -/
def hubBlock (id : String) : Block :=
  (hubCompiled.blocks.get? id).getD default

theorem mapM_block_hub : ["x", "h", "y"].mapM hubCompiled.block =
    .ok [hubBlock "x", hubBlock "h", hubBlock "y"] := by
  have hget : ∀ id ∈ ["x", "h", "y"], (hubCompiled.blocks.get? id).isSome := by
    rw [← List.all_eq_true]
    cbv
  have hblock : ∀ id ∈ ["x", "h", "y"], hubCompiled.block id = .ok (hubBlock id) := by
    intro id hid
    obtain ⟨b, hb⟩ := Option.isSome_iff_exists.mp (hget id hid)
    unfold block hubBlock
    rw [hb, Option.getD_some]
  rw [List.mapM_cons, List.mapM_cons, List.mapM_cons, hblock "x" (by simp), hblock "h" (by simp),
    hblock "y" (by simp)]
  rfl

/-- The outer blocks read the marginal of the variable between them. -/
theorem independent_hub : (hubBlock "x").Independent (hubBlock "y") := by
  have h : ["x", "y"].map (fun id => ((hubBlock id).order, (hubBlock id).marginalTargets,
      (hubBlock id).schedule.map (·.inbounds) ++ (hubBlock id).marginalTable.map (·.inbounds))) =
      [([0, 4], [.variable "x"],
          [[.nothing, .marginal (.variable "h")], [.nothing], [.message 0, .message 4]]),
        ([3, 5], [.variable "y"],
          [[.marginal (.variable "h"), .nothing], [.nothing], [.message 3, .message 5]])] := by
    cbv
  simp only [List.map_cons, List.map_nil, List.cons.injEq, Prod.mk.injEq, and_true] at h
  obtain ⟨⟨hxo, hxt, hxr⟩, hyo, hyt, hyr⟩ := h
  refine ⟨⟨?_, ?_⟩, fun t ht => ?_, fun t ht => ?_⟩
  · rw [hxo, hyo]
    decide
  · rw [hxt, hyt]
    decide
  · have hmem := ht.mem_inbounds
    rw [hxr] at hmem
    obtain rfl : t = .variable "h" := by simpa using hmem
    rw [hyt]
    simp
  · have hmem := ht.mem_inbounds
    rw [hyr] at hmem
    obtain rfl : t = .variable "h" := by simpa using hmem
    rw [hxt]
    simp

/-- What the outer blocks read. -/
def hubMemory : Memory :=
  Memory.putMarginal ∅ (.variable "h") (.dist "Gaussian" [] ∅)

/-- The outer variables may be updated in any order. -/
theorem comm_hub : hubGraph.Built ∧ Built hubGraph hubPosterior ∧
    ∃ q blocks a b m m', compile hubGraph hubCatalogue [] none hubPosterior =
        .ok ["x", "h", "y"] q ∧ ["x", "h", "y"].mapM q.block = .ok blocks ∧
      a ∈ blocks ∧ b ∈ blocks ∧ a.Independent b ∧
      (do a.pass hubGraph wholeOptions; b.pass hubGraph wholeOptions : Attempt Memory Unit) m =
        .ok () m' ∧
      ∃ m'', (do b.pass hubGraph wholeOptions; a.pass hubGraph wholeOptions :
        Attempt Memory Unit) m = .ok () m'' ∧ ∀ s, m'.cell s = m''.cell s := by
  have hc := Attempt.eq_ok_of_outcome (x := compile hubGraph hubCatalogue [] none)
    (s := hubPosterior) (a := ["x", "h", "y"]) (by cbv)
  have hpass := Attempt.eq_ok_of_outcome (s := hubMemory) (a := ())
    (x := do (hubBlock "x").pass hubGraph wholeOptions; (hubBlock "y").pass hubGraph wholeOptions)
    (by cbv)
  obtain ⟨blocks, hblocks, hcomm⟩ := comm_of_compile built_hubGraph built_hubPosterior hc
  cases hblocks.symm.trans mapM_block_hub
  have hx : hubBlock "x" ∈ [hubBlock "x", hubBlock "h", hubBlock "y"] := List.mem_cons_self
  have hy : hubBlock "y" ∈ [hubBlock "x", hubBlock "h", hubBlock "y"] := by simp
  exact ⟨built_hubGraph, built_hubPosterior, _, _, _, _, _, _, hc, hblocks, hx, hy,
    independent_hub, hpass, hcomm _ hx _ hy independent_hub _ _ _ hpass⟩

end Posterior

end MessagePassing
