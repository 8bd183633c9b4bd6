import MessagePassing.Proofs.Assembly.Overwriting
import MessagePassing.Proofs.Assembly.MeanField

/-!
# Blocks one after another

Blocks are asked for one after another. Some of the requests are refused, for a variable that does
not exist or a name that is taken, and the blocks that are made may overlap. Nothing is ever taken
out of the registries. So they tell of an edge, or of an edge at a node, what was entered for it
last.

* `Posterior.attemptBlocks`: the blocks that are made on a list of requests, and the posterior.

Results:
* `Posterior.Entered.attemptBlock`: what one request does to the registries.
* **`Posterior.tables_of_attempts`**: what the registries say after any requests.
-/

namespace MessagePassing

namespace Posterior

variable {g : Graph} {p q : Posterior}

/-! ## Requests -/

/-- Asks for one more block. -/
def attemptBlock (g : Graph) (s : List Block × Posterior) (r : List String × Option String) :
    List Block × Posterior :=
  match addBlock g r.1 r.2 s.2 with
  | .ok b p => (s.1 ++ [b], p)
  | .error _ p => (s.1, p)

/-- Asks for blocks one after another, each by its variables and by a name, unless it is to be made
up. What comes of it are the blocks that were made, oldest first, and the posterior. -/
def attemptBlocks (g : Graph) (options : Options) (requests : List (List String × Option String)) :
    List Block × Posterior :=
  requests.foldl (attemptBlock g) ([], { options })

/-- The registries are those of a list of blocks. -/
structure Entered (g : Graph) (s : List Block × Posterior) : Prop where
  /-- The blocks were made for some variables, -/
  madeFor : ∀ b ∈ s.1, b.MadeFor g
  /-- under different names. -/
  nodup : (s.1.map (·.id)).Nodup
  /-- They were entered one after another, -/
  blocks : s.2.blocks = Table.ofList (s.1.map fun b => (b.id, b))
  /-- each with the edges at its border -/
  owners : s.2.owners = Table.ofList (s.1.flatMap fun b => (b.border g).map (·, b.id))
  /-- and with its clusters. -/
  clusters : s.2.clusters = Table.ofList (s.1.flatMap fun b => clusterPlaces b.clusters)

/-- A request that is refused changes no registry. -/
theorem eq_of_addBlock_error {requested : List String} {id : Option String} {f : Failure}
    (h : addBlock g requested id p = .error f q) :
    q.blocks = p.blocks ∧ q.owners = p.owners ∧ q.clusters = p.clusters := by
  obtain ⟨ids, ⟨f, hf⟩ | ⟨b, -, -, hok⟩⟩ := addBlock_cases g requested id p
  · rw [h] at hf
    cases hf
    exact ⟨rfl, rfl, rfl⟩
  · rw [h] at hok
    contradiction

namespace Entered

theorem fresh (options : Options) : Entered g ([], { options }) :=
  ⟨nofun, List.nodup_nil, rfl, rfl, rfl⟩

theorem toList_blocks {s : List Block × Posterior} (h : Entered g s) :
    s.2.blocks.toList = s.1.map fun b => (b.id, b) := by
  have hnodup : ((s.1.map fun b => (b.id, b)).map Prod.fst).Nodup := by
    rw [List.map_map]
    exact h.nodup
  rw [h.blocks, Table.toList_ofList hnodup]

theorem not_mem_of_free {s : List Block × Posterior} (h : Entered g s) {id : String}
    (hfree : s.2.blocks.get? id = none) : ∀ b ∈ s.1, b.id ≠ id := by
  rintro b hb rfl
  have hlisted : (b.id, b) ∈ s.2.blocks.toList := h.toList_blocks ▸ List.mem_map_of_mem hb
  have hsome : (s.2.blocks.get? b.id).isSome := Table.isSome_find? hlisted
  rw [hfree] at hsome
  contradiction

/-- **A block that is made is entered last, and a request that is refused enters nothing.** -/
theorem attemptBlock {s : List Block × Posterior} (h : Entered g s)
    (r : List String × Option String) : Entered g (attemptBlock g s r) := by
  unfold Posterior.attemptBlock
  obtain ⟨ids, ⟨f, hf⟩ | ⟨b, hb, hfree, hok⟩⟩ := addBlock_cases g r.1 r.2 s.2
  · rw [hf]
    exact ⟨h.madeFor, h.nodup, h.blocks, h.owners, h.clusters⟩
  · rw [hok, register_eq_overwritten]
    have hmade : b.MadeFor g := ⟨r.1, by rw [(Block.of_ofVariables hb).2]; exact hb⟩
    refine ⟨?madeFor, ?nodup, ?blocks, ?owners, ?clusters⟩
    case madeFor =>
      exact List.forall_mem_append.mpr ⟨h.madeFor, List.forall_mem_singleton.mpr hmade⟩
    case nodup =>
      rw [List.map_append]
      refine List.nodup_append.mpr ⟨h.nodup, List.nodup_singleton _, ?_⟩
      intro i hi j hj
      obtain ⟨a, ha, rfl⟩ := List.mem_map.mp hi
      rw [List.mem_singleton.mp hj]
      exact h.not_mem_of_free hfree a ha
    case blocks =>
      rw [List.map_append, Table.ofList_append, ← h.blocks]
      rfl
    case owners =>
      rw [List.flatMap_append, Table.ofList_append, ← h.owners, List.flatMap_singleton]
      rfl
    case clusters =>
      rw [List.flatMap_append, Table.ofList_append, ← h.clusters, List.flatMap_singleton]

theorem attemptBlocks (g : Graph) (options : Options)
    (requests : List (List String × Option String)) :
    Entered g (attemptBlocks g options requests) :=
  List.foldlRecOn requests _ (fresh options) fun _ h r _ => h.attemptBlock r

end Entered

/-! ## What the registries say -/

/-- A cluster is entered under its node with each of its edges. -/
theorem clusterPlaces_flatMap (made : List Block) :
    (made.flatMap fun b => clusterPlaces b.clusters) =
      (made.flatMap (·.clusters)).flatMap fun c => (c.edges.map (c.node, ·)).map (·, c) := by
  rw [List.flatMap_assoc]
  unfold clusterPlaces
  simp only [List.map_map]
  rfl

/-- What the registries say after some blocks have been made. -/
structure Tables (g : Graph) (made : List Block) (p : Posterior) : Prop where
  /-- The blocks are listed in the order in which they were made, -/
  values : p.blocks.values = made
  /-- each under its name. -/
  keys : p.blocks.keys = made.map (·.id)
  /-- No name is listed twice. -/
  nodup : p.blocks.keys.Nodup
  /-- An edge belongs to the last block that has it at a node at its border, if there is one. -/
  owners : ∀ e, p.owners.get? e = ((made.filter fun b =>
    e ∈ b.internal ∧ ∃ n ∈ b.boundary, e ∈ g.edgesAt n).getLast?).map (·.id)
  /-- For an edge at a node, the last cluster there stands that has the edge. -/
  clusters : ∀ n e, p.clusters.get? (n, e) =
    ((made.flatMap (·.clusters)).filter fun c => c.node = n ∧ e ∈ c.edges).getLast?
  /-- A request that is refused changes none of this. -/
  refused : ∀ requested id f q, addBlock g requested id p = .error f q →
    q.blocks = p.blocks ∧ q.owners = p.owners ∧ q.clusters = p.clusters

/-- **After any requests, the registries say what the blocks that were made have entered last.** -/
theorem tables_of_attempts (g : Graph) (options : Options)
    (requests : List (List String × Option String)) :
    Tables g (attemptBlocks g options requests).1 (attemptBlocks g options requests).2 := by
  have h := Entered.attemptBlocks g options requests
  have hkeys : (attemptBlocks g options requests).2.blocks.keys =
      (attemptBlocks g options requests).1.map (·.id) := by
    unfold Table.keys
    rw [h.toList_blocks, List.map_map]
    rfl
  refine ⟨?values, hkeys, hkeys ▸ h.nodup, fun e => ?owners, fun n e => ?clusters,
    fun _ _ _ _ => eq_of_addBlock_error⟩
  case values =>
    unfold Table.values
    rw [h.toList_blocks, List.map_map]
    exact List.map_id _
  case owners =>
    -- the border of a block is what its boundary has of its edges
    rw [h.owners, Table.get?_ofList_flatMap]
    refine congrArg (fun l => (List.getLast? l).map Block.id)
      (List.filter_congr fun b hb => decide_eq_decide.mpr ?_)
    rw [(h.madeFor b hb).boundary_eq, and_comm]
    exact Block.mem_boundaryEdges
  case clusters =>
    rw [h.clusters, clusterPlaces_flatMap, Table.get?_ofList_flatMap, Option.map_id']
    refine congrArg List.getLast? (List.filter_congr fun c _ => decide_eq_decide.mpr ?_)
    simp [eq_comm, and_comm]

/-- Four requests at the fork: the second is for a variable that does not exist, the third under a
name that is taken, and the last block has an edge of the first one. -/
def forkRequests : List (List String × Option String) :=
  [(["x", "y"], some "xy"), (["w"], some "w"), (["z"], some "xy"), (["y", "z"], some "yz")]

/-- Two blocks are made, and the later one takes the edge that both have. -/
theorem tables_fork : let s := attemptBlocks forkGraph wholeOptions forkRequests
    Tables forkGraph s.1 s.2 ∧ s.1.map (·.id) = ["xy", "yz"] ∧
      s.2.owners.toList = [(0, "xy"), (1, "yz"), (2, "yz")] ∧
      s.2.clusters.toList = [((0, 0), ⟨0, [0, 1]⟩), ((0, 1), ⟨0, [1, 2]⟩), ((0, 2), ⟨0, [1, 2]⟩)] ∧
      ((addBlock forkGraph ["w"] (some "w")).outcome s.2).1.isOk = false := by
  refine ⟨tables_of_attempts _ _ _, ?_, ?_, ?_, ?_⟩
  · cbv
  · cbv
  · cbv
  · cbv

end Posterior

end MessagePassing
