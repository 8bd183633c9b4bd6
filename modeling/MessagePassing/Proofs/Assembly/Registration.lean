import Mathlib.Data.List.Nodup
import MessagePassing.Proofs.Assembly.Confluence

/-!
# The order of registration

Blocks are registered one after the other, and compiling goes through them in that order. If they
have no edge and no variable in common, then the order makes no difference: a cluster that stands
for an edge belongs to the one block of that edge, scheduling and tabulating look at one block at a
time, and so does the last test of the rules. Only the rounds of assembly let blocks depend on each
other, and these end in the same way.

Results:
* `registerAll_eq_ok`: when a list of blocks can be registered, and what that leaves.
* `alike_of_perm`: the order of registration makes no difference to what can be looked up.
* `Replaces.forM_of_perm`: nor does the order of operations on one block at a time.
* **`compile_of_alike`**: nor does the order in which compiling goes through the blocks.
* **`compile_registration_order`**: blocks registered in any order compile to the same, or fail.
-/

namespace MessagePassing

open Attempt (Keeps finish_get_bind finish_ofExcept_bind finish_modify_bind)

namespace Posterior

variable {g : Graph} {c : Catalogue} {sites : List InterfaceId} {p q : Posterior}
  {l l' : List (String × List String)} {bs bs' : List Block} {o : Options} {id : String}
  {requested : List String} {b : Block}

/-! ## Registering a list of blocks -/

/-- Registers blocks for lists of variables under given names. -/
def registerAll (g : Graph) (l : List (String × List String)) : Attempt Posterior Unit :=
  l.forM fun x => do let _ ← addBlock g x.2 (some x.1)

theorem keeps_registerAll (g : Graph) (l : List (String × List String)) :
    Keeps (Built g) (registerAll g l) :=
  Keeps.forM fun x _ =>
    Keeps.bind (fun _ h => Built.addBlock h x.2 (some x.1)) fun _ => Keeps.pure _

/-- A block is registered under a name that is free. -/
theorem addBlock_eq_ok : addBlock g requested (some id) p = .ok b q ↔
    Block.ofVariables g id requested = .ok b ∧ p.blocks.get? id = none ∧ q = p.register g b := by
  unfold addBlock nameBlock Table.contains
  dsimp only
  cases Block.ofVariables g id requested with
  | error f => simp
  | ok d =>
    cases p.blocks.get? id with
    | some e => simp
    | none =>
      simp only [Option.isSome_none, Bool.false_eq_true, if_false, EStateM.Result.ok.injEq,
        Except.ok.injEq, true_and]
      constructor
      · rintro ⟨rfl, rfl⟩
        exact ⟨rfl, rfl⟩
      · rintro ⟨rfl, rfl⟩
        exact ⟨rfl, rfl⟩

/-- A list of blocks is registered if they can be made and all names are free. -/
theorem registerAll_eq_ok : registerAll g l p = .ok () q ↔
    (l.map (·.1)).Nodup ∧ (∀ x ∈ l, p.blocks.get? x.1 = none) ∧
      ∃ bs, l.mapM (fun x => Block.ofVariables g x.1 x.2) = .ok bs ∧
        q = bs.foldl (register g) p := by
  induction l generalizing p with
  | nil =>
    constructor
    · intro h
      obtain ⟨-, rfl⟩ := Attempt.pure_eq_ok.mp h
      exact ⟨List.nodup_nil, fun _ h => absurd h List.not_mem_nil, [], rfl, rfl⟩
    · rintro ⟨-, -, bs, hbs, rfl⟩
      cases hbs
      rfl
  | cons x l ih =>
    -- after the first block, other names are free that were free before
    have hfree : ∀ b, b.id = x.1 → ∀ y : String × List String,
        (p.register g b).blocks.get? y.1 = none ↔ x.1 ≠ y.1 ∧ p.blocks.get? y.1 = none := by
      intro b hb y
      rw [blocks_register, get?_putBlock, hb]
      split <;> simp_all
    rw [List.map_cons, List.nodup_cons, List.forall_mem_cons, List.mapM_cons]
    constructor
    · intro h
      obtain ⟨_, p₁, hfirst, h⟩ := Attempt.bind_eq_ok.mp h
      obtain ⟨b, p₂, hb, hfirst⟩ := Attempt.bind_eq_ok.mp hfirst
      obtain ⟨-, rfl⟩ := Attempt.pure_eq_ok.mp hfirst
      obtain ⟨hmade, hx, rfl⟩ := addBlock_eq_ok.mp hb
      obtain ⟨hnodup, hl, bs, hbs, rfl⟩ := ih.mp h
      have hl' := fun y hy => (hfree b (Block.of_ofVariables hmade).1 y).mp (hl y hy)
      refine ⟨⟨fun hmem => ?_, hnodup⟩, ⟨hx, fun y hy => (hl' y hy).2⟩, b :: bs, ?_, rfl⟩
      · obtain ⟨y, hy, hyx⟩ := List.mem_map.mp hmem
        exact (hl' y hy).1 hyx.symm
      · exact bind_eq_ok.mpr ⟨b, hmade, bind_eq_ok.mpr ⟨bs, hbs, rfl⟩⟩
    · rintro ⟨⟨hxl, hnodup⟩, ⟨hx, hl⟩, bs, hbs, rfl⟩
      obtain ⟨b, hmade, hbs⟩ := bind_eq_ok.mp hbs
      obtain ⟨bs, hrest, hbs⟩ := bind_eq_ok.mp hbs
      cases pure_eq_ok.mp hbs
      have hfirst := addBlock_eq_ok.mpr ⟨hmade, hx, rfl⟩
      refine Attempt.bind_eq_ok.mpr ⟨(), _, Attempt.bind_eq_ok.mpr ⟨b, _, hfirst, rfl⟩, ?_⟩
      have hne : ∀ y ∈ l, x.1 ≠ y.1 := fun y hy hxy => hxl (hxy ▸ List.mem_map_of_mem hy)
      exact ih.mpr ⟨hnodup, fun y hy => (hfree b (Block.of_ofVariables hmade).1 y).mpr
        ⟨hne y hy, hl y hy⟩, bs, hrest, rfl⟩

/-- What registering a list of blocks leaves. -/
theorem foldl_register_eq (g : Graph) (bs : List Block) (p : Posterior) : ∃ owners warnings,
    bs.foldl (register g) p =
      { p with
        blocks := (bs.map fun b => (b.id, b)).foldl (fun t b => t.insert b.1 b.2) p.blocks
        owners
        clusters := (clusterPlaces (bs.flatMap (·.clusters))).foldl
          (fun t b => t.insert b.1 b.2) p.clusters
        warnings } := by
  induction bs generalizing p with
  | nil => exact ⟨p.owners, p.warnings, rfl⟩
  | cons b bs ih =>
    obtain ⟨owners, warnings, hb⟩ := register_eq g p b
    unfold clusterPlaces
    rw [List.foldl_cons, hb, List.flatMap_cons, List.flatMap_append, List.foldl_append]
    exact ih _

/-- The blocks of a list can be looked up once they are registered. -/
theorem get?_foldl_register (hids : (bs.map (·.id)).Nodup) {k : String} :
    (bs.foldl (register g) { options := o }).blocks.get? k = some b ↔ b ∈ bs ∧ b.id = k := by
  obtain ⟨owners, warnings, hq⟩ := foldl_register_eq g bs { options := o }
  rw [hq]
  refine (Table.get?_ofList (fun x hx y hy hxy => ?_) k b).trans ?_
  · obtain ⟨a, ha, rfl⟩ := List.mem_map.mp hx
    obtain ⟨b, hb, rfl⟩ := List.mem_map.mp hy
    rw [List.inj_on_of_nodup_map hids ha hb hxy]
  · rw [List.mem_map]
    constructor
    · rintro ⟨a, ha, hab⟩
      cases hab
      exact ⟨ha, rfl⟩
    · rintro ⟨hb, rfl⟩
      exact ⟨b, hb, rfl⟩

theorem inhabited_foldl_register (hids : (bs.map (·.id)).Nodup) :
    (bs.foldl (register g) { options := o }).inhabited =
      (bs.filter fun b => !b.isEmpty).map (·.id) := by
  obtain ⟨owners, warnings, hq⟩ := foldl_register_eq g bs { options := o }
  have hlist : (bs.foldl (register g) { options := o }).blocks.toList =
      bs.map fun b => (b.id, b) := by
    rw [hq]
    refine Table.toList_ofList ?_
    rw [List.map_map]
    exact hids
  unfold inhabited
  rw [hlist, List.filter_map, List.map_map]
  rfl

/-- Blocks that are made for a graph under different names, without an edge or a variable in
common. -/
structure Separate (g : Graph) (bs : List Block) : Prop where
  nodup : (bs.map (·.id)).Nodup
  madeFor : ∀ b ∈ bs, b.MadeFor g
  internal : ∀ a ∈ bs, ∀ b ∈ bs, a.id ≠ b.id → ∀ e ∈ a.internal, e ∉ b.internal

namespace Separate

theorem perm (h : Separate g bs) (hbs : bs'.Perm bs) : Separate g bs' where
  nodup := (hbs.map (·.id)).nodup_iff.mpr h.nodup
  madeFor b hb := h.madeFor b (hbs.mem_iff.mp hb)
  internal a ha b hb := h.internal a (hbs.mem_iff.mp ha) b (hbs.mem_iff.mp hb)

/-- One cluster stands for an edge at a node. -/
theorem eq_of_place (h : Separate g bs) {x y : (NodeId × EdgeId) × Cluster}
    (hx : x ∈ clusterPlaces (bs.flatMap (·.clusters)))
    (hy : y ∈ clusterPlaces (bs.flatMap (·.clusters))) (hxy : x.1 = y.1) : x = y := by
  obtain ⟨hx, hxn, hxe⟩ := mem_clusterPlaces.mp hx
  obtain ⟨hy, hyn, hye⟩ := mem_clusterPlaces.mp hy
  obtain ⟨a, ha, hx⟩ := List.mem_flatMap.mp hx
  obtain ⟨b, hb, hy⟩ := List.mem_flatMap.mp hy
  have hxedges := ((h.madeFor a ha).of_mem_clusters hx).1
  have hyedges := ((h.madeFor b hb).of_mem_clusters hy).1
  have hxa : x.1.2 ∈ a.internal := by
    rw [hxedges] at hxe
    exact of_decide_eq_true (List.mem_filter.mp hxe).2
  have hyb : x.1.2 ∈ b.internal := by
    rw [hyedges, ← hxy] at hye
    exact of_decide_eq_true (List.mem_filter.mp hye).2
  -- the edge tells the block, and the node its cluster
  have hab : a = b := by
    by_contra hne
    have hids : a.id ≠ b.id := fun hid => hne (List.inj_on_of_nodup_map h.nodup ha hb hid)
    exact h.internal a ha b hb hids _ hxa hyb
  subst hab
  have hnode : x.2.node = y.2.node := by rw [← hxn, ← hyn, hxy]
  have hcluster : x.2 = y.2 := by
    obtain ⟨_, n, edges⟩ := x
    obtain ⟨_, n', edges'⟩ := y
    obtain rfl : n = n' := hnode
    exact congrArg (Cluster.mk n) (hxedges.trans hyedges.symm)
  exact Prod.ext hxy hcluster

/-- The clusters of a list of blocks can be looked up once these are registered. -/
theorem get?_clusters (h : Separate g bs) {k : NodeId × EdgeId} {x : Cluster} :
    (bs.foldl (register g) { options := o }).clusters.get? k = some x ↔
      (k, x) ∈ clusterPlaces (bs.flatMap (·.clusters)) := by
  obtain ⟨owners, warnings, hq⟩ := foldl_register_eq g bs { options := o }
  rw [hq]
  exact Table.get?_ofList (fun _ hx _ hy => h.eq_of_place hx hy) k x

/-- **The order of registration makes no difference to what can be looked up.** -/
theorem alike_of_perm (h : Separate g bs) (hbs : bs'.Perm bs) :
    Alike (bs.foldl (register g) { options := o }) (bs'.foldl (register g) { options := o }) := by
  have h' := h.perm hbs
  refine ⟨fun k => Option.ext fun b => ?_, fun k => Option.ext fun x => ?_, fun t => ?_⟩
  · rw [get?_foldl_register h.nodup, get?_foldl_register h'.nodup, hbs.mem_iff]
  · rw [h.get?_clusters, h'.get?_clusters, mem_clusterPlaces, mem_clusterPlaces, List.mem_flatMap,
      List.mem_flatMap]
    simp only [hbs.mem_iff]
  · obtain ⟨owners, warnings, hq⟩ := foldl_register_eq g bs { options := o }
    obtain ⟨owners', warnings', hq'⟩ := foldl_register_eq g bs' { options := o }
    rw [hq, hq']

end Separate

/-! ## Operations on one block at a time -/

/-- An operation replaces the block of a name by what is computed from it, if that succeeds, and
leaves what the blocks share. -/
def Replaces (x : String → Attempt Posterior Unit) (f : Block → Except Failure Block) : Prop :=
  ∀ id p b, p.blocks.get? id = some b → b.id = id →
    (∀ q, x id p = .ok () q → ∃ d, f b = .ok d ∧ q.blocks = p.blocks.insert id d ∧ d.id = id ∧
      q.clusters = p.clusters ∧ q.marginalTypes = p.marginalTypes) ∧
    (∀ d, f b = .ok d → ∃ q, x id p = .ok () q)

namespace Replaces

variable {x : String → Attempt Posterior Unit} {f : Block → Except Failure Block}
  {ids ids' : List String}

/-- What a list of such operations leaves. -/
theorem of_forM (hx : Replaces x f) (hnodup : ids.Nodup)
    (hids : ∀ k ∈ ids, ∃ b, p.blocks.get? k = some b ∧ b.id = k)
    (h : ids.forM x p = .ok () q) :
    (∀ k ∈ ids, ∃ b d, p.blocks.get? k = some b ∧ f b = .ok d ∧ d.id = k ∧
      q.blocks.get? k = some d) ∧
    (∀ k ∉ ids, q.blocks.get? k = p.blocks.get? k) ∧
    q.clusters = p.clusters ∧ q.marginalTypes = p.marginalTypes := by
  induction ids generalizing p with
  | nil =>
    obtain ⟨-, rfl⟩ := Attempt.pure_eq_ok.mp h
    exact ⟨fun _ hk => absurd hk List.not_mem_nil, fun _ _ => rfl, rfl, rfl⟩
  | cons id ids ih =>
    obtain ⟨hid, hnodup⟩ := List.nodup_cons.mp hnodup
    obtain ⟨⟨b, hb, hbid⟩, hids⟩ := List.forall_mem_cons.mp hids
    obtain ⟨_, r, hr, h⟩ := Attempt.bind_eq_ok.mp h
    obtain ⟨d, hd, hblocks, hdid, hclusters, htypes⟩ := (hx id p b hb hbid).1 r hr
    have hother : ∀ k, k ≠ id → r.blocks.get? k = p.blocks.get? k := by
      intro k hk
      rw [hblocks, Table.get?_insert, if_neg (Ne.symm hk)]
    have hne : ∀ k ∈ ids, k ≠ id := fun k hk hkid => hid (hkid ▸ hk)
    obtain ⟨hin, hout, hc, ht⟩ :=
      ih hnodup (fun k hk => by rw [hother k (hne k hk)]; exact hids k hk) h
    refine ⟨List.forall_mem_cons.mpr ⟨⟨b, d, hb, hd, hdid, ?_⟩, fun k hk => ?_⟩, fun k hk => ?_,
      hc.trans hclusters, ht.trans htypes⟩
    · rw [hout id hid, hblocks, Table.get?_insert, if_pos rfl]
    · rw [← hother k (hne k hk)]
      exact hin k hk
    · obtain ⟨hkid, hk⟩ := List.ne_and_not_mem_of_not_mem_cons hk
      rw [hout k hk, hother k hkid]

/-- A list of such operations succeeds if each of them does by itself. -/
theorem exists_forM (hx : Replaces x f) (hnodup : ids.Nodup)
    (hids : ∀ k ∈ ids, ∃ b d, p.blocks.get? k = some b ∧ b.id = k ∧ f b = .ok d) :
    ∃ q, ids.forM x p = .ok () q := by
  induction ids generalizing p with
  | nil => exact ⟨p, rfl⟩
  | cons id ids ih =>
    obtain ⟨hid, hnodup⟩ := List.nodup_cons.mp hnodup
    obtain ⟨⟨b, d, hb, hbid, hd⟩, hids⟩ := List.forall_mem_cons.mp hids
    obtain ⟨r, hr⟩ := (hx id p b hb hbid).2 d hd
    obtain ⟨_, -, hblocks, -⟩ := (hx id p b hb hbid).1 r hr
    obtain ⟨q, hq⟩ := ih (p := r) hnodup fun k hk => by
      have hne : id ≠ k := fun h => hid (h ▸ hk)
      rw [hblocks, Table.get?_insert, if_neg hne]
      exact hids k hk
    exact ⟨q, Attempt.bind_eq_ok.mpr ⟨(), r, hr, hq⟩⟩

/-- **The order of operations on one block at a time makes no difference.** -/
theorem forM_of_perm {p' : Posterior} (hx : Replaces x f) (hnodup : ids.Nodup)
    (hperm : ids'.Perm ids) (hids : ∀ k ∈ ids, ∃ b, p.blocks.get? k = some b ∧ b.id = k)
    (halike : Alike p p') (h : ids.forM x p = .ok () q) :
    ∃ q', ids'.forM x p' = .ok () q' ∧ Alike q q' := by
  obtain ⟨hin, hout, hclusters, htypes⟩ := hx.of_forM hnodup hids h
  have hnodup' := hperm.nodup_iff.mpr hnodup
  have hids' : ∀ k ∈ ids', ∃ b, p'.blocks.get? k = some b ∧ b.id = k := fun k hk => by
    rw [halike.blocks]
    exact hids k (hperm.mem_iff.mp hk)
  obtain ⟨q', hq'⟩ := hx.exists_forM (p := p') hnodup' fun k hk => by
    obtain ⟨b, d, hb, hd, -⟩ := hin k (hperm.mem_iff.mp hk)
    obtain ⟨b', hb', hid⟩ := hids k (hperm.mem_iff.mp hk)
    cases hb.symm.trans hb'
    exact ⟨b, d, (halike.blocks k).trans hb, hid, hd⟩
  obtain ⟨hin', hout', hclusters', htypes'⟩ := hx.of_forM hnodup' hids' hq'
  refine ⟨q', hq', fun k => ?_, fun k => ?_, fun t => ?_⟩
  · by_cases hk : k ∈ ids
    · obtain ⟨b, d, hb, hd, -, hqd⟩ := hin k hk
      obtain ⟨b', d', hb', hd', -, hqd'⟩ := hin' k (hperm.mem_iff.mpr hk)
      rw [halike.blocks, hb] at hb'
      cases hb'
      cases hd.symm.trans hd'
      rw [hqd, hqd']
    · rw [hout k hk, hout' k fun hk' => hk (hperm.mem_iff.mp hk'), halike.blocks]
  · rw [hclusters, hclusters', halike.clusters]
  · rw [htypes, htypes', halike.types]

end Replaces

end Posterior

/-! ## Blocks that are laid out for assembly -/

namespace Block

variable {g : Graph} {sites : List InterfaceId} {reject : Bool} {b b₁ d : Block}

/-- The block with a schedule and a marginal table, unless it has a collider that is not allowed. -/
def laidOut (g : Graph) (sites : List InterfaceId) (reject : Bool) (b : Block) :
    Except Failure Block := do
  if g.hasCollider b.internal && reject then throw (.collider b.id)
  (← b.withSchedule g sites).withMarginalTable g

theorem laidOut_eq_ok : b.laidOut g sites reject = .ok d ↔
    (g.hasCollider b.internal && reject) = false ∧
      ∃ b₁, b.withSchedule g sites = .ok b₁ ∧ b₁.withMarginalTable g = .ok d := by
  unfold laidOut
  cases g.hasCollider b.internal && reject with
  | true =>
    constructor
    · intro h
      contradiction
    · rintro ⟨h, -⟩
      contradiction
  | false =>
    change (b.withSchedule g sites >>= fun b₁ => b₁.withMarginalTable g) = _ ↔ _
    rw [bind_eq_ok]
    exact (and_iff_right rfl).symm

theorem outline_of_laidOut (h : b.laidOut g sites reject = .ok d) : d.outline = b.outline := by
  obtain ⟨-, b₁, hs, hm⟩ := laidOut_eq_ok.mp h
  rw [outline_of_withMarginalTable hm, outline_of_withSchedule hs]

theorem internal_scope_of_laidOut (h : b.laidOut g sites reject = .ok d) :
    d.internal = b.internal ∧ d.scope = b.scope :=
  have houtline : d.outline = b.outline := outline_of_laidOut h
  have hinternal : d.outline.internal = b.outline.internal := by rw [houtline]
  have hscope : d.outline.scope = b.outline.scope := by rw [houtline]
  ⟨hinternal, hscope⟩

theorem prepared_of_laidOut (h : b.laidOut g sites reject = .ok d) : d.Prepared g sites := by
  obtain ⟨-, b₁, hs, hm⟩ := laidOut_eq_ok.mp h
  exact prepared_of_scheduled hs hm

/-- A new schedule and a new marginal table leave nothing of earlier attempts. -/
theorem clean_of_laidOut (hb : b.Clean g) (h : b.laidOut g sites reject = .ok d) : d.Clean g := by
  obtain ⟨-, b₁, hs, hm⟩ := laidOut_eq_ok.mp h
  have hmarginals := clean_of_withMarginalTable hm
  obtain ⟨-, -, rfl⟩ := withSchedule_eq_ok.mp hs
  obtain ⟨single, joint, -, -, rfl⟩ := withMarginalTable_eq_ok.mp hm
  refine ⟨fun e he => ?_, hmarginals, hb.runnable⟩
  obtain ⟨i, -, rfl⟩ := List.mem_map.mp he
  exact ⟨rfl, rfl, fun _ _ _ => ⟨rfl, rfl⟩⟩

end Block

namespace Posterior

variable {g : Graph} {c : Catalogue} {sites : List InterfaceId} {reject : Bool} {p q : Posterior}
  {l l' : List (String × List String)} {bs : List Block} {o : Options}

/-- Preparing a block lays it out, after a warning perhaps. -/
theorem finish_prepare {id : String} {b : Block} (hb : p.blocks.get? id = some b)
    (hid : b.id = id) : (prepare g sites reject id).finish p =
      b.laidOut g sites reject >>= fun d => .ok ((),
        ((if g.hasCollider b.internal then p.warn (.collider id) else p).putBlock d).forgetPhases
          id) := by
  have hrest : ∀ r : Posterior, r.blocks.get? id = some b → (do
      let _ ← scheduleBlock g sites id
      let _ ← tabulateBlock g id : Attempt Posterior Unit).finish r =
        (b.withSchedule g sites >>= fun b₁ => b₁.withMarginalTable g) >>= fun d =>
          .ok ((), (r.putBlock d).forgetPhases id) := by
    intro r hr
    unfold scheduleBlock tabulateBlock
    rw [bind_assoc, bind_assoc, finish_replaceBlock_bind hr]
    cases hs : b.withSchedule g sites with
    | error f => rfl
    | ok b₁ =>
      have hid₁ : b₁.id = id := (Block.id_of_outline (Block.outline_of_withSchedule hs)).trans hid
      have hb₁ : ((r.putBlock b₁).forgetPhases id).blocks.get? id = some b₁ := by
        change (r.putBlock b₁).blocks.get? id = _
        rw [get?_putBlock, if_pos hid₁]
      rw [ok_bind, ok_bind, bind_assoc, finish_modify_bind]
      change (replaceBlock id _ >>= _).finish _ = _
      rw [finish_replaceBlock_bind hb₁]
      cases hd : b₁.withMarginalTable g with
      | error f => rfl
      | ok d =>
        have hidd : b₁.id = d.id :=
          (Block.id_of_outline (Block.outline_of_withMarginalTable hd)).symm
        change Except.ok ((), ((r.putBlock b₁).putBlock d).forgetPhases id) = _
        rw [putBlock_putBlock hidd]
        rfl
  have hblock : p.block id = .ok b := block_eq_ok.mpr hb
  unfold prepare Block.laidOut
  rw [finish_get_bind, finish_ofExcept_bind, hblock, ok_bind]
  cases g.hasCollider b.internal with
  | false => exact hrest p hb
  | true =>
    cases reject with
    | true =>
      rw [← hid]
      rfl
    | false => exact hrest (p.warn (.collider id)) hb

theorem replaces_prepare : Replaces (prepare g sites reject) (Block.laidOut g sites reject) := by
  intro id p b hb hid
  have hfinish : (prepare g sites reject id).finish p = _ := finish_prepare hb hid
  refine ⟨fun q hq => ?_, fun d hd => ?_⟩
  · rw [Attempt.finish_eq_ok.mpr hq] at hfinish
    obtain ⟨d, hd, hq⟩ := bind_eq_ok.mp hfinish.symm
    cases hq
    have hdid : d.id = id := (Block.id_of_outline (Block.outline_of_laidOut hd)).trans hid
    refine ⟨d, hd, ?_, hdid, ?_, ?_⟩
    · rw [← hdid]
      split <;> rfl
    · split <;> rfl
    · split <;> rfl
  · rw [hd, ok_bind] at hfinish
    exact ⟨_, Attempt.finish_eq_ok.mp hfinish⟩

theorem replaces_makeRunnable : Replaces makeRunnable fun b =>
    b.checkProcedures.map fun _ => { b with runnable := true } := by
  intro id p b hb hid
  refine ⟨fun q hq => ?_, fun d hd => ?_⟩
  · obtain ⟨b', hb', hcheck, rfl⟩ := makeRunnable_eq_ok.mp hq
    cases hb.symm.trans hb'
    refine ⟨_, map_eq_ok.mpr ⟨(), hcheck, rfl⟩, ?_, hid, rfl, rfl⟩
    rw [← hid]
    rfl
  · obtain ⟨_, hcheck, rfl⟩ := map_eq_ok.mp hd
    exact ⟨_, makeRunnable_eq_ok.mpr ⟨b, hb, hcheck, rfl⟩⟩

/-! ## Compiling in any order -/

/-- No two blocks have an edge or a variable in common. -/
def Unrelated (p : Posterior) : Prop :=
  ∀ j k a b, p.blocks.get? j = some a → p.blocks.get? k = some b → j ≠ k →
    (∀ e ∈ a.internal, e ∉ b.internal) ∧ ∀ x ∈ a.scope, x ∉ b.scope

/-- A posterior as registration leaves it, with blocks that have nothing in common. -/
structure Registered (g : Graph) (p : Posterior) : Prop where
  built : Built g p
  clean : Each (Block.Clean g) p
  types : ∀ t, p.marginalTypes.get? t = none
  nodup : p.inhabited.Nodup
  unrelated : p.Unrelated

theorem exists_of_mem_inhabited {k : String} (h : k ∈ p.inhabited) :
    ∃ b, p.blocks.get? k = some b := by
  obtain ⟨x, hx, rfl⟩ := List.mem_map.mp h
  exact Option.isSome_iff_exists.mp (Table.isSome_find? (List.mem_filter.mp hx).1)

theorem keeps_prepare_built {id : String} : Keeps (Built g) (prepare g sites reject id) :=
  keeps_prepare (I := Built g) (fun _ h => .schedule h sites id) (fun _ h => .tabulate h id)
    (fun p w h => .report h p.phases (p.warnings ++ [w])) reject

/-- Blocks that have nothing in common are a family once they are laid out. -/
theorem Registered.exists_family {p₁ : Posterior} (hp : Registered g p) (hg : g.Clamped)
    (hplain : g.Plain) (hc : c.Plain)
    (h : p.inhabited.forM (prepare g sites reject) p = .ok () p₁) :
    Each (Block.Clean g) p₁ ∧ (∀ t, p₁.marginalTypes.get? t = none) ∧ ∃ b : String → Block,
      (∀ k ∈ p.inhabited, p₁.blocks.get? k = some (b k)) ∧ Family g c sites p.inhabited b := by
  have hat : ∀ k ∈ p.inhabited, ∃ b, p.blocks.get? k = some b ∧ b.id = k := fun k hk =>
    (exists_of_mem_inhabited hk).imp fun b hb => ⟨hb, (hp.clean k b hb).1⟩
  obtain ⟨hin, hout, -, htypes⟩ := replaces_prepare.of_forM hp.nodup hat h
  have hbuilt : Built g p₁ := (Keeps.forM fun _ _ => keeps_prepare_built).of_ok hp.built h
  obtain ⟨b, hb⟩ : ∃ b : String → Block, ∀ k ∈ p.inhabited, ∃ a, p.blocks.get? k = some a ∧
      a.laidOut g sites reject = .ok (b k) ∧ (b k).id = k ∧ p₁.blocks.get? k = some (b k) := by
    refine ⟨fun k => (p₁.blocks.get? k).getD default, fun k hk => ?_⟩
    obtain ⟨a, d, ha, hd, hid, hdk⟩ := hin k hk
    dsimp only
    rw [hdk]
    exact ⟨a, ha, hd, hid, rfl⟩
  have hblocks : ∀ k ∈ p.inhabited, p₁.blocks.get? k = some (b k) := fun k hk =>
    (hb k hk).choose_spec.2.2.2
  refine ⟨fun k d hd => ?_, fun t => by rw [htypes, hp.types], b, hblocks, hg, hplain, hc,
    fun k hk => (hb k hk).choose_spec.2.2.1, fun k hk => ?_,
    fun k hk => (hbuilt.madeFor k (b k) (hblocks k hk)).2, fun j hj k hk hjk t htj htk => ?_⟩
  · by_cases hk : k ∈ p.inhabited
    · obtain ⟨a, ha, hlaid, hid, hdk⟩ := hb k hk
      cases hdk.symm.trans hd
      exact ⟨hid, Block.clean_of_laidOut (hp.clean k a ha).2 hlaid⟩
    · rw [hout k hk] at hd
      exact hp.clean k d hd
  · obtain ⟨a, -, hlaid, -⟩ := hb k hk
    exact Block.prepared_of_laidOut hlaid
  · -- a marginal that two blocks compute is that of a variable that they share
    obtain ⟨a, ha, hlaid, -⟩ := hb j hj
    obtain ⟨a', ha', hlaid', -⟩ := hb k hk
    obtain ⟨hedges, hvariables⟩ := hp.unrelated j k a a' ha ha' hjk
    obtain ⟨hinternal, hscope⟩ := Block.internal_scope_of_laidOut hlaid
    obtain ⟨hinternal', hscope'⟩ := Block.internal_scope_of_laidOut hlaid'
    rw [← hinternal, ← hinternal'] at hedges
    rw [← hscope, ← hscope'] at hvariables
    obtain ⟨x, -, hxj, hxk, -⟩ :=
      hbuilt.shared_marginal hg.built (hblocks j hj) (hblocks k hk) hedges htj htk
    exact hvariables x hxj hxk

/-- **The order in which compiling goes through the blocks makes no difference**, if they have
nothing in common. -/
theorem compile_of_alike {p' : Posterior} {ids : List String} {reject : Option Bool}
    (hg : g.Clamped) (hplain : g.Plain) (hc : c.Plain) (hp : Registered g p) (halike : Alike p p')
    (hids : p'.inhabited.Perm p.inhabited) (hoptions : p'.options = p.options)
    (h : compile g c sites reject p = .ok ids q) :
    ∃ ids' q', compile g c sites reject p' = .ok ids' q' ∧ ids'.Perm ids ∧ Alike q q' := by
  obtain ⟨rfl, p₁, p₂, hprepare, hassemble, hrun⟩ := compile_eq_ok.mp h
  obtain ⟨hclean, hnone, b, hblocks, hf⟩ := hp.exists_family hg hplain hc hprepare
  -- the blocks are laid out
  have hat : ∀ k ∈ p.inhabited, ∃ b, p.blocks.get? k = some b ∧ b.id = k := fun k hk =>
    (exists_of_mem_inhabited hk).imp fun b hb => ⟨hb, (hp.clean k b hb).1⟩
  obtain ⟨p₁', hprepare', halike₁⟩ :=
    replaces_prepare.forM_of_perm hp.nodup hids hat halike hprepare
  -- and assembled in rounds
  have hprogress : Progress g c b p.inhabited p.inhabited p₁ :=
    .start hblocks hclean hnone hp.nodup fun _ => Iff.rfl
  have hprogress' : Progress g c b p.inhabited p'.inhabited p₁' :=
    .start (fun k hk => (halike₁.blocks k).trans (hblocks k hk)) (halike₁.each hclean)
      (fun t => (halike₁.types t).trans (hnone t)) (hids.nodup_iff.mpr hp.nodup)
      fun _ => hids.mem_iff
  obtain ⟨p₂', hassemble', halike₂⟩ :=
    assembleAll_of_perm hf hprogress hprogress' halike₁ hassemble
  -- and made runnable
  obtain ⟨hdone, -⟩ := hprogress.of_attempts hf (attempts_of_assembleAll hassemble)
  have hat₂ : ∀ k ∈ p.inhabited, ∃ b, p₂.blocks.get? k = some b ∧ b.id = k := fun k hk =>
    (hdone.intact.exists_block hk).imp fun d hd => ⟨hd.1, hd.2.1⟩
  obtain ⟨q', hrun', hqq'⟩ := replaces_makeRunnable.forM_of_perm hp.nodup hids hat₂ halike₂ hrun
  exact ⟨p'.inhabited, q', compile_eq_ok.mpr ⟨rfl, p₁', p₂', by rwa [hoptions], hassemble', hrun'⟩,
    hids, hqq'⟩

/-- What registration leaves is told by what can be looked up. -/
theorem Registered.of_alike {p' : Posterior} (hp : Registered g p) (hbuilt : Built g p')
    (halike : Alike p p') (hids : p'.inhabited.Perm p.inhabited) : Registered g p' where
  built := hbuilt
  clean := halike.each hp.clean
  types t := (halike.types t).trans (hp.types t)
  nodup := hids.nodup_iff.mpr hp.nodup
  unrelated j k a b ha hb := by
    rw [halike.blocks] at ha hb
    exact hp.unrelated j k a b ha hb

/-- The blocks of a list of names and variables have these names, and nothing else yet. -/
theorem of_mapM_ofVariables (h : l.mapM (fun x => Block.ofVariables g x.1 x.2) = .ok bs) :
    bs.map (·.id) = l.map (·.1) ∧ ∀ b ∈ bs, b.MadeFor g ∧ b.Clean g := by
  constructor
  · replace h := mapM_eq_ok.mp h
    induction h with
    | nil => rfl
    | cons hb _ ih => rw [List.map_cons, List.map_cons, ih, (Block.of_ofVariables hb).1]
  · intro b hb
    obtain ⟨x, -, hx⟩ := exists_of_mem_mapM h hb
    obtain ⟨hid, houtline⟩ := Block.of_ofVariables hx
    refine ⟨⟨x.2, ?_⟩, ?_⟩
    · rw [houtline, hid, hx]
    · rw [← houtline]
      exact ⟨fun _ h => absurd h List.not_mem_nil, fun _ h => absurd h List.not_mem_nil, rfl⟩

/-- **Blocks that can be registered in one order can be registered in any other**, with the same
result. -/
theorem registered_of_perm (hl : l'.Perm l) (h : registerAll g l { options := o } = .ok () p)
    (hp : p.Unrelated) : ∃ p', registerAll g l' { options := o } = .ok () p' ∧
      Registered g p ∧ Registered g p' ∧ Alike p p' ∧ p'.inhabited.Perm p.inhabited ∧
      p'.options = p.options := by
  have hbuilt : Built g p := (keeps_registerAll g l).of_ok (.fresh o) h
  obtain ⟨hnodup, -, bs, hbs, rfl⟩ := registerAll_eq_ok.mp h
  obtain ⟨bs', hbs', hperm⟩ := mapM_of_perm hl hbs
  obtain ⟨hnames, hmade⟩ := of_mapM_ofVariables hbs
  rw [← hnames] at hnodup
  have hnodup' : (l'.map (·.1)).Nodup := by
    rw [← (of_mapM_ofVariables hbs').1]
    exact (hperm.map (·.id)).nodup_iff.mpr hnodup
  have h' : registerAll g l' { options := o } = .ok () (bs'.foldl (register g) { options := o }) :=
    registerAll_eq_ok.mpr ⟨hnodup', fun _ _ => Table.get?_empty _, bs', hbs', rfl⟩
  have hseparate : Separate g bs := ⟨hnodup, fun b hb => (hmade b hb).1, fun a ha b hb hne =>
    (hp a.id b.id a b ((get?_foldl_register hnodup).mpr ⟨ha, rfl⟩)
      ((get?_foldl_register hnodup).mpr ⟨hb, rfl⟩) hne).1⟩
  have halike := hseparate.alike_of_perm (o := o) hperm
  have hinhabited := inhabited_foldl_register (g := g) (o := o) hnodup
  have hids : (bs'.foldl (register g) { options := o }).inhabited.Perm
      (bs.foldl (register g) { options := o }).inhabited := by
    rw [hinhabited, inhabited_foldl_register (hseparate.perm hperm).nodup]
    exact (hperm.filter _).map _
  obtain ⟨_, _, hq⟩ := foldl_register_eq g bs { options := o }
  obtain ⟨_, _, hq'⟩ := foldl_register_eq g bs' { options := o }
  have hregistered : Registered g (bs.foldl (register g) { options := o }) := by
    refine ⟨hbuilt, fun k b hb => ?_, fun t => ?_, ?_, hp⟩
    · obtain ⟨hb, hid⟩ := (get?_foldl_register hnodup).mp hb
      exact ⟨hid, (hmade b hb).2⟩
    · rw [hq]
      rfl
    · rw [hinhabited]
      exact hnodup.sublist ((List.filter_sublist).map _)
  exact ⟨_, h', hregistered,
    hregistered.of_alike ((keeps_registerAll g l').of_ok (.fresh o) h') halike hids, halike, hids,
    by rw [hq, hq']⟩

/-- **Blocks that have nothing in common compile to the same, whatever the order in which they are
registered**, or they fail to compile in every order. -/
theorem compile_registration_order {reject : Option Bool} (hg : g.Clamped) (hplain : g.Plain)
    (hc : c.Plain) (hl : l'.Perm l) (h : registerAll g l { options := o } = .ok () p)
    (hp : p.Unrelated) : ∃ p', registerAll g l' { options := o } = .ok () p' ∧
      ((∃ f q f' q', compile g c sites reject p = .error f q ∧
          compile g c sites reject p' = .error f' q') ∨
        ∃ ids q ids' q', compile g c sites reject p = .ok ids q ∧
          compile g c sites reject p' = .ok ids' q' ∧ ids'.Perm ids ∧
          (∀ id, q'.blocks.get? id = q.blocks.get? id) ∧
          ∀ t, q'.marginalTypes.get? t = q.marginalTypes.get? t) := by
  obtain ⟨p', h', hregistered, hregistered', halike, hids, hoptions⟩ := registered_of_perm hl h hp
  refine ⟨p', h', ?_⟩
  cases hq : compile g c sites reject p with
  | ok ids q =>
    obtain ⟨ids', q', hq', hperm, hqq'⟩ :=
      compile_of_alike hg hplain hc hregistered halike hids hoptions hq
    exact Or.inr ⟨ids, q, ids', q', rfl, hq', hperm, hqq'.blocks, hqq'.types⟩
  | error f q =>
    cases hq' : compile g c sites reject p' with
    | error f' q' => exact Or.inl ⟨f, q, f', q', rfl, rfl⟩
    | ok ids' q' =>
      obtain ⟨ids, r, hr, -⟩ := compile_of_alike hg hplain hc hregistered' halike.symm hids.symm
        hoptions.symm hq'
      rw [hq] at hr
      contradiction

/-! ## A block that waits in one order -/

/-- Two tied variables, the second of which is tied to an observed value. Nothing is declared for
it. -/
def relayGraph : Graph :=
  let pair : NodeRequest := { kind := "pair", interfaces := 2 }
  let t : TypeTerm := .dist "Gaussian" []
  let g := ((Graph.addNode pair).outcome ((Graph.addNode pair).outcome ∅).2).2
  let g := ((Graph.addNode { kind := "prior", interfaces := 1 }).outcome g).2
  let g := ((Graph.addClamp (.list []) none).outcome g).2
  let g := ((Graph.connect (.numbered 0) (some (.numbered 4)) (some "x") (some t)).outcome g).2
  let g := ((Graph.connect (.numbered 1) (some (.numbered 2)) (some "h") none).outcome g).2
  ((Graph.connect (.numbered 3) (some (.numbered 5)) (some "y") none).outcome g).2

theorem clamped_relayGraph : relayGraph.Clamped :=
  .connect (.connect (.connect (.addClamp (.addNode (.addNode (.addNode .empty _ (Or.inl rfl)) _
    (Or.inl rfl)) _ (Or.inl rfl)) _ _) _ _ _ _) _ _ _ _) _ _ _ _

theorem plain_relayGraph : relayGraph.Plain := by
  have hall : (relayGraph.edges.all fun x => x.declared.all (·.isPlain)) = true := by cbv
  intro e d hd
  obtain ⟨x, hx, hd⟩ := Option.bind_eq_some_iff.mp hd
  have h := List.all_eq_true.mp hall x (List.mem_of_getElem? hx)
  rwa [hd] at h

/-- A rule that answers a Gaussian, whatever arrives. -/
def relayRule (r : RuleKey × Nat) : Rule where
  key := r.1
  inbounds := List.replicate r.2 .any
  outbound := .pattern (.dist "Gaussian" [])
  procedure := some fun _ => .ok (.dist "Gaussian" [] ∅)

/-- Rules for both ends of a tie, for what is known before, and for products. -/
def relayCatalogue : Catalogue :=
  ⟨[(⟨"pair", .variational, some 0⟩, 2), (⟨"pair", .variational, some 1⟩, 2),
    (⟨"prior", .sumProduct, some 0⟩, 1), (⟨"product", .product, none⟩, 2)].map relayRule⟩

theorem plain_relayCatalogue : relayCatalogue.Plain := by
  intro r hr
  obtain ⟨x, -, rfl⟩ := List.mem_map.mp hr
  exact Rule.plain_of_pattern rfl rfl

/-- The posterior with a block for each of the two variables. -/
def relayPosterior : Posterior :=
  ((registerAll relayGraph [("x", ["x"]), ("h", ["h"])]).outcome { options := wholeOptions }).2

theorem unrelated_relayPosterior : relayPosterior.Unrelated := by
  have hblocks : relayPosterior.blocks.toList.map (fun b => (b.1, b.2.internal, b.2.scope)) =
      [("x", [0], ["x"]), ("h", [1], ["h"])] := by cbv
  have hat : ∀ j a, relayPosterior.blocks.get? j = some a →
      (j, a.internal, a.scope) ∈ [("x", [0], ["x"]), ("h", [1], ["h"])] := fun j a ha => by
    rw [← hblocks]
    exact List.mem_map_of_mem (Table.mem_of_find? ha)
  intro j k a b ha hb hjk
  have hdisjoint : ∀ s ∈ [("x", [0], ["x"]), ("h", [1], ["h"])],
      ∀ t ∈ [("x", [0], ["x"]), ("h", [1], ["h"])], s.1 ≠ t.1 →
        (∀ e ∈ s.2.1, e ∉ t.2.1) ∧ ∀ x ∈ s.2.2, x ∉ t.2.2 := by decide
  exact hdisjoint _ (hat j a ha) _ (hat k b hb) hjk

/-- The first variable waits for the second one, if its block comes first. -/
theorem registration_order_relay : relayGraph.Clamped ∧ relayGraph.Plain ∧ relayCatalogue.Plain ∧
    [("h", ["h"]), ("x", ["x"])].Perm [("x", ["x"]), ("h", ["h"])] ∧
    registerAll relayGraph [("x", ["x"]), ("h", ["h"])] { options := wholeOptions } =
      .ok () relayPosterior ∧ relayPosterior.Unrelated ∧
    ∃ p', registerAll relayGraph [("h", ["h"]), ("x", ["x"])] { options := wholeOptions } =
        .ok () p' ∧ ∃ q ids' q',
      compile relayGraph relayCatalogue [] none relayPosterior = .ok ["x", "h"] q ∧
      compile relayGraph relayCatalogue [] none p' = .ok ids' q' ∧ ids'.Perm ["x", "h"] ∧
      (∀ id, q'.blocks.get? id = q.blocks.get? id) ∧
      ∀ t, q'.marginalTypes.get? t = q.marginalTypes.get? t := by
  have hl : [("h", ["h"]), ("x", ["x"])].Perm [("x", ["x"]), ("h", ["h"])] := .swap _ _ _
  have hp := Attempt.eq_ok_of_outcome (a := ()) (s := { options := wholeOptions })
    (x := registerAll relayGraph [("x", ["x"]), ("h", ["h"])]) (by cbv)
  have hq := Attempt.eq_ok_of_outcome (a := ["x", "h"]) (s := relayPosterior)
    (x := compile relayGraph relayCatalogue [] none) (by cbv)
  obtain ⟨p', hp', h⟩ := @compile_registration_order relayGraph relayCatalogue [] _ _ _ _ none
    clamped_relayGraph plain_relayGraph plain_relayCatalogue hl hp unrelated_relayPosterior
  refine ⟨clamped_relayGraph, plain_relayGraph, plain_relayCatalogue, hl, hp,
    unrelated_relayPosterior, p', hp', ?_⟩
  rcases h with ⟨f, r, _, _, hr, -⟩ | ⟨ids, q, ids', q', hids, hids', hperm, hblocks, htypes⟩
  · have h := hq.symm.trans hr
    contradiction
  · cases hq.symm.trans hids
    exact ⟨_, ids', q', hq, hids', hperm, hblocks, htypes⟩

end Posterior

end MessagePassing
