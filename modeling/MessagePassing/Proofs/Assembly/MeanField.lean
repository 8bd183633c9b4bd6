import MessagePassing.Factorization
import MessagePassing.Proofs.Assembly.Outline
import MessagePassing.Proofs.Assembly.Overwriting
import MessagePassing.Proofs.Assembly.Overlap

/-!
# The mean-field factorization

The mean-field factorization passes over the variables by name. A variable gets a block of its own
unless every edge of it ends at a clamp, or some block has an edge of it already. Only the edges of
the variable are looked at. But where edges are listed at the nodes of their ends, a block consists
of whole classes of joined edges, so the new block has no edge in common with the others.

A single edge in another block is enough for a variable to be passed over. Its other edges are in a
block, too, if that edge leads to them, or if they are joined to edges of other variables; otherwise
they are left out.

Results:
* `Posterior.Pass` tells what a pass over some variables does, and `Posterior.addMeanField_eq_ok`
  that the mean-field factorization is the pass over all of them.
* **`Posterior.Built.separation_of_addMeanField`**: the new blocks are apart from each other and
  from all blocks that were there, and a second pass changes nothing.
* **`Posterior.covering_of_addMeanField`**: which edges are in a block after the pass over a fresh
  posterior.
* `Posterior.not_apart_stray`, `Posterior.not_covered_absorbed`: after a refused value blocks may
  overlap, and an edge of a variable that is not observed may be in no block.
-/

namespace MessagePassing

open Attempt (Keeps)

/-! ## Observed variables -/

namespace Graph

variable {g : Graph} {x : String} {e : EdgeId}

/-- An end of the edge belongs to a clamp. -/
def EndsAtClamp (g : Graph) (e : EdgeId) : Prop :=
  ∃ i ∈ g.ends e, ∃ n, g.nodeOf i = .ok n ∧ n.isClamp = true

/-- Every edge of the variable ends at a clamp. -/
def Observed (g : Graph) (x : String) : Prop :=
  ∀ e ∈ g.edgesOf x, g.EndsAtClamp e

theorem meetsClamp_eq_ok {l : List InterfaceId} {c : Bool} (h : g.meetsClamp l = .ok c) :
    c = true ↔ ∃ i ∈ l, ∃ n, g.nodeOf i = .ok n ∧ n.isClamp = true := by
  induction l with
  | nil =>
    cases h
    simp
  | cons i l ih =>
    obtain ⟨n, hn, h⟩ := bind_eq_ok.mp h
    rw [List.exists_mem_cons_iff]
    by_cases hc : n.isClamp = true
    · rw [if_pos hc] at h
      cases h
      exact iff_of_true rfl (Or.inl ⟨n, hn, hc⟩)
    · rw [if_neg hc] at h
      refine (ih h).trans (or_iff_right ?_).symm
      rintro ⟨n', hn', hc'⟩
      cases hn.symm.trans hn'
      exact hc hc'

theorem allObserved_eq_ok {l : List EdgeId} {c : Bool} (h : g.allObserved l = .ok c) :
    c = true ↔ ∀ e ∈ l, g.EndsAtClamp e := by
  induction l with
  | nil =>
    cases h
    simp
  | cons e l ih =>
    obtain ⟨c', hc', h⟩ := bind_eq_ok.mp h
    have he : c' = true ↔ g.EndsAtClamp e := meetsClamp_eq_ok hc'
    rw [List.forall_mem_cons, ← he]
    cases c' with
    | true => exact (ih h).trans (and_iff_right rfl).symm
    | false =>
      cases h
      simp

theorem isObserved_eq_ok {c : Bool} (h : g.isObserved x = .ok c) : c = true ↔ g.Observed x := by
  unfold isObserved at h
  unfold Observed edgesOf
  split at h
  · contradiction
  · rename_i edges hx
    rw [hx, Option.getD_some]
    exact allObserved_eq_ok h

theorem observed_of_isObserved (h : g.isObserved x = .ok true) : g.Observed x :=
  (isObserved_eq_ok h).mp rfl

theorem not_observed_of_isObserved (h : g.isObserved x = .ok false) : ¬ g.Observed x :=
  fun hx => Bool.false_ne_true ((isObserved_eq_ok h).mpr hx)

/-- A variable that is not observed has an edge. -/
theorem exists_edge_of_not_observed (h : ¬ g.Observed x) : ∃ e, e ∈ g.edgesOf x := by
  by_contra hnone
  exact h fun e he => absurd ⟨e, he⟩ hnone

theorem mem_keys_of_mem_edgesOf (h : e ∈ g.edgesOf x) : x ∈ g.variableEdges.keys := by
  unfold edgesOf at h
  cases hx : g.variableEdges.get? x with
  | none =>
    rw [hx] at h
    exact absurd h List.not_mem_nil
  | some edges => exact List.mem_map_of_mem (Table.mem_of_find? hx)

end Graph

/-! ## Blocks of whole classes -/

namespace Block

variable {g : Graph} {a b : Block} {x : String} {e : EdgeId}

/-- The block was made for the variable alone. -/
def MadeForOne (g : Graph) (x : String) (b : Block) : Prop :=
  ofVariables g b.id [x] = .ok b

theorem MadeForOne.madeFor (h : b.MadeForOne g x) : b.MadeFor g :=
  ⟨[x], by rw [(of_ofVariables h).2]; exact h⟩

/-- The edges of a block for a variable are those that it leads to. -/
theorem MadeForOne.mem_internal_iff (hg : g.Coherent) (h : b.MadeForOne g x) :
    e ∈ b.internal ↔ ∃ s ∈ g.edgesOf x, Leads (g.neighbours true []) s e := by
  rw [Block.mem_internal_iff hg (List.cons_ne_nil _ _) h]
  simp

theorem MadeForOne.mem_internal (hg : g.Coherent) (h : b.MadeForOne g x) (he : e ∈ g.edgesOf x) :
    e ∈ b.internal :=
  (h.mem_internal_iff hg).mpr ⟨e, he, .refl⟩

/-- **A block that has no edge of a variable has none in common with a block for it.** -/
theorem MadeForOne.disjoint (hg : g.Coherent) (hl : g.Listed) (ha : a.MadeFor g)
    (hb : b.MadeForOne g x) (hfree : ∀ s ∈ g.edgesOf x, s ∉ a.internal) :
    a.internal.Disjoint b.internal := by
  intro e hea heb
  obtain ⟨s, hs, hse⟩ := (hb.mem_internal_iff hg).mp heb
  -- where edges are listed, the edge leads back to that of the variable
  rw [Graph.leads_iff_joined hg hl] at hse
  have hes := (Graph.leads_iff_joined hg hl).mpr hse.symm
  exact hfree s hs ((ha.closedUnder hg).mem_of_leads hg hes hea)

end Block

namespace Posterior

variable {g : Graph} {p q r : Posterior} {b : Block} {added : List Block} {l : List String}
  {x : String} {e f : EdgeId}

/-! ## The blocks of a posterior -/

/-- Every operation enters blocks under their names. -/
theorem Built.nodup_keys (h : Built g p) : p.blocks.keys.Nodup := by
  have hput : ∀ (p : Posterior) (b : Block), p.blocks.keys.Nodup →
      (p.putBlock b).blocks.keys.Nodup := fun p b => Table.nodup_keys_insert
  have hreplace : ∀ id f, Keeps (fun p : Posterior => p.blocks.keys.Nodup) (replaceBlock id f) := by
    intro id f
    rw [replaceBlock_eq]
    exact keeps_onBlock_shared hput
  refine h.of_keeps (fun _ => List.nodup_nil) (fun requested id p hp => ?_)
    (fun _ id => Keeps.bind (hreplace id _) fun _ =>
      Keeps.bind (Keeps.modify fun _ h => h) fun _ => Keeps.pure _)
    (fun id => hreplace id _) (fun _ _ _ _ => keeps_onBlock_shared hput)
    (fun _ _ => keeps_assemble_shared hput (fun _ h => h) fun _ _ h => h)
    (fun id => Keeps.bind (hreplace id _) fun _ => Keeps.pure _) fun _ _ _ h => h
  obtain ⟨ids, ⟨f, h⟩ | ⟨b, -, -, h⟩⟩ := addBlock_cases g requested id p
  · rw [Attempt.outcome_snd_of_error h]
    exact hp
  · rw [Attempt.outcome_snd_of_ok h, blocks_register]
    exact hput _ b hp

/-- Every block that is listed was made for some variables. -/
theorem Built.madeFor_of_mem (h : Built g p) (hb : b ∈ p.blocks.values) : b.MadeFor g := by
  obtain ⟨k, hk⟩ := Table.exists_get?_of_mem_values h.nodup_keys hb
  exact (h.madeFor k b hk).2

/-- Some block has the edge. -/
def Covers (p : Posterior) (e : EdgeId) : Prop :=
  ∃ b ∈ p.blocks.values, e ∈ b.internal

theorem isSome_blockContaining? : (p.blockContaining? e).isSome = true ↔ p.Covers e := by
  unfold blockContaining? Covers
  simp

/-- A posterior with one block covers its edges. -/
theorem covers_iff_of_values {edges : List EdgeId}
    (h : p.blocks.values.map (·.internal) = [edges]) : p.Covers e ↔ e ∈ edges := by
  obtain ⟨b, hb, rfl⟩ := List.map_eq_singleton_iff.mp h
  unfold Covers
  simp [hb]

theorem not_covers_fresh (o : Options) (e : EdgeId) : ¬ Covers { options := o } e :=
  fun ⟨_, hb, _⟩ => absurd hb List.not_mem_nil

/-- With an edge, the blocks have all that it leads to. -/
theorem Built.covers_of_leads (hg : g.Coherent) (hp : Built g p) (he : p.Covers e)
    (hef : Leads (g.neighbours true []) e f) : p.Covers f := by
  obtain ⟨b, hb, he⟩ := he
  exact ⟨b, hb, ((hp.madeFor_of_mem hb).closedUnder hg).mem_of_leads hg hef he⟩

/-- A block that is added for a variable comes last. -/
theorem of_addBlock_one (h : addBlock g [x] none p = .ok b q) :
    b.MadeForOne g x ∧ q.blocks.values = p.blocks.values ++ [b] := by
  obtain ⟨ids, ⟨f, hf⟩ | ⟨b', hb, hfree, hok⟩⟩ := addBlock_cases g [x] none p
  · rw [h] at hf
    contradiction
  · rw [h] at hok
    cases hok
    rw [blocks_register]
    exact ⟨hb, Table.values_insert_of_free hfree⟩

/-- A variable gets a block under the next name, if that is free. -/
theorem exists_addBlock_one {name : String} (hname : (p.ids.next blockStem).1 = name)
    (hb : Block.ofVariables g name [x] = .ok b) (hfree : p.blocks.get? name = none) :
    ∃ q, addBlock g [x] none p = .ok b q := by
  subst hname
  unfold addBlock nameBlock Table.contains
  dsimp only
  rw [hb]
  dsimp only
  rw [hfree]
  exact ⟨_, rfl⟩

/-! ## A pass over the variables -/

/-- A pass over some variables leads from a posterior to another and adds some blocks. -/
inductive Pass (g : Graph) : List String → Posterior → List Block → Posterior → Prop
  | done (p : Posterior) : Pass g [] p [] p
  /-- An observed variable gets no block, -/
  | observed {x : String} {l : List String} {p q : Posterior} {added : List Block}
      (hx : g.isObserved x = .ok true) (hrest : Pass g l p added q) : Pass g (x :: l) p added q
  /-- nor does one that a block has an edge of. -/
  | absorbed {x : String} {l : List String} {p q : Posterior} {added : List Block}
      (hx : g.isObserved x = .ok false) (hedge : ∃ e ∈ g.edgesOf x, p.Covers e)
      (hrest : Pass g l p added q) : Pass g (x :: l) p added q
  /-- Every other variable gets a block. -/
  | added {x : String} {l : List String} {p r q : Posterior} {b : Block} {added : List Block}
      (hx : g.isObserved x = .ok false) (hfree : ∀ e ∈ g.edgesOf x, ¬ p.Covers e)
      (hb : addBlock g [x] none p = .ok b r) (hrest : Pass g l r added q) :
      Pass g (x :: l) p (b :: added) q

theorem any_blockContaining? {edges : List EdgeId} :
    (edges.any fun e => (p.blockContaining? e).isSome) = true ↔ ∃ e ∈ edges, p.Covers e := by
  rw [List.any_eq_true]
  simp only [isSome_blockContaining?]

/-- The next variable is passed over, or it gets a block. -/
theorem pass_cons_iff : Pass g (x :: l) p added q ↔
    ∃ o r rest, addLatent g x p = .ok o r ∧ Pass g l r rest q ∧ added = o.toList ++ rest := by
  unfold addLatent
  constructor
  · intro h
    cases h with
    | observed hx hrest => exact ⟨none, p, added, by rw [hx], hrest, rfl⟩
    | absorbed hx hedge hrest =>
      refine ⟨none, p, added, ?_, hrest, rfl⟩
      rw [hx]
      exact if_pos (any_blockContaining?.mpr hedge)
    | @added _ _ _ r _ b rest hx hfree hb hrest =>
      refine ⟨some b, r, rest, ?_, hrest, rfl⟩
      have hnone : ¬ ∃ e ∈ g.edgesOf x, p.Covers e := fun ⟨e, he, hcovered⟩ => hfree e he hcovered
      rw [hx]
      dsimp only
      rw [if_neg (mt any_blockContaining?.mp hnone), hb]
  · rintro ⟨o, r, rest, h, hrest, rfl⟩
    cases hx : g.isObserved x with
    | error f =>
      rw [hx] at h
      contradiction
    | ok c =>
      rw [hx] at h
      cases c with
      | true =>
        cases h
        exact .observed hx hrest
      | false =>
        dsimp only at h
        split at h
        · rename_i hedge
          cases h
          exact .absorbed hx (any_blockContaining?.mp hedge) hrest
        · rename_i hfree
          rw [any_blockContaining?] at hfree
          cases hb : addBlock g [x] none p with
          | error f p' =>
            rw [hb] at h
            contradiction
          | ok b p' =>
            rw [hb] at h
            cases h
            exact .added hx (fun e he hcovered => hfree ⟨e, he, hcovered⟩) hb hrest

theorem filterMap_id_cons (o : Option Block) (found : List (Option Block)) :
    (o :: found).filterMap id = o.toList ++ found.filterMap id := by
  cases o <;> rfl

theorem mapM_addLatent_iff :
    (∃ found, l.mapM (addLatent g) p = .ok found q ∧ found.filterMap id = added) ↔
      Pass g l p added q := by
  induction l generalizing p added with
  | nil =>
    constructor
    · rintro ⟨found, h, rfl⟩
      obtain ⟨rfl, rfl⟩ := Attempt.pure_eq_ok.mp h
      exact .done p
    · intro h
      cases h
      exact ⟨[], rfl, rfl⟩
  | cons x l ih =>
    rw [pass_cons_iff]
    simp only [List.mapM_cons, Attempt.bind_eq_ok, Attempt.pure_eq_ok]
    constructor
    · rintro ⟨_, ⟨o, r, hx, found, _, hl, rfl, rfl⟩, rfl⟩
      exact ⟨o, r, _, hx, ih.mp ⟨found, hl, rfl⟩, filterMap_id_cons o found⟩
    · rintro ⟨o, r, rest, hx, hrest, rfl⟩
      obtain ⟨found, hl, rfl⟩ := ih.mpr hrest
      exact ⟨_, ⟨o, r, hx, found, q, hl, rfl, rfl⟩, filterMap_id_cons o found⟩

/-- **The mean-field factorization is a pass over all variables by name.** -/
theorem addMeanField_eq_ok : addMeanField g p = .ok added q ↔
    Pass g (Ascending.ofList g.variableEdges.keys) p added q := by
  unfold addMeanField
  rw [← mapM_addLatent_iff]
  simp only [Attempt.bind_eq_ok, Attempt.pure_eq_ok]
  constructor
  · rintro ⟨found, r, h, rfl, rfl⟩
    exact ⟨found, h, rfl⟩
  · rintro ⟨found, h, rfl⟩
    exact ⟨found, q, h, rfl, rfl⟩

namespace Pass

theorem values (h : Pass g l p added q) : q.blocks.values = p.blocks.values ++ added := by
  induction h with
  | done p => exact (List.append_nil _).symm
  | observed _ _ ih => exact ih
  | absorbed _ _ _ ih => exact ih
  | added _ _ hb _ ih => rw [ih, (of_addBlock_one hb).2, List.append_assoc, List.singleton_append]

theorem covers_iff (h : Pass g l p added q) :
    q.Covers e ↔ p.Covers e ∨ ∃ b ∈ added, e ∈ b.internal := by
  unfold Covers
  rw [h.values]
  simp only [List.mem_append, or_and_right, exists_or]

theorem built (h : Pass g l p added q) (hp : Built g p) : Built g q := by
  induction h with
  | done p => exact hp
  | observed _ _ ih => exact ih hp
  | absorbed _ _ _ ih => exact ih hp
  | added _ _ hb _ ih => exact ih (Attempt.outcome_snd_of_ok hb ▸ .addBlock hp _ _)

/-- Each new block is for one variable that is not observed. -/
theorem latent (h : Pass g l p added q) (hb : b ∈ added) :
    ∃ x ∈ l, ¬ g.Observed x ∧ b.MadeForOne g x := by
  induction h with
  | done p => exact absurd hb List.not_mem_nil
  | observed _ _ ih =>
    obtain ⟨x, hx, h⟩ := ih hb
    exact ⟨x, List.mem_cons_of_mem _ hx, h⟩
  | absorbed _ _ _ ih =>
    obtain ⟨x, hx, h⟩ := ih hb
    exact ⟨x, List.mem_cons_of_mem _ hx, h⟩
  | added hx _ hadd _ ih =>
    rcases List.mem_cons.mp hb with rfl | hb
    · exact ⟨_, List.mem_cons_self, Graph.not_observed_of_isObserved hx, (of_addBlock_one hadd).1⟩
    · obtain ⟨x, hx, h⟩ := ih hb
      exact ⟨x, List.mem_cons_of_mem _ hx, h⟩

/-- Afterwards every variable is observed or has an edge in a block. -/
theorem skips (hg : g.Coherent) (h : Pass g l p added q) (hx : x ∈ l) :
    g.isObserved x = .ok true ∨
      g.isObserved x = .ok false ∧ ∃ e ∈ g.edgesOf x, q.Covers e := by
  induction h with
  | done p => exact absurd hx List.not_mem_nil
  | observed hy _ ih =>
    rcases List.mem_cons.mp hx with rfl | hx
    · exact Or.inl hy
    · exact ih hx
  | absorbed hy hedge hrest ih =>
    rcases List.mem_cons.mp hx with rfl | hx
    · obtain ⟨e, he, hcovered⟩ := hedge
      exact Or.inr ⟨hy, e, he, hrest.covers_iff.mpr (Or.inl hcovered)⟩
    · exact ih hx
  | added hy hfree hb hrest ih =>
    rcases List.mem_cons.mp hx with rfl | hx
    · obtain ⟨e, he⟩ := Graph.exists_edge_of_not_observed (Graph.not_observed_of_isObserved hy)
      have hin := (of_addBlock_one hb).1.mem_internal hg he
      exact Or.inr ⟨hy, e, he, (Pass.added hy hfree hb hrest).covers_iff.mpr
        (Or.inr ⟨_, List.mem_cons_self, hin⟩)⟩
    · exact ih hx

/-- A pass over variables that are all observed or have an edge in a block adds nothing. -/
theorem of_skips (h : ∀ x ∈ l, g.isObserved x = .ok true ∨
      g.isObserved x = .ok false ∧ ∃ e ∈ g.edgesOf x, p.Covers e) : Pass g l p [] p := by
  induction l with
  | nil => exact .done p
  | cons x l ih =>
    obtain ⟨hx | ⟨hx, hedge⟩, hl⟩ := List.forall_mem_cons.mp h
    · exact .observed hx (ih hl)
    · exact .absorbed hx hedge (ih hl)

/-- **Where edges are listed, the new blocks have no edge in common**, with each other or with the
blocks that were there. -/
theorem disjoint (hg : g.Coherent) (hl : g.Listed) (hp : Built g p) (h : Pass g l p added q) :
    added.Pairwise (fun a b => a.internal.Disjoint b.internal) ∧
      ∀ a ∈ p.blocks.values, ∀ b ∈ added, a.internal.Disjoint b.internal := by
  induction h with
  | done p => exact ⟨.nil, fun _ _ b hb => absurd hb List.not_mem_nil⟩
  | observed _ _ ih => exact ih hp
  | absorbed _ _ _ ih => exact ih hp
  | @added x l p r q b added hx hfree hb hrest ih =>
    obtain ⟨hone, hvalues⟩ := of_addBlock_one hb
    obtain ⟨hpairwise, hold⟩ := ih (Attempt.outcome_snd_of_ok hb ▸ .addBlock hp _ _)
    rw [hvalues] at hold
    refine ⟨List.pairwise_cons.mpr ⟨hold b (by simp), hpairwise⟩, fun a ha => ?_⟩
    refine List.forall_mem_cons.mpr ⟨?_, hold a (List.mem_append_left _ ha)⟩
    exact hone.disjoint hg hl (hp.madeFor_of_mem ha) fun s hs hsa => hfree s hs ⟨a, ha, hsa⟩

/-- A variable that is not observed has a block of its own, unless an edge of it was in a block
before the pass, or the pass has put one into a block for a variable of an earlier name. -/
theorem own_or_taken (h : Pass g l p added q) (hl : l.Pairwise (· < ·)) (hx : x ∈ l)
    (hlatent : ¬ g.Observed x) :
    (∃ b ∈ added, b.MadeForOne g x) ∨ (∃ e ∈ g.edgesOf x, p.Covers e) ∨
      ∃ b ∈ added, ∃ y < x, b.MadeForOne g y ∧ ∃ e ∈ g.edgesOf x, e ∈ b.internal := by
  induction h with
  | done p => exact absurd hx List.not_mem_nil
  | observed hy _ ih =>
    rcases List.mem_cons.mp hx with rfl | hx
    · exact absurd (Graph.observed_of_isObserved hy) hlatent
    · exact ih (List.pairwise_cons.mp hl).2 hx
  | absorbed _ hedge _ ih =>
    rcases List.mem_cons.mp hx with rfl | hx
    · exact Or.inr (Or.inl hedge)
    · exact ih (List.pairwise_cons.mp hl).2 hx
  | @added y l p r q b added _ _ hb _ ih =>
    obtain ⟨hlt, hl⟩ := List.pairwise_cons.mp hl
    obtain ⟨hone, hvalues⟩ := of_addBlock_one hb
    rcases List.mem_cons.mp hx with rfl | hx
    · exact Or.inl ⟨b, List.mem_cons_self, hone⟩
    · rcases ih hl hx with ⟨b', hb', h⟩ | ⟨e, he, b', hb', heb⟩ | ⟨b', hb', h⟩
      · exact Or.inl ⟨b', List.mem_cons_of_mem _ hb', h⟩
      · -- the block that has the edge was there before, or it is the one that has just been added
        rw [hvalues, List.mem_append, List.mem_singleton] at hb'
        rcases hb' with hb' | rfl
        · exact Or.inr (Or.inl ⟨e, he, b', hb', heb⟩)
        · exact Or.inr (Or.inr ⟨b', List.mem_cons_self, y, hlt x hx, hone, e, he, heb⟩)
      · exact Or.inr (Or.inr ⟨b', List.mem_cons_of_mem _ hb', h⟩)

end Pass

/-- A mean-field factorization passes over every variable that is not observed. -/
theorem mem_names_of_not_observed (hx : ¬ g.Observed x) :
    x ∈ Ascending.ofList g.variableEdges.keys := by
  obtain ⟨e, he⟩ := Graph.exists_edge_of_not_observed hx
  exact Ascending.mem_ofList.mpr (Graph.mem_keys_of_mem_edgesOf he)

/-- Afterwards some edge of it is in a block. -/
theorem touched_of_addMeanField (hg : g.Coherent) (h : addMeanField g p = .ok added q)
    (hx : ¬ g.Observed x) : ∃ e ∈ g.edgesOf x, q.Covers e := by
  have hmem := mem_names_of_not_observed hx
  rcases (addMeanField_eq_ok.mp h).skips hg hmem with hobserved | ⟨-, hedge⟩
  · exact absurd (Graph.observed_of_isObserved hobserved) hx
  · exact hedge

/-! ## Disjoint blocks -/

/-- What a mean-field factorization adds to the blocks of a posterior. -/
structure Separation (g : Graph) (p : Posterior) (added : List Block) (q : Posterior) : Prop where
  /-- The new blocks come after those that were there. -/
  blocks : q.blocks.values = p.blocks.values ++ added
  /-- Each is for one variable, which is not observed. -/
  latent : ∀ b ∈ added, ∃ x, ¬ g.Observed x ∧ b.MadeForOne g x
  /-- Where edges are listed, no two of them have an edge in common, -/
  pairwise : g.Listed → added.Pairwise fun a b => a.internal.Disjoint b.internal
  /-- and none has one in common with a block that was there. -/
  earlier : g.Listed → ∀ a ∈ p.blocks.values, ∀ b ∈ added, a.internal.Disjoint b.internal
  /-- Every variable that is not observed has an edge in some block now, -/
  touched : ∀ x, ¬ g.Observed x → ∃ e ∈ g.edgesOf x, q.Covers e
  /-- so a second pass changes nothing. -/
  again : addMeanField g q = .ok [] q

/-- **The blocks of a mean-field factorization are apart**, from each other and from all blocks that
were there, where edges are listed. -/
theorem Built.separation_of_addMeanField (hg : g.Built) (hp : Built g p)
    (h : addMeanField g p = .ok added q) : Separation g p added q := by
  have hpass := addMeanField_eq_ok.mp h
  have hagain : addMeanField g q = .ok [] q :=
    addMeanField_eq_ok.mpr (.of_skips fun x hx => hpass.skips hg.coherent hx)
  refine ⟨hpass.values, fun b hb => ?_, fun hl => (hpass.disjoint hg.coherent hl hp).1,
    fun hl => (hpass.disjoint hg.coherent hl hp).2,
    fun x hx => touched_of_addMeanField hg.coherent h hx, hagain⟩
  obtain ⟨x, -, hx⟩ := hpass.latent hb
  exact ⟨x, hx⟩

theorem intact_rowGraph : rowGraph.Intact :=
  .connect (.connect (.connect (.addNode (.addNode .empty _ ⟨none, rfl⟩) _ ⟨none, rfl⟩) _ _ _ _)
    _ _ _ _) _ _ _ _

/-- In the row, the first two variables have a block, and the third one gets one. -/
theorem separation_row : rowGraph.Built ∧ rowGraph.Listed ∧
    Built rowGraph (rowPosterior ["x", "y"]) ∧
    ∃ b q, addMeanField rowGraph (rowPosterior ["x", "y"]) = .ok [b] q ∧
      Separation rowGraph (rowPosterior ["x", "y"]) [b] q ∧ b.internal = [2] ∧
      (rowPosterior ["x", "y"]).blocks.values.map (·.internal) = [[0, 1]] := by
  have hg := intact_rowGraph.built
  have hp := built_rowPosterior ["x", "y"]
  have hold : (rowPosterior ["x", "y"]).blocks.values.map (·.internal) = [[0, 1]] := by cbv
  have hcovers : ∀ e, (rowPosterior ["x", "y"]).Covers e ↔ e ∈ [0, 1] := fun e =>
    covers_iff_of_values (by rw [hold])
  have hnew : (Block.ofVariables rowGraph "recognitionfactor_1" ["z"]).map (·.internal) =
      .ok [2] := by cbv
  obtain ⟨b, hb, hinternal⟩ := map_eq_ok.mp hnew
  obtain ⟨q, hq⟩ := exists_addBlock_one (p := rowPosterior ["x", "y"]) (by cbv) hb (by cbv)
  have hlatent : rowGraph.isObserved "x" = .ok false ∧ rowGraph.isObserved "y" = .ok false ∧
      rowGraph.isObserved "z" = .ok false := by cbv
  have hedges : rowGraph.edgesOf "x" = [0] ∧ rowGraph.edgesOf "y" = [1] ∧
      rowGraph.edgesOf "z" = [2] := by cbv
  have hnames : Ascending.ofList rowGraph.variableEdges.keys = ["x", "y", "z"] := by cbv
  have h : addMeanField rowGraph (rowPosterior ["x", "y"]) = .ok [b] q := by
    rw [addMeanField_eq_ok, hnames]
    refine .absorbed hlatent.1 ⟨0, ?_⟩ (.absorbed hlatent.2.1 ⟨1, ?_⟩
      (.added hlatent.2.2 ?_ hq (.done q)))
    · simp [hedges.1, hcovers]
    · simp [hedges.2.1, hcovers]
    · simp [hedges.2.2, hcovers]
  exact ⟨hg, intact_rowGraph.listed, hp, b, q, h, Built.separation_of_addMeanField hg hp h,
    hinternal, hold⟩

/-- An equality after a refused value. The interface that is left behind gets the edge of the
variable of the later name. -/
def strayGraph : Graph :=
  let n : NodeRequest := { kind := "equality", interfaces := 2, deterministic := true }
  let g := ((Graph.addNode n).outcome Block.refusedGraph).2
  let g := ((Graph.connect (.numbered 1) none (some "x") none).outcome g).2
  ((Graph.connect (.numbered 0) none (some "y") none).outcome g).2

/-- **After a refused value, blocks of a mean-field factorization may overlap**: the first edge does
not lead to the second one, which leads to the first. -/
theorem not_apart_stray : strayGraph.Built ∧ Built strayGraph { options := wholeOptions } ∧
    ∃ a b q, addMeanField strayGraph { options := wholeOptions } = .ok [a, b] q ∧
      ¬ a.internal.Disjoint b.internal := by
  have hfirst : ((addBlock strayGraph ["x"] none).outcome { options := wholeOptions }).1.map
      (·.internal) = .ok [0] := by cbv
  obtain ⟨a, ha, hai⟩ := map_eq_ok.mp hfirst
  replace ha := Attempt.eq_ok_of_outcome ha
  have hcovers : ∀ e, Covers ((addBlock strayGraph ["x"] none).outcome
      { options := wholeOptions }).2 e ↔ e ∈ [0] := fun e => covers_iff_of_values (by cbv)
  have hsecond : (Block.ofVariables strayGraph "recognitionfactor_2" ["y"]).map (·.internal) =
      .ok [0, 1] := by cbv
  obtain ⟨b, hb, hbi⟩ := map_eq_ok.mp hsecond
  obtain ⟨q, hq⟩ := exists_addBlock_one (p := ((addBlock strayGraph ["x"] none).outcome
    { options := wholeOptions }).2) (by cbv) hb (by cbv)
  have hlatent : strayGraph.isObserved "x" = .ok false ∧
      strayGraph.isObserved "y" = .ok false := by cbv
  have hedges : strayGraph.edgesOf "y" = [1] := by cbv
  have hnames : Ascending.ofList strayGraph.variableEdges.keys = ["x", "y"] := by cbv
  refine ⟨.connect (.connect (.addNode (.addNode .empty _) _) _ _ _ _) _ _ _ _, .fresh _, a, b, q,
    ?_, ?_⟩
  · rw [addMeanField_eq_ok, hnames]
    refine .added hlatent.1 (fun e _ => not_covers_fresh _ e) ha (.added hlatent.2 ?_ hq (.done q))
    simp [hedges, hcovers]
  · rw [hai, hbi]
    simp

/-! ## Covered edges -/

/-- What the blocks of a mean-field factorization have of the variables. -/
structure Covering (g : Graph) (added : List Block) (q : Posterior) : Prop where
  /-- The blocks are those that were added. -/
  blocks : q.blocks.values = added
  /-- An edge is in some block just if the variable of a block leads to it. -/
  covers_iff : ∀ e, q.Covers e ↔
    ∃ b ∈ added, ∃ y, b.MadeForOne g y ∧ ∃ s ∈ g.edgesOf y, Leads (g.neighbours true []) s e
  /-- A variable that is not observed has a block with all its edges, or a block for a variable of
  an earlier name has an edge of it. -/
  own_or_taken : ∀ x, ¬ g.Observed x →
    (∃ b ∈ added, b.MadeForOne g x ∧ ∀ e ∈ g.edgesOf x, e ∈ b.internal) ∨
      ∃ b ∈ added, ∃ y < x, b.MadeForOne g y ∧ ∃ e ∈ g.edgesOf x, e ∈ b.internal
  /-- So it has an edge in some block, -/
  touched : ∀ x, ¬ g.Observed x → ∃ e ∈ g.edgesOf x, q.Covers e
  /-- and all of its edges are in blocks if they lead to each other. -/
  whole : ∀ x, ¬ g.Observed x →
    (∀ e ∈ g.edgesOf x, ∀ f ∈ g.edgesOf x, Leads (g.neighbours true []) e f) →
    ∀ f ∈ g.edgesOf x, q.Covers f

/-- **A mean-field factorization has an edge of every variable that is not observed in a block, and
with it all that this edge leads to.** -/
theorem covering_of_addMeanField (hg : g.Built) {o : Options}
    (h : addMeanField g { options := o } = .ok added q) : Covering g added q := by
  have hpass := addMeanField_eq_ok.mp h
  have hq : Built g q := hpass.built (.fresh o)
  have htouched : ∀ x, ¬ g.Observed x → ∃ e ∈ g.edgesOf x, q.Covers e := fun x hx =>
    touched_of_addMeanField hg.coherent h hx
  refine ⟨hpass.values, fun e => ?_, fun x hx => ?_, htouched, fun x hx hleads f hf => ?_⟩
  · rw [hpass.covers_iff, or_iff_right (not_covers_fresh o e)]
    constructor
    · rintro ⟨b, hb, he⟩
      obtain ⟨y, -, -, hone⟩ := hpass.latent hb
      exact ⟨b, hb, y, hone, (hone.mem_internal_iff hg.coherent).mp he⟩
    · rintro ⟨b, hb, y, hone, hse⟩
      exact ⟨b, hb, (hone.mem_internal_iff hg.coherent).mpr hse⟩
  · rcases hpass.own_or_taken (Ascending.pairwise_ofList _) (mem_names_of_not_observed hx) hx with
      ⟨b, hb, hone⟩ | ⟨e, -, he⟩ | htaken
    · exact Or.inl ⟨b, hb, hone, fun e he => hone.mem_internal hg.coherent he⟩
    · exact absurd he (not_covers_fresh o e)
    · exact Or.inr htaken
  · obtain ⟨e, he, hcovered⟩ := htouched x hx
    exact hq.covers_of_leads hg.coherent hcovered (hleads e he f hf)

/-- Two edges at a deterministic node, and one at a soft node that belongs to the same variable as
the second. -/
def absorbedGraph (first second : String) : Graph :=
  let sum : NodeRequest := { kind := "sum", interfaces := 2, deterministic := true }
  let prior : NodeRequest := { kind := "prior", interfaces := 1 }
  let g := ((Graph.addNode prior).outcome ((Graph.addNode sum).outcome ∅).2).2
  let g := ((Graph.connect (.numbered 0) none (some first) none).outcome g).2
  let g := ((Graph.connect (.numbered 1) none (some second) none).outcome g).2
  ((Graph.connect (.numbered 2) none (some second) none).outcome g).2

theorem built_absorbedGraph (first second : String) : (absorbedGraph first second).Built :=
  .connect (.connect (.connect (.addNode (.addNode .empty _) _) _ _ _ _) _ _ _ _) _ _ _ _

/-- If the variable with two edges has the earlier name, its block has all edges. -/
theorem covering_absorbed : (absorbedGraph "y" "x").Built ∧
    ∃ added q, addMeanField (absorbedGraph "y" "x") { options := wholeOptions } = .ok added q ∧
      Covering (absorbedGraph "y" "x") added q ∧ added.map (·.internal) = [[0, 1, 2]] := by
  have hg := built_absorbedGraph "y" "x"
  have hadded : ((addMeanField (absorbedGraph "y" "x")).outcome { options := wholeOptions }).1.map
      (·.map (·.internal)) = .ok [[0, 1, 2]] := by cbv
  obtain ⟨added, ha, hinternal⟩ := map_eq_ok.mp hadded
  have h := Attempt.eq_ok_of_outcome ha
  exact ⟨hg, added, _, h, covering_of_addMeanField hg h, hinternal⟩

/-- **If it has the later name, one of its edges is in no block**: the block of the other variable
has taken its other edge. -/
theorem not_covered_absorbed : (absorbedGraph "x" "y").Built ∧
    ∃ added q, addMeanField (absorbedGraph "x" "y") { options := wholeOptions } = .ok added q ∧
      ¬ (absorbedGraph "x" "y").Observed "y" ∧ 2 ∈ (absorbedGraph "x" "y").edgesOf "y" ∧
      ¬ q.Covers 2 := by
  have hadded : ((addMeanField (absorbedGraph "x" "y")).outcome { options := wholeOptions }).1.map
      (·.map (·.internal)) = .ok [[0, 1]] := by cbv
  have hlatent : (absorbedGraph "x" "y").isObserved "y" = .ok false := by cbv
  have hedges : (absorbedGraph "x" "y").edgesOf "y" = [1, 2] := by cbv
  obtain ⟨added, ha, hinternal⟩ := map_eq_ok.mp hadded
  have h := Attempt.eq_ok_of_outcome ha
  have hx := Graph.not_observed_of_isObserved hlatent
  refine ⟨built_absorbedGraph "x" "y", added, _, h, hx, ?_, ?_⟩
  · rw [hedges]
    decide
  · have hcovers : Covers ((addMeanField (absorbedGraph "x" "y")).outcome
        { options := wholeOptions }).2 2 ↔ 2 ∈ [0, 1] := covers_iff_of_values (by cbv)
    rw [hcovers]
    decide

end Posterior

end MessagePassing
