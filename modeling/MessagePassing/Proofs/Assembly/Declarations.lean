import MessagePassing.Proofs.Assembly.Publication
import MessagePassing.Proofs.Run.FirstValues
import MessagePassing.Proofs.Types.Products

/-!
# How far declared types bind marginals

A type may be declared for every edge of a variable. The marginal of the variable is compared with
all declarations if it is a copy of a message. If it is a product, only the declaration of the
oldest edge is a constraint, and on layers of factors it is one layer by layer. All declarations are
looked at when an execution gives first values, which is then refused.

Results:
* `Posterior.holds_of_compile`: compiled blocks have what assembling gives them.
* `Posterior.enforced_of_compiled`: how the declarations bind a compiled marginal.
* `Program.allowed_of_start`, `Program.forbidden_of_start`: first values are given just if all
  declarations admit the types of the marginals, as far as declarations matter.
* **`Posterior.declared_of_compile`**: so only products may be refused, and only for a declaration
  that was no constraint as a whole.
* `Posterior.not_enforced_split`: such a product is compiled, and then refused.
-/

namespace MessagePassing

open Attempt (Keeps FailsFrom)

/-! ## Copies are compared -/

/-- A marginal that is a copy of a message agrees with what is declared for its variable. -/
def MarginalEntry.Compared (g : Graph) (m : MarginalEntry) : Prop :=
  ∀ i t, m.plan = .copy i → m.type = some t → g.checkDeclared m.target.id t = .ok ()

theorem MarginalEntry.compared_of_settle {s : Surroundings} {b : Block} {m m' : MarginalEntry}
    {t : TypeTerm} (h : MarginalEntry.settle s b m = .ok t m') : m'.Compared s.graph := by
  intro i u hcopy hu
  have hbare := (MarginalEntry.keeps_settle s b m.bare).of_ok rfl h
  have hplan : m.plan = .copy i := (congrArg MarginalEntry.plan hbare).symm.trans hcopy
  obtain ⟨m₁, m₂, h₁, h⟩ := Attempt.bind_eq_ok.mp h
  obtain ⟨rfl, rfl⟩ := Attempt.get_eq_ok.mp h₁
  rw [hplan] at h
  obtain ⟨e, m₃, h₂, h⟩ := Attempt.bind_eq_ok.mp h
  obtain ⟨-, rfl⟩ := Attempt.liftM_eq_ok.mp h₂
  obtain ⟨_, m₄, h₃, h⟩ := Attempt.bind_eq_ok.mp h
  cases h₃
  obtain ⟨_, m₅, h₄, h⟩ := Attempt.bind_eq_ok.mp h
  obtain ⟨hcheck, rfl⟩ := Attempt.liftM_eq_ok.mp h₄
  cases h
  cases hu
  exact hcheck

theorem compared_of_settleEntries {g : Graph} {c : Catalogue} {b : Block} {p : Posterior}
    {l : List MarginalEntry} {r : List MarginalEntry × Posterior}
    (h : settleEntries g c b p l = .ok () r) : ∀ m ∈ r.1, m.Compared g := by
  induction l generalizing p r with
  | nil =>
    cases h
    exact fun _ h => absurd h List.not_mem_nil
  | cons m l ih =>
    unfold settleEntries at h
    cases hs : MarginalEntry.settle (b.surroundings g c p) b m with
    | error f m' => rw [hs] at h; contradiction
    | ok t m' =>
      rw [hs] at h
      dsimp only at h
      split at h
      · rename_i rest q hrest
        cases h
        exact List.forall_mem_cons.mpr ⟨MarginalEntry.compared_of_settle hs, ih hrest⟩
      · contradiction

namespace Posterior

variable {g : Graph} {c : Catalogue} {sites : List InterfaceId} {reject : Option Bool}
  {p q : Posterior} {ids : List String} {id : String}

theorem compared_of_assemble (hp : Each (fun _ => True) p) (h : assemble g c id p = .ok () q) :
    ∃ b, q.blocks.get? id = some b ∧ ∀ m ∈ b.marginalTable, m.Compared g := by
  obtain ⟨b, l, b', p₁, p₂, r, -, -, -, -, -, hsettle, hq⟩ :=
    exists_parts_of_assemble (I := fun _ => True) (fun _ _ _ _ _ _ => trivial)
      (fun _ _ => trivial) hp trivial h
  exact ⟨_, hq, compared_of_settleEntries hsettle⟩

/-- **Compiled blocks have what assembling gives them**, if it does not matter that they are made
ready to run. -/
theorem holds_of_compile {A : Block → Prop}
    (hassemble : ∀ p q id, Each (fun _ => True) p → assemble g c id p = .ok () q →
      ∃ b, q.blocks.get? id = some b ∧ A b)
    (hrunnable : ∀ b, A b → A { b with runnable := true }) (hp : Each (fun _ => True) p)
    (h : compile g c sites reject p = .ok ids q) (hid : id ∈ ids) :
    ∃ b, q.blocks.get? id = some b ∧ A b := by
  obtain ⟨b, hb, -⟩ := compiled_of_compile hp h hid
  obtain ⟨rfl, p₂, p₃, hprepare, hall, hrun⟩ := compile_eq_ok.mp h
  have hp₂ := (holds_of_forM_prepare (A := fun _ => True) (fun _ _ _ _ _ => trivial) hp hprepare).1
  have hp₃ : Each (fun b => b.id ∈ p.inhabited → A b) p₃ :=
    holds_of_assembleAll (fun _ => keeps_assemble fun _ _ _ _ _ => trivial) hassemble hp₂
      (hp₂.mono fun _ _ hk => Or.inl hk) hall
  have hq : Each (fun b => b.id ∈ p.inhabited → A b) q :=
    (Keeps.forM fun k _ => keeps_makeRunnable fun b _ hb hk => hrunnable b (hb hk)).of_ok hp₃ hrun
  obtain ⟨hbid, hA⟩ := hq id b hb
  exact ⟨b, hb, hA (hbid ▸ hid)⟩

end Posterior

/-! ## Declarations of compiled marginals -/

/-- How what is declared for a variable binds the type of its marginal. -/
inductive MarginalEntry.Bound (g : Graph) (c : Catalogue) (l : List ScheduleEntry)
    (m : MarginalEntry) (x : String) (t : TypeTerm) : Prop
  /-- A copy of a message agrees with all declarations. -/
  | copy {i : InterfaceId} (hplan : m.plan = .copy i)
      (hall : ∀ e ∈ g.edgesOf x, ∀ d, g.declared? e = some d → d.admits t = true)
  /-- A product agrees with the declaration of the oldest edge layer by layer, and as a whole if its
  rule works on whole values. -/
  | product {i j : InterfaceId} {first second : ScheduleEntry} {r : Resolution}
      (hplan : m.plan = .product i j) (hfirst : l.find? (·.interface = i) = some first)
      (hsecond : l.find? (·.interface = j) = some second)
      (hrule : c.resolveMarginal g x (Block.outboundType first) (Block.outboundType second) = .ok r)
      (htype : t = r.outbound)
      (holdest : ∀ d, g.oldestDeclared? x = some d →
        d.Bears t ∧ (r.oneByOne = false → d.admits t = true))

theorem MarginalEntry.bound_of_settled {s : Surroundings} {l : List ScheduleEntry}
    {m : MarginalEntry} {x : String} (h : m.Settled s l) (hm : m.Compared s.graph)
    (hcluster : m.AboutCluster) (hx : m.target = .variable x) :
    ∃ t, m.type = some t ∧ m.Bound s.graph s.catalogue l x t := by
  cases h with
  | copy hplan hfirst hinbounds htype =>
    refine ⟨_, htype, .copy hplan fun e he d hd => ?_⟩
    have hcheck := hm _ _ hplan htype
    rw [hx] at hcheck
    exact Graph.admits_of_checkDeclared hcheck he hd
  | @product i j first second r hplan hfirst hsecond hrule hinbounds htype hchosen =>
    rw [hx] at hrule
    refine ⟨_, htype, .product hplan hfirst hsecond hrule rfl fun d hd => ?_⟩
    have hconstraint : (if r.swapped then
        s.graph.productRequest x (Block.outboundType second) (Block.outboundType first)
        else s.graph.productRequest x (Block.outboundType first)
          (Block.outboundType second)).constraint = some d := by
      split <;> exact hd
    exact bears_of_resolve (r := { r with swapped := false }) hconstraint
      (resolve_of_resolveMarginal hrule)
  | joint hplan _ _ _ _ _ _ =>
    obtain ⟨k, hk⟩ := hcluster (by rw [hplan]; rfl)
    rw [hx] at hk
    contradiction

/-- A declaration that is no constraint as a whole is that of a younger edge of a product, or it is
about the factors of a product. -/
theorem MarginalEntry.Bound.of_not_admits {g : Graph} {c : Catalogue} {l : List ScheduleEntry}
    {m : MarginalEntry} {x : String} {t d : TypeTerm} {e : EdgeId} (h : m.Bound g c l x t)
    (he : e ∈ g.edgesOf x) (hd : g.declared? e = some d) (hadmits : d.admits t = false) :
    (∃ i j, m.plan = .product i j) ∧
      ((g.edgesOf x).min? ≠ some e ∨ ∃ u k, t = .partitioned u k) := by
  cases h with
  | copy _ hall =>
    rw [hall e he d hd] at hadmits
    contradiction
  | product hplan _ _ _ _ holdest =>
    refine ⟨⟨_, _, hplan⟩, or_iff_not_imp_left.mpr fun hmin => ?_⟩
    have hdeclared : g.oldestDeclared? x = some d :=
      Option.bind_eq_some_iff.mpr ⟨e, not_not.mp hmin, hd⟩
    cases (holdest d hdeclared).1 with
    | whole hwhole =>
      rw [hwhole] at hadmits
      contradiction
    | layer _ => exact ⟨_, _, rfl⟩

/-! ## First values -/

namespace Graph

variable {g : Graph} {e : EdgeId} {t d : TypeTerm} {f : Failure}

theorem declared?_of_edge {edge : Edge} (h : g.edge e = .ok edge) :
    g.declared? e = edge.declared ∧ g.ownerOf? e = some edge.owner := by
  unfold declared? ownerOf?
  rw [edge_eq_ok.mp h]
  exact ⟨rfl, rfl⟩

theorem admits_of_allow (h : g.allow e t = .ok ()) (hd : g.declared? e = some d) :
    d.admits t = true := by
  obtain ⟨edge, hedge, h⟩ := bind_eq_ok.mp h
  rw [← (declared?_of_edge hedge).1, hd] at h
  dsimp only at h
  split at h
  · assumption
  · contradiction

theorem forbidden_of_allow (h : g.allow e t = .error f) (hf : f.kind = .structural) :
    ∃ d o, g.declared? e = some d ∧ d.admits t = false ∧ g.ownerOf? e = some o ∧
      f = .marginalForbidden t e o d := by
  unfold allow at h
  cases hedge : g.edge e with
  | error f' =>
    rw [hedge] at h
    cases h
    unfold Graph.edge entryAt at hedge
    split at hedge
    · contradiction
    · cases hedge
      contradiction
  | ok edge =>
    obtain ⟨hdeclared, howner⟩ := declared?_of_edge hedge
    rw [hedge, ok_bind] at h
    split at h
    · rename_i d hd
      split at h
      · contradiction
      · rename_i hadmits
        cases h
        exact ⟨d, _, hdeclared.trans hd, Bool.eq_false_iff.mpr hadmits, howner, rfl⟩
    · contradiction

end Graph

namespace Program

variable {p : Program} {m m' : Memory} {f : Failure}

/-- The marginal of the entry is refused by an edge of its variable. -/
def Refused (p : Program) (e : MarginalEntry) (f : Failure) : Prop :=
  ∃ x t i d, e.target = .variable x ∧ e.type = some t ∧ i ∈ p.graph.edgesOf x ∧
    p.graph.declared? i = some d ∧ d.admits t = false ∧ f = .marginalForbidden t i x d

/-- What succeeds as a list has succeeded member by member. -/
theorem exists_of_forM {σ α : Type} {x : α → Attempt σ PUnit} {l : List α} {s s' : σ}
    (h : l.forM x s = .ok () s') : ∀ a ∈ l, ∃ u u', x a u = .ok () u' :=
  Attempt.holds_of_forM (P := fun a _ => ∃ u u', x a u = .ok () u')
    (fun _ _ u u' hu => ⟨u, u', hu⟩) (fun _ _ _ _ hu => hu) h

theorem allow_of_initMarginal {e : MarginalEntry} {x : String} {t : TypeTerm}
    (hx : e.target = .variable x) (ht : e.type = some t) (h : p.initMarginal e m = .ok () m') :
    ∀ i ∈ p.graph.edgesOf x, p.graph.allow i t = .ok () := by
  unfold initMarginal at h
  rw [ht] at h
  obtain ⟨v, m₁, hv, h⟩ := Attempt.bind_eq_ok.mp h
  obtain ⟨_, m₂, -, h⟩ := Attempt.bind_eq_ok.mp h
  rw [hx] at h
  intro i hi
  obtain ⟨u, u', hu⟩ := exists_of_forM h i hi
  obtain ⟨_, _, hensure, -⟩ := Attempt.bind_eq_ok.mp hu
  rw [Memory.ensureMarginal_eq] at hensure
  cases hallow : p.graph.allow i t with
  | ok _ => rfl
  | error f => rw [hallow] at hensure; contradiction

theorem failsFrom_initMarginal_refused (hg : p.graph.Coherent) (e : MarginalEntry) :
    FailsFrom (fun _ => True) (fun f => f.kind = .structural → p.Refused e f)
      (p.initMarginal e) := by
  unfold initMarginal
  split
  · exact FailsFrom.throw nofun
  · rename_i t ht
    have hvague : FailsOnly (fun f => f.kind = .structural → p.Refused e f)
        (Value.vagueOf p.options t) := fun f hf hk => absurd hk (failsOnly_vagueOf _ _ f hf).1
    refine FailsFrom.bind (Keeps.always _) (FailsFrom.liftM hvague) fun v =>
      FailsFrom.bind (Keeps.always _) (FailsFrom.modify _) fun _ => ?_
    split
    · rename_i x hx
      refine FailsFrom.forM (fun _ _ => Keeps.always _) fun i hi =>
        FailsFrom.bind (Keeps.always _) (fun m f m' _ h hk => ?_) fun _ => FailsFrom.pure _
      rw [Memory.ensureMarginal_eq] at h
      cases hallow : p.graph.allow i t with
      | ok _ =>
        rw [hallow] at h
        dsimp only at h
        split at h <;> contradiction
      | error f' =>
        rw [hallow] at h
        cases h
        obtain ⟨d, o, hd, hadmits, ho, rfl⟩ := Graph.forbidden_of_allow hallow hk
        cases ho.symm.trans (hg.owner_of_mem_edgesOf hi)
        exact ⟨x, t, i, d, hx, ht, hi, hd, hadmits, rfl⟩
    · exact FailsFrom.pure _

/-- **Where first values are given, all declarations admit the types of the marginals.** -/
theorem allowed_of_start (hm : m.initialized = false) (h : p.start m = .ok () m') :
    ∀ b ∈ p.blocks, ∀ e ∈ b.marginalTable, ∀ f, ¬ p.Refused e f := by
  rw [start_eq, hm, if_neg nofun] at h
  cases hinit : p.initMarginals m with
  | error f m₁ => rw [hinit] at h; contradiction
  | ok _ m₁ =>
    intro b hb e he f
    obtain ⟨u, u', hblock⟩ := exists_of_forM hinit b hb
    obtain ⟨w, w', hentry⟩ := exists_of_forM hblock e he
    rintro ⟨x, t, i, d, hx, ht, hi, hd, hadmits, -⟩
    rw [Graph.admits_of_allow (allow_of_initMarginal hx ht hentry i hi) hd] at hadmits
    contradiction

/-- **Where the graph forbids a first value, a declaration does not admit the type of a marginal.**
-/
theorem forbidden_of_start (hg : p.graph.Coherent) (h : p.start m = .error f m')
    (hf : f.kind = .structural) : ∃ b ∈ p.blocks, ∃ e ∈ b.marginalTable, p.Refused e f := by
  have hinit : FailsFrom (fun _ => True)
      (fun f => f.kind = .structural → ∃ b ∈ p.blocks, ∃ e ∈ b.marginalTable, p.Refused e f)
      p.initMarginals :=
    FailsFrom.forM (fun _ _ => Keeps.always _) fun b hb =>
      FailsFrom.forM (fun _ _ => Keeps.always _) fun e he m f m' hm h hk =>
        ⟨b, hb, e, he, failsFrom_initMarginal_refused hg e m f m' hm h hk⟩
  rw [start_eq] at h
  split at h
  · contradiction
  · split at h
    · contradiction
    · rename_i f' m₁ herror
      cases h
      exact hinit m f _ trivial herror hf

end Program

/-! ## Compiled posteriors -/

namespace Posterior

variable {g : Graph} {c : Catalogue} {sites : List InterfaceId} {reject : Option Bool}
  {p q : Posterior} {ids : List String}

/-- **How far declared types bind marginals.** In a compiled posterior, the marginal of a variable
agrees with all declarations if it is a copy of a message; if it is a product, it agrees with that
of the oldest edge, on layers of factors layer by layer only. First values are given just if all
declarations admit the types of the marginals, unless they fail for another reason than the graph.
So what is refused is a product, for the sake of a younger edge or because it is made of factors. -/
theorem declared_of_compile (hg : g.Built) (hp : Built g p)
    (h : compile g c sites reject p = .ok ids q) :
    ∃ blocks, ids.mapM q.block = .ok blocks ∧
      (∀ b ∈ blocks, ∀ m ∈ b.marginalTable, ∀ x, m.target = .variable x →
        ∃ t, m.type = some t ∧ m.Bound g c b.schedule x t) ∧
      ∀ u : Memory, u.initialized = false →
        (∀ u', Program.start ⟨g, q.options, blocks⟩ u = .ok () u' →
          ∀ b ∈ blocks, ∀ m ∈ b.marginalTable, ∀ x t, m.target = .variable x → m.type = some t →
            ∀ e ∈ g.edgesOf x, ∀ d, g.declared? e = some d → d.admits t = true) ∧
        ∀ f u', Program.start ⟨g, q.options, blocks⟩ u = .error f u' → f.kind = .structural →
          ∃ b ∈ blocks, ∃ m ∈ b.marginalTable, ∃ x t e d, m.target = .variable x ∧
            m.type = some t ∧ e ∈ g.edgesOf x ∧ g.declared? e = some d ∧ d.admits t = false ∧
            f = .marginalForbidden t e x d ∧ (∃ i j, m.plan = .product i j) ∧
            ((g.edgesOf x).min? ≠ some e ∨ ∃ u k, t = .partitioned u k) := by
  obtain ⟨blocks, hblocks, hcompiled⟩ := exists_blocks_of_compile hp h
  have hbound : ∀ b ∈ blocks, ∀ m ∈ b.marginalTable, ∀ x, m.target = .variable x →
      ∃ t, m.type = some t ∧ m.Bound g c b.schedule x t := by
    intro b hb m hm x hx
    obtain ⟨hid, -, hc⟩ := hcompiled b hb
    obtain ⟨k, hk, hbk⟩ := exists_of_mem_mapM hblocks hb
    obtain ⟨b', hb', hcompared⟩ := holds_of_compile (A := fun b => ∀ m ∈ b.marginalTable,
      m.Compared g) (fun _ _ _ => compared_of_assemble) (fun _ h => h)
      (hp.madeFor.mono fun _ _ => trivial) h hk
    cases hb'.symm.trans (block_eq_ok.mp hbk)
    obtain ⟨r, hsettled⟩ := hc.assembled.marginals m hm
    exact MarginalEntry.bound_of_settled hsettled (hcompared m hm) (hc.prepared.aboutCluster hm) hx
  refine ⟨blocks, hblocks, hbound, fun u hu => ⟨fun u' hstart b hb m hm x t hx ht e he d hd => ?_,
    fun f u' hstart hf => ?_⟩⟩
  · by_contra hadmits
    exact Program.allowed_of_start hu hstart b hb m hm _
      ⟨x, t, e, d, hx, ht, he, hd, Bool.eq_false_iff.mpr hadmits, rfl⟩
  · obtain ⟨b, hb, m, hm, x, t, e, d, hx, ht, he, hd, hadmits, rfl⟩ :=
      Program.forbidden_of_start hg.coherent hstart hf
    obtain ⟨t', ht', hb'⟩ := hbound b hb m hm x hx
    cases ht.symm.trans ht'
    obtain ⟨hproduct, hyoung⟩ := hb'.of_not_admits he hd hadmits
    exact ⟨b, hb, m, hm, x, t, e, d, hx, ht, he, hd, hadmits, rfl, hproduct, hyoung⟩

/-- A variable with an edge between two priors and an edge that dangles at a third one; a type is
declared for the second edge only. -/
def splitGraph : Graph :=
  let f : NodeRequest := { kind := "prior", interfaces := 1 }
  let g := ((Graph.addNode f).outcome ((Graph.addNode f).outcome ∅).2).2
  let g := ((Graph.addNode f).outcome g).2
  let g := ((Graph.connect (.numbered 0) (some (.numbered 1)) (some "x") none).outcome g).2
  ((Graph.connect (.numbered 2) none (some "x") (some (.dist "Gamma" []))).outcome g).2

theorem built_splitGraph : splitGraph.Built :=
  .connect (.connect (.addNode (.addNode (.addNode .empty _) _) _) _ _ _ _) _ _ _ _

/-- Rules for the priors, and for the product of two messages. -/
def splitCatalogue : Catalogue where
  rules :=
    [{ key := ⟨"prior", .sumProduct, some 0⟩
       inbounds := [.void]
       outbound := .pattern (.dist "Gaussian" [])
       procedure := some fun _ => .ok (.dist "Gaussian" [] ∅) },
     { key := ⟨"product", .product, none⟩
       inbounds := [.message (.dist "Gaussian" []), .message (.dist "Gaussian" [])]
       outbound := .pattern (.dist "Gaussian" [])
       procedure := some fun _ => .ok (.dist "Gaussian" [] ∅) }]

/-- The posterior with a block for the variable. -/
def splitPosterior : Posterior :=
  ((addBlock splitGraph ["x"] (some "x")).outcome { options := wholeOptions }).2

theorem built_splitPosterior : Built splitGraph splitPosterior :=
  .addBlock (.fresh _) _ _

/-- The compiled posterior. -/
def splitCompiled : Posterior :=
  ((compile splitGraph splitCatalogue [] none).outcome splitPosterior).2

theorem compile_split :
    compile splitGraph splitCatalogue [] none splitPosterior = .ok ["x"] splitCompiled :=
  Attempt.eq_ok_of_outcome (by cbv)

/-- The marginal of the compiled variable is a product, and its first value is refused. -/
theorem exists_split : ∃ b m u, ["x"].mapM splitCompiled.block = .ok [b] ∧ m ∈ b.marginalTable ∧
    m.target = .variable "x" ∧ m.type = some (.dist "Gaussian" []) ∧
    Program.start ⟨splitGraph, splitCompiled.options, [b]⟩ ∅ =
      .error (.marginalForbidden (.dist "Gaussian" []) 1 "x" (.dist "Gamma" [])) u := by
  have hblock : (splitCompiled.blocks.get? "x").map (fun b =>
      (b.marginalTable.map fun m => (m.target, m.type),
        (Attempt.outcome (Program.start ⟨splitGraph, splitCompiled.options, [b]⟩) ∅).1)) =
      some ([(.variable "x", some (.dist "Gaussian" []))],
        .error (.marginalForbidden (.dist "Gaussian" []) 1 "x" (.dist "Gamma" []))) := by cbv
  obtain ⟨b, hb, heq⟩ := Option.map_eq_some_iff.mp hblock
  simp only [Prod.mk.injEq] at heq
  obtain ⟨htable, hstart⟩ := heq
  obtain ⟨m, rest, hl, hm, -⟩ := List.map_eq_cons_iff.mp htable
  simp only [Prod.mk.injEq] at hm
  exact ⟨b, m, _, mapM_eq_ok.mpr (.cons (block_eq_ok.mpr hb) .nil), hl ▸ List.mem_cons_self, hm.1,
    hm.2, Attempt.eq_error_of_outcome hstart⟩

/-- The refused marginal is a product, and a younger edge refuses it. -/
theorem declared_split : splitGraph.Built ∧ Built splitGraph splitPosterior ∧
    compile splitGraph splitCatalogue [] none splitPosterior = .ok ["x"] splitCompiled ∧
    ∃ b m e, ["x"].mapM splitCompiled.block = .ok [b] ∧ m ∈ b.marginalTable ∧
      (∃ i j, m.plan = .product i j) ∧ e ∈ splitGraph.edgesOf "x" ∧
      (splitGraph.edgesOf "x").min? ≠ some e := by
  obtain ⟨b, m, u, hblocks, -, -, -, hstart⟩ := exists_split
  obtain ⟨blocks, hblocks', -, hrun⟩ :=
    declared_of_compile built_splitGraph built_splitPosterior compile_split
  cases hblocks.symm.trans hblocks'
  obtain ⟨b', hb', m', hm', x, t, e, d, -, -, he, -, -, heq, hproduct, hyoung⟩ :=
    (hrun ∅ rfl).2 _ u hstart rfl
  obtain rfl := List.mem_singleton.mp hb'
  cases heq
  exact ⟨built_splitGraph, built_splitPosterior, compile_split, b', m', 1, hblocks, hm', hproduct,
    he, hyoung.resolve_right fun ⟨_, _, h⟩ => nomatch h⟩

/-- **A compiled product may break a declaration**, and then no execution can give first values. -/
theorem not_enforced_split : splitGraph.Built ∧ Built splitGraph splitPosterior ∧
    compile splitGraph splitCatalogue [] none splitPosterior = .ok ["x"] splitCompiled ∧
    ∃ b m t d u, ["x"].mapM splitCompiled.block = .ok [b] ∧ m ∈ b.marginalTable ∧
      m.target = .variable "x" ∧ m.type = some t ∧ 1 ∈ splitGraph.edgesOf "x" ∧
      splitGraph.declared? 1 = some d ∧ d.admits t = false ∧
      Program.execute ⟨splitGraph, splitCompiled.options, [b]⟩ (some 0) ∅ =
        .error (.marginalForbidden t 1 "x" d) u := by
  obtain ⟨b, m, u, hblocks, hm, hx, ht, hstart⟩ := exists_split
  have hedges : splitGraph.edgesOf "x" = [0, 1] := by cbv
  have hdeclared : splitGraph.declared? 1 = some (.dist "Gamma" []) := by cbv
  exact ⟨built_splitGraph, built_splitPosterior, compile_split, b, m, _, _, u, hblocks, hm, hx, ht,
    hedges ▸ by simp, hdeclared, by decide, Attempt.bind_of_error hstart⟩

end Posterior

end MessagePassing
