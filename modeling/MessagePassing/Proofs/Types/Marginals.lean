import MessagePassing.Proofs.Run.Footprint
import MessagePassing.Proofs.Types.Preservation
import MessagePassing.Proofs.Types.Products

/-!
# Types of computed marginals

The marginal of a variable may be a product of two messages, and that of a cluster is computed at a
node. Either is resolved like a message, and the rule may be chosen for one factor of what arrives.
But the entry of a marginal does not keep how its rule was chosen: in a pass the procedure always
gets the values as they are. So a rule that works on whole values gets what it accepts and computes
the recorded type, and a rule that was chosen for factors gets what it was not chosen for.

Results:
* `exists_args_of_marginalValue`: the procedure of a marginal gets the values as they are.
* `arrive_of_asks`: what a marginal reads has the types that it was resolved for.
* `MarginalEntry.Computed.honours`: a rule that works on whole values accepts them and computes the
  recorded type.
* **`Posterior.honours_of_compile`**: so does every marginal of a compiled block, if messages and
  marginals that are read have their types, unless its rule was chosen for factors.
* `Posterior.not_honours_twin`: a product of messages made of factors gets a type that is not the
  recorded one.
-/

namespace MessagePassing

open Attempt (Keeps)

/-! ## What is asked of procedures -/

/-- Every procedure for products and for joint marginals computes what its rule announces from
arguments that the rule accepts. -/
structure Catalogue.FaithfulMarginals (c : Catalogue) (g : Graph) : Prop where
  /-- A product of messages. -/
  product : ∀ r ∈ c.rules, r.key = Catalogue.productKey → ∀ f, r.procedure = some f →
    ∀ sources args types b t v, Arrive sources args types →
      TypeTerm.matchAll r.inbounds types ∅ = some b → r.outboundFor none b = .ok t →
        f (args.map .value) = .ok v → v.type? = some t
  /-- A joint marginal at a node. -/
  joint : ∀ r ∈ c.rules, ∀ f, r.procedure = some f → ∀ n node, g.node n = .ok node →
    r.key = ⟨node.kind, .jointMarginal, none⟩ →
      ∀ sources args types b t v, Arrive sources args types →
        TypeTerm.matchAll r.inbounds types ∅ = some b → r.outboundFor (some node) b = .ok t →
          f (.node n :: args.map .value) = .ok v → v.type? = some t

/-- What a procedure gets before the values: at a node, the node. -/
def MarginalPlan.lead : MarginalPlan → List Argument
  | .joint n _ => [.node n]
  | _ => []

/-- The update that a marginal is resolved for, among the messages of a schedule. -/
inductive MarginalEntry.Asks (s : Surroundings) (l : List ScheduleEntry) (m : MarginalEntry) :
    Request → Prop
  /-- The product of two messages, in the order in which they are read. -/
  | product {i j : InterfaceId} {first second : ScheduleEntry}
      (hplan : m.plan = .product i j ∨ m.plan = .product j i)
      (hinbounds : m.inbounds = [.message i, .message j])
      (hfirst : l.find? (·.interface = i) = some first)
      (hsecond : l.find? (·.interface = j) = some second) :
      Asks s l m (s.graph.productRequest m.target.id (Block.outboundType first)
        (Block.outboundType second))
  /-- The joint marginal at a node. -/
  | joint {n : NodeId} {messages : List InterfaceId} {node : Node} {types : List TypeTerm}
      (hplan : m.plan = .joint n messages) (hnode : s.graph.node n = .ok node)
      (hsources : s.posterior.sources s.graph s.internal n none .jointMarginal = .ok m.inbounds)
      (htypes : m.inbounds.mapM (s.posterior.sourceType s.graph (messageTypes l) n) = .ok types) :
      Asks s l m
        { key := ⟨node.kind, .jointMarginal, none⟩, inbounds := types, node := some node }

/-- The marginals that a marginal is computed from have the types that it was resolved for. -/
def MarginalEntry.MarginalsTyped (m : MarginalEntry) (q : Request) (w : Memory) : Prop :=
  ∀ x t, (.marginal x, t) ∈ m.inbounds.zip q.inbounds →
    ∀ v, w.marginals.get? x = some v → v.type? = some t

/-- The messages of a block have the types of their entries. -/
def Block.MessagesTyped (b : Block) (m : Memory) : Prop :=
  ∀ e ∈ b.schedule, (m.message e.interface).type? = e.outbound

/-! ## One marginal -/

section Entry

variable {s : Surroundings} {l : List ScheduleEntry} {m : MarginalEntry} {g : Graph}
  {c : Catalogue} {w : Memory} {q : Request} {r : Resolution} {args : List Value} {v : Value}

/-- A marginal that is no copy has the rule and the type that are found for an update. -/
theorem MarginalEntry.Settled.exists_asks (h : m.Settled s l) (hcopy : ∀ i, m.plan ≠ .copy i) :
    ∃ q r, m.Asks s l q ∧ s.catalogue.resolve q = .ok r ∧ m.rule = some r.rule ∧
      m.type = some r.outbound := by
  cases h with
  | copy hplan _ _ _ => exact absurd hplan (hcopy _)
  | @product i j first second r hplan hfirst hsecond hrule hinbounds htype hchosen =>
    have hresolve := resolve_of_resolveMarginal hrule
    cases hswapped : r.swapped with
    | false =>
      rw [hswapped, if_neg nofun] at hresolve hinbounds
      exact ⟨_, _, .product (Or.inl hplan) hinbounds hfirst hsecond, hresolve, hchosen, htype⟩
    | true =>
      rw [hswapped, if_pos rfl] at hresolve hinbounds
      exact ⟨_, _, .product (Or.inr hplan) hinbounds hsecond hfirst, hresolve, hchosen, htype⟩
  | joint hplan hnode hsources htypes hrule htype hchosen =>
    exact ⟨_, _, .joint hplan hnode hsources htypes, hrule, hchosen, htype⟩

/-- A marginal that is no copy is what the procedure of its rule answers for the values as they are,
whether the rule was chosen for them or for their factors. -/
theorem exists_args_of_marginalValue (h : m.Asks s l q) (hv : w.marginalValue g m = .ok v) :
    ∃ args, m.inbounds.mapM (w.valueOf g) = .ok args ∧
      Memory.procedureOf m.rule (m.plan.lead ++ args.map .value) = .ok v := by
  unfold Memory.marginalValue at hv
  cases h with
  | @product i j _ _ hplan hinbounds _ _ =>
    rw [hinbounds] at hv ⊢
    have hlead : m.plan.lead = [] := by rcases hplan with hplan | hplan <;> rw [hplan] <;> rfl
    refine ⟨[w.message i, w.message j], rfl, ?_⟩
    rw [hlead]
    rcases hplan with hplan | hplan <;> rw [hplan] at hv <;> exact hv
  | joint hplan _ _ _ =>
    rw [hplan] at hv ⊢
    exact bind_eq_ok.mp hv

/-- **What a marginal reads has the types that it was resolved for**, if the messages have the types
of their entries and the marginals those that it was resolved for. -/
theorem arrive_of_asks (hg : s.graph.Coherent) (h : m.Asks s l q)
    (hnodup : (l.map (·.interface)).Nodup)
    (hscheduled : ∀ i ∈ messagesOf m.inbounds, i ∈ l.map (·.interface))
    (hmessages : ∀ e ∈ l, ∃ t, e.outbound = some t ∧ (w.message e.interface).type? = some t)
    (hmarginals : m.MarginalsTyped q w) (hargs : m.inbounds.mapM (w.valueOf s.graph) = .ok args) :
    Arrive m.inbounds args q.inbounds := by
  cases h with
  | @product i j first second _ hinbounds hfirst hsecond =>
    have hread : ∀ {k e}, l.find? (·.interface = k) = some e →
        (Source.message k).argumentType? (w.message k) =
          some (.message (Block.outboundType e)) := by
      intro k e he
      obtain ⟨t, ht, htype⟩ := hmessages e (List.mem_of_find?_eq_some he)
      have hk : e.interface = k := by simpa using List.find?_some he
      rw [hk] at htype
      unfold Block.outboundType
      rw [ht]
      exact argumentType?_of_type? htype
    rw [hinbounds] at hargs ⊢
    cases hargs
    exact .cons (hread hfirst) (.cons (hread hsecond) .nil)
  | joint _ _ hsources htypes =>
    refine arrive_of_reads hg hsources htypes hargs (fun i hi => ?_) hmarginals
    obtain ⟨e, he, rfl⟩ := List.mem_map.mp (hscheduled i (mem_messagesOf.mpr hi))
    obtain ⟨t, ht, htype⟩ := hmessages e he
    exact ⟨t, get?_messageTypes hnodup he ht, htype⟩

/-- How a marginal is computed: its rule and its recorded type are those that are found for an
update, and in the memory `w` the procedure gets the values `args` as they are and answers `v`. -/
structure MarginalEntry.Computed (s : Surroundings) (l : List ScheduleEntry) (m : MarginalEntry)
    (q : Request) (r : Resolution) (w : Memory) (args : List Value) (v : Value) : Prop where
  asks : m.Asks s l q
  resolve : s.catalogue.resolve q = .ok r
  rule : m.rule = some r.rule
  type : m.type = some r.outbound
  read : m.inbounds.mapM (w.valueOf s.graph) = .ok args
  call : Memory.procedureOf m.rule (m.plan.lead ++ args.map .value) = .ok v

/-- **A rule that works on whole values accepts them and computes the recorded type.** -/
theorem MarginalEntry.Computed.honours (h : m.Computed s l q r w args v)
    (hc : s.catalogue.FaithfulMarginals s.graph) (harrive : Arrive m.inbounds args q.inbounds)
    (hone : r.oneByOne = false) : r.rule.Accepts m.inbounds args ∧ v.type? = m.type := by
  have hwhole := (whole_of_resolveWhole (resolveWhole_of_whole h.resolve hone)).1
  have hkey := key_of_resolve h.resolve
  have hcall := h.call
  rw [h.rule] at hcall
  obtain ⟨f, hf, hcall⟩ := procedureOf_eq_ok hcall
  have hout := hwhole.outbound
  refine ⟨⟨_, _, harrive, hwhole.fits⟩, ?_⟩
  rw [h.type]
  cases h.asks with
  | product hplan _ _ _ =>
    have hlead : m.plan.lead = [] := by rcases hplan with hplan | hplan <;> rw [hplan] <;> rfl
    rw [hlead] at hcall
    exact hc.product _ hwhole.rule hkey f hf _ _ _ _ _ _ harrive hwhole.fits hout hcall
  | joint hplan hnode _ _ =>
    rw [hplan] at hcall
    exact hc.joint _ hwhole.rule f hf _ _ hnode hkey _ _ _ _ _ _ harrive hwhole.fits hout hcall

/-- A rule is chosen for factors only where a type has a layer of them. -/
theorem exists_peel_of_oneByOne (h : c.resolve q = .ok r) (hone : r.oneByOne = true) :
    ∃ t ∈ q.inbounds, t.peel? ≠ none := by
  cases chosen_of_resolve h with
  | whole _ hwhole => exact absurd (hwhole.symm.trans hone) Bool.false_ne_true
  | layer hpeel _ _ _ _ => exact (peeled_of_peelLayer hpeel).2

end Entry

/-! ## One pass -/

namespace Block

variable {g : Graph} {o : Options} {b : Block} {u u' w w' : Memory} {m : MarginalEntry}
  {pre post : List MarginalEntry}

/-- A pass is one over the block with a part of its marginals, and then the others. -/
theorem pass_of_split (g : Graph) (o : Options) (h : b.marginalTable = pre ++ post) :
    b.pass g o =
      pass g o { b with marginalTable := pre } >>= fun _ => post.forM (publish g) := by
  have hactions : b.actions = actions { b with marginalTable := pre } ++
      post.map (.publish b.id) := by
    unfold actions
    rw [h, List.map_append, ← List.append_assoc]
  rw [pass_eq, pass_eq, hactions, List.forM_append, List.forM_map]
  rfl

/-- A pass comes to every marginal, whose value is put for its target. -/
theorem exists_turn (h : b.pass g o u = .ok () u') (hsplit : b.marginalTable = pre ++ m :: post) :
    ∃ w w' v, pass g o { b with marginalTable := pre } u = .ok () w ∧ publish g m w = .ok () w' ∧
      w.marginalValue g m = .ok v ∧ w'.marginals.get? m.target = some v ∧
      (m :: post).forM (publish g) w = .ok () u' := by
  rw [pass_of_split g o hsplit] at h
  obtain ⟨_, w, hpre, hpost⟩ := Attempt.bind_eq_ok.mp h
  obtain ⟨_, w', hm, -⟩ := Attempt.bind_eq_ok.mp hpost
  obtain ⟨v, hv, hcell⟩ := Action.cell_of_publish hm
  exact ⟨w, w', v, hpre, hm, hv, map_value_injective ((hcell (.marginal m.target)).1 (Or.inl rfl)),
    hpost⟩

/-- Publishing marginals sends no messages. -/
theorem message_of_publishes (h : post.forM (publish g) w = .ok () u') (i : InterfaceId) :
    u'.message i = w.message i := by
  have hkeep : Keeps (fun v : Memory => v.message i = w.message i) (post.forM (publish g)) := by
    refine Keeps.forM fun e _ => .intro (fun v _ v' hv hpublish => ?_)
      (fun v f v' hv herror => eq_of_publish_error herror ▸ hv)
    obtain ⟨_, -, hcell⟩ := Action.cell_of_publish hpublish
    have hslot : .message i ∉ e.target.slots g := by
      rintro (h | ⟨_, _, _, _, h⟩) <;> contradiction
    exact (Memory.message_of_cell ((hcell _).2 hslot)).trans hv
  exact hkeep.of_ok rfl h

end Block

/-! ## Compiled posteriors -/

namespace Posterior

variable {g : Graph} {c : Catalogue} {sites : List InterfaceId} {reject : Option Bool}
  {p q : Posterior} {ids : List String}

/-- **Compiled marginals honour their types, unless their rules were chosen for factors.** When a
pass has computed messages of the types of their entries, every marginal that is no copy is what the
procedure of its rule answers for what the marginal reads. If the marginals that are read have the
types that it was resolved for, then so does all that is read. If in addition the rule was chosen
for whole values, it accepts what is read, and the marginal gets its recorded type. A rule is chosen
for factors only where something that is read is made of factors. -/
theorem honours_of_compile (hg : g.Built) (hp : Built g p)
    (h : compile g c sites reject p = .ok ids q) (hc : c.FaithfulMarginals g) :
    ∃ blocks, ids.mapM q.block = .ok blocks ∧ ∀ b ∈ blocks, ∀ o u u', b.pass g o u = .ok () u' →
      b.MessagesTyped u' → ∀ pre m post, b.marginalTable = pre ++ m :: post →
        (∀ i, m.plan ≠ .copy i) → ∃ s k r w w' args v,
          Block.pass g o { b with marginalTable := pre } u = .ok () w ∧
          Block.publish g m w = .ok () w' ∧ w'.marginals.get? m.target = some v ∧
          m.Computed (b.surroundings g c s) b.schedule k r w args v ∧
          (m.MarginalsTyped k w → Arrive m.inbounds args k.inbounds ∧
            (r.oneByOne = false → r.rule.Accepts m.inbounds args ∧ v.type? = m.type)) ∧
          (r.oneByOne = true → ∃ t ∈ k.inbounds, t.peel? ≠ none) := by
  obtain ⟨blocks, hblocks, hcompiled⟩ := exists_blocks_of_compile hp h
  refine ⟨blocks, hblocks, fun b hb o u u' hpass hmessages pre m post hsplit hcopy => ?_⟩
  obtain ⟨-, hmade, hb⟩ := hcompiled b hb
  have hm : m ∈ b.marginalTable := hsplit ▸ List.mem_append_right _ List.mem_cons_self
  obtain ⟨s, hsettled⟩ := hb.assembled.marginals m hm
  obtain ⟨k, r, hasks, hresolve, hrule, htype⟩ := hsettled.exists_asks hcopy
  obtain ⟨w, w', v, hpre, hpublish, hv, hput, hpost⟩ := Block.exists_turn hpass hsplit
  obtain ⟨args, hargs, hcall⟩ := exists_args_of_marginalValue hasks hv
  have hcomputed : m.Computed (b.surroundings g c s) b.schedule k r w args v :=
    ⟨hasks, hresolve, hrule, htype, hargs, hcall⟩
  have htyped : ∀ e ∈ b.schedule, ∃ t, e.outbound = some t ∧
      (w.message e.interface).type? = some t := by
    intro e he
    obtain ⟨t, ht⟩ := hb.assembled.exists_outbound he
    refine ⟨t, ht, ?_⟩
    rw [← Block.message_of_publishes hpost, hmessages e he, ht]
  refine ⟨s, k, r, w, w', args, v, hpre, hpublish, hput, hcomputed, fun hread => ?_,
    exists_peel_of_oneByOne hresolve⟩
  have harrive := arrive_of_asks hg.coherent hasks hb.prepared.planned.nodup_order
    ((Block.wired_of_compiled hg.coherent hmade hb).marginal_scheduled m hm) htyped hread hargs
  exact ⟨harrive, hcomputed.honours hc harrive⟩

/-- Two priors of one variable. -/
def twinGraph : Graph :=
  let f : NodeRequest := { kind := "prior", interfaces := 1 }
  let g := ((Graph.addNode f).outcome ((Graph.addNode f).outcome ∅).2).2
  ((Graph.connect (.numbered 0) (some (.numbered 1)) (some "x") none).outcome g).2

theorem built_twinGraph : twinGraph.Built :=
  .connect (.addNode (.addNode .empty _) _) _ _ _ _

/-- What a prior says: a Gaussian, or two of them as factors. -/
def twinMessage (factors : Bool) : Value :=
  if factors then .parts [.dist "Gaussian" [] ∅, .dist "Gaussian" [] ∅]
  else .dist "Gaussian" [] ∅

/-- The type of what a prior says. -/
def twinType (factors : Bool) : TypeTerm :=
  if factors then .partitioned (.dist "Gaussian" []) (.num 2) else .dist "Gaussian" []

/-- The rule of the priors. -/
def twinRule (factors : Bool) : Rule where
  key := ⟨"prior", .sumProduct, some 0⟩
  inbounds := [.void]
  outbound := .pattern (twinType factors)
  procedure := some fun _ => .ok (twinMessage factors)

/-- The product of two Gaussians. -/
def gaussianProduct : Rule where
  key := Catalogue.productKey
  inbounds := [.message (.dist "Gaussian" []), .message (.dist "Gaussian" [])]
  outbound := .pattern (.dist "Gaussian" [])
  procedure := some fun _ => .ok (.dist "Gaussian" [] ∅)

/-- A rule for the priors and one for products. -/
def twinCatalogue (factors : Bool) : Catalogue :=
  ⟨[twinRule factors, gaussianProduct]⟩

/-- The posterior with a block for the variable. -/
def twinPosterior : Posterior :=
  ((addBlock twinGraph ["x"] (some "x")).outcome { options := wholeOptions }).2

/-- The compiled posterior. -/
def twinCompiled (factors : Bool) : Posterior :=
  ((compile twinGraph (twinCatalogue factors) [] none).outcome twinPosterior).2

/-- The marginal of the variable: a product of the two messages. -/
def twinMarginal (factors : Bool) : MarginalEntry where
  target := .variable "x"
  plan := .product 0 1
  type := some (twinType factors)
  rule := some gaussianProduct
  inbounds := [.message 0, .message 1]
  published := true

section Twin

variable {factors : Bool}

theorem faithful_twin (factors : Bool) : (twinCatalogue factors).Faithful twinGraph := by
  intro r hr f hf n node _ sources args types b t v _ _ ht hv
  rcases List.mem_pair.mp hr with rfl | rfl
  · cases factors <;> cases hf <;> cases ht <;> cases hv <;> rfl
  · cases hf
    cases ht
    cases hv
    rfl

theorem faithfulMarginals_twin (factors : Bool) :
    (twinCatalogue factors).FaithfulMarginals twinGraph where
  product r hr hkey f hf sources args types b t v _ _ ht hv := by
    rcases List.mem_pair.mp hr with rfl | rfl
    · exact absurd (congrArg RuleKey.ruleType hkey) nofun
    · cases hf
      cases ht
      cases hv
      rfl
  joint r hr f hf n node _ hkey := by
    rcases List.mem_pair.mp hr with rfl | rfl
    · exact absurd (congrArg RuleKey.ruleType hkey) nofun
    · exact absurd (congrArg RuleKey.ruleType hkey) nofun

theorem compile_twin (factors : Bool) :
    compile twinGraph (twinCatalogue factors) [] none twinPosterior =
      .ok ["x"] (twinCompiled factors) := by
  cases factors <;> exact Attempt.eq_ok_of_outcome (by cbv)

/-- What a pass over the compiled block leaves: a Gaussian as the product of the two messages. -/
def twinMemory (factors : Bool) : Memory :=
  let m : Memory := Memory.send (Memory.send ∅ 0 (twinMessage factors)) 1 (twinMessage factors)
  (m.putMarginal (.variable "x") (.dist "Gaussian" [] ∅)).putEdgeMarginal (.dist "Gaussian" [] ∅) 0

theorem exists_pass_twin (factors : Bool) :
    ∃ b, ["x"].mapM (twinCompiled factors).block = .ok [b] ∧
      b.marginalTable = [twinMarginal factors] ∧
      (∀ e ∈ b.schedule, e.outbound = some (twinType factors)) ∧
      b.pass twinGraph wholeOptions ∅ = .ok () (twinMemory factors) ∧
      b.MessagesTyped (twinMemory factors) := by
  have hblock : ((twinCompiled factors).blocks.get? "x").map (fun b =>
      (b.marginalTable, b.schedule.map fun e => (e.interface, e.outbound),
        (b.pass twinGraph wholeOptions).outcome ∅)) =
      some ([twinMarginal factors], [(0, some (twinType factors)), (1, some (twinType factors))],
        (.ok (), twinMemory factors)) := by
    cases factors <;> cbv
  obtain ⟨b, hb, heq⟩ := Option.map_eq_some_iff.mp hblock
  simp only [Prod.mk.injEq] at heq
  obtain ⟨htable, hschedule, hpass⟩ := heq
  have hentry : ∀ e ∈ b.schedule, (e.interface = 0 ∨ e.interface = 1) ∧
      e.outbound = some (twinType factors) := by
    intro e he
    have hmem := List.mem_map_of_mem (f := fun e => (e.interface, e.outbound)) he
    rw [hschedule] at hmem
    rcases List.mem_pair.mp hmem with h | h
    · exact ⟨Or.inl (Prod.mk.inj h).1, (Prod.mk.inj h).2⟩
    · exact ⟨Or.inr (Prod.mk.inj h).1, (Prod.mk.inj h).2⟩
  have hok := Attempt.eq_ok_of_outcome (congrArg Prod.fst hpass)
  rw [hpass] at hok
  refine ⟨b, mapM_eq_ok.mpr (.cons (block_eq_ok.mpr hb) .nil), htable,
    fun e he => (hentry e he).2, hok, fun e he => ?_⟩
  obtain ⟨hi | hi, ho⟩ := hentry e he <;> rw [hi, ho] <;> cases factors <;> rfl

/-- Without factors the product is what its rule says. -/
theorem honours_twin : twinGraph.Built ∧ Built twinGraph twinPosterior ∧
    (twinCatalogue false).FaithfulMarginals twinGraph ∧
    compile twinGraph (twinCatalogue false) [] none twinPosterior =
      .ok ["x"] (twinCompiled false) ∧
    ∃ b u w w' args v, ["x"].mapM (twinCompiled false).block = .ok [b] ∧
      b.pass twinGraph wholeOptions ∅ = .ok () u ∧ b.MessagesTyped u ∧
      b.marginalTable = [twinMarginal false] ∧ (∀ i, (twinMarginal false).plan ≠ .copy i) ∧
      Block.pass twinGraph wholeOptions { b with marginalTable := [] } ∅ = .ok () w ∧
      Block.publish twinGraph (twinMarginal false) w = .ok () w' ∧
      w'.marginals.get? (.variable "x") = some v ∧
      (twinMarginal false).inbounds.mapM (w.valueOf twinGraph) = .ok args ∧
      gaussianProduct.Accepts (twinMarginal false).inbounds args ∧
      v.type? = (twinMarginal false).type := by
  have hp : Built twinGraph twinPosterior := .addBlock (.fresh wholeOptions) _ _
  obtain ⟨b, hb, htable, houtbound, hpass, hmessages⟩ := exists_pass_twin false
  obtain ⟨blocks, hblocks, hall⟩ :=
    honours_of_compile built_twinGraph hp (compile_twin false) (faithfulMarginals_twin false)
  cases hblocks.symm.trans hb
  have hcopy : ∀ i, (twinMarginal false).plan ≠ .copy i := nofun
  obtain ⟨s, k, r, w, w', args, v, hpre, hpublish, hput, hcomputed, hhonours, hfactors⟩ :=
    hall b (List.mem_singleton_self b) wholeOptions ∅ _ hpass hmessages [] (twinMarginal false) []
      htable hcopy
  have hmarginals : (twinMarginal false).MarginalsTyped k w := fun x t hx => by
    have := (List.of_mem_zip hx).1
    simp [twinMarginal] at this
  -- no message is made of factors
  have hone : r.oneByOne = false := by
    by_contra hone
    obtain ⟨t, ht, hpeel⟩ := hfactors (by simpa using hone)
    have htype : ∀ {i e}, b.schedule.find? (·.interface = i) = some e →
        Block.outboundType e = .dist "Gaussian" [] := fun he => by
      unfold Block.outboundType
      rw [houtbound _ (List.mem_of_find?_eq_some he)]
      rfl
    cases hcomputed.asks with
    | product _ _ hfirst hsecond =>
      refine hpeel ?_
      rcases List.mem_pair.mp ht with rfl | rfl
      · rw [htype hfirst]
        rfl
      · rw [htype hsecond]
        rfl
    | joint hplan _ _ _ => cases hplan
  obtain ⟨haccepts, htype⟩ := (hhonours hmarginals).2 hone
  rw [← Option.some.inj hcomputed.rule] at haccepts
  exact ⟨built_twinGraph, hp, faithfulMarginals_twin false, compile_twin false, b, _, w, w', args,
    v, hb, hpass, hmessages, htable, hcopy, hpre, hpublish, hput, hcomputed.read, haccepts, htype⟩

theorem not_accepts_twin : ¬ gaussianProduct.Accepts [.message 0, .message 1]
    [twinMessage true, twinMessage true] := by
  rintro ⟨types, b, harrive, hmatch⟩
  cases harrive with
  | cons hfirst hrest =>
    cases hrest with
    | cons hsecond hrest =>
      cases hrest
      cases hfirst
      cases hsecond
      contradiction

/-- **A product of messages made of factors gets a type that is not the recorded one**, though every
procedure computes what its rule announces: the rule is chosen for one factor of each message, and
its procedure gets the whole messages, which the rule does not accept. -/
theorem not_honours_twin : twinGraph.Built ∧ Built twinGraph twinPosterior ∧
    (twinCatalogue true).Faithful twinGraph ∧ (twinCatalogue true).FaithfulMarginals twinGraph ∧
    compile twinGraph (twinCatalogue true) [] none twinPosterior =
      .ok ["x"] (twinCompiled true) ∧
    ∃ b u m args v, ["x"].mapM (twinCompiled true).block = .ok [b] ∧
      b.pass twinGraph wholeOptions ∅ = .ok () u ∧ b.MessagesTyped u ∧
      m ∈ b.marginalTable ∧ m.plan = .product 0 1 ∧ m.rule = some gaussianProduct ∧
      m.inbounds.mapM (u.valueOf twinGraph) = .ok args ∧
      ¬ gaussianProduct.Accepts m.inbounds args ∧
      u.marginals.get? m.target = some v ∧ v.type? = some (.dist "Gaussian" []) ∧
      m.type = some (.partitioned (.dist "Gaussian" []) (.num 2)) := by
  obtain ⟨b, hb, htable, -, hpass, hmessages⟩ := exists_pass_twin true
  exact ⟨built_twinGraph, .addBlock (.fresh wholeOptions) _ _, faithful_twin true,
    faithfulMarginals_twin true, compile_twin true, b, _, twinMarginal true, _, _, hb, hpass,
    hmessages, htable ▸ List.mem_singleton_self _, rfl, rfl, rfl, not_accepts_twin, rfl, rfl, rfl⟩

end Twin

end Posterior

end MessagePassing
