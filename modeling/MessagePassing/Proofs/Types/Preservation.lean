import MessagePassing.Proofs.Run.Pass
import MessagePassing.Proofs.Types.Computation

/-!
# Types are preserved

Rules are chosen by the types that messages will have. When a block without loop breakers is run,
the messages do have these types, if every procedure computes what its rule announces and the
marginals that are read have the types that were settled for them. So procedures get only what their
rules accept, one factor at a time as far as the factors are like the first.

Results:
* `meets_of_forM`: what every entry makes of the messages before it, a replay makes of all messages.
* **`Posterior.preserves_of_compile`**: in every compiled block without loop breakers, types are
  preserved by every replay of the schedule.
* `Posterior.not_accepts_second_factor`: a rule may get a second factor that it does not accept.
-/

namespace MessagePassing

/-! ## What is assumed and what follows -/

/-- The marginals that a block reads have the types that its schedule was resolved for. -/
def Block.MarginalsTyped (b : Block) (m : Memory) : Prop :=
  ∀ e ∈ b.schedule, ∀ x t, (.marginal x, t) ∈ e.inbounds.zip e.inboundTypes →
    ∀ v, m.marginals.get? x = some v → v.type? = some t

/-- The marginals that a block reads are uniform. -/
def Block.MarginalsUniform (b : Block) (m : Memory) : Prop :=
  ∀ e ∈ b.schedule, ∀ x, .marginal x ∈ e.inbounds → ∀ v, m.marginals.get? x = some v → v.Uniform

theorem Block.MarginalsTyped.congr {b : Block} {m m' : Memory} (h : b.MarginalsTyped m)
    (hm : m'.marginals = m.marginals) : b.MarginalsTyped m' := by
  unfold MarginalsTyped
  rw [hm]
  exact h

theorem Block.MarginalsUniform.congr {b : Block} {m m' : Memory} (h : b.MarginalsUniform m)
    (hm : m'.marginals = m.marginals) : b.MarginalsUniform m' := by
  unfold MarginalsUniform
  rw [hm]
  exact h

/-- What is so whenever a replay of the schedule comes to an entry that calls a procedure. -/
def Block.AtEveryCall (b : Block) (g : Graph) (m : Memory)
    (Q : ScheduleEntry → Rule → List Value → Prop) : Prop :=
  ∀ pre e post, b.schedule = pre ++ e :: post → ∀ m', pre.forM (Block.replay g b.id) m = .ok () m' →
    ∀ node, g.node e.node = .ok node → node.observed = none →
      ∀ args, e.inbounds.mapM (m'.valueOf g) = .ok args → ∃ r, e.rule = some r ∧ Q e r args

/-- A replay of the schedule of a block preserves types. -/
structure Block.Preserves (b : Block) (g : Graph) (c : Catalogue) (m : Memory) : Prop where
  /-- After a replay every message has the type that was found for it. -/
  messages : ∀ m', b.schedule.forM (Block.replay g b.id) m = .ok () m' → ∀ e ∈ b.schedule,
    ∃ t, e.outbound = some t ∧ (m'.message e.interface).type? = some t
  /-- Procedures are called with what their rules accept, factors as far as they are like the
  first. -/
  calls : b.AtEveryCall g m fun e r args => e.Called r args fun i => ∀ v ∈ args, v.LikeFirst i
  /-- If procedures keep values uniform, rules accept all factors, and messages are uniform. -/
  uniform : c.KeepsUniform g → b.MarginalsUniform m →
    (b.AtEveryCall g m fun e r args => e.Called r args fun _ => True) ∧
      ∀ m', b.schedule.forM (Block.replay g b.id) m = .ok () m' → ∀ e ∈ b.schedule,
        (m'.message e.interface).Uniform

/-! ## Replays -/

/-- The messages whose types are known are as asked for messages of these types. -/
def Memory.Meets (P : TypeTerm → Value → Prop) (known : Table InterfaceId TypeTerm) (m : Memory) :
    Prop :=
  ∀ i t, known.get? i = some t → P t (m.message i)

/-- Values of a type. -/
def OfType (t : TypeTerm) (v : Value) : Prop := v.type? = some t

/-- Uniform values of a type. -/
def UniformOfType (t : TypeTerm) (v : Value) : Prop := v.type? = some t ∧ v.Uniform

section Replay

variable {g : Graph} {id : String} {m m' : Memory} {e : ScheduleEntry} {l : List ScheduleEntry}
  {P : TypeTerm → Value → Prop} {known : Table InterfaceId TypeTerm}

theorem Memory.Meets.replay (hm : m.Meets P known) (h : Block.replay g id e m = .ok () m')
    (he : ∀ v, m.entryValue g e = .ok v → ∃ t, e.outbound = some t ∧ P t v) :
    m'.Meets P (ScheduleEntry.learn known e) := by
  obtain ⟨v, hv, -, hmessage⟩ := Block.message_of_replay h
  obtain ⟨t, ho, hP⟩ := he v hv
  intro i u hu
  rw [get?_learn known ho] at hu
  rw [hmessage]
  split at hu
  · rename_i hi
    cases hu
    rw [if_pos hi]
    exact hP
  · rename_i hi
    rw [if_neg hi]
    exact hm i u hu

/-- **What every entry makes of the messages before it, a replay makes of all messages.** -/
theorem meets_of_forM {whole : List ScheduleEntry}
    (hstep : ∀ pre e post, whole = pre ++ e :: post → ∀ m' : Memory, m'.marginals = m.marginals →
      m'.Meets P (messageTypes pre) → ∀ v, m'.entryValue g e = .ok v →
        ∃ t, e.outbound = some t ∧ P t v)
    (hl : l <+: whole) (h : l.forM (Block.replay g id) m = .ok () m') :
    m'.marginals = m.marginals ∧ m'.Meets P (messageTypes l) := by
  induction l using List.reverseRecOn generalizing m' with
  | nil =>
    obtain ⟨-, rfl⟩ := Attempt.pure_eq_ok.mp h
    exact ⟨rfl, fun i t ht => by cases ht⟩
  | append_singleton l e ih =>
    rw [List.forM_eq_forM, List.forM_append, List.forM_cons, List.forM_nil, bind_pure_unit] at h
    obtain ⟨_, m₁, hinit, hlast⟩ := Attempt.bind_eq_ok.mp h
    obtain ⟨hmarginals, hmeets⟩ := ih ((List.prefix_append l [e]).trans hl) hinit
    obtain ⟨-, -, hkept, -⟩ := Block.message_of_replay hlast
    obtain ⟨post, hpost⟩ := hl
    have hsplit : whole = l ++ e :: post := by
      rw [← hpost, List.append_assoc, List.cons_append, List.nil_append]
    rw [messageTypes_snoc]
    exact ⟨hkept.trans hmarginals,
      hmeets.replay hlast (hstep l e post hsplit m₁ hmarginals hmeets)⟩

end Replay

/-! ## Compiled blocks -/

namespace Block

/-- A compiled block that is run straight through: it has no loop breakers, and its schedule has no
factors of factors. -/
structure Straight (g : Graph) (c : Catalogue) (sites : List InterfaceId) (b : Block) : Prop where
  coherent : g.Coherent
  compiled : b.Compiled g c sites
  wired : b.Wired g
  loopless : b.loopBreakers = []
  flat : ∀ e ∈ b.schedule, Flat e.inboundTypes

section Straight

variable {b : Block} {g : Graph} {c : Catalogue} {sites : List InterfaceId} {m m' : Memory}
  {pre post : List ScheduleEntry} {e : ScheduleEntry} {P : TypeTerm → Value → Prop}

namespace Straight

/-- The types of the messages that an entry reads are known. -/
theorem exists_type (h : b.Straight g c sites) (hsplit : b.schedule = pre ++ e :: post)
    {i : InterfaceId} (hi : .message i ∈ e.inbounds) : ∃ t, (messageTypes pre).get? i = some t := by
  have hpre : i ∈ pre.map (·.interface) := by
    by_contra hi'
    obtain ⟨hbreaker, -⟩ := h.wired.early pre e post hsplit i (mem_messagesOf.mpr hi) hi'
    rw [h.loopless] at hbreaker
    exact absurd hbreaker List.not_mem_nil
  obtain ⟨f, hf, rfl⟩ := List.mem_map.mp hpre
  have hmem : f ∈ b.schedule := hsplit ▸ List.mem_append_left _ hf
  obtain ⟨t, ht⟩ := h.compiled.assembled.exists_outbound hmem
  have hnodup := h.compiled.prepared.planned.nodup_order
  rw [order, hsplit, List.map_append, List.nodup_append] at hnodup
  exact ⟨t, get?_messageTypes hnodup.1 hf ht⟩

/-- What an entry reads has the types that it was resolved for, if the messages before it do. -/
theorem exists_supplied (h : b.Straight g c sites) (hP : ∀ {t v}, P t v → v.type? = some t)
    (hmarginals : b.MarginalsTyped m) (hsplit : b.schedule = pre ++ e :: post)
    (hm : m.Meets P (messageTypes pre)) {node : Node} (hnode : g.node e.node = .ok node)
    (hvalue : node.observed = none) {args : List Value}
    (hargs : e.inbounds.mapM (m.valueOf g) = .ok args) : ∃ r, e.Supplied g c m node args r := by
  have he : e ∈ b.schedule := by simp [hsplit]
  obtain ⟨p, hentries⟩ := h.compiled.assembled.entries
  cases hentries pre e post hsplit with
  | observed hnode' hvalue' _ _ =>
    cases hnode.symm.trans hnode'
    rw [hvalue] at hvalue'
    contradiction
  | @rule _ r hnode' _ hsources htypes hresolve houtbound hrule hone =>
    cases hnode.symm.trans hnode'
    have harrive : Arrive e.inbounds args e.inboundTypes := by
      refine arrive_of_reads h.coherent hsources htypes hargs (fun i hi => ?_) (hmarginals e he)
      obtain ⟨t, ht⟩ := h.exists_type hsplit hi
      exact ⟨t, ht, hP (hm i t ht)⟩
    exact ⟨r, hnode, hvalue, hargs, harrive, h.flat e he, hresolve, hrule, hone, houtbound⟩

/-- An entry computes a value as asked for, if observed values are so and if it makes such a value
of arguments of the types that it was resolved for. -/
theorem exists_of_entryValue (h : b.Straight g c sites) (hP : ∀ {t v}, P t v → v.type? = some t)
    (hobserved : ∀ value : Tensor, P value.pointMassType (Value.pointMass value))
    (hmarginals : b.MarginalsTyped m) (hsplit : b.schedule = pre ++ e :: post)
    (hm : m.Meets P (messageTypes pre)) {v : Value} (hv : m.entryValue g e = .ok v)
    (hsupplied : ∀ node args r, e.Supplied g c m node args r → P r.outbound v) :
    ∃ t, e.outbound = some t ∧ P t v := by
  obtain ⟨p, hentries⟩ := h.compiled.assembled.entries
  cases hentries pre e post hsplit with
  | observed hnode hvalue _ houtbound =>
    cases hv.symm.trans (entryValue_of_observed hnode hvalue)
    exact ⟨_, houtbound, hobserved _⟩
  | rule hnode hvalue _ _ _ _ _ _ =>
    obtain ⟨args, hargs⟩ := exists_args_of_entryValue hnode hvalue hv
    obtain ⟨r, hr⟩ := h.exists_supplied hP hmarginals hsplit hm hnode hvalue hargs
    exact ⟨r.outbound, hr.outbound, hsupplied _ args r hr⟩

/-- **After a replay of a part, the messages are as asked for**, if every entry makes such a value
of arguments of the types that it was resolved for. -/
theorem meets (h : b.Straight g c sites) (hP : ∀ {t v}, P t v → v.type? = some t)
    (hobserved : ∀ value : Tensor, P value.pointMassType (Value.pointMass value))
    (hmarginals : b.MarginalsTyped m)
    (hsupplied : ∀ pre e post, b.schedule = pre ++ e :: post → ∀ m' : Memory,
      m'.marginals = m.marginals → m'.Meets P (messageTypes pre) → ∀ node args r v,
        e.Supplied g c m' node args r → m'.entryValue g e = .ok v → P r.outbound v)
    (hpre : pre <+: b.schedule) (hrun : pre.forM (Block.replay g b.id) m = .ok () m') :
    m'.marginals = m.marginals ∧ m'.Meets P (messageTypes pre) := by
  refine meets_of_forM (fun pre e post hsplit m' hm' hmeets v hv => ?_) hpre hrun
  exact h.exists_of_entryValue hP hobserved (hmarginals.congr hm') hsplit hmeets hv
    fun node args r hr => hsupplied pre e post hsplit m' hm' hmeets node args r v hr hv

/-- Whenever a replay comes to an entry, its arguments have the types that it was resolved for. -/
theorem atEveryCall {Q : ScheduleEntry → Rule → List Value → Prop} (h : b.Straight g c sites)
    (hP : ∀ {t v}, P t v → v.type? = some t) (hmarginals : b.MarginalsTyped m)
    (hmeets : ∀ {pre m'}, pre <+: b.schedule → pre.forM (Block.replay g b.id) m = .ok () m' →
      m'.marginals = m.marginals ∧ m'.Meets P (messageTypes pre))
    (hQ : ∀ pre e post, b.schedule = pre ++ e :: post → ∀ m' : Memory,
      m'.marginals = m.marginals → m'.Meets P (messageTypes pre) → ∀ node args r,
        e.Supplied g c m' node args r → Q e r.rule args) : b.AtEveryCall g m Q := by
  intro pre e post hsplit m' hrun node hnode hvalue args hargs
  obtain ⟨hm', hm⟩ := hmeets ⟨_, hsplit.symm⟩ hrun
  obtain ⟨r, hr⟩ := h.exists_supplied hP (hmarginals.congr hm') hsplit hm hnode hvalue hargs
  exact ⟨r.rule, hr.rule, hQ pre e post hsplit m' hm' hm node args r hr⟩

/-- After a whole replay, every message is as asked for. -/
theorem exists_message (h : b.Straight g c sites) (hm : m.Meets P (messageTypes b.schedule))
    (he : e ∈ b.schedule) : ∃ t, e.outbound = some t ∧ P t (m.message e.interface) := by
  obtain ⟨t, ht⟩ := h.compiled.assembled.exists_outbound he
  exact ⟨t, ht, hm _ t (get?_messageTypes h.compiled.prepared.planned.nodup_order he ht)⟩

/-- What an entry reads is uniform, if the messages before it are. -/
theorem uniform_of_supplied (h : b.Straight g c sites) (hmarginals : b.MarginalsUniform m)
    (hsplit : b.schedule = pre ++ e :: post) (hm : m.Meets UniformOfType (messageTypes pre))
    {node : Node} {args : List Value} {r : Resolution} (hr : e.Supplied g c m node args r) :
    ∀ a ∈ args, a.Uniform := by
  refine uniform_of_reads hr.read (fun i hi => ?_) (hmarginals e (by simp [hsplit]))
  obtain ⟨t, ht⟩ := h.exists_type hsplit hi
  exact (hm i t ht).2

/-- **A replay of a compiled block preserves types.** -/
theorem preserves (h : b.Straight g c sites) (hc : c.Faithful g) (hm : b.MarginalsTyped m) :
    b.Preserves g c m := by
  have htyped : ∀ {pre m'}, pre <+: b.schedule → pre.forM (Block.replay g b.id) m = .ok () m' →
      m'.marginals = m.marginals ∧ m'.Meets OfType (messageTypes pre) := by
    refine h.meets (fun ht => ht) (fun _ => rfl) hm ?_
    intro pre e post hsplit m' hm' hmeets node args r v hr hv
    exact type?_of_entryValue hr hc hv
  refine ⟨fun m' hrun e he => ?_, ?_, fun hu hmu => ?_⟩
  · exact h.exists_message (htyped List.prefix_rfl hrun).2 he
  · refine h.atEveryCall (fun ht => ht) hm htyped ?_
    intro pre e post hsplit m' hm' hmeets node args r hr
    exact called_of_supplied hr fun n hn i hi hlike => hlike
  · have huniform : ∀ {pre m'}, pre <+: b.schedule →
        pre.forM (Block.replay g b.id) m = .ok () m' →
          m'.marginals = m.marginals ∧ m'.Meets UniformOfType (messageTypes pre) := by
      refine h.meets And.left (fun _ => ⟨rfl, Value.uniform_of_ne_parts nofun⟩) hm ?_
      intro pre e post hsplit m' hm' hmeets node args r v hr hv
      have hargs := h.uniform_of_supplied (hmu.congr hm') hsplit hmeets hr
      exact ⟨type?_of_entryValue hr hc hv, uniform_of_entryValue hr hc hu hargs hv⟩
    refine ⟨h.atEveryCall And.left hm huniform ?_, fun m' hrun e he => ?_⟩
    · intro pre e post hsplit m' hm' hmeets node args r hr
      have hargs := h.uniform_of_supplied (hmu.congr hm') hsplit hmeets hr
      exact called_of_supplied hr fun n hn i hi _ v hv => (hargs v hv).likeFirst (hn v hv) hi
    · obtain ⟨t, -, ht⟩ := h.exists_message (huniform List.prefix_rfl hrun).2 he
      exact ht.2

end Straight

end Straight

end Block

namespace Posterior

variable {g : Graph} {c : Catalogue} {sites : List InterfaceId} {reject : Option Bool}
  {p q : Posterior} {ids : List String}

/-- **Types are preserved in every compiled block without loop breakers**, from any messages, if its
schedule has no factors of factors, every procedure computes what its rule announces, and the
marginals that are read have the types that the schedule was resolved for. -/
theorem preserves_of_compile (hg : g.Built) (hp : Built g p)
    (h : compile g c sites reject p = .ok ids q) (hc : c.Faithful g) :
    ∃ blocks, ids.mapM q.block = .ok blocks ∧ ∀ b ∈ blocks, b.loopBreakers = [] →
      (∀ e ∈ b.schedule, Flat e.inboundTypes) → ∀ m, b.MarginalsTyped m → b.Preserves g c m := by
  obtain ⟨blocks, hblocks, hcompiled⟩ := exists_blocks_of_compile hp h
  refine ⟨blocks, hblocks, fun b hb hl hflat m hm => ?_⟩
  obtain ⟨-, hmade, hb⟩ := hcompiled b hb
  have hstraight : b.Straight g c sites :=
    ⟨hg.coherent, hb, Block.wired_of_compiled hg.coherent hmade hb, hl, hflat⟩
  exact hstraight.preserves hc hm

/-- A source of pairs, with a function of what comes from it. -/
def pairGraph : Graph :=
  let s : NodeRequest := { kind := "source", interfaces := 1 }
  let f : NodeRequest := { kind := "map", interfaces := 2, deterministic := true }
  let g := ((Graph.addNode f).outcome ((Graph.addNode s).outcome ∅).2).2
  let g := ((Graph.connect (.numbered 0) (some (.numbered 1)) (some "x") none).outcome g).2
  ((Graph.connect (.numbered 2) none (some "y") none).outcome g).2

/-- The rule of the source answers two factors, of which the first is a Gaussian. -/
def pairRule (second : String) : Rule where
  key := ⟨"source", .sumProduct, some 0⟩
  inbounds := [.void]
  outbound := .pattern (.partitioned (.dist "Gaussian" []) (.num 2))
  procedure := some fun _ => .ok (.parts [.dist "Gaussian" [] ∅, .dist second [] ∅])

/-- The rule of the function is about a Gaussian. -/
def mapRule : Rule where
  key := ⟨"map", .sumProduct, some 1⟩
  inbounds := [.message (.dist "Gaussian" []), .void]
  outbound := .pattern (.dist "Gaussian" [])
  procedure := some fun _ => .ok (.dist "Gaussian" [] ∅)

/-- A rule for each of the two. -/
def pairCatalogue (second : String) : Catalogue :=
  ⟨[pairRule second, mapRule]⟩

/-- The posterior with one block, for what the function answers. -/
def pairPosterior : Posterior :=
  ((addBlock pairGraph ["y"] (some "y")).outcome { options := wholeOptions }).2

/-- The entry of the pairs. -/
def pairEntry (second : String) : ScheduleEntry where
  interface := 0
  node := 0
  position := 0
  ruleType := .sumProduct
  inboundTypes := [.void]
  outbound := some (.partitioned (.dist "Gaussian" []) (.num 2))
  rule := some (pairRule second)
  inbounds := [.nothing]
  order := some 0

/-- The entry of the function, which is applied to one factor of the pairs at a time. -/
def mapEntry : ScheduleEntry where
  interface := 2
  node := 1
  position := 1
  ruleType := .sumProduct
  inboundTypes := [.message (.partitioned (.dist "Gaussian" []) (.num 2)), .void]
  outbound := some (.partitioned (.dist "Gaussian" []) (.num 2))
  rule := some mapRule
  oneByOne := true
  inbounds := [.message 0, .nothing]
  order := some 1

section Pair

variable {second : String}

theorem built_pairGraph : pairGraph.Built :=
  .connect (.connect (.addNode (.addNode .empty _) _) _ _ _ _) _ _ _ _

theorem compile_pair (second : String) :
    ∃ q b, compile pairGraph (pairCatalogue second) [] none pairPosterior = .ok ["y"] q ∧
      ["y"].mapM q.block = .ok [b] ∧ b.schedule = [pairEntry second, mapEntry] ∧
        b.loopBreakers = [] := by
  have hcompiled : ∃ q b, compile pairGraph (pairCatalogue second) [] none pairPosterior =
      .ok ["y"] q ∧ ["y"].mapM q.block = .ok [b] ∧
        (b.schedule, b.loopBreakers) = ([pairEntry second, mapEntry], []) :=
    exists_block_of_outcome (f := fun b => (b.schedule, b.loopBreakers)) (by cbv) (by cbv)
  simpa only [Prod.mk.injEq] using hcompiled

theorem faithful_pair (second : String) : (pairCatalogue second).Faithful pairGraph := by
  intro r hr f hf n node _ sources args types b t v _ _ ht hv
  rcases List.mem_pair.mp hr with rfl | rfl
  · cases hf
    cases ht
    cases hv
    rfl
  · cases hf
    cases ht
    cases hv
    rfl

theorem flat_pair : ∀ e ∈ [pairEntry second, mapEntry], Flat e.inboundTypes := by
  intro e he t ht u k hp
  rcases List.mem_pair.mp he with rfl | rfl
  · obtain rfl := List.mem_singleton.mp ht
    cases hp
  · rcases List.mem_pair.mp ht with rfl | rfl
    · cases hp
      rfl
    · cases hp

theorem no_marginal_pair {e : ScheduleEntry} (he : e ∈ [pairEntry second, mapEntry]) (x : Target) :
    .marginal x ∉ e.inbounds := by
  rcases List.mem_pair.mp he with rfl | rfl <;> simp [pairEntry, mapEntry]

theorem marginalsTyped_pair {b : Block} (hb : b.schedule = [pairEntry second, mapEntry])
    (m : Memory) : b.MarginalsTyped m := by
  intro e he x t hx
  exact absurd (List.of_mem_zip hx).1 (no_marginal_pair (hb ▸ he) x)

theorem marginalsUniform_pair {b : Block} (hb : b.schedule = [pairEntry second, mapEntry])
    (m : Memory) : b.MarginalsUniform m :=
  fun _ he x hx => absurd hx (no_marginal_pair (hb ▸ he) x)

theorem keepsUniform_pair : (pairCatalogue "Gaussian").KeepsUniform pairGraph := by
  intro r hr f hf n node _ sources args v _ _ hv
  rcases List.mem_pair.mp hr with rfl | rfl
  · cases hf
    cases hv
    intro l hl x hx y hy
    cases hl
    rcases List.mem_pair.mp hx with rfl | rfl <;> rcases List.mem_pair.mp hy with rfl | rfl <;> rfl
  · cases hf
    cases hv
    exact Value.uniform_of_ne_parts nofun

/-- With two Gaussians, every factor has the type that the rules are chosen for. -/
theorem preserves_pair :
    pairGraph.Built ∧ Built pairGraph pairPosterior ∧
      (pairCatalogue "Gaussian").Faithful pairGraph ∧
      (pairCatalogue "Gaussian").KeepsUniform pairGraph ∧
      ∃ q b, compile pairGraph (pairCatalogue "Gaussian") [] none pairPosterior = .ok ["y"] q ∧
        ["y"].mapM q.block = .ok [b] ∧ b.loopBreakers = [] ∧
          (∀ e ∈ b.schedule, Flat e.inboundTypes) ∧ ∀ m, b.MarginalsTyped m ∧
            b.MarginalsUniform m ∧ b.Preserves pairGraph (pairCatalogue "Gaussian") m := by
  have hp : Built pairGraph pairPosterior := .addBlock (.fresh wholeOptions) _ _
  obtain ⟨q, b, hc, hb, hschedule, hloops⟩ := compile_pair "Gaussian"
  have hflat : ∀ e ∈ b.schedule, Flat e.inboundTypes := hschedule ▸ flat_pair
  have hfaithful := faithful_pair "Gaussian"
  obtain ⟨blocks, hblocks, hpreserves⟩ := preserves_of_compile built_pairGraph hp hc hfaithful
  cases hblocks.symm.trans hb
  refine ⟨built_pairGraph, hp, hfaithful, keepsUniform_pair, q, b, hc, hb, hloops, hflat,
    fun m => ?_⟩
  have hm := marginalsTyped_pair hschedule m
  exact ⟨hm, marginalsUniform_pair hschedule m,
    hpreserves b (List.mem_singleton_self b) hloops hflat m hm⟩

theorem not_accepts_gamma :
    ¬ mapRule.Accepts [.message 0, .nothing] [.dist "Gamma" [] ∅, .absent] := by
  rintro ⟨types, b, harrive, hmatch⟩
  cases harrive with
  | cons hfirst hrest =>
    cases hrest with
    | cons hsecond hrest =>
      cases hrest
      cases hfirst
      cases hsecond
      contradiction

theorem reads_mapEntry (m : Memory) (v : Value) :
    mapEntry.inbounds.mapM ((m.send 0 v).valueOf pairGraph) = .ok [v, .absent] := by
  have hread : (m.send 0 v).valueOf pairGraph (.message 0) = .ok v :=
    congrArg Except.ok (m.message_send 0 0 v)
  unfold mapEntry
  rw [List.mapM_cons, hread]
  rfl

/-- **A second factor may have a type that the rule does not accept**, though every procedure
computes what its rule announces: the type of factors is that of the first one. -/
theorem not_accepts_second_factor :
    pairGraph.Built ∧ Built pairGraph pairPosterior ∧ (pairCatalogue "Gamma").Faithful pairGraph ∧
      ∃ q b, compile pairGraph (pairCatalogue "Gamma") [] none pairPosterior = .ok ["y"] q ∧
        ["y"].mapM q.block = .ok [b] ∧ b.loopBreakers = [] ∧
          (∀ e ∈ b.schedule, Flat e.inboundTypes) ∧ ∀ m, b.MarginalsTyped m ∧
            ¬ b.AtEveryCall pairGraph m fun e r args => e.Called r args fun _ => True := by
  have hp : Built pairGraph pairPosterior := .addBlock (.fresh wholeOptions) _ _
  obtain ⟨q, b, hc, hb, hschedule, hloops⟩ := compile_pair "Gamma"
  have hflat : ∀ e ∈ b.schedule, Flat e.inboundTypes := hschedule ▸ flat_pair
  refine ⟨built_pairGraph, hp, faithful_pair "Gamma", q, b, hc, hb, hloops, hflat, fun m =>
    ⟨marginalsTyped_pair hschedule m, fun hcall => ?_⟩⟩
  have hnode : ∃ node, pairGraph.node 1 = .ok node ∧ node.observed = none := ⟨_, rfl, rfl⟩
  obtain ⟨node, hnode, hvalue⟩ := hnode
  let pair : Value := .parts [.dist "Gaussian" [] ∅, .dist "Gamma" [] ∅]
  obtain ⟨r, hr, hcalled⟩ := hcall [pairEntry "Gamma"] mapEntry [] hschedule (m.send 0 pair) rfl
    node hnode hvalue [pair, .absent] (reads_mapEntry m _)
  cases hr
  obtain ⟨n, hpos, hfactors, haccepts⟩ := hcalled.factors rfl
  have hn : n ≠ 1 := by
    rintro rfl
    have hparts : Except.ok (.parts [.absent, .absent]) = Except.ok (Value.parts [.absent]) :=
      hfactors (fun _ => .ok .absent) (.node 0)
    cases hparts
  exact not_accepts_gamma (haccepts 1 (by omega) trivial)

end Pair

end Posterior

end MessagePassing
