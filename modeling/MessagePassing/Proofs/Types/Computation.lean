import MessagePassing.Proofs.Assembly.Reads
import MessagePassing.Proofs.Types.Choice

/-!
# What an entry computes

Rules are chosen by the types that arguments will have. If an entry reads arguments of these types,
its procedure gets what its rule accepts, and if the procedure computes what the rule announces, the
entry computes a value of its type. The type of a value of factors tells about its first factor
only; for the other factors this holds as far as they are like the first, and for all of them if
procedures keep values uniform.

Results:
* `argumentType?_of_valueOf`, `arrive_of_reads`: what an entry reads has the types that it was
  resolved for.
* `called_of_supplied`: from such arguments, procedures get what their rules accept.
* **`type?_of_entryValue`**, `uniform_of_entryValue`: what an entry computes from such arguments.
-/

namespace MessagePassing

/-! ## What is asked of procedures -/

/-- Every procedure computes what its rule announces from arguments that the rule accepts. -/
def Catalogue.Faithful (c : Catalogue) (g : Graph) : Prop :=
  ∀ r ∈ c.rules, ∀ f, r.procedure = some f → ∀ n node, g.node n = .ok node →
    ∀ sources args types b t v, Arrive sources args types →
      TypeTerm.matchAll r.inbounds types ∅ = some b → r.outboundFor (some node) b = .ok t →
        f (.node node.id :: args.map .value) = .ok v → v.type? = some t

/-- From uniform arguments that their rule accepts, procedures compute uniform values. -/
def Catalogue.KeepsUniform (c : Catalogue) (g : Graph) : Prop :=
  ∀ r ∈ c.rules, ∀ f, r.procedure = some f → ∀ n node, g.node n = .ok node →
    ∀ sources args v, r.Accepts sources args → (∀ a ∈ args, a.Uniform) →
      f (.node node.id :: args.map .value) = .ok v → v.Uniform

/-- The procedure of an entry is called with arguments that its rule accepts. If it works on factors
one by one, the arguments can be taken apart, and the rule accepts the factors at the places of
`P`. -/
structure ScheduleEntry.Called (e : ScheduleEntry) (r : Rule) (args : List Value)
    (P : Nat → Prop) : Prop where
  whole : e.oneByOne = false → r.Accepts e.inbounds args
  factors : e.oneByOne = true → ∃ n, 0 < n ∧
    (∀ f lead, applyOneByOne f lead args =
      ((List.range n).mapM fun i => f (lead :: (args.map (factorAt i)).map .value)) >>=
        Value.ofFactors) ∧
    ∀ i < n, P i → r.Accepts e.inbounds (args.map (factorAt i))

/-! ## What an entry reads -/

section Reads

variable {g : Graph} {c : Catalogue} {p : Posterior} {internal : List EdgeId} {m : Memory}
  {known : Table InterfaceId TypeTerm} {n : NodeId} {out : Option InterfaceId} {r : RuleType}

theorem Graph.Coherent.node_of_nodeOf (hg : g.Coherent) {i : InterfaceId} {node : Node}
    (h : g.nodeOf i = .ok node) : g.node node.id = .ok node := by
  obtain ⟨y, -, hy⟩ := Option.bind_eq_some_iff.mp (Graph.nodeOf_eq_ok.mp h)
  rw [hg.node_id hy]
  exact Graph.node_eq_ok.mpr hy

/-- A constant is the observed value of a node. -/
theorem observed_of_constant (hg : g.Coherent) {sources : List Source} {k : NodeId}
    (h : p.sources g internal n out r = .ok sources) (hk : .constant k ∈ sources) :
    ∃ node value, g.node k = .ok node ∧ node.observed = some value := by
  obtain ⟨node, -, hmap⟩ := bind_eq_ok.mp h
  obtain ⟨j, -, hj⟩ := exists_of_mem_mapM hmap hk
  obtain ⟨e, -, hj⟩ := bind_eq_ok.mp hj
  split at hj
  · cases pure_eq_ok.mp hj
  · split at hj
    · cases pure_eq_ok.mp hj
    · split at hj
      · cases pure_eq_ok.mp hj
      · obtain ⟨far, hfar, hj⟩ := bind_eq_ok.mp hj
        split at hj
        · rename_i hclamp
          cases pure_eq_ok.mp hj
          obtain ⟨value, hvalue⟩ := Option.isSome_iff_exists.mp hclamp
          exact ⟨far, value, hg.node_of_nodeOf hfar, hvalue⟩
        · cases pure_eq_ok.mp hj

/-- What is read from a source has the type that was found for it, if the message or marginal there
has it. -/
theorem argumentType?_of_valueOf {s : Source} {t : TypeTerm} {v : Value}
    (ht : p.sourceType g known n s = .ok t) (hv : m.valueOf g s = .ok v)
    (hmessage : ∀ i, s = .message i → ∃ u, known.get? i = some u ∧ (m.message i).type? = some u)
    (hmarginal : ∀ x, s = .marginal x → ∀ w, m.marginals.get? x = some w → w.type? = some t)
    (hconstant : ∀ k, s = .constant k → ∃ node value, g.node k = .ok node ∧
      node.observed = some value) : s.argumentType? v = some t := by
  cases s with
  | nothing =>
    cases ht
    cases hv
    rfl
  | message i =>
    obtain ⟨u, hu, hm⟩ := hmessage i rfl
    cases hv
    obtain ⟨u', hu', rfl⟩ := map_eq_ok.mp ht
    unfold Posterior.messageType at hu'
    rw [hu] at hu'
    cases hu'
    exact argumentType?_of_type? hm
  | marginal x =>
    unfold Memory.valueOf at hv
    dsimp only at hv
    split at hv
    · rename_i w hw
      cases hv
      exact argumentType?_of_type? (hmarginal x rfl _ hw)
    · contradiction
  | constant k =>
    obtain ⟨node, value, hnode, hvalue⟩ := hconstant k rfl
    obtain ⟨node₁, hnode₁, ht⟩ := bind_eq_ok.mp ht
    obtain ⟨node₂, hnode₂, hv⟩ := bind_eq_ok.mp hv
    cases hnode.symm.trans hnode₁
    cases hnode.symm.trans hnode₂
    cases pure_eq_ok.mp ht
    cases pure_eq_ok.mp hv
    rw [hvalue]
    rfl

/-- **What is read has the types that were found for it**, if the messages and marginals do. -/
theorem arrive_of_reads (hg : g.Coherent) {sources : List Source} {types : List TypeTerm}
    {args : List Value} (hsources : p.sources g internal n out r = .ok sources)
    (htypes : sources.mapM (p.sourceType g known n) = .ok types)
    (hargs : sources.mapM (m.valueOf g) = .ok args)
    (hmessages : ∀ i, .message i ∈ sources → ∃ t, known.get? i = some t ∧
      (m.message i).type? = some t)
    (hmarginals : ∀ x t, (.marginal x, t) ∈ sources.zip types →
      ∀ v, m.marginals.get? x = some v → v.type? = some t) :
    Arrive sources args types := by
  have hconstants := fun k => observed_of_constant (k := k) hg hsources
  replace htypes := mapM_eq_ok.mp htypes
  replace hargs := mapM_eq_ok.mp hargs
  clear hsources
  induction htypes generalizing args with
  | nil =>
    cases hargs
    exact .nil
  | @cons s t sources types ht _ ih =>
    cases hargs with
    | cons hv hargs =>
      refine .cons ?_ (ih (fun i hi => hmessages i (List.mem_cons_of_mem _ hi))
        (fun x t hx => hmarginals x t (List.mem_cons_of_mem _ hx))
        (fun k hk => hconstants k (List.mem_cons_of_mem _ hk)) hargs)
      refine argumentType?_of_valueOf ht hv ?_ ?_ ?_
      · rintro i rfl
        exact hmessages i List.mem_cons_self
      · rintro x rfl
        exact hmarginals x t List.mem_cons_self
      · rintro k rfl
        exact hconstants k List.mem_cons_self

/-- What is read is uniform, if the messages and marginals are. -/
theorem uniform_of_reads {sources : List Source} {args : List Value}
    (hargs : sources.mapM (m.valueOf g) = .ok args)
    (hmessages : ∀ i, .message i ∈ sources → (m.message i).Uniform)
    (hmarginals : ∀ x, .marginal x ∈ sources → ∀ v, m.marginals.get? x = some v → v.Uniform) :
    ∀ a ∈ args, a.Uniform := by
  intro a ha
  obtain ⟨s, hs, hv⟩ := exists_of_mem_mapM hargs ha
  cases s with
  | nothing =>
    cases hv
    exact Value.uniform_of_ne_parts nofun
  | message i =>
    cases hv
    exact hmessages i hs
  | marginal x =>
    unfold Memory.valueOf at hv
    dsimp only at hv
    split at hv
    · rename_i w hw
      cases hv
      exact hmarginals x hs _ hw
    · contradiction
  | constant k =>
    obtain ⟨node, -, hv⟩ := bind_eq_ok.mp hv
    cases pure_eq_ok.mp hv
    cases node.observed with
    | none => exact Value.uniform_of_ne_parts nofun
    | some value => exact Value.uniform_of_ne_parts nofun

end Reads

/-! ## What an entry computes -/

section Computes

variable {g : Graph} {c : Catalogue} {m : Memory} {e : ScheduleEntry} {node : Node}
  {q : Request} {r : Resolution} {sources : List Source} {args : List Value} {v : Value}

theorem entryValue_of_args (hnode : g.node e.node = .ok node) (hvalue : node.observed = none)
    (hargs : e.inbounds.mapM (m.valueOf g) = .ok args) :
    m.entryValue g e = if e.oneByOne then
      applyOneByOne (Memory.procedureOf e.rule) (.node node.id) args
      else Memory.procedureOf e.rule (.node node.id :: args.map .value) := by
  unfold Memory.entryValue
  rw [hnode, ok_bind, hvalue, hargs]
  rfl

/-- A value is computed only from arguments that are there. -/
theorem exists_args_of_entryValue (hnode : g.node e.node = .ok node)
    (hvalue : node.observed = none) (h : m.entryValue g e = .ok v) :
    ∃ args, e.inbounds.mapM (m.valueOf g) = .ok args := by
  unfold Memory.entryValue at h
  rw [hnode, ok_bind, hvalue] at h
  obtain ⟨args, hargs, -⟩ := bind_eq_ok.mp h
  exact ⟨args, hargs⟩

/-- The value of a clamp is what has been observed. -/
theorem entryValue_of_observed {value : Tensor} (hnode : g.node e.node = .ok node)
    (hvalue : node.observed = some value) : m.entryValue g e = .ok (Value.pointMass value) := by
  unfold Memory.entryValue
  rw [hnode, ok_bind, hvalue]
  rfl

theorem procedureOf_eq_ok {r : Rule} {l : List Argument}
    (h : Memory.procedureOf (some r) l = .ok v) : ∃ f, r.procedure = some f ∧ f l = .ok v := by
  unfold Memory.procedureOf at h
  rw [Option.bind_some] at h
  cases hf : r.procedure with
  | none => rw [hf] at h; contradiction
  | some f =>
    rw [hf] at h
    exact ⟨f, rfl, h⟩

/-- Arguments of flat types that a rule is chosen for below a layer can be taken apart, and the rule
matches the types of their factors. -/
structure OneLayer (c : Catalogue) (q : Request) (r s : Resolution) (sources : List Source)
    (args : List Value) (elements : List TypeTerm) (n : Nat) : Prop where
  pos : 0 < n
  whole : c.Whole (q.below elements) s
  rule : r.rule = s.rule
  outbound : r.outbound = .partitioned s.outbound (.num n)
  splits : ∀ v ∈ args, v.Splits n
  parts : ∃ l, .parts l ∈ args
  factor : ∀ i, (∀ v ∈ args, v.LikeFirst i) → Arrive sources (args.map (factorAt i)) elements

theorem oneLayer_of_chosen {elements : List TypeTerm} {k : TypeTerm} {s : Resolution}
    (harrive : Arrive sources args q.inbounds) (hflat : Flat q.inbounds)
    (hpeel : peelLayer q.key q.inbounds = .ok (elements, k))
    (hbelow : c.resolve (q.below elements) = .ok s) (hrule : r.rule = s.rule)
    (houtbound : r.outbound = .partitioned s.outbound k) :
    ∃ n, OneLayer c q r s sources args elements n := by
  obtain ⟨hpeeled, hsome⟩ := peeled_of_peelLayer hpeel
  obtain ⟨l, hl, rfl, hpos⟩ := harrive.exists_parts hpeeled hsome
  have hwhole : c.Whole (q.below elements) s :=
    whole_of_flat hbelow (any_isPartitioned_of_peeled hpeeled hflat)
  exact ⟨l.length, hpos, hwhole, hrule, houtbound, harrive.splits hpeeled, ⟨l, hl⟩,
    fun _ hi => harrive.factor hpeeled hi⟩

/-- An entry that calls a procedure has arguments of the types that its rule was chosen for. -/
structure ScheduleEntry.Supplied (e : ScheduleEntry) (g : Graph) (c : Catalogue) (m : Memory)
    (node : Node) (args : List Value) (r : Resolution) : Prop where
  nodeAt : g.node e.node = .ok node
  unobserved : node.observed = none
  read : e.inbounds.mapM (m.valueOf g) = .ok args
  arrive : Arrive e.inbounds args e.inboundTypes
  flat : Flat e.inboundTypes
  resolve : c.resolve (e.request node e.inboundTypes) = .ok r
  rule : e.rule = some r.rule
  oneByOne : e.oneByOne = r.oneByOne
  outbound : e.outbound = some r.outbound

/-- Such an entry works on the arguments as they are, or on one factor of each at a time. -/
theorem ScheduleEntry.Supplied.whole_or_oneLayer (h : e.Supplied g c m node args r) :
    e.oneByOne = false ∧ c.Whole (e.request node e.inboundTypes) r ∨
      e.oneByOne = true ∧ ∃ s elements n,
        OneLayer c (e.request node e.inboundTypes) r s e.inbounds args elements n := by
  cases chosen_of_resolve h.resolve with
  | whole hwhole hone => exact Or.inl ⟨h.oneByOne.trans hone, hwhole⟩
  | layer hpeel hbelow hrule houtbound hone =>
    exact Or.inr ⟨h.oneByOne.trans hone, _, _,
      oneLayer_of_chosen h.arrive h.flat hpeel hbelow hrule houtbound⟩

/-- An entry calls its procedure with what its rule accepts. -/
theorem called_of_supplied {P : Nat → Prop} (h : e.Supplied g c m node args r)
    (hP : ∀ n, (∀ v ∈ args, v.Splits n) → ∀ i < n, P i → ∀ v ∈ args, v.LikeFirst i) :
    e.Called r.rule args P := by
  rcases h.whole_or_oneLayer with ⟨hone, hwhole⟩ | ⟨hone, s, elements, n, hlayer⟩
  · refine ⟨fun _ => ⟨_, _, h.arrive, hwhole.fits⟩, fun he => ?_⟩
    rw [hone] at he
    contradiction
  · refine ⟨fun he => ?_, fun _ => ⟨n, hlayer.pos, applyOneByOne_eq hlayer.splits hlayer.parts,
      fun i hi hPi => ?_⟩⟩
    · rw [hone] at he
      contradiction
    · rw [hlayer.rule]
      exact ⟨elements, _, hlayer.factor i (hP n hlayer.splits i hi hPi), hlayer.whole.fits⟩

/-- What is computed from one factor of each argument, and what is made of it. -/
theorem OneLayer.exists_outs {s : Resolution} {elements : List TypeTerm} {n : Nat}
    (h : OneLayer c q r s sources args elements n) (hc : c.Faithful g)
    (hnode : g.node e.node = .ok node) (hq : q.node = some node)
    (hv : applyOneByOne (Memory.procedureOf (some r.rule)) (.node node.id) args = .ok v) :
    ∃ outs, v = .parts outs ∧ outs.length = n ∧
      ∀ i o, outs[i]? = some o → (∀ a ∈ args, a.LikeFirst i) → o.type? = some s.outbound := by
  rw [applyOneByOne_eq h.splits h.parts] at hv
  obtain ⟨outs, houts, hv⟩ := bind_eq_ok.mp hv
  replace houts := mapM_eq_ok.mp houts
  have hlength : outs.length = n := by
    rw [← houts.length_eq, List.length_range]
  have hne : outs ≠ [] := by
    intro hnil
    have hpos := h.pos
    rw [hnil] at hlength
    rw [← hlength] at hpos
    exact absurd hpos (Nat.lt_irrefl 0)
  refine ⟨outs, ?_, hlength, fun i o ho hi => ?_⟩
  · cases outs with
    | nil => exact absurd rfl hne
    | cons o outs =>
      cases hv
      rfl
  · obtain ⟨hi', rfl⟩ := List.getElem?_eq_some_iff.mp ho
    have hcall := houts.get (by simpa [hlength] using hi') hi'
    simp only [List.get_eq_getElem, List.getElem_range] at hcall
    obtain ⟨f, hf, hcall⟩ := procedureOf_eq_ok hcall
    have hout := h.whole.outbound
    change s.rule.outboundFor q.node s.bindings = _ at hout
    rw [hq] at hout
    exact hc s.rule h.whole.rule f (h.rule ▸ hf) _ node hnode _ _ _ _ _ _ (h.factor i hi)
      h.whole.fits hout hcall

/-- **An entry computes a value of its type** from arguments of the types that it was resolved
for. -/
theorem type?_of_entryValue (h : e.Supplied g c m node args r) (hc : c.Faithful g)
    (hv : m.entryValue g e = .ok v) : v.type? = some r.outbound := by
  rw [entryValue_of_args h.nodeAt h.unobserved h.read, h.rule] at hv
  rcases h.whole_or_oneLayer with ⟨hone, hwhole⟩ | ⟨hone, s, elements, n, hlayer⟩
  · rw [hone, if_neg nofun] at hv
    obtain ⟨f, hf, hv⟩ := procedureOf_eq_ok hv
    exact hc _ hwhole.rule f hf _ node h.nodeAt _ _ _ _ _ _ h.arrive hwhole.fits hwhole.outbound hv
  · rw [hone, if_pos rfl] at hv
    obtain ⟨outs, rfl, rfl, htyped⟩ := hlayer.exists_outs hc h.nodeAt rfl hv
    cases outs with
    | nil => exact absurd hlayer.pos (Nat.lt_irrefl 0)
    | cons o outs =>
      have ho := htyped 0 o rfl fun _ _ => rfl
      change o.type?.map _ = _
      rw [ho, hlayer.outbound]
      rfl

/-- An entry computes a uniform value from uniform arguments. -/
theorem uniform_of_entryValue (h : e.Supplied g c m node args r) (hc : c.Faithful g)
    (hu : c.KeepsUniform g) (huniform : ∀ a ∈ args, a.Uniform)
    (hv : m.entryValue g e = .ok v) : v.Uniform := by
  rw [entryValue_of_args h.nodeAt h.unobserved h.read, h.rule] at hv
  rcases h.whole_or_oneLayer with ⟨hone, hwhole⟩ | ⟨hone, s, elements, n, hlayer⟩
  · rw [hone, if_neg nofun] at hv
    obtain ⟨f, hf, hv⟩ := procedureOf_eq_ok hv
    exact hu _ hwhole.rule f hf _ node h.nodeAt _ _ _ ⟨_, _, h.arrive, hwhole.fits⟩ huniform hv
  · rw [hone, if_pos rfl] at hv
    obtain ⟨outs, rfl, hlength, htyped⟩ := hlayer.exists_outs hc h.nodeAt rfl hv
    have hall : ∀ x ∈ outs, x.type? = some s.outbound := by
      intro x hx
      obtain ⟨i, hi⟩ := List.mem_iff_getElem?.mp hx
      have hin : i < n := hlength ▸ (List.getElem?_eq_some_iff.mp hi).1
      exact htyped i x hi fun a ha => (huniform a ha).likeFirst (hlayer.splits a ha) hin
    intro l hl x hx y hy
    cases hl
    rw [hall x hx, hall y hy]

end Computes

end MessagePassing
