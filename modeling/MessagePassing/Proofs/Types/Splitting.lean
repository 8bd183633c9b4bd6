import MessagePassing.Proofs.Types.Layers
import MessagePassing.Proofs.Types.Preservation

/-!
# Splitting at run time

A rule may be chosen below several layers of factors. The entry keeps only that there is a layer,
and a step takes off one: it calls the procedure for the factors of the outermost layer, and puts
that layer back. Through one layer, or none, the procedure gets what its rule accepts. Through more,
it gets things of factors that the rule has been tried on in vain.

Values have types by their first factors. What is said about factors holds of those that are like
the first at each layer, and of all if the factors of a layer have one type.

Results:
* `Arrive.along`: what lies below the layers of values has the types that lie below the layers.
* `likeFirstAlong_of_regular`: where the factors of each layer have one type, all are like the
  first.
* **`ScheduleEntry.Resolved.splitting`**: what a step calls for an entry, and what it puts back.
* `not_split_nested`: through two layers, a procedure gets what its rule does not accept.
-/

namespace MessagePassing

/-! ## Along a path -/

/-- What a path of places leads to, from the outermost layer of factors inwards. -/
def factorAlong (path : List Nat) (v : Value) : Value :=
  path.foldl (fun v i => factorAt i v) v

/-- A path has one place among the factors of each layer. -/
def PathThrough (counts : List TypeTerm) (path : List Nat) : Prop :=
  List.Forall₂ (fun k i => ∃ n : Nat, k = .num n ∧ i < n) counts path

namespace Value

/-- The factors on a path are like the first of their layer. -/
def LikeFirstAlong : List Nat → Value → Prop
  | [], _ => True
  | i :: path, v => v.LikeFirst i ∧ (factorAt i v).LikeFirstAlong path

/-- At each layer all factors have one type. -/
inductive Regular : Value → Prop
  | plain {v : Value} (h : ∀ l, v ≠ .parts l) : Regular v
  | parts {l : List Value} (huniform : (parts l).Uniform) (hfactors : ∀ x ∈ l, Regular x) :
      Regular (.parts l)

theorem Regular.uniform {v : Value} (h : v.Regular) : v.Uniform := by
  cases h with
  | plain h => exact uniform_of_ne_parts h
  | parts huniform _ => exact huniform

theorem Regular.factorAt {v : Value} (h : v.Regular) (i : Nat) : (factorAt i v).Regular := by
  have habsent : Regular .absent := .plain nofun
  cases h with
  | plain h =>
    cases v with
    | parts l => exact absurd rfl (h l)
    | absent | text _ | dist _ _ _ => exact habsent
  | @parts l _ hfactors =>
    change ((l[i]?).getD .absent).Regular
    cases hi : l[i]? with
    | none => exact habsent
    | some x => exact hfactors x (List.mem_of_getElem? hi)

end Value

section Paths

variable {sources : List Source} {args : List Value} {types types' counts elements : List TypeTerm}
  {path : List Nat}

/-- Values have one list of types. -/
theorem Arrive.eq (h : Arrive sources args types) (h' : Arrive sources args types') :
    types = types' := by
  induction h generalizing types' with
  | nil =>
    cases h'
    rfl
  | cons head _ ih =>
    cases h' with
    | cons head' tail' =>
      rw [Option.some.inj (head.symm.trans head'), ih tail']

/-- **What lies below the layers of values has the types that lie below the layers of their types**,
as far as it is like the first of its layer. -/
theorem Arrive.along (h : Arrive sources args types) (hp : PeeledAll counts types elements)
    (hlength : path.length = counts.length) (hlike : ∀ v ∈ args, v.LikeFirstAlong path) :
    Arrive sources (args.map (factorAlong path)) elements := by
  induction hp generalizing args path with
  | nil types =>
    rw [List.length_eq_zero_iff.mp hlength]
    exact (List.map_id args).symm ▸ h
  | cons _ head _ ih =>
    cases path with
    | nil => contradiction
    | cons i path =>
      have hfactor := h.factor head fun v hv => (hlike v hv).1
      have hbelow := ih hfactor (Nat.succ.inj hlength)
        (List.forall_mem_map.mpr fun v hv => (hlike v hv).2)
      rw [List.map_map] at hbelow
      exact hbelow

/-- Where the factors of each layer have one type, all are like the first. -/
theorem likeFirstAlong_of_regular (h : Arrive sources args types)
    (hp : PeeledAll counts types elements) (hregular : ∀ v ∈ args, v.Regular)
    (hpath : PathThrough counts path) : ∀ v ∈ args, v.LikeFirstAlong path := by
  induction hp generalizing args path with
  | nil types =>
    cases hpath
    exact fun _ _ => trivial
  | cons _ head _ ih =>
    cases hpath with
    | @cons _ i _ path hi hpath =>
      obtain ⟨n, rfl, hi⟩ := hi
      have hlike : ∀ v ∈ args, v.LikeFirst i := fun v hv =>
        (hregular v hv).uniform.likeFirst (h.splits head v hv) hi
      have hbelow := ih (h.factor head hlike)
        (List.forall_mem_map.mpr fun v hv => (hregular v hv).factorAt i) hpath
      exact fun v hv => ⟨hlike v hv, hbelow _ (List.mem_map_of_mem hv)⟩

end Paths

/-! ## What a step calls -/

/-- What a step makes of an entry whose rule was chosen below layers of factors with these numbers,
from arguments of the types that the entry was resolved for. -/
structure ScheduleEntry.Splitting (e : ScheduleEntry) (g : Graph) (c : Catalogue) (m : Memory)
    (node : Node) (args : List Value) (r : Rule) (counts : List TypeTerm) (last : Request) :
    Prop where
  /-- The entry has the rule. -/
  rule : e.rule = some r
  /-- The choice descended through the layers. -/
  descent : c.Descent (e.request node e.inboundTypes) counts last
  /-- The rule was chosen at the end of the descent, and all layers were announced again. -/
  chosen : ∃ x, c.resolveWhole last = .ok (some x) ∧ x.rule = r ∧
    e.outbound = some (x.outbound.withLayers counts)
  /-- The rule accepts what lies below all layers of the arguments, as far as it is like the first
  of its layer. -/
  accepts : ∀ path, path.length = counts.length → (∀ v ∈ args, v.LikeFirstAlong path) →
    r.Accepts e.inbounds (args.map (factorAlong path))
  /-- It accepts all that lies below the layers, if the factors of each layer have one type. -/
  regular : (∀ v ∈ args, v.Regular) → ∀ path, PathThrough counts path →
    r.Accepts e.inbounds (args.map (factorAlong path))
  /-- Without layers, the procedure is called once, with the arguments. -/
  whole : counts = [] →
    m.entryValue g e = Memory.procedureOf (some r) (.node node.id :: args.map .value)
  /-- With layers, the procedure is called for each factor of the outermost one, and this layer
  alone is put back. -/
  outermost : ∀ k rest, counts = k :: rest → ∃ n : Nat, k = .num n ∧ 0 < n ∧
    m.entryValue g e =
      ((List.range n).mapM fun i =>
        Memory.procedureOf (some r) (.node node.id :: (args.map (factorAt i)).map .value)) >>=
        Value.ofFactors
  /-- If there are more layers, the rule does not accept what the procedure is called with. An
  approximate rule might, where a constraint has kept it from being chosen earlier. -/
  unfit : ∀ k rest, counts = k :: rest → rest ≠ [] →
    r.approximation = none ∨ e.constraint = none → ∀ i, (∀ v ∈ args, v.LikeFirst i) →
      ¬ r.Accepts e.inbounds (args.map (factorAt i))

section Splitting

variable {c : Catalogue} {q below last : Request} {k : TypeTerm} {counts : List TypeTerm}
  {r : Resolution} {sources : List Source} {args : List Value}

/-- Where the choice descends further, the rule at the end does not match. -/
theorem unmatched_of_descent (h : c.Descent q (k :: counts) last) (hne : counts ≠ [])
    (hr : c.resolveWhole last = .ok (some r))
    (hfree : r.rule.approximation = none ∨ q.constraint = none) :
    ∃ elements, Peeled k q.inbounds elements ∧
      TypeTerm.matchAll r.rule.inbounds elements ∅ = none := by
  cases h with
  | @cons _ between _ _ _ head tail =>
    obtain ⟨elements, hpeel, rfl⟩ := head.peeled
    obtain ⟨hkey, -, hmethod, -⟩ := request_of_descent tail
    refine ⟨elements, (peeled_of_peelLayer hpeel).1, ?_⟩
    cases tail with
    | nil => exact absurd rfl hne
    | cons next _ =>
      refine unmatched_of_none next.unmatched (whole_of_resolveWhole hr).1.rule
        ((key_of_resolveWhole hr).trans hkey) (fun method hq => ?_) (hfree.imp_right fun hq => ?_)
      · exact approximation_of_resolveWhole (hmethod.trans hq) hr
      · change q.constraint.map _ = none
        rw [hq]
        rfl

end Splitting

variable {s : Surroundings} {known : Table InterfaceId TypeTerm} {e : ScheduleEntry} {node : Node}
  {m : Memory} {args : List Value}

/-- **What a step calls for an entry, and what it puts back**, from arguments of the types that the
entry was resolved for. -/
theorem ScheduleEntry.Resolved.splitting (h : e.Resolved s known)
    (hnode : s.graph.node e.node = .ok node) (hvalue : node.observed = none)
    (hargs : e.inbounds.mapM (m.valueOf s.graph) = .ok args)
    (harrive : Arrive e.inbounds args e.inboundTypes) :
    ∃ r counts last, e.Splitting s.graph s.catalogue m node args r counts last := by
  cases h with
  | observed hnode' hvalue' _ _ =>
    cases hnode.symm.trans hnode'
    rw [hvalue] at hvalue'
    contradiction
  | rule hnode' _ _ _ hresolve houtbound hrule honeByOne =>
    cases hnode.symm.trans hnode'
    obtain ⟨counts, last, hdescent, hlast⟩ :=
      exists_descent s.catalogue (e.request node e.inboundTypes)
    obtain ⟨x, hx, rfl⟩ := map_eq_ok.mp ((resolve_of_descent hdescent).symm.trans hresolve)
    have hwhole := resolveWhole_of_last hlast hx
    obtain ⟨⟨-, hfits, -⟩, hx⟩ := whole_of_resolveWhole hwhole
    have hpeeled := peeledAll_of_descent hdescent
    have haccepts : ∀ path : List Nat, path.length = counts.length →
        (∀ v ∈ args, v.LikeFirstAlong path) →
          x.rule.Accepts e.inbounds (args.map (factorAlong path)) := fun path hlength hlike =>
      ⟨_, _, harrive.along hpeeled hlength hlike, hfits⟩
    have hentry := entryValue_of_args hnode hvalue hargs
    rw [hrule, honeByOne] at hentry
    refine ⟨x.rule, counts, last, hrule, hdescent, ⟨x, hwhole, rfl, houtbound⟩, haccepts,
      fun hregular path hpath => ?_, ?_, ?_, ?_⟩
    · exact haccepts path hpath.length_eq.symm
        (likeFirstAlong_of_regular harrive hpeeled hregular hpath)
    · rintro rfl
      rw [hentry, if_neg]
      · rfl
      · simp [Resolution.within, hx]
    · rintro k rest rfl
      cases hpeeled with
      | cons hsome head _ =>
        obtain ⟨l, hl, rfl, hpos⟩ := harrive.exists_parts head hsome
        refine ⟨l.length, rfl, hpos, ?_⟩
        rw [hentry, if_pos]
        · exact applyOneByOne_eq (harrive.splits head) ⟨l, hl⟩ _ _
        · simp [Resolution.within]
    · rintro k rest rfl hne hfree i hlike ⟨types, b, htypes, hb⟩
      obtain ⟨elements, hlayer, hnone⟩ := unmatched_of_descent hdescent hne hwhole hfree
      rw [htypes.eq (harrive.factor hlayer hlike), hnone] at hb
      contradiction

/-! ## Two layers -/

namespace Posterior

/-- Two layers of two Gaussians each. -/
def squareType : TypeTerm :=
  .partitioned (.partitioned (.dist "Gaussian" []) (.num 2)) (.num 2)

/-- Two Gaussians. -/
def pairValue : Value :=
  .parts [.dist "Gaussian" [] ∅, .dist "Gaussian" [] ∅]

/-- Two pairs of Gaussians. -/
def squareValue : Value :=
  .parts [pairValue, pairValue]

/-- The rule of the source answers two pairs. -/
def squareRule : Rule where
  key := ⟨"source", .sumProduct, some 0⟩
  inbounds := [.void]
  outbound := .pattern squareType
  procedure := some fun _ => .ok squareValue

/-- This rule, and the rule of the function, which is about a Gaussian. -/
def squareCatalogue : Catalogue :=
  ⟨[squareRule, mapRule]⟩

/-- The entry of the two pairs. -/
def squareSourceEntry : ScheduleEntry :=
  { pairEntry "Gaussian" with outbound := some squareType, rule := some squareRule }

/-- The entry of the function, whose rule is found below two layers. -/
def squareMapEntry : ScheduleEntry :=
  { mapEntry with inboundTypes := [.message squareType, .void], outbound := some squareType }

theorem compile_square :
    ∃ q b, compile pairGraph squareCatalogue [] none pairPosterior = .ok ["y"] q ∧
      ["y"].mapM q.block = .ok [b] ∧ b.schedule = [squareSourceEntry, squareMapEntry] :=
  exists_block_of_outcome (f := (·.schedule)) (by cbv) (by cbv)

/-- The entry of the function has been resolved. -/
theorem resolved_square : ∃ s : Surroundings, s.graph = pairGraph ∧ s.catalogue = squareCatalogue ∧
    squareMapEntry.Resolved s (messageTypes [squareSourceEntry]) := by
  obtain ⟨q, b, hc, hb, hschedule⟩ := compile_square
  obtain ⟨blocks, hblocks, hcompiled⟩ :=
    exists_blocks_of_compile (.addBlock (.fresh wholeOptions) _ _) hc
  cases hblocks.symm.trans hb
  obtain ⟨p, hentries⟩ := (hcompiled b (List.mem_singleton_self b)).2.2.assembled.entries
  exact ⟨_, rfl, rfl, hentries [squareSourceEntry] squareMapEntry [] hschedule⟩

theorem arrive_square :
    Arrive squareMapEntry.inbounds [squareValue, .absent] squareMapEntry.inboundTypes :=
  .cons rfl (.cons rfl .nil)

theorem splitting_square : ∃ s node, squareMapEntry.Resolved s (messageTypes [squareSourceEntry]) ∧
    s.graph.node squareMapEntry.node = .ok node ∧ node.observed = none ∧
    Arrive squareMapEntry.inbounds [squareValue, .absent] squareMapEntry.inboundTypes ∧
    ∀ m : Memory, squareMapEntry.inbounds.mapM ((m.send 0 squareValue).valueOf s.graph) =
        .ok [squareValue, .absent] ∧
      ∃ r counts last, squareMapEntry.Splitting s.graph s.catalogue (m.send 0 squareValue) node
        [squareValue, .absent] r counts last := by
  obtain ⟨s, hg, -, hresolved⟩ := resolved_square
  obtain ⟨node, hnode, hvalue⟩ :
      ∃ node, pairGraph.node squareMapEntry.node = .ok node ∧ node.observed = none := ⟨_, rfl, rfl⟩
  rw [← hg] at hnode
  refine ⟨s, node, hresolved, hnode, hvalue, arrive_square, fun m => ?_⟩
  have hargs : squareMapEntry.inbounds.mapM ((m.send 0 squareValue).valueOf s.graph) =
      .ok [squareValue, .absent] := by
    rw [hg]
    exact reads_mapEntry m squareValue
  exact ⟨hargs, hresolved.splitting hnode hvalue hargs arrive_square⟩

/-- The rule of the function does not accept a pair. -/
theorem not_accepts_pair :
    ¬ mapRule.Accepts squareMapEntry.inbounds ([squareValue, .absent].map (factorAt 0)) := by
  rintro ⟨types, b, harrive, hmatch⟩
  have hpair : Arrive squareMapEntry.inbounds ([squareValue, .absent].map (factorAt 0))
      [.message (.partitioned (.dist "Gaussian" []) (.num 2)), .void] := .cons rfl (.cons rfl .nil)
  rw [harrive.eq hpair] at hmatch
  contradiction

/-- **Through two layers, a procedure gets what its rule does not accept.** The rule is chosen for a
Gaussian below two layers of a compiled schedule, the step calls its procedure for pairs, and what
it computes does not have the type of the entry. -/
theorem not_split_nested :
    pairGraph.Built ∧ Built pairGraph pairPosterior ∧
      ∃ q b, compile pairGraph squareCatalogue [] none pairPosterior = .ok ["y"] q ∧
        ["y"].mapM q.block = .ok [b] ∧ squareMapEntry ∈ b.schedule ∧
        (∃ node last, pairGraph.node squareMapEntry.node = .ok node ∧
          squareCatalogue.Descent (squareMapEntry.request node squareMapEntry.inboundTypes)
            [.num 2, .num 2] last ∧
          ∃ x, squareCatalogue.resolveWhole last = .ok (some x) ∧ x.rule = mapRule) ∧
        Arrive squareMapEntry.inbounds [squareValue, .absent] squareMapEntry.inboundTypes ∧
        ∀ m : Memory, squareMapEntry.inbounds.mapM ((m.send 0 squareValue).valueOf pairGraph) =
            .ok [squareValue, .absent] ∧
          (m.send 0 squareValue).entryValue pairGraph squareMapEntry =
            ((List.range 2).mapM fun i => Memory.procedureOf (some mapRule)
              (.node 1 :: ([squareValue, .absent].map (factorAt i)).map .value)) >>=
              Value.ofFactors ∧
          ¬ mapRule.Accepts squareMapEntry.inbounds ([squareValue, .absent].map (factorAt 0)) ∧
          (m.send 0 squareValue).entryValue pairGraph squareMapEntry = .ok pairValue ∧
          pairValue.type? ≠ squareMapEntry.outbound := by
  obtain ⟨q, b, hc, hb, hschedule⟩ := compile_square
  refine ⟨built_pairGraph, .addBlock (.fresh wholeOptions) _ _, q, b, hc, hb, ?_,
    ⟨_, _, rfl, .cons ⟨rfl, rfl, _, rfl, rfl⟩ (.cons ⟨rfl, rfl, _, rfl, rfl⟩ (.nil _)),
      _, rfl, rfl⟩, arrive_square, fun m => ?_⟩
  · rw [hschedule]
    exact List.mem_cons_of_mem _ (List.mem_singleton_self _)
  · have hargs := reads_mapEntry m squareValue
    have hentry := entryValue_of_args (e := squareMapEntry) rfl rfl hargs
    exact ⟨hargs, hentry, not_accepts_pair, hentry, by decide⟩

end Posterior

end MessagePassing
