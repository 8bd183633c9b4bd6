import Mathlib.Data.List.MinMax
import Mathlib.Logic.Function.Iterate
import MessagePassing.Proofs.Types.Decision
import MessagePassing.Proofs.Types.Matching
import MessagePassing.Proofs.Types.Products

/-!
# Layers of factors

If no rule matches, a layer of factors is taken off the types that arrive, and the choice is made
again for one factor. This descends layer by layer. It comes to an end, because no type that is not
void keeps its layer, and the layers that have been taken off are put back around the outcome in the
reverse order.

Results:
* `resolve_of_descent`: a choice is the one at the end of a descent, with the layers put back.
* `depth_of_descent`: each step down lowers the number of layers.
* `exists_descent`: every choice descends to a request from which nothing descends.
* `layered_of_resolve`: what a chosen rule has to do with the update.
* **`resolve_by_layers`**: choices of rules for factors one by one end and are sound.
-/

namespace MessagePassing

/-! ## Layers -/

namespace TypeTerm

/-- The layers of factors that a type has, one below the other. -/
def layers : TypeTerm → Nat
  | message t => t.layers
  | partitioned e _ => e.layers + 1
  | _ => 0

/-- The kind of one factor, for a type made of factors. -/
def element (t : TypeTerm) : TypeTerm :=
  (t.peel?.map Prod.fst).getD t

/-- Layers of factors around a type, given by the numbers of factors. The first is the outermost. -/
def withLayers (counts : List TypeTerm) (t : TypeTerm) : TypeTerm :=
  counts.foldr (fun k e => .partitioned e k) t

theorem withLayers_cons (k : TypeTerm) (counts : List TypeTerm) (t : TypeTerm) :
    t.withLayers (k :: counts) = .partitioned (t.withLayers counts) k := rfl

/-- Taking off a layer leaves one layer less. -/
theorem layers_of_peel? {t e k : TypeTerm} (h : t.peel? = some (e, k)) :
    t.layers = e.layers + 1 := by
  unfold peel? at h
  split at h <;> cases h <;> rfl

end TypeTerm

/-- The most layers that one of the types has. -/
def depth (types : List TypeTerm) : Nat :=
  (types.map TypeTerm.layers).foldr max 0

/-- Layers of factors have been taken off the types, from the outermost to the innermost, with the
given numbers of factors. -/
inductive PeeledAll : List TypeTerm → List TypeTerm → List TypeTerm → Prop
  /-- No layer. -/
  | nil (types : List TypeTerm) : PeeledAll [] types types
  /-- A layer, of which there was one, and the layers below. -/
  | cons {k : TypeTerm} {counts types between elements : List TypeTerm}
      (hsome : ∃ t ∈ types, t.peel? ≠ none) (head : Peeled k types between)
      (tail : PeeledAll counts between elements) : PeeledAll (k :: counts) types elements

section Depth

variable {k : TypeTerm} {counts types elements : List TypeTerm}

theorem depth_le_of_peeled (h : Peeled k types elements) : depth elements ≤ depth types - 1 := by
  induction h with
  | nil => exact Nat.zero_le _
  | @cons t e types elements hp _ ih =>
    change max e.layers (depth elements) ≤ max t.layers (depth types) - 1
    have ht : e.layers ≤ t.layers - 1 := by
      rcases hp with hp | ⟨-, rfl⟩
      · exact Nat.le_of_eq (by rw [TypeTerm.layers_of_peel? hp, Nat.add_sub_cancel])
      · exact Nat.zero_le _
    omega

/-- Taking off a layer lowers the depth, if there is one. -/
theorem depth_lt_of_peeled (h : Peeled k types elements) (hsome : ∃ t ∈ types, t.peel? ≠ none) :
    depth elements < depth types := by
  obtain ⟨t, ht, hp⟩ := hsome
  obtain ⟨⟨e, l⟩, hp⟩ := Option.ne_none_iff_exists'.mp hp
  have hlayers := TypeTerm.layers_of_peel? hp
  have hdepth : t.layers ≤ depth types :=
    List.le_max_of_le' 0 (List.mem_map_of_mem ht) (Nat.le_refl t.layers)
  have := depth_le_of_peeled h
  omega

end Depth

/-! ## Descending -/

/-- The choice for a request is left to the choice for one factor: no rule matches, and a layer with
this number of factors is taken off. -/
structure Catalogue.Descends (c : Catalogue) (q : Request) (k : TypeTerm) (below : Request) :
    Prop where
  unmatched : c.resolveWhole q = .ok none
  partitioned : q.inbounds.any (·.isPartitioned) = true
  peeled : ∃ elements, peelLayer q.key q.inbounds = .ok (elements, k) ∧ below = q.below elements

/-- The choice descends from a request to another through layers with these numbers of factors. -/
inductive Catalogue.Descent (c : Catalogue) : Request → List TypeTerm → Request → Prop
  | nil (q : Request) : Descent c q [] q
  | cons {q between last : Request} {k : TypeTerm} {counts : List TypeTerm}
      (head : c.Descends q k between) (tail : Descent c between counts last) :
      Descent c q (k :: counts) last

/-- The resolution for things of factors, from the one for single factors. -/
def Resolution.within (counts : List TypeTerm) (r : Resolution) : Resolution :=
  { r with
    outbound := r.outbound.withLayers counts
    oneByOne := r.oneByOne || !counts.isEmpty }

section Descents

variable {c : Catalogue} {q below last : Request} {k : TypeTerm} {counts : List TypeTerm}

/-- A choice that is left to the choice for one factor is that choice, with the layer put back. -/
theorem resolve_of_descends (h : c.Descends q k below) : c.resolve q =
    (c.resolve below).map fun r =>
      { r with outbound := .partitioned r.outbound k, oneByOne := true } := by
  obtain ⟨elements, hpeel, rfl⟩ := h.peeled
  rw [resolve_of_none h.unmatched, if_pos h.partitioned, Catalogue.resolveLayer, hpeel]
  rfl

/-- A choice is the one at the end of a descent, with the layers put back. -/
theorem resolve_of_descent (h : c.Descent q counts last) :
    c.resolve q = (c.resolve last).map (·.within counts) := by
  induction h with
  | nil q =>
    cases c.resolve q with
    | error e => rfl
    | ok r => exact congrArg Except.ok (by simp [Resolution.within, TypeTerm.withLayers])
  | @cons _ _ last _ counts head _ ih =>
    rw [resolve_of_descends head, ih]
    cases c.resolve last with
    | error e => rfl
    | ok r => exact congrArg Except.ok (by simp [Resolution.within, TypeTerm.withLayers_cons])

theorem depth_of_descends (h : c.Descends q k below) : depth below.inbounds < depth q.inbounds := by
  obtain ⟨elements, hpeel, rfl⟩ := h.peeled
  obtain ⟨hpeeled, hsome⟩ := peeled_of_peelLayer hpeel
  exact depth_lt_of_peeled hpeeled hsome

/-- A descent is no longer than there are layers. -/
theorem depth_of_descent (h : c.Descent q counts last) :
    counts.length + depth last.inbounds ≤ depth q.inbounds := by
  induction h with
  | nil q => exact Nat.le_of_eq (Nat.zero_add _)
  | cons head _ ih =>
    have := depth_of_descends head
    rw [List.length_cons]
    omega

theorem peeledAll_of_descent (h : c.Descent q counts last) :
    PeeledAll counts q.inbounds last.inbounds := by
  induction h with
  | nil q => exact .nil _
  | cons head _ ih =>
    obtain ⟨elements, hpeel, rfl⟩ := head.peeled
    obtain ⟨hpeeled, hsome⟩ := peeled_of_peelLayer hpeel
    exact .cons hsome hpeeled ih

/-- On the way down, only the types and the constraint change. -/
theorem request_of_descent (h : c.Descent q counts last) :
    last.key = q.key ∧ last.node = q.node ∧ last.method = q.method ∧
      last.constraint = q.constraint.map TypeTerm.element^[counts.length] := by
  induction h with
  | nil q => exact ⟨rfl, rfl, rfl, Option.map_id'.symm⟩
  | cons head _ ih =>
    obtain ⟨elements, -, rfl⟩ := head.peeled
    obtain ⟨hkey, hnode, hmethod, hconstraint⟩ := ih
    refine ⟨hkey, hnode, hmethod, hconstraint.trans ?_⟩
    exact Option.map_map _ _ _

/-- **Every choice descends to a request from which nothing descends.** -/
theorem exists_descent (c : Catalogue) (q : Request) :
    ∃ counts last, c.Descent q counts last ∧ ∀ k below, ¬ c.Descends last k below := by
  by_cases h : ∃ k below, c.Descends q k below
  · obtain ⟨k, below, hdescends⟩ := h
    have := depth_of_descends hdescends
    obtain ⟨counts, last, hdescent, hlast⟩ := exists_descent c below
    exact ⟨k :: counts, last, .cons hdescends hdescent, hlast⟩
  · exact ⟨[], q, .nil q, fun k below hdescends => h ⟨k, below, hdescends⟩⟩
termination_by depth q.inbounds

/-- Where nothing descends, a rule is chosen that matches the types as they stand. -/
theorem resolveWhole_of_last {r : Resolution} (hlast : ∀ k below, ¬ c.Descends q k below)
    (h : c.resolve q = .ok r) : c.resolveWhole q = .ok (some r) := by
  cases hwhole : c.resolveWhole q with
  | error e =>
    rw [resolve_of_error hwhole] at h
    contradiction
  | ok o =>
    cases o with
    | some s =>
      rw [resolve_of_some hwhole] at h
      rw [Except.ok.inj h]
    | none =>
      rw [resolve_of_none hwhole] at h
      split at h
      · rename_i hany
        obtain ⟨⟨elements, k⟩, hpeel, -⟩ := bind_eq_ok.mp h
        exact absurd ⟨hwhole, hany, elements, hpeel, rfl⟩ (hlast k (q.below elements))
      · contradiction

end Descents

/-! ## Soundness -/

/-- What a chosen rule has to do with the update: below some layers, its patterns match, and the
layers are around the type that it computes. -/
structure Catalogue.Layered (c : Catalogue) (q : Request) (r : Resolution)
    (counts elements : List TypeTerm) (t : TypeTerm) : Prop where
  /-- The rule works on factors one by one if there is a layer. -/
  oneByOne : counts = [] ↔ r.oneByOne = false
  /-- At each layer, all types that are not void have the same number of factors. -/
  peeled : PeeledAll counts q.inbounds elements
  /-- The patterns match what is left. -/
  fits : TypeTerm.matchAll r.rule.inbounds elements ∅ = some r.bindings
  /-- The bindings of the rule solve its patterns. -/
  solves : List.Forall₂ (TypeTerm.Solves r.bindings) r.rule.inbounds elements
  rule : r.rule ∈ c.rules
  key : r.rule.key = q.key
  method : r.rule.approximation = r.approximation
  /-- The rule computes a type. -/
  computed : r.rule.outboundFor q.node r.bindings = .ok t
  /-- The layers are put around this type. -/
  outbound : r.outbound = t.withLayers counts
  /-- The type meets what is left of the constraint when as many layers are taken off. -/
  constraint : ∀ d, q.constraint = some d → (TypeTerm.element^[counts.length] d).admits t = true

/-- **What a chosen rule has to do with the update.** -/
theorem layered_of_resolve {c : Catalogue} {q : Request} {r : Resolution}
    (h : c.resolve q = .ok r) : ∃ counts elements t, c.Layered q r counts elements t := by
  obtain ⟨counts, last, hdescent, hlast⟩ := exists_descent c q
  obtain ⟨s, hs, rfl⟩ := map_eq_ok.mp ((resolve_of_descent hdescent).symm.trans h)
  have hwhole := resolveWhole_of_last hlast hs
  obtain ⟨⟨hrule, hfits, hout⟩, honeByOne⟩ := whole_of_resolveWhole hwhole
  obtain ⟨hkey, hnode, -, hconstraint⟩ := request_of_descent hdescent
  have hsettles := TypeTerm.settles_matchAll s.rule.inbounds last.inbounds ∅
  rw [hfits] at hsettles
  refine ⟨counts, last.inbounds, s.outbound, ?_, peeledAll_of_descent hdescent, hfits,
    ((hsettles.2 s.bindings).mp (.refl _)).2, hrule, (key_of_resolveWhole hwhole).trans hkey, rfl,
    ?_, rfl, fun d hd => ?_⟩
  · simp [Resolution.within, honeByOne]
  · rwa [← hnode]
  · refine admits_of_resolveWhole ?_ hwhole
    rw [hconstraint, hd, Option.map_some]

/-- **Choices of rules for factors one by one end and are sound.** A choice descends through no more
layers than there are, to a request from which nothing descends. If a rule is chosen, its patterns
match the types without these layers, which are put around the type that it computes. -/
theorem resolve_by_layers (c : Catalogue) (q : Request) :
    (∀ counts below, c.Descent q counts below → counts.length ≤ depth q.inbounds) ∧
      (∃ counts last, c.Descent q counts last ∧ (∀ k below, ¬ c.Descends last k below) ∧
        c.resolve q = (c.resolve last).map (·.within counts)) ∧
      ∀ r, c.resolve q = .ok r → ∃ counts elements t, c.Layered q r counts elements t := by
  refine ⟨fun counts below h => ?_, ?_, fun r h => layered_of_resolve h⟩
  · have := depth_of_descent h
    omega
  · obtain ⟨counts, last, hdescent, hlast⟩ := exists_descent c q
    exact ⟨counts, last, hdescent, hlast, resolve_of_descent hdescent⟩

/-- A rule for the first message of a gain, for Gaussians of any dimension. -/
def gainRule : Rule where
  key := ⟨"gain", .sumProduct, some 0⟩
  inbounds := [.void, .message (.dist "Gaussian" [.var "n"])]
  outbound := .pattern (.dist "Gaussian" [.var "n"])

/-- A catalogue with this rule only. -/
def gainCatalogue : Catalogue where
  rules := [gainRule]

/-- The first message of a gain, from a message of the other side. -/
def gainRequest (inbound : TypeTerm) (constraint : Option TypeTerm) : Request where
  key := ⟨"gain", .sumProduct, some 0⟩
  inbounds := [.void, .message inbound]
  constraint

/-- What the rule computes from a Gaussian. -/
def gainResolution : Resolution where
  outbound := .dist "Gaussian" [.num 1]
  rule := gainRule
  bindings := .ofList [("n", .num 1)]

/-- Two layers of factors of a Gaussian. -/
def gaussianGrid : TypeTerm :=
  .partitioned (.partitioned (.dist "Gaussian" [.num 1]) (.num 3)) (.num 2)

theorem descends_gain {c : Catalogue} {t k : TypeTerm} {constraint : Option TypeTerm}
    (h : c.resolveWhole (gainRequest (.partitioned t k) constraint) = .ok none) :
    c.Descends (gainRequest (.partitioned t k) constraint) k
      (gainRequest t (constraint.map TypeTerm.element)) where
  unmatched := h
  partitioned := rfl
  peeled := ⟨[.void, .message t], rfl, rfl⟩

theorem descent_grid {c : Catalogue}
    (houter : c.resolveWhole (gainRequest gaussianGrid none) = .ok none)
    (hinner : c.resolveWhole
      (gainRequest (.partitioned (.dist "Gaussian" [.num 1]) (.num 3)) none) = .ok none) :
    c.Descent (gainRequest gaussianGrid none) [.num 2, .num 3]
      (gainRequest (.dist "Gaussian" [.num 1]) none) :=
  .cons (descends_gain houter) (.cons (descends_gain hinner) (.nil _))

/-- Both layers are taken off and put back. -/
theorem resolve_grid :
    gainCatalogue.Descent (gainRequest gaussianGrid none) [.num 2, .num 3]
        (gainRequest (.dist "Gaussian" [.num 1]) none) ∧
      [TypeTerm.num 2, .num 3].length ≤ depth (gainRequest gaussianGrid none).inbounds ∧
      gainCatalogue.resolve (gainRequest gaussianGrid none) =
        .ok { gainResolution with outbound := gaussianGrid, oneByOne := true } ∧
      ∃ counts elements t, gainCatalogue.Layered (gainRequest gaussianGrid none)
        { gainResolution with outbound := gaussianGrid, oneByOne := true } counts elements t := by
  obtain ⟨hdepth, -, hsound⟩ := resolve_by_layers gainCatalogue (gainRequest gaussianGrid none)
  have hdescent := descent_grid (c := gainCatalogue) rfl rfl
  have hresolve : gainCatalogue.resolve (gainRequest gaussianGrid none) =
      .ok { gainResolution with outbound := gaussianGrid, oneByOne := true } := by
    rw [resolve_of_descent hdescent, resolve_of_some (r := gainResolution) rfl]
    rfl
  exact ⟨hdescent, hdepth _ _ hdescent, hresolve, hsound _ hresolve⟩

end MessagePassing
