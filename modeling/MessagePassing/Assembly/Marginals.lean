import MessagePassing.Assembly.Schedule
import MessagePassing.Assembly.Seeds

/-!
# Settling marginals

Once the schedule is resolved, the rules and types of the marginals follow, and the types are
published to the other blocks one by one. The marginal of a variable has to match what is declared
for its edges.

* `MarginalEntry.settle` resolves one marginal, `Posterior.settleMarginals` those of a block.

Specification: section 9, step 4 of `assemble_algorithm`.
-/

namespace MessagePassing

/-- Refuses a type for the marginal of a variable that an edge of the variable does not allow. -/
def Graph.checkDeclared (g : Graph) (x : String) (t : TypeTerm) : Except Failure Unit :=
  (g.edgesOf x).forM fun e =>
    match g.declared? e with
    | some d => if d.admits t then pure () else throw (.declarationBroken x t e d)
    | none => pure ()

/-- The product of two messages as the marginal of a variable. The declared type of the oldest edge
is a constraint; if it cannot be met although the messages have a product, the declaration is to
blame. -/
def Catalogue.resolveMarginal (c : Catalogue) (g : Graph) (x : String) (first second : TypeTerm) :
    Except Failure Resolution :=
  let constraint := g.oldestDeclared? x
  match c.resolveProduct (.message first) (.message second) constraint with
  | .ok r => .ok r
  | .error f =>
    if f.kind = .noRule && constraint.isSome then
      match c.resolveProduct (.message first) (.message second) none with
      | .error _ => .error f
      | .ok r =>
        match g.checkDeclared x r.outbound with
        | .error f => .error f
        | .ok () => .error f
    else .error f

namespace MarginalEntry

/-- Resolves a marginal of a block whose schedule is resolved, and answers its type. -/
def settle (s : Surroundings) (b : Block) : Attempt MarginalEntry TypeTerm := do
  let m ← get
  match m.plan with
  | .copy i =>
    let e ← b.scheduled s.graph i
    let t := Block.outboundType e
    set { m with inbounds := [.message i], type := some t }
    s.graph.checkDeclared m.target.id t
    return t
  | .product i j =>
    let first ← b.scheduled s.graph i
    let second ← b.scheduled s.graph j
    let r ← s.catalogue.resolveMarginal s.graph m.target.id (Block.outboundType first)
      (Block.outboundType second)
    let operands := if r.swapped then [j, i] else [i, j]
    set { m with
      inbounds := operands.map Source.message
      type := some r.outbound
      rule := some r.rule }
    return r.outbound
  | .joint n _ =>
    let node ← s.graph.node n
    let sources ← s.posterior.sources s.graph s.internal n none .jointMarginal
    let known := messageTypes b.schedule
    let types ← Attempt.ofExcept (sources.mapM (s.posterior.sourceType s.graph known n))
    let r ← s.catalogue.resolve
      { key := ⟨node.kind, .jointMarginal, none⟩, inbounds := types, node := some node }
    set { m with inbounds := sources, type := some r.outbound, rule := some r.rule }
    return r.outbound

end MarginalEntry

/-- Settles a list of marginals of a block, publishing each type before the next is resolved. -/
def settleEntries (g : Graph) (c : Catalogue) (b : Block) (p : Posterior) :
    List MarginalEntry → EStateM.Result Failure (List MarginalEntry × Posterior) Unit
  | [] => .ok () ([], p)
  | m :: rest =>
    match MarginalEntry.settle (b.surroundings g c p) b m with
    | .error f m => .error f (m :: rest, p)
    | .ok t m =>
      let m := { m with published := true }
      let p := { p with marginalTypes := p.marginalTypes.insert m.target t }
      match settleEntries g c b p rest with
      | .ok () (rest, p) => .ok () (m :: rest, p)
      | .error f (rest, p) => .error f (m :: rest, p)

namespace Posterior

/-- Settles the marginals of a block. -/
def settleMarginals (g : Graph) (c : Catalogue) (id : String) : Attempt Posterior Unit := fun p =>
  match p.blocks.get? id with
  | none => .error (.missing id) p
  | some b =>
    match settleEntries g c b p b.marginalTable with
    | .ok () (l, p) => .ok () (p.putBlock { b with marginalTable := l })
    | .error f (l, p) => .error f (p.putBlock { b with marginalTable := l })

end Posterior

end MessagePassing
