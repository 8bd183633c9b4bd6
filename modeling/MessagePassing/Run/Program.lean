import MessagePassing.Run.Pass

/-!
# Running a compiled posterior

A program is what stays fixed in a run: the graph, the settings and the compiled blocks. An
execution first gives every marginal a flat value of its type, once, and then goes over all blocks
as often as it is told. Further executions go on from where the last one stopped, and a reset makes
the next one start over.

Specification: section 10 (`Algorithm.execute`, `Algorithm.reset`).
-/

namespace MessagePassing

/-- The fixed part of a run. -/
structure Program where
  /-- The graph. -/
  graph : Graph
  /-- The settings. -/
  options : Options
  /-- The blocks, in the order of a pass. -/
  blocks : List Block

namespace Program

variable (p : Program)

/-- Whether a message of some block has to be seeded. -/
def needsSeeds : Bool :=
  p.blocks.any (·.needsSeeds)

/-- Whether some block estimates a clamped value anew. -/
def reestimates : Bool :=
  p.blocks.any (·.reestimates)

/-- Gives a marginal a flat value of its type; that of a variable goes to the edges of the variable
that carry none of this type. -/
def initMarginal (e : MarginalEntry) : Attempt Memory Unit := do
  match e.type with
  | none => throw .illTyped
  | some t =>
    let v ← Value.vagueOf p.options t
    modify (·.putMarginal e.target v)
    match e.target with
    | .variable x => (p.graph.edgesOf x).forM fun i => do
      let _ ← Memory.ensureMarginal p.graph i t (.ok v)
    | .cluster _ => pure ()

/-- Gives every marginal a flat value of its type. -/
def initMarginals : Attempt Memory Unit :=
  p.blocks.forM fun b => b.marginalTable.forM p.initMarginal

/-- One pass over a block, which has to be ready to run. -/
def passBlock (b : Block) : Attempt Memory Unit :=
  if b.runnable then b.pass p.graph p.options else throw .illTyped

/-- One pass over all blocks. -/
def step : Attempt Memory Unit :=
  p.blocks.forM p.passBlock

/-- A number of passes. -/
def steps : Nat → Attempt Memory Unit
  | 0 => pure ()
  | n + 1 => do
    p.step
    steps n

/-- Gives the marginals their first values, unless they have them. -/
def start : Attempt Memory Unit := do
  if !(← get).initialized then
    p.initMarginals
    modify fun m => { m with initialized := true }

/-- Runs a number of passes, or as many as the settings say; a negative number is none. -/
def execute (n : Option Int) : Attempt Memory Unit := do
  p.start
  p.steps (n.getD p.options.iterations).toNat

/-- The memory without messages and marginals, all seeds being still to be laid. Edges keep the
marginals that they carry. -/
def reset (m : Memory) : Memory :=
  { m with
    messages := ∅
    phases := m.phases.filterKeys fun k => p.blocks.all fun b => b.id ≠ k.1
    marginals := ∅
    initialized := false }

end Program

end MessagePassing
