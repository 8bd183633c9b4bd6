import MessagePassing.Assembly.Marginals
import MessagePassing.Graph.Collider
import MessagePassing.Schedule.MarginalTable

/-!
# Compiling a posterior

A block is assembled by resolving its schedule, laying its seeds and settling its marginals. To
compile a posterior, every block with edges is scheduled, and then assembled. A block that reads a
marginal whose type is not settled yet is put off until the others have been tried; that goes on as
long as each round assembles a block.

* `Posterior.assemble` starts over from the schedule, whatever an earlier attempt has left.
* `Posterior.compile` compiles all blocks and answers their names.

Specification: sections 9 (`assemble_algorithm`) and 10 (`compile_algorithm`).
-/

namespace MessagePassing

namespace Block

/-- The block before its assembly: no message is seeded. -/
def restart (b : Block) : Block :=
  { b with
    schedule := b.schedule.map fun e => { e with seed := none }
    reestimates := false
    needsSeeds := false }

/-- Records what the assembly covers. -/
def index (b : Block) : Block :=
  { b with
    assembledInterfaces := Ascending.ofList (b.schedule.map (·.interface))
    assembledTargets := Ascending.ofList (b.marginalTable.map (·.target)) }

/-- Refuses a block with a rule that has no procedure. -/
def checkProcedures (b : Block) : Except Failure Unit := do
  b.schedule.forM fun e =>
    if e.rule.any fun r => r.procedure = none then throw (.entryWithoutProcedure e.render)
    else pure ()
  b.marginalTable.forM fun m =>
    if m.rule.any fun r => r.procedure = none then throw (.marginalWithoutProcedure m.target.id)
    else pure ()

end Block

namespace Posterior

/-- Replaces a block by one that is computed from it. -/
def replaceBlock (id : String) (f : Block → Except Failure Block) : Attempt Posterior Block :=
  onBlock id fun _ => do
    let b ← f (← get)
    set b
    return b

/-- Schedules a block anew. -/
def scheduleBlock (g : Graph) (sites : List InterfaceId) (id : String) :
    Attempt Posterior Block := do
  let b ← replaceBlock id (·.withSchedule g sites)
  modify (forgetPhases id)
  return b

/-- Makes the marginal table of a block anew. -/
def tabulateBlock (g : Graph) (id : String) : Attempt Posterior Block :=
  replaceBlock id (·.withMarginalTable g)

/-- Assembles a scheduled block. -/
def assemble (g : Graph) (c : Catalogue) (id : String) : Attempt Posterior Unit := do
  let _ ← replaceBlock id fun b => .ok b.restart
  modify (forgetPhases id)
  onBlock id fun p => Block.inferSchedule g c p
  let _ ← replaceBlock id fun b => .ok b.index
  onBlock id fun _ => Block.designateSeeds g
  settleMarginals g c id

/-- Marks a block as ready to run, if its rules have procedures. -/
def makeRunnable (id : String) : Attempt Posterior Unit := do
  let _ ← replaceBlock id fun b => b.checkProcedures.map fun _ => { b with runnable := true }

/-- Tests a block for colliders and schedules it. -/
def prepare (g : Graph) (sites : List InterfaceId) (reject : Bool) (id : String) :
    Attempt Posterior Unit := do
  let b ← Attempt.ofExcept ((← get).block id)
  if g.hasCollider b.internal then
    if reject then throw (.collider id)
    modify (·.warn (.collider id))
  let _ ← scheduleBlock g sites id
  let _ ← tabulateBlock g id

/-- Tries to assemble each of a list of blocks, and answers those that wait for others, each with
the reason. -/
def assembleRound (g : Graph) (c : Catalogue) :
    List String → Attempt Posterior (List (String × Failure))
  | [] => pure []
  | id :: rest => fun p =>
    match assemble g c id p with
    | .ok () p => assembleRound g c rest p
    | .error f p =>
      if f.kind = .unresolvedMarginal then
        match assembleRound g c rest p with
        | .ok waiting p => .ok ((id, f) :: waiting) p
        | .error f p => .error f p
      else .error f p

/-- Assembles a list of blocks, round after round, until none waits or a round brings no
progress. -/
def assembleAll (g : Graph) (c : Catalogue) (pending : List String) : Attempt Posterior Unit :=
  fun p =>
    match assembleRound g c pending p with
    | .error f p => .error f p
    | .ok waiting p =>
      match waiting.getLast? with
      | none => .ok () p
      | some (_, f) =>
        if waiting.length < pending.length then assembleAll g c (waiting.map (·.1)) p
        else .error f p
termination_by pending.length
decreasing_by simpa using ‹_›

/-- The names of the blocks with edges, in the order of registration. -/
def inhabited (p : Posterior) : List String :=
  (p.blocks.toList.filter fun b => !b.2.isEmpty).map (·.1)

/-- Compiles the blocks with edges and answers their names. -/
def compile (g : Graph) (c : Catalogue) (sites : List InterfaceId) (reject : Option Bool) :
    Attempt Posterior (List String) := do
  let p ← get
  let ids := p.inhabited
  ids.forM (prepare g sites (reject.getD p.options.rejectColliders))
  assembleAll g c ids
  ids.forM makeRunnable
  return ids

end Posterior

end MessagePassing
