import MessagePassing.Run.Program
import MessagePassing.Session.Basic

/-!
# The algorithm of a session

Compiling the current posterior gives the session an algorithm. Building one factorizes and compiles
a new posterior, which becomes the current one; running does that and executes. A build or a run
that fails leaves the session with the posterior and the algorithm that it had, but messages and
marginals that edges carry are not taken back.

* `Session.onProgram` runs an operation of the algorithm. How far the seeds have come is kept with
  the posterior of the algorithm.

Specification: section 10 (`build_algorithm`, `run_inference`).
-/

namespace MessagePassing.Session

variable {α : Type}

/-- The posterior of the algorithm, and its blocks. -/
def compiled (s : Session) : Except Failure (Posterior × List Block) := do
  match s.algorithm with
  | none => throw .illTyped
  | some a =>
    let p ← entryAt s.posteriors a.posterior
    return (p, ← a.blocks.mapM p.block)

/-- The seeds of the algorithm in the order of its schedules: the block, the interface, the seed,
and how far it has come. -/
def seeds (s : Session) : Except Failure (List (String × InterfaceId × Seed × Phase)) :=
  s.compiled.map fun (p, blocks) =>
    blocks.flatMap fun b => b.schedule.filterMap fun e =>
      e.seed.map fun d => (b.id, e.interface, d, p.phase b.id e.interface)

/-- Runs an operation of the algorithm. -/
def onProgram (x : Program → Attempt Memory α) : Attempt Session α := fun s =>
  match s.algorithm, s.compiled with
  | none, _ => .error .illTyped s
  | _, .error f => .error f s
  | some a, .ok (p, blocks) =>
    Attempt.within (fun s => { s.memory with phases := p.phases })
      (fun m s =>
        { s with
          memory := { m with phases := ∅ }
          posteriors := s.posteriors.set a.posterior { p with phases := m.phases } })
      (x { graph := s.graph, options := p.options, blocks }) s

/-- Makes blocks of the current posterior the algorithm, which has no marginals yet. -/
def adopt (blocks : List String) (s : Session) : Session :=
  { s with
    algorithm := some ⟨s.posteriors.length - 1, blocks⟩
    memory := { s.memory with marginals := ∅, initialized := false } }

/-- Makes blocks of the current posterior the algorithm, if they exist. -/
def select (blocks : List String) : Attempt Session Unit := do
  let _ ← ask fun s => blocks.mapM s.block
  modify (adopt blocks)

/-- Compiles the current posterior, which gives the session an algorithm. -/
def compile (sites : List InterfaceId) (reject : Option Bool) : Attempt Session Unit := do
  let blocks ← onPosterior fun g c => Posterior.compile g c sites reject
  modify (adopt blocks)

/-- Factorizes and compiles a new posterior, which gives the session an algorithm. -/
def build (groups : Option (List (List String))) (sites : List InterfaceId) (o : Options) :
    Attempt Session Unit := fun s =>
  let x : Attempt Posterior (List String) := do
    let _ ← Posterior.factorize s.graph groups
    Posterior.compile s.graph s.catalogue sites none
  match x { options := o } with
  | .ok blocks p => .ok () (((s.openPosterior o).putPosterior s.posteriors.length p).adopt blocks)
  | .error f p => .error f { s with warnings := s.warnings ++ p.warnings }

/-- Executes the algorithm. -/
def execute (n : Option Int) : Attempt Session Unit :=
  onProgram fun p => p.execute n

/-- Builds an algorithm and executes it. -/
def run (groups : Option (List (List String))) (sites : List InterfaceId) (o : Options)
    (n : Option Int) : Attempt Session Unit := fun s =>
  match build groups sites o s with
  | .error f s => .error f s
  | .ok () t =>
    match execute n t with
    | .ok () t => .ok () t
    | .error f t =>
      .error f
        { s with
          memory :=
            { s.memory with
              messages := t.memory.messages
              edgeMarginals := t.memory.edgeMarginals }
          warnings := t.warnings }

end MessagePassing.Session
