import MessagePassing.Assembly.Compile
import MessagePassing.Factorization
import MessagePassing.Run.Memory

/-!
# Sessions

A session is what a modeller works on: a graph, a catalogue of rules, the posterior that is being
factorized, and the algorithm that was compiled last. Every operation may fail part of the way, and
the session keeps what it has done so far. An algorithm stays with the posterior that it was
compiled from when a new posterior is opened, so all posteriors are kept, the current one last.

* `Session.onGraph`, `Session.onPosterior` and `Session.onMemory` run an operation on a part.
* Warnings pass from a posterior to the session, which collects them.

Specification: section 10, what `build_algorithm` and `run_inference` are given and return.
-/

namespace MessagePassing

/-- Compiled blocks of a posterior, which are run together. -/
structure Algorithm where
  /-- The place of the posterior. -/
  posterior : Nat
  /-- The blocks, in the order of a pass. -/
  blocks : List String

/-- The state of a session. -/
structure Session where
  /-- The graph. -/
  graph : Graph := ∅
  /-- The rules. -/
  catalogue : Catalogue := ∅
  /-- The posteriors, the current one last. -/
  posteriors : List Posterior := [{}]
  /-- The algorithm, once there is one. -/
  algorithm : Option Algorithm := none
  /-- The messages, and the marginals of the algorithm. -/
  memory : Memory := ∅
  /-- The functions for outbound types that have a name. -/
  functions : Table String ComputedType := ∅
  /-- The number of functions for outbound types. -/
  functionCount : Nat := 0
  /-- A source of names for the modeller. -/
  ids : IdSource := {}
  /-- A seed outside any schedule. -/
  seed : Option (Seed × Phase) := none
  /-- The warnings that were not reported yet, oldest first. -/
  warnings : List Warning := []

namespace Session

instance : EmptyCollection Session := ⟨{}⟩

variable {α : Type}

/-! ## Parts -/

/-- An answer that is read off a session. -/
def ask (f : Session → Except Failure α) : Attempt Session α := fun s =>
  Attempt.ofExcept (f s) s

/-- Runs an operation on the graph. -/
def onGraph (x : Attempt Graph α) : Attempt Session α :=
  Attempt.within (·.graph) (fun g s => { s with graph := g }) x

/-- Runs an operation on the memory. -/
def onMemory (x : Graph → Attempt Memory α) : Attempt Session α := fun s =>
  Attempt.within (·.memory) (fun m s => { s with memory := m }) (x s.graph) s

/-- The current posterior. -/
def current (s : Session) : Posterior :=
  s.posteriors.getLast?.getD {}

/-- Puts a posterior at a place; its warnings pass to the session. -/
def putPosterior (i : Nat) (p : Posterior) (s : Session) : Session :=
  { s with
    posteriors := s.posteriors.set i { p with warnings := [] }
    warnings := s.warnings ++ p.warnings }

/-- Runs an operation on the current posterior. -/
def onPosterior (x : Graph → Catalogue → Attempt Posterior α) : Attempt Session α := fun s =>
  Attempt.within current (putPosterior (s.posteriors.length - 1)) (x s.graph s.catalogue) s

/-- Opens a new posterior, which becomes the current one. -/
def openPosterior (o : Options) (s : Session) : Session :=
  { s with posteriors := s.posteriors ++ [{ options := o }] }

/-- The block of a name in the current posterior. -/
def block (s : Session) (id : String) : Except Failure Block :=
  s.current.block id

/-- The warnings that were not reported yet, and the session after they are. -/
def takeWarnings (s : Session) : List Warning × Session :=
  (s.warnings, { s with warnings := [] })

/-! ## Rules and names -/

/-- Accepts a rule. -/
def register (r : Rule) : Attempt Session Unit := fun s =>
  match s.catalogue.register r with
  | .ok c => .ok () { s with catalogue := c }
  | .error f => .error f s

/-- A new function for outbound types, or the one that has the name already. -/
def function (name : Option String) (make : Nat → String → ComputedType) (s : Session) :
    ComputedType × Session :=
  match name.bind s.functions.get? with
  | some f => (f, s)
  | none =>
    let f := make s.functionCount (name.getD "")
    (f, { s with
      functions := (name.map fun n => s.functions.insert n f).getD s.functions
      functionCount := s.functionCount + 1 })

/-- A new name with a stem. -/
def freshName (stem : String) (s : Session) : String × Session :=
  let r := s.ids.next stem
  (r.1, { s with ids := r.2 })

/-! ## Messages and marginals of edges -/

/-- Gives an edge a marginal of a type, the given value or a flat one, unless it has one. Whether
there is such a value matters only then. Tells whether the edge got a marginal. -/
def ensureMarginal (e : EdgeId) (t : TypeTerm) (given : Option (Except Failure Value)) :
    Attempt Session Bool := fun s =>
  let make := given.getD (Value.vagueOf s.current.options t)
  onMemory (fun g => Memory.ensureMarginal g e t make) s

/-! ## A seed outside any schedule -/

/-- Prepares a seed, which is still to be laid. -/
def prepareSeed (d : Seed) (s : Session) : Session :=
  { s with seed := some (d, .uninitialized) }

/-- Moves the prepared seed on, and answers how far it has come. -/
def moveSeed (f : Phase → Except Failure Phase) : Attempt Session Phase := fun s =>
  match s.seed with
  | none => .error .illTyped s
  | some (d, p) =>
    match f p with
    | .error e => .error e s
    | .ok q => .ok q { s with seed := some (d, q) }

end Session

end MessagePassing
