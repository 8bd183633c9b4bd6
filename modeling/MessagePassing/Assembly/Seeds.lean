import MessagePassing.Block.Basic
import MessagePassing.Schedule.Order

/-!
# Designating seeds

Some messages are read before they are computed, or are worth starting from a flat value. Seeds are
laid for the message that an update answers, where the update reads it, for messages toward clamps,
and for loop breakers. A message gets one seed: the first that asks for it.

* `Block.designations` lists what every entry and every loop breaker asks for.
* `Block.designateSeeds` lays the seeds in that order, up to the first that cannot be laid.

Specification: section 9, step 3 of `assemble_algorithm` (`Breaker`).
-/

namespace MessagePassing

/-- A seed for the message of an interface. -/
structure Designation where
  /-- The interface. -/
  interface : InterfaceId
  /-- The seed. -/
  seed : Seed

namespace Block

variable (b : Block) (g : Graph)

/-- The type of the message of an entry; `void` while it is not resolved. -/
def outboundType (e : ScheduleEntry) : TypeTerm :=
  e.outbound.getD .void

/-- The entry for an interface, which has to be scheduled. -/
def scheduled (i : InterfaceId) : Except Failure ScheduleEntry :=
  match b.find? i with
  | some e => .ok e
  | none => (g.label i).bind fun l => .error (.seedNotScheduled l b.id)

/-- A seed for the message of an interface; the dimensions are those of its type if none are
given. -/
def designation (i : InterfaceId) (dims : Option (List Int)) (reason : SeedReason) :
    Except Failure Designation :=
  (b.scheduled g i).map fun e =>
    let t := outboundType e
    ⟨i, .ofType t (dims.getD t.dims) reason⟩

/-- The seed that an entry asks for, if it asks for one. -/
def entryDesignation (e : ScheduleEntry) : Except Failure (Option Designation) := do
  let node ← g.node e.node
  if node.isClamp then return none
  if e.ruleType = .expectationPropagation then
    some <$> b.designation g (← g.partner e.interface) none .expectation
  else if !node.inverseKnown && e.position = 1 then
    some <$> b.designation g (← g.partner e.interface) (some node.dims) .nonlinear
  else
    match g.partner? e.interface with
    | none => return none
    | some j =>
      return (← g.nodeOf j).observed.map fun value =>
        ⟨e.interface, .ofType (outboundType e) (value.shape.map Int.ofNat) .clamp⟩

/-- What every entry asks for, in order, and then every loop breaker. -/
def designations : List (Except Failure (Option Designation)) :=
  b.schedule.map (b.entryDesignation g)
    ++ b.loopBreakers.map fun i => (b.designation g i none .loop).map some

/-- Lays a seed where there is none yet. -/
def lay (d : Designation) : Block :=
  { b with
    schedule := b.schedule.map fun e =>
      if e.interface = d.interface && e.seed = none then { e with seed := some d.seed } else e
    reestimates := b.reestimates || d.seed.reason = .clamp }

/-- Lays seeds in order, up to the first that cannot be laid. -/
def layAll : List (Except Failure (Option Designation)) → Attempt Block Unit
  | [] => pure ()
  | .error f :: _ => throw f
  | .ok none :: rest => layAll rest
  | .ok (some d) :: rest => fun b => layAll rest (b.lay d)

/-- Lays the seeds of a block, and notes whether there are any. -/
def designateSeeds : Attempt Block Unit := fun b =>
  match layAll (b.designations g) b with
  | .ok () b => .ok () { b with needsSeeds := b.schedule.any (·.seed.isSome) }
  | .error f b => .error f b

end Block

end MessagePassing
