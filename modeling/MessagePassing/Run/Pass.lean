import MessagePassing.Run.Memory

/-!
# A pass over a block

A pass lays the seeds that are still to be laid, computes the messages in the order of the schedule,
and then the marginals. Every update reads the memory as the updates before it left it. A pass that
fails leaves what it has done so far.

* `Block.pass` is one pass.
* `applyOneByOne` runs a procedure on one factor of every argument at a time.

Specification: section 10 (`emit_step`, `apply_one_by_one`).
-/

namespace MessagePassing

/-! ## Procedures on factors -/

/-- The numbers of factors of the arguments; an argument that has a value has to be made of
factors. -/
def factorCounts : List Value → Except Failure (List Nat)
  | [] => .ok []
  | .parts l :: rest => (factorCounts rest).map (l.length :: ·)
  | .absent :: rest => factorCounts rest
  | v :: _ => .error (.valueNotPartitioned v.render)

/-- The factor of a value at a place; an absent value stays absent. -/
def factorAt (i : Nat) : Value → Value
  | .parts l => l[i]?.getD .absent
  | _ => .absent

/-- Runs a procedure on one factor of every argument at a time. -/
def applyOneByOne (f : Procedure) (lead : Argument) (args : List Value) : Except Failure Value := do
  let counts := Ascending.ofList (← factorCounts args)
  match counts with
  | [k] =>
    let outs ← (List.range k).mapM fun i => f (lead :: args.map fun v => .value (factorAt i v))
    Value.ofFactors outs
  | _ => throw (.valueCountsDiffer counts)

/-! ## Reading arguments -/

namespace Memory

variable (m : Memory)

/-- The value of a source. -/
def valueOf (g : Graph) : Source → Except Failure Value
  | .nothing => .ok .absent
  | .message i => .ok (m.message i)
  | .constant n => do
    let node ← g.node n
    return (node.observed.map Value.pointMass).getD .absent
  | .marginal t =>
    match m.marginals.get? t with
    | some v => .ok v
    | none => .error (.marginalMissing t.id)

/-- The procedure of a rule; without one, every call fails. -/
def procedureOf (r : Option Rule) : Procedure :=
  (r.bind (·.procedure)).getD fun _ => .error .illTyped

/-- The message that an entry of a schedule computes. -/
def entryValue (g : Graph) (e : ScheduleEntry) : Except Failure Value := do
  let node ← g.node e.node
  match node.observed with
  | some t => return Value.pointMass t
  | none =>
    let args ← e.inbounds.mapM (m.valueOf g)
    if e.oneByOne then applyOneByOne (procedureOf e.rule) (.node node.id) args
    else procedureOf e.rule (.node node.id :: args.map .value)

/-- The marginal that an entry of a marginal table computes. -/
def marginalValue (g : Graph) (e : MarginalEntry) : Except Failure Value := do
  match e.plan, e.inbounds with
  | .copy _, [.message i] => return m.message i
  | .product _ _, [.message i, .message j] =>
    procedureOf e.rule [.value (m.message i), .value (m.message j)]
  | .joint n _, sources =>
    let args ← sources.mapM (m.valueOf g)
    procedureOf e.rule (.node n :: args.map .value)
  | .copy _, _ => throw .outOfRange
  | .product _ _, operands => throw (.operandsMissing operands.length)

end Memory

/-! ## The pass -/

namespace Block

/-- Lays the seed of an entry that has one, if it is still to be laid. -/
def laySeed (o : Options) (id : String) (e : ScheduleEntry) : Attempt Memory Unit := fun m =>
  match e.seed with
  | none => .ok () m
  | some s =>
    if m.phase id e.interface = .uninitialized then
      match s.value o with
      | .error f => .error f m
      | .ok v =>
        match (m.phase id e.interface).seed with
        | .error f => .error f m
        | .ok p => .ok () ((m.putPhase id e.interface p).send e.interface v)
    else .ok () m

/-- Computes the message of an entry. -/
def replay (g : Graph) (id : String) (e : ScheduleEntry) : Attempt Memory Unit := fun m =>
  match m.entryValue g e with
  | .error f => .error f m
  | .ok v =>
    if e.seed.isSome then
      match (m.phase id e.interface).advance with
      | .error f => .error f m
      | .ok p => .ok () ((m.putPhase id e.interface p).send e.interface v)
    else .ok () (m.send e.interface v)

/-- Computes a marginal; that of a variable goes to the edges of the variable too. -/
def publish (g : Graph) (e : MarginalEntry) : Attempt Memory Unit := fun m =>
  match m.marginalValue g e with
  | .error f => .error f m
  | .ok v =>
    let m := m.putMarginal e.target v
    match e.target with
    | .variable x => .ok () ((g.edgesOf x).foldl (Memory.putEdgeMarginal v) m)
    | .cluster _ => .ok () m

/-- One pass over a block. -/
def pass (g : Graph) (o : Options) (b : Block) : Attempt Memory Unit := do
  if b.needsSeeds then b.schedule.forM (laySeed o b.id)
  b.schedule.forM (replay g b.id)
  b.marginalTable.forM (publish g)

end Block

end MessagePassing
