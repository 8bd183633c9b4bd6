import MessagePassing.Posterior

/-!
# What a run remembers

Messages and marginals change from pass to pass while the model and its compiled blocks stay as they
are. A message belongs to the interface that sends it, a marginal to a target, and an edge keeps a
copy of the marginal of its variable.

* `Memory.ensureMarginal` gives an edge a marginal of a type, unless it has one.

Specification: section 2 (`set_forward_message`, `set_backward_message`, `ensure_marginal`,
`clear_messages`).
-/

namespace MessagePassing

/-- The values of a run. -/
structure Memory where
  /-- The messages, by the interface that sends them. -/
  messages : Table InterfaceId Value := ∅
  /-- The marginals that edges carry. -/
  edgeMarginals : Table EdgeId Value := ∅
  /-- The marginals. -/
  marginals : Table Target Value := ∅
  /-- How far the seeds of each block have come. -/
  phases : Table (String × InterfaceId) Phase := ∅
  /-- Whether the marginals have got their first values. -/
  initialized : Bool := false

namespace Memory

instance : EmptyCollection Memory := ⟨{}⟩

variable (m : Memory)

/-- The message that an interface sends. -/
def message (i : InterfaceId) : Value :=
  (m.messages.get? i).getD .absent

/-- The marginal that an edge carries. -/
def edgeMarginal (e : EdgeId) : Value :=
  (m.edgeMarginals.get? e).getD .absent

/-- How far the seed of an interface of a block has come. -/
def phase (block : String) (i : InterfaceId) : Phase :=
  (m.phases.get? (block, i)).getD .uninitialized

/-- Sends a message. -/
def send (i : InterfaceId) (v : Value) : Memory :=
  { m with messages := m.messages.insert i v }

/-- Puts a marginal on an edge. -/
def putEdgeMarginal (v : Value) (m : Memory) (e : EdgeId) : Memory :=
  { m with edgeMarginals := m.edgeMarginals.insert e v }

/-- Puts the marginal of a target. -/
def putMarginal (t : Target) (v : Value) : Memory :=
  { m with marginals := m.marginals.insert t v }

/-- Moves a seed on. -/
def putPhase (block : String) (i : InterfaceId) (p : Phase) : Memory :=
  { m with phases := m.phases.insert (block, i) p }

/-- The marginal of a target, which needs a value. -/
def marginal (t : Target) : Except Failure Value :=
  match m.marginals.get? t, t with
  | some v, _ => .ok v
  | none, .variable x => .error (.missing x)
  | none, .cluster _ => .error .missingCluster

/-- Forgets all messages. -/
def clearMessages : Memory :=
  { m with messages := ∅ }

/-! ## Edges -/

/-- Sends the message of an edge in its own direction. -/
def setForward (g : Graph) (e : EdgeId) (v : Value) : Attempt Memory Unit := do
  let edge ← g.edge e
  modify (·.send edge.tail v)

/-- Sends the message of an edge against its direction, which a dangling edge does not have. -/
def setBackward (g : Graph) (e : EdgeId) (v : Value) : Attempt Memory Unit := do
  let edge ← g.edge e
  match edge.head with
  | some h => modify (·.send h v)
  | none => throw (.danglingBackward e)

/-- The message of an edge in its own direction. -/
def forward (g : Graph) (e : EdgeId) : Except Failure Value :=
  (g.edge e).map fun edge => m.message edge.tail

/-- The message of an edge against its direction. -/
def backward (g : Graph) (e : EdgeId) : Except Failure Value :=
  (g.edge e).map fun edge => (edge.head.map m.message).getD .absent

/-- Gives an edge a marginal of a type, made if the one that it carries has another type. Tells
whether a value was made. -/
def ensureMarginal (g : Graph) (e : EdgeId) (t : TypeTerm) (make : Except Failure Value) :
    Attempt Memory Bool := do
  let edge ← g.edge e
  if let some d := edge.declared then
    if !d.admits t then throw (.marginalForbidden t e edge.owner d)
  let m ← get
  if (m.edgeMarginal e).type? = some t then return false
  let v ← make
  set (putEdgeMarginal v m e)
  return true

end Memory

end MessagePassing
