import MessagePassing.Posterior

/-!
# Common factorizations

The mean-field factorization gives every latent variable a block of its own, unless an earlier block
already contains an edge of it. A structured factorization gives each group of variables a block.

* `Graph.isObserved` tells the variables that end at clamps with every edge.
* `Posterior.addMeanField` goes through the variables by name.

Specification: section 6 (`factorize_mean_field`, `factorize_structured`, `is_observed`).
-/

namespace MessagePassing

namespace Graph

variable (g : Graph)

/-- Whether one of several interfaces belongs to a clamp. Those after the first one that does are
not looked at. -/
def meetsClamp : List InterfaceId → Except Failure Bool
  | [] => .ok false
  | i :: rest => do
    if (← g.nodeOf i).isClamp then return true else meetsClamp rest

/-- Whether every edge of a list ends at a clamp. Those after the first one that does not are not
looked at. -/
def allObserved : List EdgeId → Except Failure Bool
  | [] => .ok true
  | e :: rest => do
    if ← g.meetsClamp (g.ends e) then allObserved rest else return false

/-- Whether every edge of a variable ends at a clamp. -/
def isObserved (x : String) : Except Failure Bool :=
  match g.variableEdges.get? x with
  | none => .error (.missing x)
  | some edges => g.allObserved edges

end Graph

namespace Posterior

/-- Adds a block for a variable, unless it is observed or an edge of it lies in a block. -/
def addLatent (g : Graph) (x : String) : Attempt Posterior (Option Block) := fun p =>
  match g.isObserved x with
  | .error e => .error e p
  | .ok true => .ok none p
  | .ok false =>
    if (g.edgesOf x).any fun e => (p.blockContaining? e).isSome then .ok none p
    else
      match addBlock g [x] none p with
      | .ok b p => .ok (some b) p
      | .error e p => .error e p

/-- Adds a block for every latent variable that no block covers yet. -/
def addMeanField (g : Graph) : Attempt Posterior (List Block) := do
  let added ← (Ascending.ofList g.variableEdges.keys).mapM (addLatent g)
  return added.filterMap id

/-- Adds a block for each group of variables. -/
def addGroups (g : Graph) (groups : List (List String)) : Attempt Posterior (List Block) :=
  groups.mapM fun group => addBlock g group none

/-- Adds the blocks of a structured factorization, or of the mean-field one if no groups are
given. -/
def factorize (g : Graph) : Option (List (List String)) → Attempt Posterior (List Block)
  | some groups => addGroups g groups
  | none => addMeanField g

end Posterior

end MessagePassing
