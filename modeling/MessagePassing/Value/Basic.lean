import MessagePassing.Ascending
import MessagePassing.Table
import MessagePassing.Tensor

/-!
# Values of messages and marginals

A value is a distribution with named parameters, or independent factors of one kind. The library
creates such values and reads their types; what the parameters mean is left to the procedures of
update rules. A value may also be an opaque text, or absent, as the message of an interface that
nothing has been sent through.

* `Value.type?` is the type that a value has; texts and absent values have none.
* `Value.pointMass` is the value of an observation.

Specification: section 10 (`Distribution`, `PartitionedDistribution`).
-/

namespace MessagePassing

/-- A parameter of a distribution. -/
inductive Param where
  /-- A whole number. -/
  | integer (n : Int)
  /-- A mark. -/
  | flag (b : Bool)
  /-- An array of numbers. -/
  | tensor (t : Tensor)

/-- The content of a message or a marginal. -/
inductive Value where
  /-- No value. -/
  | absent
  /-- A value without structure. -/
  | text (s : String)
  /-- A distribution. -/
  | dist (family : String) (dims : List Int) (params : Table String Param)
  /-- Independent factors; callers build it by `Value.ofFactors`, which refuses the empty list. -/
  | parts (factors : List Value)

namespace Value

instance : Inhabited Value := ⟨absent⟩

/-- Independent factors, of which there has to be one. -/
def ofFactors : List Value → Except Failure Value
  | [] => .error .noFactors
  | factors => .ok (parts factors)

/-- Whether there is no value. -/
def isAbsent : Value → Bool
  | absent => true
  | _ => false

/-- The type of a value. The type of factors is read off the first one. -/
def type? : Value → Option TypeTerm
  | dist family dims _ => some (.ofDims family dims)
  | parts (v :: vs) => v.type?.map fun t => .partitioned t (.num (vs.length + 1))
  | _ => none

/-- The written form of a value: the type of a distribution and the names of its parameters. -/
def render : Value → String
  | absent => "None"
  | text s => Text.quoted s
  | dist family dims params =>
    "Distribution(" ++ (TypeTerm.ofDims family dims).render ++ "; "
      ++ ", ".intercalate (Ascending.ofList params.keys) ++ ")"
  | parts _ => "PartitionedDistribution"

/-- The family of observations. -/
def pointMassFamily : String := "PointMass"

/-- The distribution that puts all its mass on an observed value. -/
def pointMass (t : Tensor) : Value :=
  dist pointMassFamily (t.shape.map Int.ofNat) (Table.ofList [("value", .tensor t)])

end Value

/-- The type of the point mass at an observed value. -/
def Tensor.pointMassType (t : Tensor) : TypeTerm :=
  .ofDims Value.pointMassFamily (t.shape.map Int.ofNat)

end MessagePassing
