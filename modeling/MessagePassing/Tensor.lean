import MessagePassing.Number

/-!
# Arrays of numbers

A tensor is a shape with its entries in row-major order, and has a limited number of dimensions. A
value is written as nested lists; the lists at one depth need equal shapes, and are refused
otherwise. The entry of a missing number is missing, and the others are brought to one precision.

* `Tensor.ofNested` is the array that nested lists describe.
* `Tensor.doubles` are the entries in double precision, and `Tensor.inDoubles` is the array of them;
  neither exists if there is a whole number beyond its range.
* `Tensor.sizes` refuses dimensions that no array has, or none that fits the memory.
* `Tensor.fill` and `Tensor.diagonal` are the arrays that flat values are made of.

Specification: sections 2 (the `value` of a node) and 10 (the parameters of distributions).
-/

namespace MessagePassing

/-- A number, or a list of such, as values are written. -/
inductive Nested where
  /-- A missing number. -/
  | null
  /-- A number. -/
  | num (x : Number)
  /-- A list. -/
  | list (items : List Nested)

namespace Nested

/-- Whether lists are nested more deeply than a number of levels. -/
def isDeeperThan : Nat → Nested → Bool
  | 0, list _ => true
  | n + 1, list items => items.any (isDeeperThan n)
  | _, _ => false

/-- The lists of the outermost levels; a list below them counts as one missing number. -/
def outermost : Nat → Nested → Nested
  | 0, list _ => null
  | n + 1, list items => list (items.map (outermost n))
  | _, entry => entry

end Nested

/-- An array of numbers. -/
structure Tensor where
  /-- The sizes, outermost first. -/
  shape : List Nat
  /-- The entries, the last index running fastest. -/
  data : List (Option Number)

namespace Tensor

/-- The array of shape `[]` with one entry. -/
def scalar (x : Float) : Tensor :=
  ⟨[], [some (.real x)]⟩

/-- The entry of an array of shape `[]`, in double precision. -/
def toScalar (t : Tensor) : Except Failure Float :=
  match t.shape, t.data with
  | [], [some x] => x.inDouble
  | _, _ => .error .illTyped

/-- The array of a shape with equal entries. -/
def fill (shape : List Nat) (x : Number) : Tensor :=
  ⟨shape, List.replicate (shape.foldl (· * ·) 1) (some x)⟩

/-- The square array with `x` on its diagonal. -/
def diagonal (n : Nat) (x : Float) : Tensor :=
  ⟨[n, n], (List.range n).flatMap fun i =>
    (List.range n).map fun j => some (.real (x * if i = j then 1 else 0))⟩

/-! ## Limits -/

/-- The greatest number of dimensions. -/
def maxRank : Nat := 64

/-- The bytes that one entry takes. -/
def entryBytes : Int := 8

/-- The bytes that can be addressed. -/
def addressableBytes : Int := 9223372036854775807

/-- The bytes of an array so far, grown by one more dimension. An empty dimension is passed over:
whether the others can be addressed does not depend on it. -/
def growBytes (bytes size : Int) : Except Failure Int :=
  if size = 0 then .ok bytes
  else if size < 0 then .error .negativeSize
  else if addressableBytes < bytes * size then .error .arrayTooLarge
  else .ok (bytes * size)

/-- The sizes that a list of dimensions stands for, if there is an array of them that fits the
memory. -/
def sizes (memory : Nat) (dims : List Int) : Except Failure (List Nat) := do
  if maxRank < dims.length then throw (.tooManySizes maxRank dims.length)
  if dims.any fun n => (Number.whole n).precision ≠ .signed then throw .sizeTooLarge
  let bytes ← dims.foldlM growBytes entryBytes
  if 0 ∉ dims ∧ memory < bytes.toNat then throw .outOfMemory
  return dims.map Int.toNat

/-! ## Nested lists -/

/-- Arrays of one shape as the rows of an array; the empty list has the shape `[0]`. -/
def stack? : List Tensor → Option Tensor
  | [] => some ⟨[0], []⟩
  | t :: ts =>
    if ts.all (·.shape == t.shape) then
      some ⟨(ts.length + 1) :: t.shape, t.data ++ ts.flatMap (·.data)⟩
    else none

mutual

/-- The array that nested lists describe as they stand, if their lengths agree. -/
def ofNested? : Nested → Option Tensor
  | .null => some ⟨[], [none]⟩
  | .num x => some ⟨[], [some x]⟩
  | .list items => (ofAll? items).bind stack?

/-- The arrays that the items of a list describe. -/
def ofAll? : List Nested → Option (List Tensor)
  | [] => some []
  | n :: ns => (ofNested? n).bind fun t => (ofAll? ns).map (t :: ·)

end

/-- The array that nested lists describe. Lists that disagree above the limit of nesting are refused
for that, whatever is below it. -/
def ofNested (n : Nested) : Except Failure Tensor :=
  match ofNested? (n.outermost maxRank) with
  | none => .error .ragged
  | some t =>
    if n.isDeeperThan maxRank then .error (.tooDeep maxRank)
    else .ok { t with data := Number.alike t.data }

/-! ## Double precision -/

/-- The entries in double precision; a missing one stays missing. -/
def doubles (t : Tensor) : Except Failure (List (Option Float)) :=
  t.data.mapM fun entry => entry.mapM Number.inDouble

/-- The array with its entries in double precision; a missing one is no number. -/
def inDoubles (t : Tensor) : Except Failure Tensor :=
  t.doubles.map fun entries =>
    { t with data := entries.map fun x => some (.real (x.getD (0 / 0))) }

end Tensor

end MessagePassing
