import MessagePassing.Options

/-!
# Non-informative values

A cyclic computation starts from values that say next to nothing. A family that is registered has a
flat representative of its own, built from the settings; any other family gets a value marked as
vague, which its procedures have to recognise.

* `FlatSeed.params` are the parameters that a registered seed makes.
* `Value.vague` is the flat value of a family and dimensions.
* `Value.vagueOf` is the flat value of a type; a type made of factors gets that many flat factors.

Specification: section 10 (`vague`, `register_vague`).
-/

namespace MessagePassing

/-- The one dimension of a family that has exactly one. -/
def oneDimension (family : String) : List Int → Except Failure Int
  | [n] => .ok n
  | dims => .error (.dimensionCount family dims)

/-- The parameters that a seed makes for a family and dimensions. -/
def FlatSeed.params (o : Options) (family : String) (dims : List Int) :
    FlatSeed → Except Failure (Table String Param)
  | pair first second =>
    (Tensor.sizes o.memory dims).map fun shape =>
      Table.ofList
        [(first.1, .tensor (.fill shape (first.2 o.toSettings))),
          (second.1, .tensor (.fill shape (second.2 o.toSettings)))]
  | square => do
    let n ← oneDimension family dims
    let shape ← Tensor.sizes o.memory [n]
    let _ ← Tensor.sizes o.memory [n, n]
    let scale ← o.huge.inDouble
    return Table.ofList
      [("m", .tensor (.fill shape (.real 0))), ("v", .tensor (.diagonal n.toNat scale))]
  | shares => do
    let n ← oneDimension family dims
    if n = 0 then throw .zeroDivision
    let count ← (Number.whole n).inDouble
    let shape ← Tensor.sizes o.memory [n]
    return Table.ofList [("p", .tensor (.fill shape (.real (1 / count))))]
  | computed f _ => f o.toSettings dims

namespace Value

/-- The parameters of the flat value of a family. -/
def vagueParams (o : Options) (family : String) (dims : List Int) :
    Except Failure (Table String Param) :=
  match o.families.get? family with
  | some seed => seed.params o family dims
  | none => .ok (Table.ofList [("vague", .flag true)])

/-- The flat value of a family and dimensions. -/
def vague (o : Options) (family : String) (dims : List Int) : Except Failure Value :=
  (vagueParams o family dims).map (dist family dims)

/-- The flat value of a type, `whole` being that type with the messages and approximations around
it. -/
def vagueBelow (o : Options) (whole : TypeTerm) : TypeTerm → Except Failure Value
  | .message t => vagueBelow o whole t
  | .approx t _ => vagueBelow o whole t
  | .partitioned e (.num n) =>
    if n ≤ 0 then .error .noFactors
    else (vagueBelow o e e).map fun v => parts (List.replicate n.toNat v)
  | .partitioned _ _ => .error .illTyped
  | .dist family params => vague o family (TypeTerm.dist family params).dims
  | _ => .error (.notSeedable whole)

/-- The flat value of a type. -/
def vagueOf (o : Options) (t : TypeTerm) : Except Failure Value :=
  vagueBelow o t t

end Value

end MessagePassing
