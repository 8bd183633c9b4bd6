import MessagePassing.Rule.Basic

/-!
# Conjugate updates

Closed-form updates of Gaussian and Gamma distributions with one-dimensional parameters: a Gaussian
has a mean `m` and a variance `v`, a Gamma a shape `a` and a rate `b`, and a point mass a `value`.
The first argument is the node, and the place that an update computes is passed over. Operations are
those of double precision, in the order written, and division by zero gives an infinity.

Specification: section 8 (`procedure`), the content of which section 14 leaves to callers.
-/

namespace MessagePassing.Procedure

/-- A Gaussian. -/
def gaussian (m v : Float) : Value :=
  .dist "Gaussian" [] (Table.ofList [("m", .tensor (.scalar m)), ("v", .tensor (.scalar v))])

/-- A Gamma. -/
def gamma (a b : Float) : Value :=
  .dist "Gamma" [] (Table.ofList [("a", .tensor (.scalar a)), ("b", .tensor (.scalar b))])

/-- The number that an argument has as a parameter. -/
def number (name : String) : Argument → Except Failure Float
  | .value (.dist _ _ params) =>
    match params.get? name with
    | none => .error (.missing name)
    | some (.tensor t) => t.toScalar
    | some _ => .error .illTyped
  | _ => .error .illTyped

/-- The observed number of a point mass. -/
def point : Argument → Except Failure Float :=
  number "value"

/-- The sum of two Gaussian variables. -/
def gaussianSum : Procedure
  | [_, _, x, z] => do
    return gaussian ((← number "m" x) + (← number "m" z)) ((← number "v" x) + (← number "v" z))
  | _ => .error .illTyped

/-- A Gaussian variable with known mean and variance. -/
def gaussianOut : Procedure
  | [_, _, m, v] => do return gaussian (← point m) (← point v)
  | _ => .error .illTyped

/-- The mean of an observed Gaussian variable whose precision has a Gamma marginal. -/
def gaussianMean : Procedure
  | [_, y, _, w] => do return gaussian (← point y) ((← number "b" w) / (← number "a" w))
  | _ => .error .illTyped

/-- The mean of a Gaussian variable with known variance. -/
def gaussianMeanFromOut : Procedure
  | [_, x, _, v] => do return gaussian (← number "m" x) ((← number "v" x) + (← point v))
  | _ => .error .illTyped

/-- The precision of an observed Gaussian variable whose mean has a Gaussian marginal. -/
def gaussianPrecision : Procedure
  | [_, y, m, _] => do
    let distance := (← point y) - (← number "m" m)
    return gamma 1.5 (0.5 * (distance * distance + (← number "v" m)))
  | _ => .error .illTyped

/-- A Gamma variable with known shape and rate. -/
def gammaOut : Procedure
  | [_, _, a, b] => do return gamma (← point a) (← point b)
  | _ => .error .illTyped

/-- The product of two Gaussian messages. -/
def gaussianProduct : Procedure
  | [a, b] => do
    let wa := 1 / (← number "v" a)
    let wb := 1 / (← number "v" b)
    let v := 1 / (wa + wb)
    return gaussian (v * (wa * (← number "m" a) + wb * (← number "m" b))) v
  | _ => .error .illTyped

/-- The product of two Gamma messages. -/
def gammaProduct : Procedure
  | [a, b] => do
    return gamma ((← number "a" a) + (← number "a" b) - 1) ((← number "b" a) + (← number "b" b))
  | _ => .error .illTyped

end MessagePassing.Procedure
