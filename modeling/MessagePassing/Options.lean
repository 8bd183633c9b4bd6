import MessagePassing.Value.Basic

/-!
# Options

What compilation and execution are told beside the model. A caller gives the settings: how many
passes to run, how flat a non-informative seed is, and whether a block with a collider is refused.
The rest belongs to the place of the computation: how much memory an array may take, and which
families have a flat value of their own.

* `FlatSeed` is what is registered for a family, `FlatSeed.standard` the registry to start from.
* `Settings.ofValues` checks the settings that a caller gives.

Specification: sections 10 (`register_vague`) and 12 (`CompilerOptions`).
-/

namespace MessagePassing

/-- Settings of compilation and execution. -/
structure Settings where
  /-- The number of passes of an execution that does not say. -/
  iterations : Nat := 50
  /-- The scale of non-informative seeds. -/
  huge : Number := .real 1e12
  /-- The rate of non-informative seeds. -/
  tiny : Number := .real 1e-12
  /-- Whether a block with a collider is refused. -/
  rejectColliders : Bool := false

/-- Settings from values that a caller gives; the number of passes may not be negative, the scale
and the rate have to be positive. -/
def Settings.ofValues (iterations : Int) (huge tiny : Number) (rejectColliders : Bool) :
    Except Failure Settings :=
  if iterations < 0 then .error .negativeIterations
  else if huge.isPositive && tiny.isPositive then
    .ok { iterations := iterations.toNat, huge, tiny, rejectColliders }
  else .error .scaleNotPositive

/-- How the parameters of a flat value are made. -/
inductive FlatSeed where
  /-- Two arrays of the dimensions, each with equal entries that depend on the settings. -/
  | pair (first second : String × (Settings → Number))
  /-- For the only dimension, zeros as means and a square array with the scale on its diagonal. -/
  | square
  /-- For the only dimension, equal shares of one. -/
  | shares
  /-- A function of the settings and the dimensions, which fails for reasons of values only. -/
  | computed (f : Settings → List Int → Except Failure (Table String Param))
      (h : ∀ o dims e, f o dims = .error e → e.OfValue)

/-- The families that have a flat value of their own unless others are registered. -/
def FlatSeed.standard : Table String FlatSeed :=
  ⟨[("Gaussian", .pair ("m", fun _ => .real 0) ("v", (·.huge))),
    ("MvGaussian", .square),
    ("Gamma", .pair ("a", fun _ => .real 1) ("b", (·.tiny))),
    ("LogNormal", .pair ("m", fun _ => .real 0) ("s", (·.huge))),
    ("Beta", .pair ("a", fun _ => .real 1) ("b", fun _ => .real 1)),
    ("Categorical", .shares)]⟩

/-- What compilation and execution are told. -/
structure Options extends Settings where
  /-- The bytes that an array may take. -/
  memory : Nat := 68719476736
  /-- The families that have a flat value of their own. -/
  families : Table String FlatSeed := FlatSeed.standard

instance : Inhabited Options := ⟨{}⟩

end MessagePassing
