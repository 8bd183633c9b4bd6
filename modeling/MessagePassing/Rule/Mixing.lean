import MessagePassing.Rule.Basic

/-!
# Mixing procedures

Procedures that do no inference but show which arguments an update got, in which order: every
argument has a weight, the weights are folded into one number, and the outcome is a value of a given
type that carries the number. Beside them stand procedures that answer a constant or an argument, or
fail.

Specification: section 8 (`procedure`), the content of which section 14 leaves to callers.
-/

namespace MessagePassing

/-- The modulus of folded weights. -/
def mixModulus : Int := 1000003

/-- Adds a weight to a folded one. -/
def foldWeight (acc weight : Int) : Int :=
  (acc * 31 + weight) % mixModulus

namespace Value

/-- The weight of a distribution that carries no number: its family, its dimensions and the whole
parts of an observed value. -/
def plainWeight (family : String) (dims : List Int) (params : Table String Param) :
    Except Failure Int := do
  let observed ← match params.get? "value" with
    | some (.tensor t) => (t.data.filterMap id).mapM Number.floor
    | _ => .ok []
  return (dims ++ observed).foldl (· + ·) (1000 * family.length + 17)

mutual

/-- The weight of a value. -/
def weight : Value → Except Failure Int
  | absent => .ok 1
  | text _ => .ok 5
  | parts l => foldWeights 3 l
  | dist family dims params =>
    match params.get? "h" with
    | some (.integer n) => .ok n
    | some (.flag b) => .ok (if b then 1 else 0)
    | _ => plainWeight family dims params

/-- Adds the weights of values to a folded one. -/
def foldWeights (acc : Int) : List Value → Except Failure Int
  | [] => .ok acc
  | v :: l =>
    match v.weight with
    | .ok w => foldWeights (foldWeight acc w) l
    | .error f => .error f

end

/-- A value of a type that carries a number; factors carry consecutive ones. -/
def carrying : TypeTerm → Int → Except Failure Value
  | .message t, h => carrying t h
  | .approx t _, h => carrying t h
  | .partitioned e (.num n), h => do
    ofFactors (← (List.range n.toNat).mapM fun (i : Nat) => carrying e (h + Int.ofNat i))
  | .partitioned _ _, _ => .error .illTyped
  | t, h => .ok (dist t.family t.dims (Table.ofList [("h", .integer h)]))

end Value

/-- The weight of an argument. -/
def Argument.weight : Argument → Except Failure Int
  | node n => .ok (2 + n)
  | value v => v.weight

namespace Procedure

/-- Folds the weights of the arguments, starting from `salt`, into a value of a type. -/
def mix (salt : Int) (out : TypeTerm) : Procedure := fun args => do
  Value.carrying out (← args.foldlM (fun acc a => a.weight.map (foldWeight acc)) salt)

/-- Answers a constant, or fails if what describes it describes no value. -/
def constant (v : Except Failure Value) : Procedure := fun _ => v

/-- Answers the argument at a position. -/
def argument (i : Int) : Procedure := fun args => do
  match ← entryAtOffset args i with
  | .value v => return v
  | .node _ => throw .illTyped

/-- Gives up. -/
def giveUp (text : String) : Procedure := fun _ => .error (.procedure text)

end Procedure

end MessagePassing
