import MessagePassing.Failure

/-!
# Numbers

An entry of an array is a whole number, which is exact, or a number in double precision. Arrays keep
their entries in one precision as far as there is one: whole numbers stay exact if all of them fit
64 bits, with a sign or without, and are converted as soon as they stand beside other numbers. Where
an entry is missing, or fits no 64 bits, every entry stays as it is.

* `Number.inDouble` is a number in double precision; whole numbers beyond its range have none.
* `Number.floor` is the whole part of a number; only finite numbers have one.
* `Number.alike` brings a list of entries to one precision.
-/

namespace MessagePassing

/-- A number of an array. -/
inductive Number where
  /-- A whole number. -/
  | whole (n : Int)
  /-- A number in double precision. -/
  | real (x : Float)

/-- The precision in which an array keeps a number. -/
inductive Precision where
  /-- Whole numbers of 64 bits with a sign. -/
  | signed
  /-- Whole numbers of 64 bits that are too large for a sign. -/
  | unsigned
  /-- Numbers in double precision. -/
  | double
  /-- Entries that fit none of these. -/
  | unbounded
deriving DecidableEq

namespace Number

/-- Whether a number is above zero. -/
def isPositive : Number → Bool
  | whole n => n > 0
  | real x => x > 0

/-! ## Double precision -/

/-- The nearest number in double precision, an infinity if a whole number is beyond its range. -/
def toFloat : Number → Float
  | whole n => Float.ofInt n
  | real x => x

/-- The least whole number that is beyond the range of double precision: it lies half a unit above
the largest finite number, and would be rounded up. -/
def doubleLimit : Nat :=
  (1 <<< 1024) - (1 <<< 970)

/-- The number in double precision; a whole number beyond its range has none. -/
def inDouble : Number → Except Failure Float
  | whole n => if n.natAbs < doubleLimit then .ok (Float.ofInt n) else .error .beyondDouble
  | real x => .ok x

/-! ## Whole parts -/

/-- The greatest whole number that is at most a finite number. A number that is not tiny is a whole
number of 53 binary digits, moved by its exponent. -/
def floorOfFinite (x : Float) : Int :=
  let bits := x.toBits.toNat
  let exponent := (bits >>> 52) % 2048
  let fraction := bits % (1 <<< 52)
  let significand := Int.ofNat (if exponent = 0 then fraction else fraction + (1 <<< 52))
  let signed := if bits >>> 63 = 1 then -significand else significand
  if 1075 ≤ exponent then signed * Int.ofNat (1 <<< (exponent - 1075))
  else signed >>> (1075 - max exponent 1)

/-- The greatest whole number that is at most a number. -/
def floor : Number → Except Failure Int
  | whole n => .ok n
  | real x =>
    if x.isNaN then .error .floorOfNaN
    else if x.isInf then .error .floorOfInfinity
    else .ok (floorOfFinite x)

/-! ## Precision -/

/-- The precision of a number. -/
def precision : Number → Precision
  | whole n =>
    if -9223372036854775808 ≤ n ∧ n < 9223372036854775808 then .signed
    else if 0 ≤ n ∧ n < 18446744073709551616 then .unsigned
    else .unbounded
  | real _ => .double

/-- The precision of an entry, which may be missing. -/
def entryPrecision (entry : Option Number) : Precision :=
  (entry.map precision).getD .unbounded

/-- The entries of an array in the precision that they have in common. -/
def alike (entries : List (Option Number)) : List (Option Number) :=
  let all := entries.map entryPrecision
  if .unbounded ∈ all || all.all (· = .signed) || all.all (· = .unsigned) then entries
  else entries.map fun entry => entry.map fun x => .real x.toFloat

end Number

end MessagePassing
