import MessagePassing.Table

/-!
# Numbered names

A source of names hands out a stem with a number, counting from one for each stem.

Results:
* `toString_injective`: different numbers are written differently.

Specification: section 1 (`IDRegistry`).
-/

namespace MessagePassing

theorem toString_injective : Function.Injective (toString : Nat → String) := by
  intro m n h
  rw [Nat.toString_eq_ofList_toDigits, Nat.toString_eq_ofList_toDigits, String.ofList_inj] at h
  rw [← Nat.ofDigitChars_ten_toDigits (n := m), h, Nat.ofDigitChars_ten_toDigits]

/-- A source of numbered names. -/
structure IdSource where
  /-- The last number handed out for each stem. -/
  counters : Table String Nat := ∅

/-- The next name of a stem, and the source after it. -/
def IdSource.next (s : IdSource) (stem : String) : String × IdSource :=
  let n := (s.counters.get? stem).getD 0 + 1
  (s!"{stem}_{n}", ⟨s.counters.insert stem n⟩)

end MessagePassing
