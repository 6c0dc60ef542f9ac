/-!
# Faults

A fault stops the compiler itself: a bound of the machine format that no check of the language
guards. It is not a mistake in the program, and nothing is reported about it.
-/

namespace JMinusMinus

inductive Fault where
  /-- Local slots past the last one that sixteen bits can name. -/
  | slotOverflow
  /-- A literal image whose first or last byte is part of a longer character. -/
  | splitCharacter
  /-- A label that was never created. -/
  | unknownLabel
deriving DecidableEq

/-- The largest number of local slots a method can count. -/
def maxSlots : Nat := 65535

/-- A slot count moved on by a width, while it stays countable. -/
def addSlots (slot width : Nat) : Except Fault Nat :=
  if slot + width ≤ maxSlots then .ok (slot + width) else .error .slotOverflow

end JMinusMinus
