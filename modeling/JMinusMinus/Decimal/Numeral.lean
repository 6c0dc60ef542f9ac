/-!
# Whole numbers in decimal

A numeral is one or more of the ten ASCII digits. Leading zeros are fine. A sign may stand
before it: either sign for an integer, a plus only for a natural number.
-/

namespace JMinusMinus.Numeral

def digit (c : Char) : Nat := c.toNat - '0'.toNat

def valueFrom (value : Nat) (cs : List Char) : Nat := cs.foldl (fun n c => n * 10 + digit c) value

def digits? (cs : List Char) : Option Nat :=
  if cs.isEmpty || !cs.all Char.isDigit then none else some (valueFrom 0 cs)

def nat? : List Char → Option Nat
  | '+' :: cs => digits? cs
  | cs => digits? cs

def int? : List Char → Option Int
  | '-' :: cs => (digits? cs).map fun n => -(n : Int)
  | cs => (nat? cs).map fun n => (n : Int)

/-- An integer of a signed word of so many bits. -/
def word? (bits : Nat) (cs : List Char) : Option Int :=
  let limit : Int := Nat.pow 2 (bits - 1)
  match int? cs with
  | some n => if -limit ≤ n ∧ n < limit then some n else none
  | none => none

end JMinusMinus.Numeral
