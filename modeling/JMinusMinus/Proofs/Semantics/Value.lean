import JMinusMinus.Decimal.Binary64
import Mathlib

/-!
# Values

The values that fields, elements and operands have.

* Integers are bit vectors, so that arithmetic wraps around. A `char` is an unsigned number of
  16 bits.
* What the machine does with doubles is a parameter (`Doubles`).

An operation that has no value may be a *trap*, which the program can catch.
-/

namespace JMinusMinus

/-- An object, by its identity. -/
structure Ref where
  id : Nat
deriving DecidableEq

/-- What makes an operation throw. -/
inductive Trap where
  | arithmetic
  /-- The use of an object where there is none. -/
  | nullReference
  /-- An index that an array does not have. -/
  | indexBounds
  /-- An object of another class than a conversion demands. -/
  | classCast
  /-- An object that an array cannot hold. -/
  | arrayStore
deriving DecidableEq

/-- The operations on floating-point numbers, left open. -/
structure Doubles where
  add : Binary64 → Binary64 → Binary64
  sub : Binary64 → Binary64 → Binary64
  mul : Binary64 → Binary64 → Binary64
  div : Binary64 → Binary64 → Binary64
  rem : Binary64 → Binary64 → Binary64
  neg : Binary64 → Binary64
  /-- The order of two numbers, none if one of them is not a number. -/
  order : Binary64 → Binary64 → Option Ordering
  toInt : Binary64 → BitVec 32
  toLong : Binary64 → BitVec 64

/-- A value of a variable or an expression. -/
inductive Value where
  | int (value : BitVec 32)
  | long (value : BitVec 64)
  | double (value : Binary64)
  | char (value : BitVec 16)
  | boolean (value : Bool)
  /-- An object, or `null`. -/
  | ref (value : Option Ref)
  /-- What a call without a result has. -/
  | nothing
deriving DecidableEq

/-- The kinds of values. -/
inductive ValueKind where
  | int | long | double | char | boolean | ref
deriving DecidableEq

namespace Value

/-- The kind of a value. -/
def kind? : Value → Option ValueKind
  | int _ => some .int
  | long _ => some .long
  | double _ => some .double
  | char _ => some .char
  | boolean _ => some .boolean
  | ref _ => some .ref
  | nothing => none

end Value

/-- How two integers compare. -/
def orderOf (a b : Int) : Ordering := if a < b then .lt else if a = b then .eq else .gt

end JMinusMinus
