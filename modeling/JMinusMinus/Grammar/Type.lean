import JMinusMinus.Grammar.Lookahead
import JMinusMinus.Grammar.State

/-!
# Names and types

Rules for dotted names, basic types and reference types.
-/

namespace JMinusMinus.Grammar

/-- A dotted name. -/
def qualifiedName : Parser QualifiedName := do
  let line ← currentLine
  let first ← identifier
  let rest ← afterEach .dot identifier (← remaining)
  return ⟨line, first :: rest⟩

/-- The name of a class. -/
def classType : Parser Ty := return .named (← qualifiedName).text

/-- The basic type that a word stands for. -/
def basicTypeOf? : Kind → Option Ty
  | .kwBoolean => some .boolean
  | .kwChar => some .char
  | .kwInt => some .int
  | .kwLong => some .long
  | .kwDouble => some .double
  | _ => none

/-- A basic type. -/
def basicType : Parser Ty := do
  let t ← current
  match basicTypeOf? t.kind with
  | some ty =>
    advance
    return ty
  | none =>
    complain (.typeSought t.image)
    return .any

/-- One array level for each empty pair of brackets. -/
def arrayLevels : Nat → Ty → Parser Ty
  | 0, ty => outOfBound ty
  | bound + 1, ty => do
    if Lookahead.startsDims (← upcoming) then
      require .leftBracket
      require .rightBracket
      arrayLevels bound (.array ty)
    else
      return ty

/-- A class name or an array of a basic type, with any array levels after it. -/
def referenceType : Parser Ty := do
  let ty ←
    if ← sees .identifier then classType
    else do
      let basic ← basicType
      require .leftBracket
      require .rightBracket
      pure (.array basic)
  arrayLevels (← remaining) ty

/-- Any type but `void`. -/
def type : Parser Ty := do
  if Lookahead.startsReferenceType (← upcoming) then referenceType else basicType

end JMinusMinus.Grammar
