import JMinusMinus.Error
import JMinusMinus.Text.Blank

/-!
# Settings

How many diagnostics are shown, how deep a source may be nested, and whether to say what was
done. The two numbers can be set from outside by name.
-/

namespace JMinusMinus

structure Config where
  /-- Diagnostics shown for a unit; later ones only count. -/
  maxErrors : Nat := 100
  /-- How deep statements and expressions may be nested. -/
  maxDepth : Nat := 64
  verbose : Bool := false
deriving DecidableEq

namespace Config

def maxErrorsName : String := "JMMC_MAX_ERRORS"

def maxDepthName : String := "JMMC_MAX_DEPTH"

/-- The number in a setting: a numeral of 64 bits, with white space around it. -/
def number? (value : String) : Option Nat := do
  let n ← Numeral.nat? (Blank.trim value.toList)
  if n < UInt64.size then some n else none

def setting (name : String) : Option String → Except SettingProblem (Option Nat)
  | none => .ok none
  | some value =>
    match number? value with
    | some n => .ok (some n)
    | none => .error (.notNumber name value)

def ofSettings (value? : String → Option String) : Except SettingProblem Config := do
  let maxErrors ← setting maxErrorsName (value? maxErrorsName)
  let maxDepth ← setting maxDepthName (value? maxDepthName)
  if maxDepth = some 0 then throw (.notPositive maxDepthName)
  let default : Config := {}
  return { default with
    maxErrors := maxErrors.getD default.maxErrors
    maxDepth := maxDepth.getD default.maxDepth }

end Config

end JMinusMinus
