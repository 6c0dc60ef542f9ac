import JMinusMinus.Problem

/-!
# Errors

Why there is no compiled class: the file could not be read, the source has problems, a setting
is wrong, or the compiler met a tree that it cannot make code for. The last does not happen to
a tree that analysis found nothing wrong with.

A *failure* is an error, which is told to the user, or a fault, which stops the compiler.
-/

namespace JMinusMinus

inductive FileProblem where
  | notFound
  /-- A directory on its path is a file. -/
  | notDirectory
  | isDirectory
  | alreadyThere
  /-- Its path, or a name on it, is longer than the system takes. -/
  | nameTooLong
  | nulInPath
  | notText
  | other (text : String)
deriving DecidableEq

def FileProblem.message : FileProblem → String
  | notFound => "No such file or directory (os error 2)"
  | notDirectory => "Not a directory (os error 20)"
  | isDirectory => "Is a directory (os error 21)"
  | alreadyThere => "File exists (os error 17)"
  | nameTooLong => "File name too long (os error 36)"
  | nulInPath => "file name contained an unexpected NUL byte"
  | notText => "stream did not contain valid UTF-8"
  | other text => text

inductive SettingProblem where
  | notNumber (name value : String)
  | notPositive (name : String)
deriving DecidableEq

def SettingProblem.message : SettingProblem → String
  | notNumber name value => name ++ " expects a number, got '" ++ value ++ "'"
  | notPositive name => name ++ " must be positive"

/-- What there is no code for. -/
inductive Defect where
  | breakTarget (line : Nat)
  | continueTarget (line : Nat)
  | caseConstant (line : Nat)
  /-- A handler whose variable has no slot. -/
  | catchSlot (line : Nat)
  | unresolved (line : Nat)
  /-- An array of more dimensions than an instruction can count. -/
  | dimensions (line : Nat)
  /-- An array creation of a type that is no array. -/
  | notArray (line : Nat) (ty : Ty)
  | initializer (line : Nat)
  | noValue (line : Nat)
  | literal (line : Nat) (text : String)
  | notAssignable (line : Nat)
  | unboundLabel (label : Nat)
deriving DecidableEq

def Defect.message : Defect → String
  | breakTarget line => s!"line {line}: break has no target"
  | continueTarget line => s!"line {line}: continue has no target"
  | caseConstant line => s!"line {line}: case label is not a constant"
  | catchSlot line => s!"line {line}: catch parameter has no slot"
  | unresolved line => s!"line {line}: unresolved member reference"
  | dimensions line => s!"line {line}: too many array dimensions"
  | notArray line ty => s!"line {line}: {ty.text} is not an array type"
  | initializer line => s!"line {line}: array initializer without an array type"
  | noValue line => s!"line {line}: expression has no value to generate"
  | literal line text => s!"line {line}: invalid literal {text}"
  | notAssignable line => s!"line {line}: expression is not assignable"
  | unboundLabel label => s!"label L{label} is never bound"

inductive Error where
  | io (problem : FileProblem)
  | compilation (file : String) (diagnostics : List Diagnostic)
  | config (problem : SettingProblem)
  | internal (defect : Defect)
deriving DecidableEq

namespace Error

def message : Error → String
  | io problem => "IO error: " ++ problem.message
  | compilation file diagnostics =>
    s!"{file}: compilation failed with {diagnostics.length} error(s)"
  | config problem => "Configuration error: " ++ problem.message
  | internal defect => "Internal compiler error: " ++ defect.message

/-- What was reported about the source. -/
def diagnostics : Error → List Diagnostic
  | compilation _ ds => ds
  | _ => []

end Error

/-- Why the compiler did not finish. -/
inductive Failure where
  | error (cause : Error)
  | fault (cause : Fault)
deriving DecidableEq

def Failure.ofDefect (d : Defect) : Failure := .error (.internal d)

def Failure.lift {α : Type} : Except Fault α → Except Failure α
  | .ok x => .ok x
  | .error f => .error (.fault f)

end JMinusMinus
