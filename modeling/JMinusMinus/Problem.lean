import JMinusMinus.Log
import JMinusMinus.Tree.Decl

/-!
# Problems

Everything that can be wrong with a source text, by its cause. The wording of each cause is in
one function, `message`.
-/

namespace JMinusMinus

inductive Phase where
  | lexical | syntactic | semantic
deriving DecidableEq

inductive SyntaxProblem where
  | mismatch (found : String) (sought : Kind)
  | declarationSought (found : String)
  | repeatedModifier (modifier : Modifier)
  | accessConflict
  | handlerSought (found : String)
  | typeSought (found : String)
  | noEffect
  | creatorSought (found : String)
  | literalSought (found : String)
  | tooDeep (limit : Nat)
deriving DecidableEq

def SyntaxProblem.message : SyntaxProblem → String
  | mismatch found sought => found ++ " found where " ++ sought.image ++ " sought"
  | declarationSought found => "class or interface sought where " ++ found ++ " found"
  | repeatedModifier m => "Repeated modifier: " ++ m.word
  | accessConflict => "Access conflict in modifiers"
  | handlerSought found => "catch or finally sought where " ++ found ++ " found"
  | typeSought found => "Type sought where " ++ found ++ " found"
  | noEffect => "Invalid statement expression; it does not have a side-effect"
  | creatorSought found => "( or [ sought where " ++ found ++ " found"
  | literalSought found => "Literal sought where " ++ found ++ " found"
  | tooDeep limit => s!"Nesting deeper than {limit} levels"

/-- The name and parameter types of a method, as messages write them. -/
def signatureText (name : String) (params : List Ty) : String :=
  name ++ "(" ++ Ty.listText params ++ ")"

def Delegation.word : Delegation → String
  | .toSuper => "super"
  | .toThis => "this"

/-- What analysis objects to. A `signature` is written by `signatureText`. -/
inductive SemanticProblem where
  | typeRedeclared (name : String)
  | importUnknown (name : String)
  | importConflict (name simple : String)
  | extendsInterface (ty : Ty)
  | cannotExtend (ty : Ty)
  | notInterface (ty : Ty)
  | fieldRedeclared (name : String)
  | methodRedeclared (signature : String)
  | constructorRedeclared (signature : String)
  | cyclicInheritance (name : String)
  | typeUnknown (name : String)
  | redefined (name : String)
  | abstractInConcrete (class_ method : String)
  | unimplemented (class_ signature owner : String)
  | abstractWithBody (method : String)
  | bodyMissing (method : String)
  | returnMissing (method : String)
  | constructorMisnamed (name : String)
  | cannotThrow (ty : Ty)
  | breakOutside
  | continueOutside
  | mismatch (found expected : Ty)
  | selectorType (ty : Ty)
  | duplicateCase (value : Int)
  | caseNotConstant
  | duplicateDefault
  | returnValueMissing (ty : Ty)
  | returnValueUnused
  | voidVariable (name : String)
  | thisInStatic
  | superInStatic
  | instanceOfOperands (operand target : Ty)
  | stepOperand (op : String)
  | operandType (op : String) (ty : Ty)
  | literalInvalid (ty : Ty) (image : String)
  | typeAsValue (ty : Ty)
  | nameUnknown (name : String)
  | fieldInStatic (name : String)
  | cannotSelect (name : String) (ty : Ty)
  | fieldUnknown (name : String) (ty : Ty)
  /-- An instance field of a type. -/
  | fieldThroughType (name : String) (ty : Ty)
  | arrayRequired (ty : Ty)
  | cannotInvoke (name found : String)
  | methodUnknown (signature : String)
  | callAmbiguous (signature : String)
  /-- An instance method of a type. -/
  | methodThroughType (signature : String)
  | abstractSuperCall (signature : String)
  | methodInStatic (signature : String)
  /-- A constructor call that is not the first statement of a constructor. -/
  | delegationNotFirst (target : Delegation)
  | constructorUnknown (signature : String)
  | constructorAmbiguous (signature : String)
  | cannotInstantiateAbstract (ty : Ty)
  | cannotInstantiate (ty : Ty)
  | cannotInitialize (ty : Ty)
  | operandTypes (op : String) (lhs rhs : Ty)
  | invalidCast (source target : Ty)
  | illegalTarget
  | branchTypes (thenTy elseTy : Ty)
deriving DecidableEq

def SemanticProblem.message : SemanticProblem → String
  | typeRedeclared name => "Type " ++ name ++ " already declared"
  | importUnknown name => "Unable to find " ++ name
  | importConflict name simple =>
    "Import " ++ name ++ " conflicts with another type named " ++ simple
  | extendsInterface ty => "Cannot extend interface " ++ ty.text
  | cannotExtend ty => "Cannot extend " ++ ty.text
  | notInterface ty => ty.text ++ " is not an interface"
  | fieldRedeclared name => "Field " ++ name ++ " already declared"
  | methodRedeclared signature => "Method " ++ signature ++ " already declared"
  | constructorRedeclared signature => "Constructor " ++ signature ++ " already declared"
  | cyclicInheritance name => "Cyclic inheritance involving " ++ name
  | typeUnknown name => "Unable to locate a type named " ++ name
  | redefined name => "Redefining name: " ++ name
  | abstractInConcrete class_ method =>
    "Class " ++ class_ ++ " is not abstract and cannot declare abstract method " ++ method
  | unimplemented class_ signature owner =>
    "Class " ++ class_ ++ " must implement " ++ signature ++ " from " ++ owner
  | abstractWithBody method => "Abstract method " ++ method ++ " cannot have a body"
  | bodyMissing method => "Method " ++ method ++ " requires a body"
  | returnMissing method => "Missing return statement in method " ++ method
  | constructorMisnamed name =>
    "Invalid method declaration " ++ name ++ "; return type required"
  | cannotThrow ty => "Cannot throw a value of type " ++ ty.text
  | breakOutside => "break outside switch or loop"
  | continueOutside => "continue outside of a loop"
  | mismatch found expected => "Type " ++ found.text ++ " doesn't match type " ++ expected.text
  | selectorType ty => "Switch selector must be int or char, found " ++ ty.text
  | duplicateCase value => s!"Duplicate case label: {value}"
  | caseNotConstant => "Case label must be an int or char constant"
  | duplicateDefault => "Duplicate default label"
  | returnValueMissing ty => "Missing return value of type " ++ ty.text
  | returnValueUnused => "Cannot return a value from a void method"
  | voidVariable name => "Variable " ++ name ++ " cannot be void"
  | thisInStatic => "Cannot use this in a static context"
  | superInStatic => "Cannot use super in a static context"
  | instanceOfOperands operand target =>
    "Invalid instanceof operands: " ++ operand.text ++ " and " ++ target.text
  | stepOperand op => "Operand of " ++ op ++ " must be a variable"
  | operandType op ty => "Invalid operand type for " ++ op ++ ": " ++ ty.text
  | literalInvalid ty image => "Invalid " ++ ty.text ++ " literal: " ++ image
  | typeAsValue ty => "Type " ++ ty.text ++ " cannot be used as a value"
  | nameUnknown name => "Cannot find name: " ++ name
  | fieldInStatic name =>
    "Cannot reference non-static field " ++ name ++ " from a static context"
  | cannotSelect name ty => "Cannot select field " ++ name ++ " from type " ++ ty.text
  | fieldUnknown name ty => "Cannot find field: " ++ name ++ " in " ++ ty.text
  | fieldThroughType name ty =>
    "Non-static field " ++ name ++ " cannot be referenced through type " ++ ty.text
  | arrayRequired ty => "Array type required, found " ++ ty.text
  | cannotInvoke name found => "Cannot invoke " ++ name ++ " on type " ++ found
  | methodUnknown signature => "Cannot find method: " ++ signature
  | callAmbiguous signature => "Ambiguous call: " ++ signature
  | methodThroughType signature =>
    "Non-static method " ++ signature ++ " cannot be referenced through a type"
  | abstractSuperCall signature =>
    "Abstract method " ++ signature ++ " cannot be accessed directly"
  | methodInStatic signature =>
    "Cannot call non-static method " ++ signature ++ " from a static context"
  | delegationNotFirst target =>
    "Call to " ++ target.word ++ " must be first statement in constructor"
  | constructorUnknown signature => "Cannot find constructor: " ++ signature
  | constructorAmbiguous signature => "Ambiguous constructor call: " ++ signature
  | cannotInstantiateAbstract ty => "Cannot instantiate abstract type " ++ ty.text
  | cannotInstantiate ty => "Cannot instantiate type " ++ ty.text
  | cannotInitialize ty => "Cannot initialize a " ++ ty.text ++ " with an array initializer"
  | operandTypes op lhs rhs =>
    "Invalid operand types for " ++ op ++ ": " ++ lhs.text ++ " and " ++ rhs.text
  | invalidCast source target => "Invalid cast from " ++ source.text ++ " to " ++ target.text
  | illegalTarget => "Illegal lhs for assignment"
  | branchTypes thenTy elseTy =>
    "Conditional branches have incompatible types: " ++ thenTy.text ++ " and " ++ elseTy.text

inductive Problem where
  | unidentified (text : String)
  | syntactic (problem : SyntaxProblem)
  | semantic (problem : SemanticProblem)
deriving DecidableEq

namespace Problem

def phase : Problem → Phase
  | unidentified _ => .lexical
  | syntactic _ => .syntactic
  | semantic _ => .semantic

def message : Problem → String
  | unidentified text => "Unidentified input token: '" ++ text ++ "'"
  | syntactic p => p.message
  | semantic p => p.message

end Problem

/-- A report as the user sees it. -/
structure Diagnostic where
  phase : Phase
  file : String
  line : Nat
  message : String
deriving DecidableEq

def Diagnostic.text (d : Diagnostic) : String := s!"{d.file}:{d.line}: {d.message}"

def Report.diagnostic (file : String) (r : Report Problem) : Diagnostic :=
  ⟨r.problem.phase, file, r.line, r.problem.message⟩

def Log.diagnostics (log : Log Problem) (file : String) (budget : Nat) : List Diagnostic :=
  (log.shown budget).map (Report.diagnostic file)

end JMinusMinus
