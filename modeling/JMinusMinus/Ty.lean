/-!
# Types

The types of expressions and declarations. A class type holds a dotted name when it comes from
a source text, and a name with slashes, the *internal* name, once it is resolved. The string
class has a constructor of its own, so `Ty.ofClass` folds its internal name into it.

`any` is the type of an expression that failed a check. Every later check accepts it, so one
mistake is reported once.
-/

namespace JMinusMinus

/-- The internal name of the root class. -/
def objectClass : String := "java/lang/Object"

def stringClass : String := "java/lang/String"

def builderClass : String := "java/lang/StringBuilder"

/-- An internal name with dots for slashes. -/
def dotted (name : String) : String := name.map fun c => if c = '/' then '.' else c

def slashed (name : String) : String := name.map fun c => if c = '.' then '/' else c

inductive Ty where
  | int | long | double | boolean | char | string | void
  | null
  /-- The type of an expression that failed a check. -/
  | any
  /-- A class or interface, by name. -/
  | named (name : String)
  | array (component : Ty)
deriving DecidableEq

namespace Ty

def ofClass (name : String) : Ty := if name = stringClass then .string else .named name

def object : Ty := .named objectClass

/-- A type in so many array levels. -/
def withDims (t : Ty) : Nat → Ty
  | 0 => t
  | n + 1 => .array (t.withDims n)

def component? : Ty → Option Ty
  | .array c => some c
  | _ => none

def dims : Ty → Nat
  | .array c => 1 + c.dims
  | _ => 0

/-- The type inside every array level. -/
def element : Ty → Ty
  | .array c => c.element
  | t => t

/-- Types whose values are not references. -/
def isPrimitive : Ty → Bool
  | .int | .long | .double | .boolean | .char => true
  | _ => false

def isNumeric : Ty → Bool
  | .int | .long | .double | .char => true
  | _ => false

def isIntegral : Ty → Bool
  | .int | .long | .char => true
  | _ => false

def isReference : Ty → Bool
  | .string | .null | .named _ | .array _ => true
  | _ => false

def isArray : Ty → Bool
  | .array _ => true
  | _ => false

def isAny : Ty → Bool
  | .any => true
  | _ => false

/-- Stack words that a value takes. -/
def words : Ty → Nat
  | .void => 0
  | .long | .double => 2
  | _ => 1

/-- Local slots that a variable takes, at least one. -/
def slots (t : Ty) : Nat := max t.words 1

/-- The type a value computes in: `char` as `int`. -/
def promoted : Ty → Ty
  | .char => .int
  | t => t

def descriptor : Ty → String
  | .int => "I"
  | .long => "J"
  | .double => "D"
  | .boolean => "Z"
  | .char => "C"
  | .void => "V"
  | .string => "L" ++ stringClass ++ ";"
  | .named name => "L" ++ name ++ ";"
  | .array c => "[" ++ c.descriptor
  | .null | .any => "L" ++ objectClass ++ ";"

/-- The name under which instructions refer to a type. -/
def internalName : Ty → String
  | .string => stringClass
  | .named name => name
  | .null | .any => objectClass
  | t => t.descriptor

def methodDescriptor (params : List Ty) (result : Ty) : String :=
  "(" ++ String.join (params.map descriptor) ++ ")" ++ result.descriptor

/-- A type as messages write it. -/
def text : Ty → String
  | .int => "int"
  | .long => "long"
  | .double => "double"
  | .boolean => "boolean"
  | .char => "char"
  | .string => "java.lang.String"
  | .void => "void"
  | .null => "null"
  | .any => "any"
  | .named name => dotted name
  | .array c => c.text ++ "[]"

def listText (types : List Ty) : String := ", ".intercalate (types.map text)

end Ty

end JMinusMinus
