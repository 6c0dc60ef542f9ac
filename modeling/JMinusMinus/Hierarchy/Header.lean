import JMinusMinus.Problem

/-!
# Class headers

What other code may know about a class or an interface: its parents and the headers of its
members.
-/

namespace JMinusMinus

structure FieldHeader where
  name : String
  ty : Ty
  isStatic : Bool
deriving DecidableEq

structure MethodHeader where
  name : String
  params : List Ty
  result : Ty
  isStatic : Bool := false
  isAbstract : Bool := false
  /-- Whether only its own class may call it. -/
  isPrivate : Bool := false
deriving DecidableEq

namespace MethodHeader

def descriptor (m : MethodHeader) : String := Ty.methodDescriptor m.params m.result

/-- The name and parameter types of a method, as messages write them. -/
def signature (m : MethodHeader) : String := signatureText m.name m.params

def key (m : MethodHeader) : String × String := (m.name, m.descriptor)

end MethodHeader

structure ClassHeader where
  name : String
  /-- Its superclass. Interfaces and the root class have none. -/
  superclass : Option String
  /-- What it implements, or extends as an interface. -/
  interfaces : List String := []
  isInterface : Bool := false
  isAbstract : Bool := false
  fields : List FieldHeader := []
  methods : List MethodHeader := []
  ctors : List (List Ty) := []
deriving DecidableEq

namespace ClassHeader

def parents (c : ClassHeader) : List String := c.superclass.toList ++ c.interfaces

def field? (c : ClassHeader) (name : String) : Option FieldHeader :=
  c.fields.find? (·.name = name)

end ClassHeader

end JMinusMinus
