import JMinusMinus.Code.Layout

/-!
# Class files

What a class or an interface is compiled to, and its listing: a header, the fields, and the
methods with their code.
-/

namespace JMinusMinus

/-! ## Access flags -/

inductive Flag where
  | publicAccess | privateAccess | protectedAccess | static | super | interface | abstract
deriving DecidableEq

namespace Flag

def all : List Flag :=
  [publicAccess, privateAccess, protectedAccess, static, super, interface, abstract]

def bit : Flag → Nat
  | publicAccess => 0x0001
  | privateAccess => 0x0002
  | protectedAccess => 0x0004
  | static => 0x0008
  | super => 0x0020
  | interface => 0x0200
  | abstract => 0x0400

def word : Flag → String
  | publicAccess => "public"
  | privateAccess => "private"
  | protectedAccess => "protected"
  | static => "static"
  | super => "super"
  | interface => "interface"
  | abstract => "abstract"

def ofModifier : Modifier → Flag
  | .publicAccess => publicAccess
  | .protectedAccess => protectedAccess
  | .privateAccess => privateAccess
  | .static => static
  | .abstract => abstract

def ofModifiers (mods : List Modifier) : List Flag := mods.map ofModifier

/-- The number that a set of flags is written as. -/
def mask (flags : List Flag) : Nat := (all.filter flags.contains).foldr (fun f n => f.bit + n) 0

/-- The words of a set of flags, each with a space behind it. -/
def words (flags : List Flag) : String :=
  String.join ((all.filter flags.contains).map fun f => f.word ++ " ")

end Flag

/-! ## Classes -/

structure FieldFile where
  name : String
  descriptor : String
  flags : List Flag
deriving DecidableEq

structure MethodFile where
  name : String
  descriptor : String
  flags : List Flag
  /-- Its code. Abstract methods have none. -/
  code : Option Code
deriving DecidableEq

structure ClassFile where
  name : String
  superclass : String
  interfaces : List String
  flags : List Flag
  fields : List FieldFile
  methods : List MethodFile
deriving DecidableEq

namespace ClassFile

def method? (c : ClassFile) (name : String) : Option MethodFile :=
  c.methods.find? (·.name = name)

def field? (c : ClassFile) (name : String) : Option FieldFile :=
  c.fields.find? (·.name = name)

def simpleName (c : ClassFile) : String :=
  String.ofList (c.name.toList.reverse.takeWhile (· ≠ '/')).reverse

def isInterface (c : ClassFile) : Bool := c.flags.contains .interface

def access (c : ClassFile) : Nat := Flag.mask c.flags

/-! ## Listings -/

def fieldText (f : FieldFile) : String :=
  ".field " ++ Flag.words f.flags ++ f.name ++ " " ++ f.descriptor ++ "\n"

def codeText : Option Code → Except Fault String
  | some code => do return s!"  .limit locals {code.maxLocals}\n" ++ (← code.listing)
  | none => return ""

/-- A method in a listing, after an empty line. -/
def methodText (m : MethodFile) : Except Fault String := do
  return "\n.method " ++ Flag.words m.flags ++ m.name ++ " " ++ m.descriptor ++ "\n" ++
    (← codeText m.code) ++ ".end method\n"

def headText (c : ClassFile) : String :=
  ".class " ++ Flag.words c.flags ++ c.name ++ "\n.super " ++ c.superclass ++ "\n" ++
    String.join (c.interfaces.map fun i => ".implements " ++ i ++ "\n")

def listing (c : ClassFile) : Except Fault String := do
  let methods ← c.methods.mapM methodText
  return c.headText ++ (if c.fields.isEmpty then "" else "\n") ++
    String.join (c.fields.map fieldText) ++ String.join methods

end ClassFile

end JMinusMinus
