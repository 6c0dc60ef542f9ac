import JMinusMinus.Token
import JMinusMinus.Tree.Stmt

/-!
# Declarations

Classes and interfaces with their members, and the compilation unit that holds them.
-/

namespace JMinusMinus

inductive Modifier where
  | publicAccess | protectedAccess | privateAccess | static | abstract
deriving DecidableEq

namespace Modifier

def word : Modifier → String
  | publicAccess => "public"
  | protectedAccess => "protected"
  | privateAccess => "private"
  | static => "static"
  | abstract => "abstract"

def label : Modifier → String
  | publicAccess => "Public"
  | protectedAccess => "Protected"
  | privateAccess => "Private"
  | static => "Static"
  | abstract => "Abstract"

def ofKind? : Kind → Option Modifier
  | .kwPublic => some publicAccess
  | .kwProtected => some protectedAccess
  | .kwPrivate => some privateAccess
  | .kwStatic => some static
  | .kwAbstract => some abstract
  | _ => none

/-- Whether a modifier sets the access, which only one may do. -/
def isAccess : Modifier → Bool
  | publicAccess | protectedAccess | privateAccess => true
  | _ => false

/-- Modifiers with one more at the end, unless it is there. -/
def add (mods : List Modifier) (m : Modifier) : List Modifier :=
  if mods.contains m then mods else mods ++ [m]

end Modifier

structure QualifiedName where
  line : Nat
  /-- The words between the dots. -/
  segments : List String
deriving DecidableEq

namespace QualifiedName

def text (q : QualifiedName) : String := ".".intercalate q.segments

def simpleName (q : QualifiedName) : String := q.segments.getLast?.getD ""

def internalName (q : QualifiedName) : String := "/".intercalate q.segments

end QualifiedName

structure ConstructorDecl where
  /-- The line after its modifiers. -/
  line : Nat
  modifiers : List Modifier
  name : String
  params : List Param
  throws : List Ty
  body : Block Stmt
  /-- Local slots in use, the current object and the parameters included. -/
  locals : Nat := 0

structure MethodDecl where
  line : Nat
  modifiers : List Modifier
  result : Ty
  name : String
  params : List Param
  throws : List Ty
  /-- Its statements, missing from abstract methods. -/
  body : Option (Block Stmt)
  locals : Nat := 0

structure FieldDecl where
  line : Nat
  modifiers : List Modifier
  vars : List Declarator

def ConstructorDecl.descriptor (c : ConstructorDecl) : String :=
  Ty.methodDescriptor (c.params.map Param.ty) .void

def MethodDecl.descriptor (m : MethodDecl) : String :=
  Ty.methodDescriptor (m.params.map Param.ty) m.result

inductive Member where
  | ctor (decl : ConstructorDecl)
  | method (decl : MethodDecl)
  | field (decl : FieldDecl)

def Member.isCtor : Member → Bool
  | .ctor _ => true
  | _ => false

structure ClassDecl where
  line : Nat
  modifiers : List Modifier
  name : String
  /-- What it extends, if it says so. -/
  superclass : Option Ty
  interfaces : List Ty
  members : List Member

structure InterfaceDecl where
  line : Nat
  modifiers : List Modifier
  name : String
  parents : List Ty
  /-- Its members, headers of abstract methods only. -/
  members : List Member

inductive TypeDecl where
  | classDecl (decl : ClassDecl)
  | interfaceDecl (decl : InterfaceDecl)

namespace TypeDecl

def name : TypeDecl → String
  | classDecl d => d.name
  | interfaceDecl d => d.name

/-- The line a type starts on, after its modifiers. -/
def line : TypeDecl → Nat
  | classDecl d => d.line
  | interfaceDecl d => d.line

end TypeDecl

/-- The contents of one source file. -/
structure CompilationUnit where
  file : String
  package : Option QualifiedName
  imports : List QualifiedName
  types : List TypeDecl

def CompilationUnit.internalName (u : CompilationUnit) (name : String) : String :=
  match u.package with
  | some package => package.internalName ++ "/" ++ name
  | none => name

end JMinusMinus
