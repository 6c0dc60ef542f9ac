import JMinusMinus.ClassFile
import JMinusMinus.Lowering.Stmt

/-!
# Code of a unit

Every type of an analyzed unit becomes a class file.

* A constructor that calls one of the superclass gives the instance fields their first values
  right after that call. One that calls another of the same class leaves that to it.
* Static fields get their first values in a class initializer, which is only there if some field
  has one.
-/

namespace JMinusMinus

def classInitName : String := "<clinit>"

namespace Lowering

/-! ## Fields -/

/-- The first value of a field. -/
structure FieldInit where
  ref : FieldRef
  value : Expr

/-- Stores the first value of a field. -/
def fieldInit (h : Hierarchy) (f : FieldInit) : Lowering Unit := do
  if f.ref.isStatic then
    expr h .value f.value
    member .putstatic f.ref.owner f.ref.name f.ref.descriptor
  else
    currentObject
    expr h .value f.value
    member .putfield f.ref.owner f.ref.name f.ref.descriptor

/-- The declarations of fields among members. -/
def fieldsOf (members : List Member) : List FieldDecl :=
  members.filterMap fun
    | .field f => some f
    | _ => none

def fieldFiles (f : FieldDecl) : List FieldFile :=
  f.vars.map fun d => ⟨d.name, d.ty.descriptor, Flag.ofModifiers f.modifiers⟩

/-- The first values of a declaration of fields. -/
def fieldInits (owner : String) (f : FieldDecl) : List FieldInit :=
  f.vars.filterMap fun d => d.init.map fun value =>
    ⟨⟨owner, d.name, d.ty.descriptor, f.modifiers.contains .static⟩, value⟩

/-! ## Methods -/

/-- The method of a class file, with its code. -/
def methodFile (h : Hierarchy) (m : MethodDecl) : Except Failure MethodFile := do
  let code ← match m.body with
    | some body => do
      let code ← assemble m.locals do
        block { hierarchy := h, result := m.result } body
        closeBody m.result body.stmts
      pure (some code)
    | none => pure none
  return ⟨m.name, m.descriptor, Flag.ofModifiers m.modifiers, code⟩

/-- Whether a constructor delegates to the superclass. -/
def callsSuper : Stmt → Bool
  | .exprStmt _ (.delegate _ .toSuper _ _) => true
  | _ => false

/-- The body of a constructor, with the first values of the instance fields. -/
def ctorBody (env : Env) (inits : List FieldInit) : List Stmt → Lowering Unit
  | [] => pure ()
  | s :: ss => do
    stmt env s
    if callsSuper s then inits.forM (fieldInit env.hierarchy)
    stmts env ss

/-- The constructor of a class file, with its code. -/
def ctorFile (h : Hierarchy) (inits : List FieldInit) (c : ConstructorDecl) :
    Except Failure MethodFile := do
  let code ← assemble c.locals do
    ctorBody { hierarchy := h, result := .void } inits c.body.stmts
    closeBody .void c.body.stmts
  return ⟨ctorName, c.descriptor, Flag.ofModifiers c.modifiers, some code⟩

/-- The method that sets static fields, if there is anything to set. -/
def classInitFile (h : Hierarchy) (inits : List FieldInit) : Except Failure MethodFile := do
  let code ← assemble 0 do
    inits.forM (fieldInit h)
    closeBody .void []
  return ⟨classInitName, Ty.methodDescriptor [] .void, [.static], some code⟩

/-- What a member becomes in the class file. -/
def memberFiles (h : Hierarchy) (inits : List FieldInit) : Member → Except Failure (List MethodFile)
  | .ctor c => do return [← ctorFile h inits c]
  | .method m => do return [← methodFile h m]
  | .field _ => return []

/-! ## Types -/

/-- The class file of a class. -/
def classFile (h : Hierarchy) (name : String) (d : ClassDecl) : Except Failure ClassFile := do
  let fields := fieldsOf d.members
  let inits := fields.flatMap (fieldInits name)
  let (static, instances) := inits.partition (·.ref.isStatic)
  let methods ← d.members.mapM (memberFiles h instances)
  let classInit ← if static.isEmpty then pure [] else do pure [← classInitFile h static]
  return {
    name
    superclass := (h.superclass? name).getD objectClass
    interfaces := ((h.lookup name).map ClassHeader.interfaces).getD []
    flags := Flag.ofModifiers d.modifiers ++ [.super]
    fields := fields.flatMap fieldFiles
    methods := methods.flatten ++ classInit }

def interfaceMethods (members : List Member) : List MethodFile :=
  members.filterMap fun
    | .method m => some ⟨m.name, m.descriptor, [.publicAccess, .abstract], none⟩
    | _ => none

/-- The class file of an interface. -/
def interfaceFile (h : Hierarchy) (name : String) (d : InterfaceDecl) : ClassFile where
  name
  superclass := objectClass
  interfaces := ((h.lookup name).map ClassHeader.interfaces).getD []
  flags := Flag.ofModifiers d.modifiers ++ [.interface, .abstract]
  fields := []
  methods := interfaceMethods d.members

/-- The class file of a type. -/
def typeFile (h : Hierarchy) (u : CompilationUnit) : TypeDecl → Except Failure ClassFile
  | .classDecl d => classFile h (u.internalName d.name) d
  | .interfaceDecl d => return interfaceFile h (u.internalName d.name) d

end Lowering

/-- The class files of a unit. -/
def generate (u : CompilationUnit) (h : Hierarchy) : Except Failure (List ClassFile) :=
  u.types.mapM (Lowering.typeFile h u)

end JMinusMinus
