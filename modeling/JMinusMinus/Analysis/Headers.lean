import JMinusMinus.Analysis.Context

/-!
# Headers of a unit

Before any body is analyzed, every type of the unit gets its header, so that bodies may refer to
anything in the unit.

* First each type is declared with a header that has no members, then imports are bound to their
  simple names, and then member types are resolved and recorded.
* Of two members that clash, only the first is in the header.
* A class without a constructor has one without parameters.
* A class that is its own ancestor is given the root class as its superclass.
-/

namespace JMinusMinus.Analysis

/-- Whether a member is static. -/
def isStatic (mods : List Modifier) : Bool := mods.contains .static

/-- Whether a class or method is abstract. -/
def isAbstract (mods : List Modifier) : Bool := mods.contains .abstract

/-- The header of a type before its members are known. -/
def emptyHeader (name : String) : TypeDecl → ClassHeader
  | .classDecl d =>
    { name, superclass := some objectClass, isAbstract := isAbstract d.modifiers }
  | .interfaceDecl _ => { name, superclass := none, isInterface := true, isAbstract := true }

/-- Records a header in place of the one of the same name. -/
def declareHeader (header : ClassHeader) : Analysis Unit :=
  modify fun c => { c with hierarchy := c.hierarchy.declare header }

/-- Records a type by its name, unless the name is taken. -/
def declareType (d : TypeDecl) : Analysis Unit := do
  let name := (← get).qualify d.name
  if (← get).hierarchy.isDeclared name then report d.line (.typeRedeclared d.name)
  else
    discard (bindName d.name name)
    declareHeader (emptyHeader name d)

/-- Binds the simple name of an import. -/
def bindImport (q : QualifiedName) : Analysis Unit := do
  if !(← get).hierarchy.contains q.internalName then report q.line (.importUnknown q.text)
  else if !(← bindName q.simpleName q.internalName) then
    report q.line (.importConflict q.text q.simpleName)

/-! ## Members -/

/-- Resolves the types of parameters. -/
def resolveParams (params : List Param) : Analysis (List Param) :=
  params.mapM fun p => do return { p with ty := ← resolveType p.line p.ty }

/-- Adds a field to a header, unless it has one of the name. -/
def fieldHeader (mods : List Modifier) (header : ClassHeader) (d : Declarator) :
    Analysis (Declarator × ClassHeader) := do
  let ty ← resolveType d.line d.ty
  if header.fields.any (·.name = d.name) then
    report d.line (.fieldRedeclared d.name)
    return ({ d with ty }, header)
  let field : FieldHeader := ⟨d.name, ty, isStatic mods⟩
  return ({ d with ty }, { header with fields := header.fields ++ [field] })

def fieldHeaders (mods : List Modifier) (header : ClassHeader) :
    List Declarator → Analysis (List Declarator × ClassHeader)
  | d :: ds => do
    let (d, header) ← fieldHeader mods header d
    let (ds, header) ← fieldHeaders mods header ds
    return (d :: ds, header)
  | [] => return ([], header)

/-- Adds a method to a header, unless it has one of the signature. -/
def methodHeader (header : ClassHeader) (m : MethodDecl) :
    Analysis (MethodDecl × ClassHeader) := do
  let result ← resolveType m.line m.result
  let params ← resolveParams m.params
  let throws ← m.throws.mapM (resolveType m.line)
  let resolved := { m with result, params, throws }
  let types := params.map Param.ty
  if header.methods.any fun other => other.name = m.name && other.params = types then
    report m.line (.methodRedeclared (signatureText m.name types))
    return (resolved, header)
  let method : MethodHeader :=
    { name := m.name, params := types, result, isStatic := isStatic m.modifiers
      isAbstract := isAbstract m.modifiers, isPrivate := m.modifiers.contains .privateAccess }
  return (resolved, { header with methods := header.methods ++ [method] })

/-- Adds a constructor to a header, unless it has one of the signature. -/
def ctorHeader (header : ClassHeader) (c : ConstructorDecl) :
    Analysis (ConstructorDecl × ClassHeader) := do
  let params ← resolveParams c.params
  let throws ← c.throws.mapM (resolveType c.line)
  let resolved := { c with params, throws }
  let types := params.map Param.ty
  if header.ctors.contains types then
    report c.line (.constructorRedeclared (signatureText c.name types))
    return (resolved, header)
  return (resolved, { header with ctors := header.ctors ++ [types] })

/-- Adds a member to a header. -/
def memberHeader (header : ClassHeader) : Member → Analysis (Member × ClassHeader)
  | .field f => do
    let (vars, header) ← fieldHeaders f.modifiers header f.vars
    return (.field { f with vars }, header)
  | .method m => do
    let (m, header) ← methodHeader header m
    return (.method m, header)
  | .ctor c => do
    let (c, header) ← ctorHeader header c
    return (.ctor c, header)

/-- Adds members to a header in order. -/
def memberHeaders (header : ClassHeader) : List Member → Analysis (List Member × ClassHeader)
  | m :: ms => do
    let (m, header) ← memberHeader header m
    let (ms, header) ← memberHeaders header ms
    return (m :: ms, header)
  | [] => return ([], header)

/-! ## Types -/

/-- The superclass of a class, which must be a class. -/
def resolveSuperclass (line : Nat) : Option Ty → Analysis (Option Ty)
  | none => return none
  | some written => do
    let ty ← resolveType line written
    match ty with
    | .named name =>
      if (← get).hierarchy.isInterface name then report line (.extendsInterface ty)
    | .any => pure ()
    | _ => report line (.cannotExtend ty)
    return some ty

/-- The interfaces of a type, each of which must be one. -/
def resolveInterfaces (line : Nat) (types : List Ty) : Analysis (List Ty) :=
  types.mapM fun written => do
    let ty ← resolveType line written
    unless ty.isAny || (← get).hierarchy.isInterfaceType ty do report line (.notInterface ty)
    return ty

/-- The name of a class type. -/
def className? : Ty → Option String
  | .named name => some name
  | _ => none

/-- A header with a constructor without parameters if it has none. -/
def withDefaultCtor (header : ClassHeader) : ClassHeader :=
  if header.ctors.isEmpty then { header with ctors := [[]] } else header

/-- Resolves and records the header of a class. -/
def classHeader (d : ClassDecl) : Analysis ClassDecl := do
  let superclass ← resolveSuperclass d.line d.superclass
  let interfaces ← resolveInterfaces d.line d.interfaces
  let header : ClassHeader :=
    { emptyHeader ((← get).qualify d.name) (.classDecl d) with
      superclass := some ((superclass.bind className?).getD objectClass)
      interfaces := interfaces.filterMap className? }
  let (members, header) ← memberHeaders header d.members
  declareHeader (withDefaultCtor header)
  return { d with superclass, interfaces, members }

/-- Resolves and records the header of an interface. -/
def interfaceHeader (d : InterfaceDecl) : Analysis InterfaceDecl := do
  let parents ← resolveInterfaces d.line d.parents
  let header : ClassHeader :=
    { emptyHeader ((← get).qualify d.name) (.interfaceDecl d) with
      interfaces := parents.filterMap className? }
  let (members, header) ← memberHeaders header d.members
  declareHeader header
  return { d with parents, members }

/-- Resolves and records the header of a type. -/
def typeHeader : TypeDecl → Analysis TypeDecl
  | .classDecl d => do return .classDecl (← classHeader d)
  | .interfaceDecl d => do return .interfaceDecl (← interfaceHeader d)

/-- Gives a class that is its own ancestor the root class as its superclass. -/
def breakCycle (d : TypeDecl) : Analysis Unit := do
  let name := (← get).qualify d.name
  if (← get).hierarchy.isCyclic name then
    report d.line (.cyclicInheritance d.name)
    modify fun c => { c with hierarchy := c.hierarchy.setSuperclass name (some objectClass) }

/-- Records the headers of a unit and returns it with the types in them resolved. -/
def unitHeaders (u : CompilationUnit) : Analysis CompilationUnit := do
  modify fun c => { c with package := u.package.map QualifiedName.text }
  u.types.forM declareType
  u.imports.forM bindImport
  let types ← u.types.mapM typeHeader
  types.forM breakCycle
  return { u with types }

end JMinusMinus.Analysis
