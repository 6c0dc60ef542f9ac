import JMinusMinus.Analysis.Headers
import JMinusMinus.Analysis.Stmt

/-!
# Analysis of a unit

`analyze` records the headers of a unit and then analyzes its bodies.

* A class without a constructor gets a public one without parameters.
* A constructor that does not start with a call of another one gets a call of the superclass's
  constructor without arguments.
* A method that returns a value must not be able to end without one.

Every run has a context of its own and adds to the log it is given.
-/

namespace JMinusMinus.Analysis

/-- Gives parameters their slots. -/
def declareParams (params : List Param) : Analysis (List Param) :=
  params.mapM fun p => do return { p with slot := some (← declareLocal p.line p.name p.ty) }

/-! ## Members -/

/-- Analyzes the first value of a field, in a method of its own. -/
def fieldVar (isStatic : Bool) (d : Declarator) : Analysis Declarator := do
  match d.init with
  | none => return d
  | some e =>
    enterMethod isStatic false .void
    let e ← expr (.initial d.ty) e
    discard leaveMethod
    return { d with init := some e }

/-- Analyzes the body of a method, which has to end with a return if there is a result. -/
def methodBody (m : MethodDecl) (body : Block Stmt) : Analysis (Block Stmt) := do
  let body ← block body
  if m.result ≠ .void && Stmt.blockCanComplete body then report m.line (.returnMissing m.name)
  return body

/-- Checks that a method has a body exactly when it is not abstract. -/
def checkBody (m : MethodDecl) : Analysis Unit :=
  match m.body, isAbstract m.modifiers with
  | some _, true => report m.line (.abstractWithBody m.name)
  | none, false => report m.line (.bodyMissing m.name)
  | _, _ => pure ()

/-- Analyzes a method. -/
def method (m : MethodDecl) : Analysis MethodDecl := do
  checkBody m
  enterMethod (isStatic m.modifiers) false m.result
  let params ← declareParams m.params
  let body ← match m.body with
    | some body => pure (some (← methodBody m body))
    | none => pure none
  let locals ← leaveMethod
  return { m with params, body, locals }

/-- The call of the superclass's constructor that stands for a missing one. -/
def implicitSuper (line : Nat) : Stmt :=
  .exprStmt line (.delegate { line, isStatement := true } .toSuper [] none)

/-- Statements of a constructor that start with the call of another one. -/
def withDelegation (line : Nat) : List Stmt → List Stmt
  | [] => [implicitSuper line]
  | s :: ss => if s.isDelegation then s :: ss else implicitSuper line :: s :: ss

/-- Analyzes statements of a constructor, of which only the first may call another one. -/
def ctorStmts : List Stmt → Analysis (List Stmt)
  | [] => return []
  | s :: ss => do
    modify fun c => { c with mayDelegate := true }
    let s ← stmt s
    modify fun c => { c with mayDelegate := false }
    let ss ← stmts ss
    return s :: ss

/-- Analyzes a constructor. -/
def ctor (class_ : String) (c : ConstructorDecl) : Analysis ConstructorDecl := do
  if c.name ≠ class_ then report c.line (.constructorMisnamed c.name)
  enterMethod false true .void
  let params ← declareParams c.params
  pushScope
  let body ← ctorStmts (withDelegation c.body.line c.body.stmts)
  popScope
  let locals ← leaveMethod
  return { c with params, body := ⟨c.body.line, body⟩, locals }

/-- Analyzes a member. -/
def member (class_ : String) : Member → Analysis Member
  | .field f => do
    return .field { f with vars := ← f.vars.mapM (fieldVar (isStatic f.modifiers)) }
  | .method m => do return .method (← method m)
  | .ctor c => do return .ctor (← ctor class_ c)

/-! ## Types -/

/-- The constructor of a class that declares none. -/
def implicitCtor (line : Nat) (name : String) : ConstructorDecl :=
  { line, name, modifiers := [.publicAccess], params := [], throws := [], body := ⟨line, []⟩ }

/-- Members with a constructor among them. -/
def withCtor (line : Nat) (name : String) (members : List Member) : List Member :=
  if members.any Member.isCtor then members else members ++ [.ctor (implicitCtor line name)]

/-- Reports an abstract method of a class that is not abstract. -/
def abstractMember (class_ : String) : Member → Analysis Unit
  | .method m => do
    if isAbstract m.modifiers then report m.line (.abstractInConcrete class_ m.name)
  | _ => pure ()

/-- Checks that a class that is not abstract leaves nothing abstract. -/
def checkConcrete (name : String) (d : ClassDecl) : Analysis Unit := do
  d.members.forM (abstractMember d.name)
  ((← get).hierarchy.unimplemented name).forM fun (owner, m) => do
    if owner ≠ name then report d.line (.unimplemented d.name m.signature (dotted owner))

/-- Analyzes the members of a class. -/
def classBody (d : ClassDecl) : Analysis ClassDecl := do
  let name := (← get).qualify d.name
  enterClass name
  unless isAbstract d.modifiers do checkConcrete name d
  let members ← (withCtor d.line d.name d.members).mapM (member d.name)
  leaveClass
  return { d with members }

/-- Analyzes the members of an interface. -/
def interfaceBody (d : InterfaceDecl) : Analysis InterfaceDecl := do
  enterClass ((← get).qualify d.name)
  let members ← d.members.mapM (member d.name)
  leaveClass
  return { d with members }

/-- Analyzes the members of a type. -/
def typeBody : TypeDecl → Analysis TypeDecl
  | .classDecl d => do return .classDecl (← classBody d)
  | .interfaceDecl d => do return .interfaceDecl (← interfaceBody d)

/-- Analyzes a unit: headers first, then bodies. -/
def unit (u : CompilationUnit) : Analysis CompilationUnit := do
  let u ← unitHeaders u
  return { u with types := ← u.types.mapM typeBody }

end Analysis

/-- An analyzed unit with the headers it was analyzed against. -/
structure Analyzed where
  unit : CompilationUnit
  hierarchy : Hierarchy
  log : Log Problem

/-- Analyzes a parsed unit, on top of an earlier log. -/
def analyze (u : CompilationUnit) (log : Log Problem) : Except Fault Analyzed := do
  let (unit, c) ← (Analysis.unit u).run { log }
  return ⟨unit, c.hierarchy, c.log⟩

end JMinusMinus
