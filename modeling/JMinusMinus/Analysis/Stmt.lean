import JMinusMinus.Analysis.Completion
import JMinusMinus.Analysis.Expr

/-!
# Analysis of statements

Analysis of a statement returns it with its expressions analyzed and its variables in slots.

* A variable is in scope after its own declaration, to the end of the block, the `for`, the
  `switch` or the handler that declares it.
* `break` needs a loop or a switch around it, `continue` a loop.
* The labels of a switch are different `int` or `char` constants, with at most one default.
-/

namespace JMinusMinus.Analysis

/-- Declares a local variable and analyzes its first value, in which it is not yet in scope. -/
def localVar (d : Declarator) : Analysis Declarator := do
  let ty ← resolveType d.line d.ty
  if ty = .void then report d.line (.voidVariable d.name)
  let init ← match d.init with
    | some e => pure (some (← expr (.initial ty) e))
    | none => pure none
  let slot ← declareLocal d.line d.name ty
  return { d with ty, init, slot := some slot }

/-- Checks what a method returns. -/
def returnValue (line : Nat) (value : Option Expr) : Analysis (Option Expr) := do
  let result := ((← get).method.map MethodScope.result).getD .void
  match value with
  | none =>
    if result ≠ .void then report line (.returnValueMissing result)
    return none
  | some e =>
    let e ← expr .value e
    if result = .void then
      report line .returnValueUnused
      return some e
    return some (← coerce result e)

/-! ## Labels of a switch -/

/-- The labels that a switch has so far. -/
structure Cases where
  /-- The constants, latest first. -/
  values : List Int := []
  hasDefault : Bool := false

/-- The constant that a label is. -/
def caseValue : Expr → Analysis (Option Int)
  | .literal _ l@(.int _) | .literal _ l@(.char _) => l.intValue
  | _ => return none

/-- Checks a label against those before it. -/
def switchLabel (cases : Cases) : SwitchLabel → Analysis (SwitchLabel × Cases)
  | .case e => do
    let e ← expr .value e
    match ← caseValue e with
    | some value =>
      if cases.values.contains value then
        report e.line (.duplicateCase value)
        return (.case e, cases)
      return (.case e, { cases with values := value :: cases.values })
    | none =>
      unless e.ty.isAny do report e.line .caseNotConstant
      return (.case e, cases)
  | .otherwise line => do
    if cases.hasDefault then report line .duplicateDefault
    return (.otherwise line, { cases with hasDefault := true })

/-- Checks the labels of a group. -/
def switchLabels (cases : Cases) : List SwitchLabel → Analysis (List SwitchLabel × Cases)
  | l :: ls => do
    let (l, cases) ← switchLabel cases l
    let (ls, cases) ← switchLabels cases ls
    return (l :: ls, cases)
  | [] => return ([], cases)

/-- The number that a switch goes by. -/
def selector (e : Expr) : Analysis Expr := do
  let e ← expr .value e
  unless e.ty = .int || e.ty = .char || e.ty.isAny do report e.line (.selectorType e.ty)
  return e

/-! ## Statements -/

/-- Analyzes the test of a loop, if it has one. -/
def condition? : Option Expr → Analysis (Option Expr)
  | some e => do return some (← expr .condition e)
  | none => return none

mutual

/-- Analyzes a statement. -/
def stmt : Stmt → Analysis Stmt
  | .blockStmt body => do return .blockStmt (← block body)
  | .ifStmt line test thenBranch elseBranch => do
    let test ← expr .condition test
    let thenBranch ← stmt thenBranch
    let elseBranch ← stmt? elseBranch
    return .ifStmt line test thenBranch elseBranch
  | .whileStmt line test body => do
    let test ← expr .condition test
    enterJump .loop
    let body ← stmt body
    leaveJump
    return .whileStmt line test body
  | .doStmt line body test => do
    enterJump .loop
    let body ← stmt body
    leaveJump
    let test ← expr .condition test
    return .doStmt line body test
  | .forStmt line init test update body => do
    pushScope
    let init ← stmts init
    let test ← condition? test
    let update ← stmts update
    enterJump .loop
    let body ← stmt body
    leaveJump
    popScope
    return .forStmt line init test update body
  | .switchStmt line value groups => do
    let value ← selector value
    enterJump .switch
    pushScope
    let groups ← switchGroups {} groups
    popScope
    leaveJump
    return .switchStmt line value groups
  | .tryStmt line body catches final => do
    let body ← block body
    let catches ← catchClauses catches
    let final ← block? final
    return .tryStmt line body catches final
  | .throwStmt line e => do
    let e ← expr .value e
    unless e.ty.isReference || e.ty.isAny do report line (.cannotThrow e.ty)
    return .throwStmt line e
  | .returnStmt line value => do return .returnStmt line (← returnValue line value)
  | .breakStmt line => do
    unless (← get).canBreak do report line .breakOutside
    return .breakStmt line
  | .continueStmt line => do
    unless (← get).canContinue do report line .continueOutside
    return .continueStmt line
  | .emptyStmt line => return .emptyStmt line
  | .exprStmt line e => do return .exprStmt line (← expr .value e).asStatement
  | .localsStmt line vars => do return .localsStmt line (← vars.mapM localVar)
termination_by structural s => s

def stmt? : Option Stmt → Analysis (Option Stmt)
  | some s => do return some (← stmt s)
  | none => return none
termination_by structural s => s

/-- Analyzes statements in the scope around them. -/
def stmts : List Stmt → Analysis (List Stmt)
  | s :: ss => do
    let s ← stmt s
    let ss ← stmts ss
    return s :: ss
  | [] => return []
termination_by structural ss => ss

/-- Analyzes statements in a scope of their own. -/
def block : Block Stmt → Analysis (Block Stmt)
  | ⟨line, body⟩ => do
    pushScope
    let body ← stmts body
    popScope
    return ⟨line, body⟩
termination_by structural b => b

def block? : Option (Block Stmt) → Analysis (Option (Block Stmt))
  | some body => do return some (← block body)
  | none => return none
termination_by structural b => b

/-- Analyzes a handler. Its variable has a scope around its block. -/
def catchClause : CatchClause Stmt → Analysis (CatchClause Stmt)
  | ⟨line, param, body⟩ => do
    pushScope
    let ty ← resolveType param.line param.ty
    let slot ← declareLocal param.line param.name ty
    let body ← block body
    popScope
    return ⟨line, { param with ty, slot := some slot }, body⟩
termination_by structural c => c

def catchClauses : List (CatchClause Stmt) → Analysis (List (CatchClause Stmt))
  | c :: cs => do
    let c ← catchClause c
    let cs ← catchClauses cs
    return c :: cs
  | [] => return []
termination_by structural cs => cs

def switchGroup (cases : Cases) : SwitchGroup Stmt → Analysis (SwitchGroup Stmt × Cases)
  | ⟨labels, body⟩ => do
    let (labels, cases) ← switchLabels cases labels
    let body ← stmts body
    return (⟨labels, body⟩, cases)
termination_by structural g => g

def switchGroups (cases : Cases) : List (SwitchGroup Stmt) → Analysis (List (SwitchGroup Stmt))
  | g :: gs => do
    let (g, cases) ← switchGroup cases g
    let gs ← switchGroups cases gs
    return g :: gs
  | [] => return []
termination_by structural gs => gs

end

end JMinusMinus.Analysis
