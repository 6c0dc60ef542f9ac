import JMinusMinus.Code.Dispatch
import JMinusMinus.Lowering.Exit
import JMinusMinus.Lowering.Expr

/-!
# Code of statements

* A loop tests its condition where it stands in the text; a `for` and a `do` have a label of
  their own for `continue`.
* A switch jumps to the label of a group; the groups follow each other, so that control falls
  through.
* A try statement makes its block, then a copy of its final block for the normal end, then every
  handler with a copy of its own, and at last a handler for everything that runs the final block
  and throws on.

No jump is made to the end of a statement that `endsAbruptly`.
-/

namespace JMinusMinus

/-! ## Abrupt endings -/

namespace Stmt

mutual

/-- Whether a statement ends with a jump, by its shape alone. -/
def endsAbruptly : Stmt → Bool
  | .returnStmt .. | .throwStmt .. | .breakStmt _ | .continueStmt _ => true
  | .blockStmt body => blockEndsAbruptly body
  | .ifStmt _ _ thenBranch elseBranch => endsAbruptly thenBranch && elseEndsAbruptly elseBranch
  | _ => false
termination_by structural s => s

/-- Whether an alternative ends with a jump. A missing one does not. -/
def elseEndsAbruptly : Option Stmt → Bool
  | some s => endsAbruptly s
  | none => false
termination_by structural s => s

/-- Whether the last of some statements ends with a jump. -/
def listEndsAbruptly : List Stmt → Bool
  | s :: ss => if ss.isEmpty then endsAbruptly s else listEndsAbruptly ss
  | [] => false
termination_by structural ss => ss

def blockEndsAbruptly : Block Stmt → Bool
  | ⟨_, stmts⟩ => listEndsAbruptly stmts
termination_by structural b => b

end

end Stmt

namespace Lowering

/-- What the code of a statement depends on. -/
structure Env where
  hierarchy : Hierarchy
  result : Ty
  exits : List Exit := []

def Env.inside (env : Env) (e : Exit) : Env := { env with exits := e :: env.exits }

/-! ## Simple statements -/

def initial (h : Hierarchy) (d : Declarator) : Lowering Unit :=
  match d.init, d.slot with
  | some e, some slot => do
    expr h .value e
    access (storeOp d.ty) slot
  | _, _ => pure ()

/-- A return. A value is kept in a slot of its own while final blocks run. -/
def returnStmt (env : Env) : Option Expr → Lowering Unit
  | none => Exit.leave env.exits (op .return_)
  | some e => do
    expr env.hierarchy .value e
    if env.exits.any Exit.hasFinal then
      let slot ← newSlot env.result
      access (storeOp env.result) slot
      Exit.leave env.exits do
        access (loadOp env.result) slot
        op (returnOp env.result)
    else op (returnOp env.result)

def breakStmt (env : Env) (line : Nat) : Lowering Unit :=
  match Exit.breakTarget? env.exits with
  | some (exits, target) => Exit.leave exits (branch .goto target)
  | none => fail (.breakTarget line)

def continueStmt (env : Env) (line : Nat) : Lowering Unit :=
  match Exit.continueTarget? env.exits with
  | some (exits, target) => Exit.leave exits (branch .goto target)
  | none => fail (.continueTarget line)

/-! ## Switches -/

/-- Where the values of a switch go. -/
structure Targets where
  /-- Where every other value goes. -/
  otherwise : Label
  /-- Where cases go, in ascending order. -/
  cases : List (Int × Label) := []

def caseConstant : Expr → Except Fault (Option Int)
  | .literal _ l => l.intValue
  | .cast _ _ e => caseConstant e
  | _ => .ok none

def Targets.add (t : Targets) (group : Label) : SwitchLabel → Lowering Targets
  | .otherwise _ => return { t with otherwise := group }
  | .case e => do
    match ← ofExcept (caseConstant e) with
    | some value => return { t with cases := Instruction.insertPair value group t.cases }
    | none => fail (.caseConstant e.line)

def Targets.addGroups (t : Targets) : List (List SwitchLabel) → Lowering (Targets × List Label)
  | [] => return (t, [])
  | labels :: groups => do
    let group ← newLabel
    let t ← labels.foldlM (fun t l => t.add group l) t
    let (t, rest) ← t.addGroups groups
    return (t, group :: rest)

def Targets.table (t : Targets) (lo : Int) : Nat → List Label
  | 0 => []
  | n + 1 => (t.cases.lookup lo).getD t.otherwise :: t.table (lo + 1) n

def Targets.dispatch (t : Targets) : Instruction :=
  let values := t.cases.map (·.1)
  match Strategy.select values, DispatchCosts.of? values with
  | .table, some costs =>
    let size := (costs.hi - costs.lo + 1).toNat
    .tableSwitch t.otherwise costs.lo costs.hi (t.table costs.lo size)
  | _, _ => .lookupSwitch t.otherwise t.cases

/-! ## Statements -/

/-- The code of a final block, and the jump behind the whole statement, at a normal end. -/
def normalEnd (final : Option (Lowering Unit)) (done : Label) : Lowering Unit := do
  final.getD (pure ())
  branch .goto done

/-- The handler that runs a final block for everything that is thrown. -/
def finalHandler (ranges : List (Label × Label)) (final : Lowering Unit) : Lowering Unit := do
  let target ← newLabel
  mark target
  guard ranges target none
  let slot ← newSlot .object
  access .astore slot
  final
  access .aload slot
  op .athrow

mutual

def stmt (env : Env) : Stmt → Lowering Unit
  | .blockStmt body => block env body
  | .ifStmt _ test thenBranch elseBranch => do
    let stop ← newLabel
    let otherwise ← if elseBranch.isSome then newLabel else pure stop
    expr env.hierarchy (.branch otherwise false) test
    stmt env thenBranch
    if elseBranch.isSome then
      unless thenBranch.endsAbruptly do branch .goto stop
      mark otherwise
    alternative env elseBranch
    mark stop
  | .whileStmt _ test body => do
    let top ← newLabel
    let stop ← newLabel
    mark top
    expr env.hierarchy (.branch stop false) test
    stmt (env.inside (.loop stop top)) body
    branch .goto top
    mark stop
  | .doStmt _ body test => do
    let top ← newLabel
    let next ← newLabel
    let stop ← newLabel
    mark top
    stmt (env.inside (.loop stop next)) body
    mark next
    expr env.hierarchy (.branch top true) test
    mark stop
  | .forStmt _ init test update body => do
    stmts env init
    let top ← newLabel
    let next ← newLabel
    let stop ← newLabel
    mark top
    match test with
    | some test => expr env.hierarchy (.branch stop false) test
    | none => pure ()
    stmt (env.inside (.loop stop next)) body
    mark next
    stmts env update
    branch .goto top
    mark stop
  | .switchStmt _ value groups => do
    expr env.hierarchy .value value
    let stop ← newLabel
    let (targets, labels) ← Targets.addGroups ⟨stop, []⟩ (groups.map SwitchGroup.labels)
    instr targets.dispatch
    switchGroups (env.inside (.switch stop)) labels groups
    mark stop
  | .tryStmt _ body catches final => do
    let start ← newLabel
    let stop ← newLabel
    let done ← newLabel
    let finalCode := finalBlock env final
    mark start
    let gaps ← takeGaps start (block (env.inside (.guarded start finalCode)) body)
    mark stop
    unless Stmt.blockEndsAbruptly body do normalEnd finalCode done
    let guarded := ranges start stop gaps
    let more ← catchClauses env finalCode guarded done catches
    match finalCode with
    | some code => finalHandler (guarded ++ more) code
    | none => pure ()
    mark done
  | .throwStmt _ e => do
    expr env.hierarchy .value e
    op .athrow
  | .returnStmt _ value => returnStmt env value
  | .breakStmt line => breakStmt env line
  | .continueStmt line => continueStmt env line
  | .emptyStmt _ => pure ()
  | .exprStmt _ e => expr env.hierarchy .effect e
  | .localsStmt _ vars => vars.forM (initial env.hierarchy)
termination_by structural s => s

def alternative (env : Env) : Option Stmt → Lowering Unit
  | some s => stmt env s
  | none => pure ()
termination_by structural s => s

def stmts (env : Env) : List Stmt → Lowering Unit
  | s :: ss => do
    stmt env s
    stmts env ss
  | [] => pure ()
termination_by structural ss => ss

def block (env : Env) : Block Stmt → Lowering Unit
  | ⟨_, body⟩ => stmts env body
termination_by structural b => b

def finalBlock (env : Env) : Option (Block Stmt) → Option (Lowering Unit)
  | some body => some (block env body)
  | none => none
termination_by structural b => b

def switchGroups (env : Env) (labels : List Label) : List (SwitchGroup Stmt) → Lowering Unit
  | g :: gs =>
    match labels with
    | l :: ls => do
      mark l
      switchGroup env g
      switchGroups env ls gs
    | [] => pure ()
  | [] => pure ()
termination_by structural gs => gs

def switchGroup (env : Env) : SwitchGroup Stmt → Lowering Unit
  | ⟨_, body⟩ => stmts env body
termination_by structural g => g

/-- The code of a handler of guarded ranges. The answer is the ranges of its own block. -/
def catchClause (env : Env) (final : Option (Lowering Unit)) (guarded : List (Label × Label))
    (done : Label) : CatchClause Stmt → Lowering (List (Label × Label))
  | ⟨line, param, body⟩ => do
    let target ← newLabel
    mark target
    guard guarded target (some param.ty.internalName)
    match param.slot with
    | some slot => access .astore slot
    | none => fail (.catchSlot line)
    let start ← newLabel
    let stop ← newLabel
    mark start
    let gaps ← takeGaps start (block (env.inside (.guarded start final)) body)
    mark stop
    unless Stmt.blockEndsAbruptly body do normalEnd final done
    return ranges start stop gaps
termination_by structural c => c

/-- The code of handlers of guarded ranges. The answer is the ranges of their own blocks. -/
def catchClauses (env : Env) (final : Option (Lowering Unit)) (guarded : List (Label × Label))
    (done : Label) : List (CatchClause Stmt) → Lowering (List (Label × Label))
  | c :: cs => do
    let own ← catchClause env final guarded done c
    let others ← catchClauses env final guarded done cs
    return own ++ others
  | [] => return []
termination_by structural cs => cs

end

/-! ## Bodies -/

/-- The return at the end of a body that has no result and may reach its end. -/
def closeBody (result : Ty) (body : List Stmt) : Lowering Unit := do
  if result = .void && !Stmt.listEndsAbruptly body then op .return_

end Lowering

end JMinusMinus
