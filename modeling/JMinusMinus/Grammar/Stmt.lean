import JMinusMinus.Grammar.Expr

/-!
# Rules for statements

A statement inside another is parsed by the rule that `statementWithin` ties to a bound. A token
is taken between the two, so the number of tokens left is bound enough.
-/

namespace JMinusMinus.Grammar

/-! ## Expressions as statements -/

def statementExpression : Parser Expr := do
  let e ← expression
  if e.hasEffect then
    return e.asStatement
  else
    unless e.isWild do complain .noEffect
    return e

def statementExpressions : Parser (List Stmt) :=
  commaSeparated do
    let line ← currentLine
    return .exprStmt line (← statementExpression)

def condition : Parser Expr := do
  require .leftParen
  let e ← expression
  require .rightParen
  return e

/-! ## Variables -/

/-- One variable of a declaration, with its own array levels. -/
def declarator (ty : Ty) : Parser Declarator := do
  let line ← currentLine
  let name ← identifier
  let ty ← arrayLevels (← remaining) ty
  let init ← if ← accept .assign then some <$> initializer ty else pure none
  return { line, name, ty, init }

def declarators (ty : Ty) : Parser (List Declarator) := commaSeparated (declarator ty)

def locals : Parser Stmt := do
  let line ← currentLine
  let ty ← type
  return .localsStmt line (← declarators ty)

def parameter : Parser Param := do
  let line ← currentLine
  let ty ← type
  let name ← identifier
  return { line, name, ty }

/-! ## Parts of statements -/

/-- Words between `break` or `continue` and its semicolon, which mean nothing. -/
def jumpWords : Nat → Parser Unit
  | 0 => outOfBound ()
  | bound + 1 => do
    if ← accept .semicolon then return ()
    if ← sees .endOfInput then
      require .semicolon
    else
      let before := (← get).cursor.position
      require .identifier
      ensureProgress before
      jumpWords bound

def switchLabel : Parser SwitchLabel := do
  let line ← currentLine
  if ← accept .kwCase then
    let e ← expression
    require .colon
    return .case e
  else
    require .kwDefault
    require .colon
    return .otherwise line

def switchLabels : Nat → Parser (List SwitchLabel)
  | 0 => outOfBound []
  | bound + 1 => do
    let l ← switchLabel
    if (← sees .kwCase) || (← sees .kwDefault) then
      return l :: (← switchLabels bound)
    else
      return [l]

def forInit : Parser (List Stmt) := do
  if Lookahead.startsLocals (← upcoming) then return [← locals] else statementExpressions

section Inner

variable (inner : Parser Stmt)

/-- Local variables or another statement, as they stand in a block. -/
def blockStatement : Parser Stmt := do
  if Lookahead.startsLocals (← upcoming) then
    let s ← locals
    require .semicolon
    return s
  else
    inner

def blockOf : Parser (Block Stmt) := do
  let line ← currentLine
  return ⟨line, ← braced (blockStatement inner)⟩

def switchGroup : Parser (SwitchGroup Stmt) := do
  let labels ← switchLabels (← remaining)
  let ends k := k = .kwCase || k = .kwDefault || k = .rightBrace
  let stmts ← itemsUntil ends (blockStatement inner)
  return ⟨labels, stmts⟩

def catchClauses : Nat → Parser (List (CatchClause Stmt))
  | 0 => outOfBound []
  | bound + 1 => do
    if ← sees .kwCatch then
      let line ← currentLine
      advance
      require .leftParen
      let param ← parameter
      require .rightParen
      let body ← blockOf inner
      return ⟨line, param, body⟩ :: (← catchClauses bound)
    else
      return []

def forStatement (line : Nat) : Parser Stmt := do
  require .leftParen
  let init ← if ← sees .semicolon then pure [] else forInit
  require .semicolon
  let test ← if ← sees .semicolon then pure none else some <$> expression
  require .semicolon
  let update ← if ← sees .rightParen then pure [] else statementExpressions
  require .rightParen
  return .forStmt line init test update (← inner)

def tryStatement (line : Nat) : Parser Stmt := do
  let body ← blockOf inner
  let catches ← catchClauses inner (← remaining)
  let final ← if ← accept .kwFinally then some <$> blockOf inner else pure none
  if catches.isEmpty && final.isNone then complain (.handlerSought (← current).image)
  return .tryStmt line body catches final

/-- A statement, whatever it starts with. -/
def statementForm (line : Nat) : Parser Stmt := do
  if ← sees .leftBrace then
    return .blockStmt (← blockOf inner)
  else if ← accept .kwIf then
    let test ← condition
    let thenBranch ← inner
    let elseBranch ← if ← accept .kwElse then some <$> inner else pure none
    return .ifStmt line test thenBranch elseBranch
  else if ← accept .kwWhile then
    let test ← condition
    return .whileStmt line test (← inner)
  else if ← accept .kwDo then
    let body ← inner
    require .kwWhile
    let test ← condition
    require .semicolon
    return .doStmt line body test
  else if ← accept .kwFor then
    forStatement inner line
  else if ← accept .kwSwitch then
    let selector ← condition
    return .switchStmt line selector (← braced (switchGroup inner))
  else if ← accept .kwTry then
    tryStatement inner line
  else if ← accept .kwReturn then
    if ← accept .semicolon then return .returnStmt line none
    let e ← expression
    require .semicolon
    return .returnStmt line (some e)
  else if ← accept .kwThrow then
    let e ← expression
    require .semicolon
    return .throwStmt line e
  else if ← accept .kwBreak then
    jumpWords (← remaining)
    return .breakStmt line
  else if ← accept .kwContinue then
    jumpWords (← remaining)
    return .continueStmt line
  else if ← accept .semicolon then
    return .emptyStmt line
  else
    let e ← statementExpression
    require .semicolon
    return .exprStmt line e

/-- A statement, one level down. -/
def statementRule : Parser Stmt := do
  let line ← currentLine
  nested (.emptyStmt line) (statementForm inner line)

end Inner

/-! ## Tying the rules together -/

/-- A statement, as far as a bound allows statements to nest. -/
def statementWithin : Nat → Parser Stmt
  | 0 => do outOfBound (.emptyStmt (← currentLine))
  | bound + 1 => fun s => statementRule (statementWithin bound) s

def block : Parser (Block Stmt) := do blockOf (statementWithin ((← remaining) + 1))

end JMinusMinus.Grammar
