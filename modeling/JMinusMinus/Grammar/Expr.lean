import JMinusMinus.Grammar.Type

/-!
# Rules for expressions

Precedence, loosest first: assignment and choice (grouping to the right), the six levels from
`||` to `==` (grouping to the left), the comparisons and `instanceof` (at most one), shifts,
sums, products (grouping to the left), prefix operators and casts, selections, postfix steps.

Every operator of a left-grouping chain counts as one level of depth until the chain is done.

A construct inside another is parsed by one of the rules in `Rules`. Rules are tied together in
`rules`, by recursion on a bound. Between a use of one of them and the use that contains it a
token is always taken, so the number of tokens left is bound enough.
-/

namespace JMinusMinus.Grammar

/-- The rules by which constructs nest. -/
structure Rules where
  expression : Parser Expr
  /-- The last part of a choice. -/
  conditional : Parser Expr
  unary : Parser Expr
  /-- An operand of a cast to a reference type. -/
  simpleUnary : Parser Expr
  arrayInit : Ty → Parser Expr

/-! ## Leaves -/

def plain (line : Nat) : Note := { line }

def literalOf? (t : Token) : Option Literal :=
  match t.kind with
  | .intLiteral => some (.int t.lexeme)
  | .longLiteral => some (.long t.lexeme)
  | .doubleLiteral => some (.double t.lexeme)
  | .charLiteral => some (.char t.lexeme)
  | .stringLiteral => some (.string t.lexeme)
  | .kwTrue => some (.boolean true)
  | .kwFalse => some (.boolean false)
  | .kwNull => some .null
  | _ => none

def literal : Parser Expr := do
  let t ← current
  match literalOf? t with
  | some value =>
    advance
    return .literal (plain t.line) value
  | none =>
    complain (.literalSought t.image)
    return .wild (plain t.line)

namespace Rules

/-! ## Primaries -/

def parenthesized (r : Rules) : Parser Expr := do
  require .leftParen
  let e ← r.expression
  require .rightParen
  return e

def arguments (r : Rules) : Parser (List Expr) := do
  require .leftParen
  if ← accept .rightParen then return []
  let args ← commaSeparated r.expression
  require .rightParen
  return args

/-- A member of a target: a call if arguments follow the name, else a field. -/
def memberOf (r : Rules) (line : Nat) (target : Expr) (name : String) : Parser Expr := do
  if ← sees .leftParen then
    return .send (plain line) (some target) name (← r.arguments) none
  else
    return .field (plain line) target name none

/-- Empty pairs of brackets after the first opening one, each an array level. -/
def closedLevels : Nat → Ty → Parser Ty
  | 0, ty => outOfBound ty
  | bound + 1, ty => do
    if ← accept .leftBracket then
      require .rightBracket
      closedLevels bound (.array ty)
    else
      return ty

/-- Lengths in brackets, then array levels without a length. -/
def lengths (r : Rules) : Nat → Ty → Parser (Ty × List Expr)
  | 0, ty => outOfBound (ty, [])
  | bound + 1, ty => do
    if ← accept .leftBracket then
      if ← accept .rightBracket then
        let ty ← closedLevels (← remaining) (.array ty)
        return (ty, [])
      else
        let dim ← r.expression
        require .rightBracket
        let (ty, dims) ← r.lengths bound (.array ty)
        return (ty, dim :: dims)
    else
      return (ty, [])

/-- An array by its lengths, the first of which must be there. -/
def newArray (r : Rules) (line : Nat) (element : Ty) : Parser Expr := do
  require .leftBracket
  let dim ← r.expression
  require .rightBracket
  let (ty, dims) ← r.lengths (← remaining) (.array element)
  return .newArray (plain line) ty (dim :: dims)

def creator (r : Rules) : Parser Expr := do
  let line ← currentLine
  let ty ← if (← currentKind).isBasicType then basicType else classType
  if ← sees .leftParen then
    return .newObject (plain line) ty (← r.arguments) none
  else if ← sees .leftBracket then
    if Lookahead.startsDims (← upcoming) then
      let ty ← closedLevels (← remaining) ty
      r.arrayInit ty
    else
      r.newArray line ty
  else
    complain (.creatorSought (← current).image)
    return .wild (plain line)

/-- A name, or a call of the last segment on the others. -/
def nameOrCall (r : Rules) (line : Nat) : Parser Expr := do
  let segments := (← qualifiedName).segments
  if ← sees .leftParen then
    let target := if segments.dropLast.isEmpty then none
      else some (.name (plain line) segments.dropLast)
    return .send (plain line) target (segments.getLast?.getD "") (← r.arguments) none
  else
    return .name (plain line) segments

/-- What a chain of selections starts with. -/
def primary (r : Rules) : Parser Expr := do
  let line ← currentLine
  if ← sees .leftParen then
    r.parenthesized
  else if ← accept .kwThis then
    if ← sees .leftParen then
      return .delegate (plain line) .toThis (← r.arguments) none
    else
      return .thisRef (plain line)
  else if ← accept .kwSuper then
    if ← accept .dot then
      let name ← identifier
      r.memberOf line (.superRef (plain line)) name
    else
      return .delegate (plain line) .toSuper (← r.arguments) none
  else if ← accept .kwNew then
    r.creator
  else if ← sees .identifier then
    r.nameOrCall line
  else
    literal

/-! ## Selections and steps -/

def selector (r : Rules) (target : Expr) : Parser Expr := do
  let line ← currentLine
  if ← accept .dot then
    let name ← identifier
    r.memberOf line target name
  else
    require .leftBracket
    let index ← r.expression
    require .rightBracket
    return .element (plain line) target index

/-- Selections as long as they come, with the number of levels they take. -/
def selections (r : Rules) : Nat → Nat → Expr → Parser (Expr × Nat)
  | 0, levels, e => outOfBound (e, levels)
  | bound + 1, levels, e => do
    if (← sees .dot) || (← sees .leftBracket) then
      if ← descend then
        r.selections bound (levels + 1) (← r.selector e)
      else
        return (e, levels + 1)
    else
      return (e, levels)

/-- Steps after an expression, with the number of levels they take. -/
def postfixSteps (line : Nat) : Nat → Nat → Expr → Parser (Expr × Nat)
  | 0, levels, e => outOfBound (e, levels)
  | bound + 1, levels, e => do
    if (← sees .decrement) || (← sees .increment) then
      if ← descend then
        let op : StepOp := if ← sees .decrement then .postDec else .postInc
        advance
        postfixSteps line bound (levels + 1) (.step (plain line) op e)
      else
        return (e, levels + 1)
    else
      return (e, levels)

/-- A primary with its selections and steps. -/
def postfixed (r : Rules) : Parser Expr := do
  let line ← currentLine
  let e ← r.primary
  let (e, levels) ← r.selections (← remaining) 0 e
  let (e, levels) ← postfixSteps line (← remaining) levels e
  ascend levels
  return e

/-! ## Prefix operators and casts -/

/-- A cast: its operand is any prefix expression after a basic type, a simple one else. -/
def castOf (r : Rules) (line : Nat) : Parser Expr := do
  require .leftParen
  let basic := (← currentKind).isBasicType
  let target ← type
  require .rightParen
  let operand ← if basic && !target.isArray then r.unary
    else nested (.wild (plain line)) r.simpleUnary
  return .cast (plain line) target operand

/-- Complements, casts and postfix expressions. -/
def simpleUnaryRule (r : Rules) : Parser Expr := do
  let line ← currentLine
  if ← accept .tilde then
    return .unary (plain line) .bitNot (← r.unary)
  else if ← accept .bang then
    return .unary (plain line) .not (← r.unary)
  else if Lookahead.startsCast (← upcoming) then
    r.castOf line
  else
    r.postfixed

/-- Steps and signs before an operand, or a simple expression. -/
def unaryRule (r : Rules) : Parser Expr := do
  let line ← currentLine
  nested (.wild (plain line)) do
    if ← accept .increment then
      return .step (plain line) .preInc (← r.unary)
    else if ← accept .decrement then
      return .step (plain line) .preDec (← r.unary)
    else if ← accept .minus then
      return .unary (plain line) .neg (← r.unary)
    else if ← accept .plus then
      return .unary (plain line) .plus (← r.unary)
    else
      r.simpleUnaryRule

end Rules

/-! ## Binary levels -/

/-- Takes the current token if it is one of the operators. -/
def acceptOperator (ops : List (Kind × BinaryOp)) : Parser (Option BinaryOp) := do
  match ops.lookup (← currentKind) with
  | some op =>
    advance
    return some op
  | none => return none

/-- Operators with an operand after each, with the number of levels they take. -/
def chain (ops : List (Kind × BinaryOp)) (operand : Parser Expr) (line : Nat) :
    Nat → Nat → Expr → Parser (Expr × Nat)
  | 0, levels, lhs => outOfBound (lhs, levels)
  | bound + 1, levels, lhs => do
    match ← acceptOperator ops with
    | some op =>
      if ← descend then
        let rhs ← operand
        chain ops operand line bound (levels + 1) (.binary (plain line) op lhs rhs)
      else
        return (lhs, levels + 1)
    | none => return (lhs, levels)

def leftGrouping (ops : List (Kind × BinaryOp)) (operand : Parser Expr) : Parser Expr := do
  let line ← currentLine
  let lhs ← operand
  let (e, levels) ← chain ops operand line (← remaining) 0 lhs
  ascend levels
  return e

namespace Rules

def multiplicative (r : Rules) : Parser Expr :=
  leftGrouping [(.star, .mul), (.slash, .div), (.percent, .rem)] r.unaryRule

def additive (r : Rules) : Parser Expr :=
  leftGrouping [(.plus, .add), (.minus, .sub)] r.multiplicative

def shift (r : Rules) : Parser Expr :=
  leftGrouping [(.shiftLeft, .shl), (.shiftRight, .shr), (.shiftRightUnsigned, .ushr)] r.additive

/-- At most one comparison or class test. -/
def relational (r : Rules) : Parser Expr := do
  let line ← currentLine
  let lhs ← r.shift
  if ← accept .kwInstanceOf then
    return .instanceOf (plain line) lhs (← referenceType)
  match ← acceptOperator
    [(.greater, .gt), (.lessEqual, .le), (.greaterEqual, .ge), (.less, .lt)] with
  | some op => return .binary (plain line) op lhs (← r.shift)
  | none => return lhs

/-- The left-grouping levels above the comparisons, loosest first. -/
def looseLevels : List (List (Kind × BinaryOp)) :=
  [[(.pipePipe, .logicalOr)], [(.ampAmp, .logicalAnd)], [(.pipe, .bitOr)], [(.caret, .bitXor)],
    [(.amp, .bitAnd)], [(.equal, .eq), (.notEqual, .ne)]]

def binaryFrom (r : Rules) : List (List (Kind × BinaryOp)) → Parser Expr
  | [] => r.relational
  | ops :: levels => leftGrouping ops (r.binaryFrom levels)

/-! ## Choices and assignments -/

/-- A binary expression, or a choice by it. -/
def conditionalRule (r : Rules) : Parser Expr := do
  let line ← currentLine
  let condition ← r.binaryFrom looseLevels
  if ← accept .question then
    let thenExpr ← r.expression
    require .colon
    let elseExpr ← nested (.wild (plain line)) r.conditional
    return .conditional (plain line) condition thenExpr elseExpr
  else
    return condition

def assignOf? : Kind → Option AssignOp
  | .assign => some .assign
  | .addAssign => some .add
  | .subAssign => some .sub
  | .mulAssign => some .mul
  | .divAssign => some .div
  | .modAssign => some .rem
  | .shiftLeftAssign => some .shl
  | .shiftRightAssign => some .shr
  | .shiftRightUnsignedAssign => some .ushr
  | .andAssign => some .and
  | .orAssign => some .or
  | .xorAssign => some .xor
  | _ => none

def assignment (r : Rules) : Parser Expr := do
  let line ← currentLine
  let lhs ← r.conditionalRule
  match assignOf? (← currentKind) with
  | some op =>
    advance
    return .assign (plain line) op lhs (← r.expression)
  | none => return lhs

/-- An expression, one level down. -/
def expressionRule (r : Rules) : Parser Expr := do
  let line ← currentLine
  nested (.wild (plain line)) r.assignment

/-! ## Array elements -/

def initializer (r : Rules) (ty : Ty) : Parser Expr := do
  if ← sees .leftBrace then r.arrayInit ty else r.expressionRule

/-- More elements, each after a comma. A comma may stand before the closing brace. -/
def moreElements (r : Rules) (ty : Ty) : Nat → Parser (List Expr)
  | 0 => outOfBound []
  | bound + 1 => do
    if ← accept .comma then
      if ← sees .rightBrace then return []
      let x ← r.initializer ty
      let xs ← r.moreElements ty bound
      return x :: xs
    else
      return []

def elements (r : Rules) (ty : Ty) : Parser (List Expr) := do
  if ← accept .rightBrace then return []
  let x ← r.initializer ty
  let xs ← r.moreElements ty (← remaining)
  require .rightBrace
  return x :: xs

def arrayInitRule (r : Rules) (ty : Ty) : Parser Expr := do
  let line ← currentLine
  require .leftBrace
  nested (.wild (plain line)) do
    return .arrayInit (plain line) ty (← r.elements (ty.component?.getD .any))

end Rules

/-! ## Tying the rules together -/

/-- A placeholder where constructs nest past their bound. -/
def wildHere : Parser Expr := do outOfBound (.wild (plain (← currentLine)))

/-- The rules, as far as a bound allows constructs to nest. -/
def rules : Nat → Rules
  | 0 => ⟨wildHere, wildHere, wildHere, wildHere, fun _ => wildHere⟩
  | bound + 1 =>
    { expression := fun s => (rules bound).expressionRule s
      conditional := fun s => (rules bound).conditionalRule s
      unary := fun s => (rules bound).unaryRule s
      simpleUnary := fun s => (rules bound).simpleUnaryRule s
      arrayInit := fun ty s => (rules bound).arrayInitRule ty s }

def expression : Parser Expr := do (rules (← remaining)).expressionRule

def initializer (ty : Ty) : Parser Expr := do
  let r := rules ((← remaining) + 1)
  r.initializer ty

end JMinusMinus.Grammar
