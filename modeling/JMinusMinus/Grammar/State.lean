import JMinusMinus.Problem
import JMinusMinus.Token.Cursor

/-!
# The state of a parse

A rule of the grammar is a function on the state of the parse. It always returns a tree. What
is wrong with the text goes to the log.

* *Recovery.*  `require` is in one of two states. While the parse is recovered, a token of the
  wrong kind is reported and stays where it is, and the parse is no longer recovered. Until a
  required kind is met again, `require` reports nothing and skips to the kind it seeks or to the
  end of input.
* *Depth.*  A construct that may nest runs inside `nested`. Past the limit it is replaced by a
  fallback and one token is skipped. The first time this happens it is reported.

Loops take their bound from the number of tokens left. Every turn of a loop takes a token, so
the bound is never the reason to stop. A parse that would stop for this reason, or come up a level
it did not go down, is *stuck* from there on.
-/

namespace JMinusMinus.Grammar

/-- The state of a parse. -/
structure State where
  cursor : Cursor
  log : Log Problem
  maxDepth : Nat
  size : Nat
  /-- Whether the next mismatch is reported. -/
  recovered : Bool := true
  depth : Nat := 0
  /-- Whether nesting past the limit was reported. -/
  depthReported : Bool := false
  /-- Whether a bound or a level ran out. -/
  stuck : Bool := false

/-- A rule of the grammar. -/
abbrev Parser := StateM State

variable {α : Type}

/-! ## Tokens -/

/-- The current token. -/
def current : Parser Token := return (← get).cursor.token

/-- The kind of the current token. -/
def currentKind : Parser Kind := return (← get).cursor.kind

/-- The line of the current token. -/
def currentLine : Parser Nat := return (← get).cursor.token.line

/-- The current token and those that follow. -/
def upcoming : Parser (List Token) := do
  let c := (← get).cursor
  return c.token :: c.following

/-- How many tokens are left, the current one included. -/
def remaining : Parser Nat := return (← get).size - (← get).cursor.position

/-- Moves on by a token. -/
def advance : Parser Unit := modify fun s => { s with cursor := s.cursor.next }

/-- Whether the current token has a kind. -/
def sees (kind : Kind) : Parser Bool := return (← get).cursor.kind == kind

/-- Takes the current token if it has a kind, and says whether it did. -/
def accept (kind : Kind) : Parser Bool := do
  if ← sees kind then
    advance
    return true
  else
    return false

/-! ## Reports and recovery -/

/-- Reports a problem at the current token. The parse is not recovered after it. -/
def complain (problem : SyntaxProblem) : Parser Unit :=
  modify fun s => { s with
    recovered := false
    log := s.log.add s.cursor.token.line (.syntactic problem) }

/-- Takes a token of the kind that must stand here, or recovers. -/
def require (sought : Kind) : Parser Unit := do
  let s ← get
  if s.cursor.kind = sought then
    set { s with cursor := s.cursor.next, recovered := true }
  else if s.recovered then
    complain (.mismatch s.cursor.token.image sought)
  else
    let c := s.cursor.seek fun k => k = sought || k = .endOfInput
    if c.kind = sought then set { s with cursor := c.next, recovered := true }
    else set { s with cursor := c }

/-- Takes an identifier. Where there is none, the identifier before it serves. -/
def identifier : Parser String := do
  require .identifier
  let t := (← get).cursor.previous
  return if t.kind = .identifier then t.lexeme else ""

/-- Skips one token if nothing was taken since a position, except at the end of input. -/
def ensureProgress (before : Nat) : Parser Unit := do
  let c := (← get).cursor
  if c.position = before ∧ c.kind ≠ .endOfInput then advance

/-! ## Depth -/

/-- Goes one level down. Past the limit the answer is `false` and a token is skipped. -/
def descend : Parser Bool := do
  let s ← get
  let depth := s.depth + 1
  set { s with depth }
  if depth ≤ s.maxDepth then return true
  unless s.depthReported do
    modify fun s => { s with depthReported := true }
    complain (.tooDeep s.maxDepth)
  unless ← sees .endOfInput do advance
  return false

/-- Comes up by some levels. -/
def ascend (levels : Nat) : Parser Unit :=
  modify fun s => { s with depth := s.depth - levels, stuck := s.stuck || s.depth < levels }

/-- A rule one level down, or a fallback past the limit. -/
def nested (fallback : α) (rule : Parser α) : Parser α := do
  let result ← if ← descend then rule else pure fallback
  ascend 1
  return result

/-! ## Loops -/

/-- The result where a bound runs out, which makes the parse stuck. -/
def outOfBound (result : α) : Parser α := do
  modify fun s => { s with stuck := true }
  return result

/-- Items, each after a separator. -/
def afterEach (separator : Kind) (item : Parser α) : Nat → Parser (List α)
  | 0 => outOfBound []
  | bound + 1 => do
    if ← accept separator then
      let x ← item
      let xs ← afterEach separator item bound
      return x :: xs
    else
      return []

/-- Items with commas between them, at least one. -/
def commaSeparated (item : Parser α) : Parser (List α) := do
  let x ← item
  let xs ← afterEach .comma item (← remaining)
  return x :: xs

/-- Items up to a kind that ends them. -/
def itemsWithin (ends : Kind → Bool) (item : Parser α) : Nat → Parser (List α)
  | 0 => outOfBound []
  | bound + 1 => do
    let kind ← currentKind
    if ends kind || kind = .endOfInput then return []
    let before := (← get).cursor.position
    let x ← item
    ensureProgress before
    let xs ← itemsWithin ends item bound
    return x :: xs

/-- Items up to a kind that ends them. -/
def itemsUntil (ends : Kind → Bool) (item : Parser α) : Parser (List α) := do
  itemsWithin ends item (← remaining)

/-- Items in braces. -/
def braced (item : Parser α) : Parser (List α) := do
  require .leftBrace
  let items ← itemsUntil (· = .rightBrace) item
  require .rightBrace
  return items

end JMinusMinus.Grammar
