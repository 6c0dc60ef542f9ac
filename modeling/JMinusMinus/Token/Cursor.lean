import JMinusMinus.Token

/-!
# Reading positions

A *cursor* stands on a token of a list that ends with the end of input. It knows the tokens
that follow and the token it stood on last, which is the first token before any move.

* Moving on from the last token stays there, and makes it the previous token too.
* A list without a final end of input gets one, at the place of its last token.

A *reader* is a cursor with a stack of recorded cursors. Going back restores the cursor that
was recorded last, so what lies between a record and its return leaves no trace.
-/

namespace JMinusMinus

structure Cursor where
  /-- The token the cursor stood on last. -/
  previous : Token
  token : Token
  following : List Token
  /-- How many tokens lie before it. -/
  position : Nat
deriving DecidableEq

namespace Cursor

/-- A token list with the end of input at its end. -/
def closed (tokens : List Token) : List Token :=
  match tokens.getLast? with
  | some last =>
    if last.kind = .endOfInput then tokens else tokens ++ [Token.endOfInput last.location]
  | none => [Token.endOfInput {}]

def ofTokens (tokens : List Token) : Cursor :=
  match closed tokens with
  | t :: ts => ⟨t, t, ts, 0⟩
  | [] => ⟨Token.endOfInput {}, Token.endOfInput {}, [], 0⟩

def kind (c : Cursor) : Kind := c.token.kind

def kinds (c : Cursor) : List Kind := c.token.kind :: c.following.map Token.kind

/-- The next position, or the same one at the end of the list. -/
def next (c : Cursor) : Cursor :=
  match c.following with
  | t :: ts => ⟨c.token, t, ts, c.position + 1⟩
  | [] => { c with previous := c.token }

/-- The first position whose kind passes the test, from `token` on. -/
def seekFrom (p : Kind → Bool) (previous token : Token) (position : Nat) : List Token → Cursor
  | [] => ⟨previous, token, [], position⟩
  | t :: ts =>
    if p token.kind then ⟨previous, token, t :: ts, position⟩
    else seekFrom p token t (position + 1) ts

/-- Moves on to the first token whose kind passes the test, or to the last token. -/
def seek (p : Kind → Bool) (c : Cursor) : Cursor :=
  seekFrom p c.previous c.token c.position c.following

end Cursor

/-- A cursor with the cursors recorded so far, latest first. -/
structure Reader where
  cursor : Cursor
  /-- Where it was told to come back to. -/
  marks : List Cursor := []
deriving DecidableEq

namespace Reader

def ofTokens (tokens : List Token) : Reader := { cursor := Cursor.ofTokens tokens }

def next (r : Reader) : Reader := { r with cursor := r.cursor.next }

def record (r : Reader) : Reader := { r with marks := r.cursor :: r.marks }

/-- Goes back to the position recorded last; stays if none is left. -/
def goBack (r : Reader) : Reader :=
  match r.marks with
  | c :: cs => ⟨c, cs⟩
  | [] => r

def atEnd (r : Reader) : Bool := r.cursor.kind == .endOfInput

end Reader

end JMinusMinus
