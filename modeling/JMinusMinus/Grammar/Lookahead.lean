import JMinusMinus.Token

/-!
# Looking ahead

Where two constructs can start with the same token, the grammar looks at the tokens that follow.
These tests read the upcoming tokens and change nothing.

* a cast: `(`, then a basic type or `Identifier ('.' Identifier)* ('[' ']')* ')'`;
* local variables: a basic type or `Identifier ('.' Identifier)*`, then
  `('[' ']')* Identifier ('[' ']')*` and no further `[`;
* a reference type: an identifier, or a basic type with `[ ]` after it.
-/

namespace JMinusMinus.Lookahead

/-- What follows `('.' Identifier)*`; none if a point has no identifier after it. -/
def afterSelections : List Token → Option (List Token)
  | ⟨.dot, _, _⟩ :: ⟨.identifier, _, _⟩ :: ts => afterSelections ts
  | ⟨.dot, _, _⟩ :: _ => none
  | ts => some ts

/-- What follows `('[' ']')*`; none if a bracket is not closed at once. -/
def afterDims : List Token → Option (List Token)
  | ⟨.leftBracket, _, _⟩ :: ⟨.rightBracket, _, _⟩ :: ts => afterDims ts
  | ⟨.leftBracket, _, _⟩ :: _ => none
  | ts => some ts

/-- What follows a type name with its array levels, basic types included. -/
def afterType : List Token → Option (List Token)
  | ⟨.identifier, _, _⟩ :: ts => (afterSelections ts).bind afterDims
  | t :: ts => if t.kind.isBasicType then afterDims ts else none
  | [] => none

/-- A name with a parenthesis after it. -/
def startsCall : List Token → Bool
  | ⟨.identifier, _, _⟩ :: ⟨.leftParen, _, _⟩ :: _ => true
  | _ => false

/-- A pair of brackets. -/
def startsDims : List Token → Bool
  | ⟨.leftBracket, _, _⟩ :: ⟨.rightBracket, _, _⟩ :: _ => true
  | _ => false

/-- A class name, or a basic type with brackets after it. -/
def startsReferenceType : List Token → Bool
  | ⟨.identifier, _, _⟩ :: _ => true
  | t :: ts => t.kind.isBasicType && startsDims ts
  | [] => false

/-- A type in parentheses. After a basic type nothing else is looked at. -/
def startsCast : List Token → Bool
  | ⟨.leftParen, _, _⟩ :: ⟨.identifier, _, _⟩ :: ts =>
    match (afterSelections ts).bind afterDims with
    | some (⟨.rightParen, _, _⟩ :: _) => true
    | _ => false
  | ⟨.leftParen, _, _⟩ :: t :: _ => t.kind.isBasicType
  | _ => false

/-- A type, a name and complete brackets. -/
def startsLocals (ts : List Token) : Bool :=
  match afterType ts with
  | some (⟨.identifier, _, _⟩ :: ts) => (afterDims ts).isSome
  | _ => false

end JMinusMinus.Lookahead
