import JMinusMinus.Token

/-!
# Reading tokens

A source text is cut into *slices*, consecutive and never empty, each a token or a piece of
text that is no token. The slice at a character is the longest one that some rule admits.

* white space: a run of blanks, tabs, line feeds, carriage returns and form feeds;
* word: a letter, `_` or `$`, then letters, digits, `_` and `$`; a reserved word is a keyword;
* number: digits; with a fraction, an exponent or a final `d` it is a double, with a final `l`
  a long; a fraction or an exponent without digits is not part of the number;
* string: quoted, on one line, a backslash takes the next character along;
* character: exactly one such item between single quotes;
* comment: from `//` to the end of the line, or from `/*` to the first `*/` after it;
* symbol: the longest operator or separator.

Where no rule applies the slice is an error. It is the quote and the complete items after it
for a string that never ends, everything to the end of input for a block comment that never
ends, and one character otherwise.

Every rule answers with the number of further characters it takes, so a slice is a `take` and
what follows it is a `drop`. Cutting up a text is structural in a bound, and its length is
enough, since a slice holds at least one character.
-/

namespace JMinusMinus

namespace Lexer

/-! ## Character classes -/

def isBlank (c : Char) : Bool :=
  c = ' ' || c = '\t' || c = '\n' || c = '\r' || c = '\x0c'

def isWordStart (c : Char) : Bool := c.isAlpha || c = '_' || c = '$'

def isWordRest (c : Char) : Bool := c.isAlphanum || c = '_' || c = '$'

/-- How many characters in front satisfy a test. -/
def run (p : Char → Bool) (cs : List Char) : Nat := (cs.takeWhile p).length

/-! ## Numbers -/

/-- The length of an exponent at the front, zero if there is none. -/
def exponentLength : List Char → Nat
  | e :: s :: cs =>
    if e = 'e' || e = 'E' then
      if s = '+' || s = '-' then
        let digits := run Char.isDigit cs
        if digits = 0 then 0 else 2 + digits
      else
        let digits := run Char.isDigit (s :: cs)
        if digits = 0 then 0 else 1 + digits
    else 0
  | _ => 0

/-- The length of a fraction at the front, its point included, zero if there is none. -/
def fractionLength : List Char → Nat
  | '.' :: cs =>
    let digits := run Char.isDigit cs
    if digits = 0 then 0 else 1 + digits
  | _ => 0

/-- Whether the front is one of two letters. -/
def startsWith (lower upper : Char) : List Char → Bool
  | c :: _ => c = lower || c = upper
  | [] => false

/-- The kind of a number and how many characters it takes after its first digit. -/
def number (cs : List Char) : Kind × Nat :=
  let whole := run Char.isDigit cs
  let fraction := fractionLength (cs.drop whole)
  let exponent := exponentLength (cs.drop (whole + fraction))
  let length := whole + fraction + exponent
  let rest := cs.drop length
  if startsWith 'd' 'D' rest then (.doubleLiteral, length + 1)
  else if fraction + exponent ≠ 0 then (.doubleLiteral, length)
  else if startsWith 'l' 'L' rest then (.longLiteral, length + 1)
  else (.intLiteral, length)

/-! ## Quoted text and comments -/

/-- The length of the complete string items at the front, and whether a quote follows them. -/
def stringItems : List Char → Nat × Bool
  | [] => (0, false)
  | '\x22' :: _ => (0, true)
  | '\n' :: _ => (0, false)
  | ['\\'] => (0, false)
  | '\\' :: c :: cs =>
    if c = '\n' then (0, false)
    else
      let (n, closed) := stringItems cs
      (n + 2, closed)
  | _ :: cs =>
    let (n, closed) := stringItems cs
    (n + 1, closed)

/-- How many characters a character literal takes after its opening quote. -/
def charLength? : List Char → Option Nat
  | '\\' :: c :: '\x27' :: _ => if c = '\n' then none else some 3
  | c :: '\x27' :: _ => if c = '\x27' || c = '\\' || c = '\n' then none else some 2
  | _ => none

/-- How many characters a block comment takes after its opening mark. -/
def blockLength? : List Char → Option Nat
  | '*' :: '/' :: _ => some 2
  | _ :: cs => (blockLength? cs).map (· + 1)
  | [] => none

/-! ## Symbols -/

/-- The longer of two symbols, the first if they are equally long. -/
def longer (best : Option Kind) (k : Kind) : Option Kind :=
  match best with
  | some b => if b.image.length < k.image.length then some k else best
  | none => some k

def symbol? (cs : List Char) : Option Kind :=
  (Kind.symbols.filter fun k => k.image.toList.isPrefixOf cs).foldl longer none

/-! ## Slices -/

/-- What the slice at `c` is, if it is a token, and how many characters it takes after `c`. -/
def slice (c : Char) (cs : List Char) : Option Kind × Nat :=
  if isBlank c then (some .whitespace, run isBlank cs)
  else if isWordStart c then
    let n := run isWordRest cs
    (some ((Kind.keyword? (c :: cs.take n)).getD .identifier), n)
  else if c.isDigit then
    let (kind, n) := number cs
    (some kind, n)
  else if c = '\x22' then
    let (n, closed) := stringItems cs
    if closed then (some .stringLiteral, n + 1) else (none, n)
  else if c = '\x27' then
    match charLength? cs with
    | some n => (some .charLiteral, n)
    | none => (none, 0)
  else if c = '/' && startsWith '/' '/' cs then (some .lineComment, run (· ≠ '\n') cs)
  else if c = '/' && startsWith '*' '*' cs then
    match blockLength? (cs.drop 1) with
    | some n => (some .blockComment, 1 + n)
    | none => (none, cs.length)
  else
    match symbol? (c :: cs) with
    | some kind => (some kind, kind.image.length - 1)
    | none => (none, 0)

structure Slice where
  /-- The token kind, or none for text that is no token. -/
  kind : Option Kind
  text : List Char
  location : Location
deriving DecidableEq

/-- The first `bound` slices of a text that starts at a place, and the place where they end. -/
def slicesWithin : Nat → Location → List Char → List Slice × Location
  | bound + 1, start, c :: cs =>
    let (kind, n) := slice c cs
    let text := c :: cs.take n
    let (rest, stop) := slicesWithin bound (start.advanceAll text) (cs.drop n)
    (⟨kind, text, start⟩ :: rest, stop)
  | _, start, _ => ([], start)

/-- The slices of a whole text, and the place where it ends. -/
def slices (cs : List Char) : List Slice × Location := slicesWithin cs.length {} cs

/-- The token a slice is, unless it is trivia or an error. -/
def Slice.token? (s : Slice) : Option Token :=
  match s.kind with
  | some kind => if kind.isTrivia then none else some ⟨kind, String.ofList s.text, s.location⟩
  | none => none

structure Unidentified where
  line : Nat
  text : String
deriving DecidableEq

def Slice.unidentified? (s : Slice) : Option Unidentified :=
  match s.kind with
  | some _ => none
  | none => some ⟨s.location.line, String.ofList s.text⟩

/-- The tokens of a text, closed by the end of input, and the text that is no token. -/
def tokenize (source : String) : List Token × List Unidentified :=
  let (pieces, stop) := slices source.toList
  (pieces.filterMap Slice.token? ++ [Token.endOfInput stop], pieces.filterMap Slice.unidentified?)

end Lexer

end JMinusMinus
