import JMinusMinus.Text.Printable

/-!
# Escapes

Three rules for text that cannot be written as it is.

* `Escape.decode` reads the escapes of a quoted literal. A backslash stands before one of
  `n t b r f ' " \` or before octal digits. Octal digits are taken as long as the value stays
  a byte. Any other escape makes the text malformed.
* `Escape.ascii` writes a text in printable ASCII, as listings show constants.
* `Escape.shown` writes a text with its printable characters as they are, as tree outlines show
  names and images.

The decoder is one fold over the text. Its state says whether the last character was a
backslash or whether an octal value is still open.
-/

namespace JMinusMinus.Escape

/-! ## Reading -/

inductive Mode where
  | plain
  | escaped
  | octal (value : Nat)
deriving DecidableEq

def octalDigit? (c : Char) : Option Nat :=
  if '0' ≤ c && c ≤ '7' then some (c.toNat - '0'.toNat) else none

/-- What a character right after a backslash stands for, octal digits apart. -/
def simple? (c : Char) : Option Char :=
  if c = 'n' then some '\n'
  else if c = 't' then some '\t'
  else if c = 'b' then some '\x08'
  else if c = 'r' then some '\r'
  else if c = 'f' then some '\x0c'
  else if c = '\x27' || c = '\x22' || c = '\\' then some c
  else none

def plainStep (c : Char) : List Char × Mode :=
  if c = '\\' then ([], .escaped) else ([c], .plain)

/-- One character: what it completes and the state after it. -/
def step (mode : Mode) (c : Char) : Option (List Char × Mode) :=
  match mode with
  | .plain => some (plainStep c)
  | .escaped =>
    match simple? c with
    | some d => some ([d], .plain)
    | none => (octalDigit? c).map fun d => ([], .octal d)
  | .octal value =>
    let closing := (Char.ofNat value :: (plainStep c).1, (plainStep c).2)
    match octalDigit? c with
    | some d => if value * 8 + d ≤ 255 then some ([], .octal (value * 8 + d)) else some closing
    | none => some closing

/-- What an open state completes at the end of the text. -/
def finish : Mode → Option (List Char)
  | .plain => some []
  | .escaped => none
  | .octal value => some [Char.ofNat value]

/-- Reads a text from a state on. -/
def decodeFrom : Mode → List Char → Option (List Char)
  | mode, [] => finish mode
  | mode, c :: cs =>
    match step mode c with
    | some (out, mode') => (decodeFrom mode' cs).map (out ++ ·)
    | none => none

/-- The text a literal's inside stands for; none if an escape is malformed. -/
def decode (text : String) : Option String :=
  (decodeFrom .plain text.toList).map String.ofList

/-! ## Writing -/

def codePoint (c : Char) : List Char :=
  ['\\', 'u', '\x7b'] ++ Nat.toDigits 16 c.toNat ++ ['\x7d']

def asciiChar (c : Char) : List Char :=
  if c = '\t' then ['\\', 't']
  else if c = '\r' then ['\\', 'r']
  else if c = '\n' then ['\\', 'n']
  else if c = '\x27' || c = '\x22' || c = '\\' then ['\\', c]
  else if 0x20 ≤ c.toNat && c.toNat ≤ 0x7e then [c]
  else codePoint c

def ascii (text : String) : String := String.ofList (text.toList.flatMap asciiChar)

def shownChar (c : Char) : List Char :=
  if c = '\x00' then ['\\', '0']
  else if c = '\t' then ['\\', 't']
  else if c = '\r' then ['\\', 'r']
  else if c = '\n' then ['\\', 'n']
  else if c = '\x22' || c = '\\' then ['\\', c]
  else if c.toNat < 0x20 || c.toNat = 0x7f then codePoint c
  else if c.toNat < 0x80 || Printable.isShown c then [c]
  else codePoint c

def shown (text : String) : String :=
  "\"" ++ String.ofList (text.toList.flatMap shownChar) ++ "\""

end JMinusMinus.Escape
