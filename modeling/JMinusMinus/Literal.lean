import JMinusMinus.Decimal.Binary64
import JMinusMinus.Fault
import JMinusMinus.Text.Escape
import JMinusMinus.Ty

/-!
# Literals

A literal keeps its image exactly as it was written. Its value is computed when it is needed,
and there may be none.

* `int`: a decimal integer of 32 bits;
* `long`: a decimal integer of 64 bits, any final `l` left out;
* `double`: a decimal number, any final `d` left out;
* `char`: one UTF-16 unit after escapes are decoded, as an integer;
* `string`: the text after escapes are decoded.

Quotes are taken off by bytes, so an image that starts or ends inside a longer character cannot
be read at all. Images of tokens that were read from a source text always can.
-/

namespace JMinusMinus

/-- A literal, with its text as it is written. -/
inductive Literal where
  | int (image : String)
  | long (image : String)
  | double (image : String)
  | char (image : String)
  | string (image : String)
  | boolean (value : Bool)
  | null
deriving DecidableEq

namespace Literal

/-- The type of a literal. -/
def ty : Literal → Ty
  | .int _ => .int
  | .long _ => .long
  | .double _ => .double
  | .char _ => .char
  | .string _ => .string
  | .boolean _ => .boolean
  | .null => .null

/-- The text of a literal. -/
def text : Literal → String
  | .int s | .long s | .double s | .char s | .string s => s
  | .boolean b => if b then "true" else "false"
  | .null => "null"

/-- An image without its first and its last byte, unless it has fewer than two. -/
def unquoted (image : String) : Except Fault String :=
  if image.utf8ByteSize < 2 then .ok image
  else
    match image.toList, image.toList.getLast? with
    | c :: cs, some last =>
      if c.utf8Size = 1 ∧ last.utf8Size = 1 then .ok (String.ofList cs.dropLast)
      else .error .splitCharacter
    | _, _ => .ok image

/-- The characters that a quoted text stands for. -/
def decoded (image : String) : Except Fault (Option String) := do
  return Escape.decode (← unquoted image)

/-- The number of a text that is one character of 16 bits. -/
def singleUnit? (text : String) : Option Int :=
  match text.toList with
  | [c] => if c.toNat < 0x10000 then some c.toNat else none
  | _ => none

/-- Characters without a letter at their end, in either case, however often it stands there. -/
def withoutFinal (lower upper : Char) (image : String) : List Char :=
  (image.toList.reverse.dropWhile fun c => c = lower || c = upper).reverse

/-- The value of a literal as a number of type `int`. -/
def intValue : Literal → Except Fault (Option Int)
  | .int image => .ok (Numeral.word? 32 image.toList)
  | .char image => do return (← decoded image).bind singleUnit?
  | _ => .ok none

/-- The value of a literal as a number of type `long`. -/
def longValue? : Literal → Option Int
  | .long image => Numeral.word? 64 (withoutFinal 'l' 'L' image)
  | _ => none

/-- The value of a literal as a floating-point number. -/
def doubleValue? : Literal → Option Binary64
  | .double image => Binary64.read? (withoutFinal 'd' 'D' image)
  | _ => none

/-- The value of a literal as a text. -/
def stringValue : Literal → Except Fault (Option String)
  | .string image => decoded image
  | _ => .ok none

/-- Whether a literal has a value. -/
def isValid : Literal → Except Fault Bool
  | l@(.int _) | l@(.char _) => do return (← l.intValue).isSome
  | l@(.long _) => .ok l.longValue?.isSome
  | l@(.double _) => .ok l.doubleValue?.isSome
  | l@(.string _) => do return (← l.stringValue).isSome
  | .boolean _ | .null => .ok true

/-- The text of the negative number. -/
def minus? (image : String) : Option String :=
  if image.toList.head? = some '-' then none else some ("-" ++ image)

/-- A numeric literal with a minus in front, unless it has one. -/
def negated? : Literal → Option Literal
  | .int image => (minus? image).map .int
  | .long image => (minus? image).map .long
  | .double image => (minus? image).map .double
  | _ => none

end Literal

end JMinusMinus
