/-!
# Operators

The binary, unary, step and assignment operators, with the classes that the typing rules and the
generated code go by.
-/

namespace JMinusMinus

inductive BinaryOp where
  | add | sub | mul | div | rem
  | shl | shr | ushr
  | bitAnd | bitOr | bitXor
  | logicalAnd | logicalOr
  | eq | ne | lt | le | gt | ge
deriving DecidableEq

namespace BinaryOp

def all : List BinaryOp :=
  [add, sub, mul, div, rem, shl, shr, ushr, bitAnd, bitOr, bitXor, logicalAnd, logicalOr,
    eq, ne, lt, le, gt, ge]

/-- The four operations and the remainder. -/
def isArithmetic : BinaryOp → Bool
  | add | sub | mul | div | rem => true
  | _ => false

def isShift : BinaryOp → Bool
  | shl | shr | ushr => true
  | _ => false

def isBitwise : BinaryOp → Bool
  | bitAnd | bitOr | bitXor => true
  | _ => false

/-- The operations that may leave their right operand unevaluated. -/
def isLogical : BinaryOp → Bool
  | logicalAnd | logicalOr => true
  | _ => false

def isEquality : BinaryOp → Bool
  | eq | ne => true
  | _ => false

def isRelational : BinaryOp → Bool
  | lt | le | gt | ge => true
  | _ => false

/-- Operators whose value is a boolean. -/
def isCondition (op : BinaryOp) : Bool := op.isRelational || op.isEquality || op.isLogical

/-- The comparison with the opposite outcome. -/
def negate? : BinaryOp → Option BinaryOp
  | eq => some ne
  | ne => some eq
  | lt => some ge
  | ge => some lt
  | gt => some le
  | le => some gt
  | _ => none

def text : BinaryOp → String
  | add => "+"
  | sub => "-"
  | mul => "*"
  | div => "/"
  | rem => "%"
  | shl => "<<"
  | shr => ">>"
  | ushr => ">>>"
  | bitAnd => "&"
  | bitOr => "|"
  | bitXor => "^"
  | logicalAnd => "&&"
  | logicalOr => "||"
  | eq => "=="
  | ne => "!="
  | lt => "<"
  | le => "<="
  | gt => ">"
  | ge => ">="

def label : BinaryOp → String
  | add => "Add"
  | sub => "Sub"
  | mul => "Mul"
  | div => "Div"
  | rem => "Rem"
  | shl => "Shl"
  | shr => "Shr"
  | ushr => "Ushr"
  | bitAnd => "BitAnd"
  | bitOr => "BitOr"
  | bitXor => "BitXor"
  | logicalAnd => "LogicalAnd"
  | logicalOr => "LogicalOr"
  | eq => "Eq"
  | ne => "Ne"
  | lt => "Lt"
  | le => "Le"
  | gt => "Gt"
  | ge => "Ge"

end BinaryOp

inductive UnaryOp where
  | neg | plus | not | bitNot
deriving DecidableEq

namespace UnaryOp

def all : List UnaryOp := [neg, plus, not, bitNot]

def text : UnaryOp → String
  | neg => "-"
  | plus => "+"
  | not => "!"
  | bitNot => "~"

def label : UnaryOp → String
  | neg => "Neg"
  | plus => "Plus"
  | not => "Not"
  | bitNot => "BitNot"

end UnaryOp

/-- Steps of a variable by one, before or after its value is taken. -/
inductive StepOp where
  | preInc | preDec | postInc | postDec
deriving DecidableEq

namespace StepOp

def all : List StepOp := [preInc, preDec, postInc, postDec]

/-- Whether the value is taken after the step. -/
def isBefore : StepOp → Bool
  | preInc | preDec => true
  | _ => false

def delta : StepOp → Int
  | preInc | postInc => 1
  | preDec | postDec => -1

def text : StepOp → String
  | preInc | postInc => "++"
  | preDec | postDec => "--"

def label : StepOp → String
  | preInc => "PreInc"
  | preDec => "PreDec"
  | postInc => "PostInc"
  | postDec => "PostDec"

end StepOp

/-- Assignment operators: plain, or with a binary operator applied first. -/
inductive AssignOp where
  | assign | add | sub | mul | div | rem | shl | shr | ushr | and | or | xor
deriving DecidableEq

namespace AssignOp

def all : List AssignOp := [assign, add, sub, mul, div, rem, shl, shr, ushr, and, or, xor]

def binary? : AssignOp → Option BinaryOp
  | assign => none
  | add => some .add
  | sub => some .sub
  | mul => some .mul
  | div => some .div
  | rem => some .rem
  | shl => some .shl
  | shr => some .shr
  | ushr => some .ushr
  | and => some .bitAnd
  | or => some .bitOr
  | xor => some .bitXor

def text (op : AssignOp) : String :=
  match op.binary? with
  | some b => b.text ++ "="
  | none => "="

def label : AssignOp → String
  | assign => "Assign"
  | add => "Add"
  | sub => "Sub"
  | mul => "Mul"
  | div => "Div"
  | rem => "Rem"
  | shl => "Shl"
  | shr => "Shr"
  | ushr => "Ushr"
  | and => "And"
  | or => "Or"
  | xor => "Xor"

end AssignOp

end JMinusMinus
