import JMinusMinus.Lowering.Basic

/-!
# Instruction selection

Which opcode does an operation on values of a type. A `char` and a `boolean` are computed as an
`int`, and every type that is not primitive as a reference.
-/

namespace JMinusMinus.Lowering

/-! ## Variables -/

def loadOp : Ty → Opcode
  | .int | .char | .boolean => .iload
  | .long => .lload
  | .double => .dload
  | _ => .aload

def storeOp : Ty → Opcode
  | .int | .char | .boolean => .istore
  | .long => .lstore
  | .double => .dstore
  | _ => .astore

def returnOp : Ty → Opcode
  | .void => .return_
  | .int | .char | .boolean => .ireturn
  | .long => .lreturn
  | .double => .dreturn
  | _ => .areturn

def elementLoadOp : Ty → Opcode
  | .int => .iaload
  | .long => .laload
  | .double => .daload
  | .boolean => .baload
  | .char => .caload
  | _ => .aaload

def elementStoreOp : Ty → Opcode
  | .int => .iastore
  | .long => .lastore
  | .double => .dastore
  | .boolean => .bastore
  | .char => .castore
  | _ => .aastore

def arrayCode? : Ty → Option Int
  | .boolean => some 4
  | .char => some 5
  | .double => some 7
  | .int => some 10
  | .long => some 11
  | _ => none

/-! ## Operators -/

def byType (int long double : Opcode) : Ty → Opcode
  | .long => long
  | .double => double
  | _ => int

def binaryOp : BinaryOp → Ty → Opcode
  | .add => byType .iadd .ladd .dadd
  | .sub => byType .isub .lsub .dsub
  | .mul => byType .imul .lmul .dmul
  | .div => byType .idiv .ldiv .ddiv
  | .rem => byType .irem .lrem .drem
  | .shl => byType .ishl .lshl .ishl
  | .shr => byType .ishr .lshr .ishr
  | .ushr => byType .iushr .lushr .iushr
  | .bitAnd => byType .iand .land .iand
  | .bitOr => byType .ior .lor .ior
  | .bitXor => byType .ixor .lxor .ixor
  | _ => fun _ => .nop

/-- The jump on a comparison with zero. -/
def zeroBranch : BinaryOp → Opcode
  | .eq => .ifeq
  | .ne => .ifne
  | .lt => .iflt
  | .ge => .ifge
  | .gt => .ifgt
  | _ => .ifle

def intBranch : BinaryOp → Opcode
  | .eq => .if_icmpeq
  | .ne => .if_icmpne
  | .lt => .if_icmplt
  | .ge => .if_icmpge
  | .gt => .if_icmpgt
  | _ => .if_icmple

/-- The comparison of two `double`s that makes a comparison with a NaN fail. -/
def doubleCompare : BinaryOp → Opcode
  | .lt | .le => .dcmpg
  | _ => .dcmpl

/-- The comparison that holds when another one has the given outcome. -/
def outcome (op : BinaryOp) (sense : Bool) : BinaryOp :=
  if sense then op else op.negate?.getD op

def invokeOp : InvokeKind → Opcode
  | .static => .invokestatic
  | .virtual => .invokevirtual
  | .interface => .invokeinterface
  | .special => .invokespecial

/-! ## Constants -/

def smallInt? (value : Int) : Option Opcode :=
  if value = -1 then some .iconst_m1
  else if value = 0 then some .iconst_0
  else if value = 1 then some .iconst_1
  else if value = 2 then some .iconst_2
  else if value = 3 then some .iconst_3
  else if value = 4 then some .iconst_4
  else if value = 5 then some .iconst_5
  else none

def isSignedShort (value : Int) : Bool := -32768 ≤ value && value ≤ 32767

def intLoad (value : Int) : Instruction :=
  match smallInt? value with
  | some o => .plain o
  | none =>
    if Instruction.isSignedByte value then .operand .bipush value
    else if isSignedShort value then .operand .sipush value
    else .load (.int value)

def longLoad (value : Int) : Instruction :=
  if value = 0 then .plain .lconst_0
  else if value = 1 then .plain .lconst_1
  else .load (.long value)

def doubleLoad (value : Binary64) : Instruction :=
  if value = Binary64.zero then .plain .dconst_0
  else if value = Binary64.one then .plain .dconst_1
  else .load (.double value)

/-! ## Conversions -/

def conversionOps : Ty → Ty → List Opcode
  | .int, .long | .char, .long => [.i2l]
  | .int, .double | .char, .double => [.i2d]
  | .int, .char => [.i2c]
  | .long, .int => [.l2i]
  | .long, .double => [.l2d]
  | .long, .char => [.l2i, .i2c]
  | .double, .int => [.d2i]
  | .double, .long => [.d2l]
  | .double, .char => [.d2i, .i2c]
  | _, _ => []

/-! ## Stack -/

/-- The opcode that copies a value of a type below so many words. -/
def copyUnder (words : Nat) (ty : Ty) : Opcode :=
  match words, ty.words with
  | 0, 2 => .dup2
  | 0, _ => .dup
  | 1, 2 => .dup2_x1
  | 1, _ => .dup_x1
  | _, 2 => .dup2_x2
  | _, _ => .dup_x2

/-- The opcodes that drop so many words. -/
def dropOps : Nat → List Opcode
  | 0 => []
  | 1 => [.pop]
  | _ => [.pop2]

end JMinusMinus.Lowering
