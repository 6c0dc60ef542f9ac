import JMinusMinus.Code.Opcode
import JMinusMinus.Decimal.Binary64
import JMinusMinus.Text.Escape

/-!
# Instructions

Instructions name their targets by labels. Their size does not depend on where the targets are,
only on the offset they start at: the operands of a switch start at a multiple of four.
-/

namespace JMinusMinus

/-- A place in the code that is still to be found, counted in the order of creation. -/
structure Label where
  /-- How many labels were created before it. -/
  id : Nat
deriving DecidableEq

inductive Constant where
  | int (value : Int)
  | long (value : Int)
  | double (value : Binary64)
  | string (value : String)
deriving DecidableEq

namespace Constant

/-- Whether a constant takes two words. -/
def isWide : Constant → Bool
  | long _ | double _ => true
  | int _ | string _ => false

def text : Constant → String
  | int value => s!"{value}"
  | long value => s!"{value}L"
  | double value => value.text
  | string value => "\"" ++ Escape.ascii value ++ "\""

end Constant

inductive Instruction where
  | plain (op : Opcode)
  | load (value : Constant)
  | branch (op : Opcode) (target : Label)
  | member (op : Opcode) (owner name descriptor : String)
  | reference (op : Opcode) (type : String)
  | localVar (op : Opcode) (slot : Nat)
  | operand (op : Opcode) (value : Int)
  | step (slot : Nat) (delta : Int)
  | multiArray (type : String) (dims : Nat)
  /-- A jump by table, for the values from `lo` to `hi`. -/
  | tableSwitch (otherwise : Label) (lo hi : Int) (targets : List Label)
  /-- A jump by key, with ascending keys. -/
  | lookupSwitch (otherwise : Label) (pairs : List (Int × Label))
deriving DecidableEq

namespace Instruction

def opcode : Instruction → Opcode
  | plain op | branch op _ | member op .. | reference op _ | localVar op _ | operand op _ => op
  | load value => if value.isWide then .ldc2_w else .ldc
  | step .. => .iinc
  | multiArray .. => .multianewarray
  | tableSwitch .. => .tableswitch
  | lookupSwitch .. => .lookupswitch

/-- Bytes between the opcode of a switch at an offset and its operands. -/
def padding (offset : Nat) : Nat := (4 - (offset + 1) % 4) % 4

def isByteSlot (slot : Nat) : Bool := slot ≤ 255

/-- Whether a number can be written in a signed byte. -/
def isSignedByte (value : Int) : Bool := -128 ≤ value && value ≤ 127

def size (offset : Nat) : Instruction → Nat
  | plain _ => 1
  | load value => if value.isWide then 3 else 2
  | branch .. => 3
  | member op .. => if op = .invokeinterface then 5 else 3
  | reference .. => 3
  | localVar _ slot => if isByteSlot slot then 2 else 4
  | operand op _ => if op = .sipush then 3 else 2
  | step slot delta => if isByteSlot slot && isSignedByte delta then 3 else 6
  | multiArray .. => 4
  | tableSwitch _ _ _ targets => 1 + padding offset + 12 + 4 * targets.length
  | lookupSwitch _ pairs => 1 + padding offset + 8 + 8 * pairs.length

/-- Pairs in ascending order of keys with one more, in place of one of the same key. -/
def insertPair {α : Type} (key : Int) (value : α) : List (Int × α) → List (Int × α)
  | [] => [(key, value)]
  | p :: ps =>
    if key < p.1 then (key, value) :: p :: ps
    else if key = p.1 then (key, value) :: ps
    else p :: insertPair key value ps

theorem size_pos (offset : Nat) (i : Instruction) : 0 < i.size offset := by
  cases i <;> simp only [size] <;> (repeat' split) <;> omega

end Instruction

end JMinusMinus
