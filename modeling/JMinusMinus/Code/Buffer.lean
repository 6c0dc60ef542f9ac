import JMinusMinus.Code.Instruction
import JMinusMinus.Fault

/-!
# Code buffers

A *fragment* is a piece of symbolic code: instructions with the marks of labels between them,
the handlers that guard ranges of it, and how many local slots it reaches. Fragments are put
together by appending.

A *buffer* is a fragment with the number of labels that were created for it. Only created
labels can be bound. A label that is bound twice is where it was bound last.
-/

namespace JMinusMinus

inductive Line where
  | mark (label : Label)
  | instr (instruction : Instruction)
deriving DecidableEq

/-- What takes over when an exception leaves a range of code. -/
structure Handler where
  /-- The first instruction of the range. -/
  start : Label
  /-- The first instruction after the range. -/
  stop : Label
  target : Label
  /-- The class of exceptions it takes, or all. -/
  catches : Option String
deriving DecidableEq

structure Fragment where
  lines : List Line := []
  handlers : List Handler := []
  maxLocals : Nat := 0
deriving DecidableEq

namespace Fragment

def append (a b : Fragment) : Fragment :=
  ⟨a.lines ++ b.lines, a.handlers ++ b.handlers, max a.maxLocals b.maxLocals⟩

instance : Append Fragment := ⟨append⟩

theorem append_def (a b : Fragment) : a ++ b =
    ⟨a.lines ++ b.lines, a.handlers ++ b.handlers, max a.maxLocals b.maxLocals⟩ := rfl

theorem empty_append (a : Fragment) : {} ++ a = a := by simp [append_def]

theorem append_empty (a : Fragment) : a ++ {} = a := by simp [append_def]

theorem append_assoc (a b c : Fragment) : a ++ b ++ c = a ++ (b ++ c) := by
  simp [append_def, Nat.max_assoc]

def instr (i : Instruction) : Fragment := { lines := [.instr i] }

def mark (l : Label) : Fragment := { lines := [.mark l] }

def handler (h : Handler) : Fragment := { handlers := [h] }

/-- Local slots, without an instruction that uses them. -/
def reserve (count : Nat) : Fragment := { maxLocals := count }

/-- The load or store of a local variable, in its short form if there is one. -/
def access (op : Opcode) (slot : Nat) : Except Fault Fragment := do
  let maxLocals ← addSlots slot op.localWidth
  let i := match op.shortForm? slot with
    | some short => .plain short
    | none => .localVar op slot
  return { lines := [.instr i], maxLocals }

def step (slot : Nat) (delta : Int) : Except Fault Fragment := do
  let maxLocals ← addSlots slot 1
  return { lines := [.instr (.step slot delta)], maxLocals }

def instructions (f : Fragment) : List Instruction :=
  f.lines.filterMap fun
    | .instr i => some i
    | .mark _ => none

end Fragment

structure Buffer where
  labels : Nat := 0
  code : Fragment := {}
deriving DecidableEq

namespace Buffer

/-- The buffer of a method that needs so many local slots from the start. -/
def ofLocals (maxLocals : Nat) : Buffer := { code := { maxLocals } }

def createLabel (b : Buffer) : Label × Buffer := (⟨b.labels⟩, { b with labels := b.labels + 1 })

def add (b : Buffer) (f : Fragment) : Buffer := { b with code := b.code ++ f }

/-- Binds a label to the place of the next instruction, if it was created. -/
def bind (b : Buffer) (l : Label) : Buffer :=
  if l.id < b.labels then b.add (.mark l) else b

end Buffer

end JMinusMinus
