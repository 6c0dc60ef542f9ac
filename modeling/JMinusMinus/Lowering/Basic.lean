import JMinusMinus.Code.Layout

/-!
# Steps of lowering

A step of lowering makes a fragment of code, and takes new labels and new local slots from a
*supply*. Steps one after another make their fragments one after another, so the code of a
whole is the code of its parts in order.

A *gap* is a run of code inside a guarded block that the handlers of the block must not cover.
Steps hand gaps on until the guarded block takes them.
-/

namespace JMinusMinus

/-- What is still free. -/
structure Supply where
  labels : Nat
  /-- The first slot above those in use. -/
  slot : Nat
deriving DecidableEq

/-- A run of code that is left out of the ranges of a guarded block. -/
structure Gap where
  /-- The guarded block, by the label of its start. -/
  scope : Label
  start : Label
  stop : Label
deriving DecidableEq

/-- What a step of code generation makes. -/
structure Emitted (α : Type) where
  value : α
  code : Fragment
  /-- Its gaps, in the order they were closed. -/
  gaps : List Gap
  supply : Supply

/-- A step of code generation. -/
def Lowering (α : Type) : Type := Supply → Except Failure (Emitted α)

namespace Lowering

instance : Monad Lowering where
  pure x := fun s => .ok ⟨x, {}, [], s⟩
  bind x f := fun s => do
    let a ← x s
    let b ← f a.value a.supply
    return ⟨b.value, a.code ++ b.code, a.gaps ++ b.gaps, b.supply⟩

instance : LawfulMonad Lowering := LawfulMonad.mk' Lowering
  (by
    intro α x
    funext s
    simp only [Functor.map, pure, bind, Except.bind, Except.pure]
    cases x s with
    | error e => rfl
    | ok a => simp [Function.comp, Fragment.append_empty])
  (by
    intro α β x f
    funext s
    simp only [pure, bind, Except.bind, Except.pure]
    cases f x s with
    | error e => rfl
    | ok a => simp [Fragment.empty_append])
  (by
    intro α β γ x f g
    funext s
    simp only [pure, bind, Except.bind, Except.pure]
    cases x s with
    | error e => rfl
    | ok a =>
      simp only
      cases f a.value a.supply with
      | error e => rfl
      | ok b =>
        simp only
        cases g b.value b.supply with
        | error e => rfl
        | ok c => simp [Fragment.append_assoc])

/-! ## Steps -/

/-- Stops with a failure. -/
def failWith {α : Type} (f : Failure) : Lowering α := fun _ => .error f

/-- Stops where there is no code for a tree. -/
def fail {α : Type} (d : Defect) : Lowering α := failWith (.ofDefect d)

/-- A computation that may stop. -/
def ofExcept {α : Type} : Except Fault α → Lowering α
  | .ok x => pure x
  | .error f => failWith (.fault f)

/-- Adds code. -/
def emit (f : Fragment) : Lowering Unit := fun s => .ok ⟨(), f, [], s⟩

/-- Makes a label. -/
def newLabel : Lowering Label := fun s =>
  .ok ⟨⟨s.labels⟩, {}, [], { s with labels := s.labels + 1 }⟩

/-- Takes slots for a value of a type. -/
def newSlot (ty : Ty) : Lowering Nat := fun s =>
  match addSlots s.slot ty.slots with
  | .ok slot => .ok ⟨s.slot, {}, [], { s with slot }⟩
  | .error f => .error (.fault f)

/-- Adds an instruction. -/
def instr (i : Instruction) : Lowering Unit := emit (.instr i)

/-- Adds an instruction without operands. -/
def op (o : Opcode) : Lowering Unit := instr (.plain o)

/-- Adds a jump. -/
def branch (o : Opcode) (target : Label) : Lowering Unit := instr (.branch o target)

/-- Adds an access to a field or a call. -/
def member (o : Opcode) (owner name descriptor : String) : Lowering Unit :=
  instr (.member o owner name descriptor)

/-- Adds an instruction on a class. -/
def reference (o : Opcode) (type : String) : Lowering Unit := instr (.reference o type)

/-- Adds an access to a slot. -/
def access (o : Opcode) (slot : Nat) : Lowering Unit := do
  emit (← ofExcept (Fragment.access o slot))

/-- Adds a number to a slot. -/
def stepLocal (slot : Nat) (delta : Int) : Lowering Unit := do
  emit (← ofExcept (Fragment.step slot delta))

/-- Binds a label here. -/
def mark (l : Label) : Lowering Unit := emit (.mark l)

/-- Adds a handler for each of some ranges. -/
def guard (ranges : List (Label × Label)) (target : Label) (catches : Option String) :
    Lowering Unit :=
  emit { handlers := ranges.map fun r => ⟨r.1, r.2, target, catches⟩ }

/-! ## Gaps -/

def addGaps (gaps : List Gap) : Lowering Unit := fun s => .ok ⟨(), {}, gaps, s⟩

/-- Takes the gaps of a guarded block out of what a step hands on. -/
def takeGaps (scope : Label) (x : Lowering Unit) : Lowering (List (Label × Label)) := fun s => do
  let a ← x s
  let (own, others) := a.gaps.partition (·.scope = scope)
  return { a with value := own.map fun g => (g.start, g.stop), gaps := others }

/-! ## Methods -/

/-- Lays out the code of a method that needs so many local slots. -/
def assemble (locals : Nat) (x : Lowering Unit) : Except Failure Code := do
  let a ← x ⟨0, locals⟩
  Buffer.layout ⟨a.supply.labels, .reserve locals ++ a.code⟩

end Lowering

end JMinusMinus
