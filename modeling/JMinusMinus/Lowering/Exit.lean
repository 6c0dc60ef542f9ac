import JMinusMinus.Lowering.Basic

/-!
# Exits

A jump out of statements has to do what the statements demand of it. The *exits* at a point are
the loops, switches and guarded blocks around it, innermost first.

* `break` goes to the innermost loop or switch, `continue` to the innermost loop, and a return
  leaves everything.
* On the way out every guarded block with a final block runs it, innermost first. The code of a
  final block is made for the exits around its own statement, so it is kept here ready to be
  repeated.
* From where a guarded block is left to the end of the jump, its handlers must not apply, if any
  final block runs on the way. That run of code is a gap of the block.
-/

namespace JMinusMinus.Lowering

/-- A statement that a jump may have to leave. -/
inductive Exit where
  /-- A loop, with where `break` and `continue` go. -/
  | loop (stop next : Label)
  | switch (stop : Label)
  /-- A guarded block by the label of its start, with the code of its final block. -/
  | guarded (scope : Label) (final : Option (Lowering Unit))

namespace Exit

def hasFinal : Exit → Bool
  | guarded _ (some _) => true
  | _ => false

/-- Where `break` goes, with the exits on the way. -/
def breakTarget? : List Exit → Option (List Exit × Label)
  | [] => none
  | loop stop _ :: _ | switch stop :: _ => some ([], stop)
  | e :: es => (breakTarget? es).map fun (left, l) => (e :: left, l)

/-- Where `continue` goes, with the exits on the way. -/
def continueTarget? : List Exit → Option (List Exit × Label)
  | [] => none
  | loop _ next :: _ => some ([], next)
  | e :: es => (continueTarget? es).map fun (left, l) => (e :: left, l)

/-- Runs the final blocks of exits that are left. The answer is the guarded blocks that need a
gap, each with the start of it. -/
def unwind : List Exit → Lowering (List (Label × Label))
  | [] => return []
  | e :: es => do
    match e with
    | guarded scope final =>
      if (e :: es).any hasFinal then
        let start ← newLabel
        mark start
        final.getD (pure ())
        let rest ← unwind es
        return (scope, start) :: rest
      else unwind es
    | _ => unwind es

def leave (exits : List Exit) (jump : Lowering Unit) : Lowering Unit := do
  let starts ← unwind exits
  jump
  unless starts.isEmpty do
    let stop ← newLabel
    mark stop
    addGaps (starts.map fun (scope, start) => ⟨scope, start, stop⟩)

end Exit

/-- The ranges from one label to another that are left between gaps. -/
def ranges (start stop : Label) : List (Label × Label) → List (Label × Label)
  | [] => [(start, stop)]
  | (gapStart, gapStop) :: gaps => (start, gapStart) :: ranges gapStop stop gaps

end JMinusMinus.Lowering
