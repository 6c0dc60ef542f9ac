import JMinusMinus.Lowering.Stmt
import Mathlib

/-!
# Equations of lowering

The code of statements with optional parts, for each choice of the parts.
-/

namespace JMinusMinus.Lowering

theorem discard_eq {α : Type} (x : Lowering α) : discard x = x >>= fun _ => pure () := by
  rw [Functor.discard, map_const, Function.comp, map_eq_pure_bind]

section

-- The equations of these two take long to derive. They are derived here, once, before the proofs
-- that unfold the code of a tree.
attribute [local simp] expr stmt

end

/-! ## Exits -/

theorem Exit.unwind_guarded (scope : Label) (final : Option (Lowering Unit)) (es : List Exit) :
    unwind (guarded scope final :: es) =
      if (guarded scope final :: es).any hasFinal then do
        let start ← newLabel
        mark start
        final.getD (pure ())
        let rest ← unwind es
        return (scope, start) :: rest
      else unwind es := rfl

theorem Exit.leave_eq (left : List Exit) (jump : Lowering Unit) :
    leave left jump = (do
      let starts ← unwind left
      jump
      if starts.isEmpty then pure ()
      else do
        let stop ← newLabel
        mark stop
        addGaps (starts.map fun p => ⟨p.1, p.2, stop⟩)) := rfl

/-! ## Statements -/

variable {env : Env} {line : Nat}

theorem stmt_if_none {test : Expr} {thenBranch : Stmt} :
    stmt env (.ifStmt line test thenBranch none) = (do
      let stop ← newLabel
      expr env.hierarchy (.branch stop false) test
      stmt env thenBranch
      mark stop) := by
  simp [stmt, alternative]

theorem stmt_if_some {test : Expr} {thenBranch elseBranch : Stmt} :
    stmt env (.ifStmt line test thenBranch (some elseBranch)) = (do
      let stop ← newLabel
      let otherwise ← newLabel
      expr env.hierarchy (.branch otherwise false) test
      stmt env thenBranch
      (if thenBranch.endsAbruptly then pure () else branch .goto stop)
      mark otherwise
      stmt env elseBranch
      mark stop) := by
  cases h : thenBranch.endsAbruptly <;> simp [stmt, alternative, h]

/-- The code of a test, if there is one. -/
def test? (h : Hierarchy) (target : Label) : Option Expr → Lowering Unit
  | some e => expr h (.branch target false) e
  | none => pure ()

theorem stmt_for {init update : List Stmt} {test : Option Expr} {body : Stmt} :
    stmt env (.forStmt line init test update body) = (do
      stmts env init
      let top ← newLabel
      let next ← newLabel
      let stop ← newLabel
      mark top
      test? env.hierarchy stop test
      stmt (env.inside (.loop stop next)) body
      mark next
      stmts env update
      branch .goto top
      mark stop) := by
  cases test <;> simp [stmt, test?]

/-- What follows a guarded block that can complete. -/
def blockEnd (abrupt : Bool) (final : Option (Lowering Unit)) (done : Label) : Lowering Unit :=
  if abrupt then pure () else normalEnd final done

/-- The handler for everything that a final block has, if there is one. -/
def finalHandler? (ranges : List (Label × Label)) : Option (Lowering Unit) → Lowering Unit
  | some code => finalHandler ranges code
  | none => pure ()

theorem stmt_try {body : Block Stmt} {catches : List (CatchClause Stmt)}
    {final : Option (Block Stmt)} :
    stmt env (.tryStmt line body catches final) = (do
      let start ← newLabel
      let stop ← newLabel
      let done ← newLabel
      mark start
      let gaps ← takeGaps start (block (env.inside (.guarded start (finalBlock env final))) body)
      mark stop
      blockEnd (Stmt.blockEndsAbruptly body) (finalBlock env final) done
      let more ← catchClauses env (finalBlock env final) (ranges start stop gaps) done catches
      finalHandler? (ranges start stop gaps ++ more) (finalBlock env final)
      mark done) := by
  cases h : Stmt.blockEndsAbruptly body <;> cases final <;>
    simp [stmt, finalBlock, h, blockEnd, finalHandler?]

/-- A handler: its variable is stored, its block runs, and its end is that of a block. -/
theorem catchClause_eq {final : Option (Lowering Unit)} {guarded : List (Label × Label)}
    {done : Label} {param : Param} {slot : Nat} (hslot : param.slot = some slot)
    {body : Block Stmt} :
    catchClause env final guarded done ⟨line, param, body⟩ = (do
      let target ← newLabel
      mark target
      guard guarded target (some param.ty.internalName)
      access .astore slot
      let start ← newLabel
      let stop ← newLabel
      mark start
      let gaps ← takeGaps start (block (env.inside (.guarded start final)) body)
      mark stop
      blockEnd (Stmt.blockEndsAbruptly body) final done
      return ranges start stop gaps) := by
  cases h : Stmt.blockEndsAbruptly body <;> simp [catchClause, hslot, h, blockEnd]

end JMinusMinus.Lowering
