import JMinusMinus.Tree.Expr

/-!
# Statements

Statements over expressions. Variables carry the local slot that analysis gives them. A block
statement is a block, and the line of the statement is the line of the block.
-/

namespace JMinusMinus

/-- A parameter of a method, a constructor or a catch clause. -/
structure Param where
  line : Nat
  name : String
  ty : Ty
  /-- Its local slot, once analysis has given it one. -/
  slot : Option Nat := none

structure Declarator where
  line : Nat
  name : String
  ty : Ty
  init : Option Expr := none
  /-- Its local slot, once analysis has given it one. Fields have none. -/
  slot : Option Nat := none

structure Block (σ : Type) where
  /-- The line of the opening brace. -/
  line : Nat
  stmts : List σ

inductive SwitchLabel where
  | case (value : Expr)
  /-- Everything else, with its line. -/
  | otherwise (line : Nat)

def SwitchLabel.line : SwitchLabel → Nat
  | .case value => value.line
  | .otherwise line => line

def SwitchLabel.isOtherwise : SwitchLabel → Bool
  | .case _ => false
  | .otherwise _ => true

/-- A run of labels with the statements they select. -/
structure SwitchGroup (σ : Type) where
  labels : List SwitchLabel
  stmts : List σ

structure CatchClause (σ : Type) where
  line : Nat
  /-- The variable that takes the exception. -/
  param : Param
  body : Block σ

inductive Stmt where
  | blockStmt (body : Block Stmt)
  /-- A choice, with or without an alternative. -/
  | ifStmt (line : Nat) (condition : Expr) (thenBranch : Stmt) (elseBranch : Option Stmt)
  /-- A loop tested before its body. -/
  | whileStmt (line : Nat) (condition : Expr) (body : Stmt)
  /-- A loop tested after its body. -/
  | doStmt (line : Nat) (body : Stmt) (condition : Expr)
  /-- A loop with its start, test and step in its head. -/
  | forStmt (line : Nat) (init : List Stmt) (condition : Option Expr) (update : List Stmt)
      (body : Stmt)
  /-- A choice by a constant, falling through from group to group. -/
  | switchStmt (line : Nat) (selector : Expr) (groups : List (SwitchGroup Stmt))
  | tryStmt (line : Nat) (body : Block Stmt) (catches : List (CatchClause Stmt))
      (final : Option (Block Stmt))
  | throwStmt (line : Nat) (value : Expr)
  | returnStmt (line : Nat) (value : Option Expr)
  | breakStmt (line : Nat)
  | continueStmt (line : Nat)
  | emptyStmt (line : Nat)
  | exprStmt (line : Nat) (value : Expr)
  | localsStmt (line : Nat) (vars : List Declarator)

def Stmt.line : Stmt → Nat
  | .blockStmt body => body.line
  | .ifStmt l .. | .whileStmt l .. | .doStmt l .. | .forStmt l .. | .switchStmt l ..
  | .tryStmt l .. | .throwStmt l .. | .returnStmt l .. | .breakStmt l | .continueStmt l
  | .emptyStmt l | .exprStmt l .. | .localsStmt l .. => l

def Stmt.isDelegation : Stmt → Bool
  | .exprStmt _ e => e.isDelegation
  | _ => false

end JMinusMinus
