import JMinusMinus.Tree.Stmt

/-!
# Completion

Whether control can reach the end of a statement. The answer looks at the shape of statements
only: a condition counts as always true when it is the literal `true`, and as open otherwise.

* A loop that is always tested true ends only by a `break` of its own.
* A `switch` ends unless it takes every value, its last group does not end, and nothing breaks
  out of it.
* A `try` ends if its block or one of its handlers does, and its final block does.

`breaksOut` does not look into loops and switches, since those take their own breaks.
-/

namespace JMinusMinus.Stmt

/-! ## Breaks -/

mutual

/-- Whether a `break` inside leaves the statement around. -/
def breaksOut : Stmt → Bool
  | .breakStmt _ => true
  | .blockStmt body => blockBreaksOut body
  | .ifStmt _ _ thenBranch elseBranch => breaksOut thenBranch || elseBreaksOut elseBranch
  | .tryStmt _ body catches final =>
    blockBreaksOut body || catchesBreakOut catches || finalBreaksOut final
  | _ => false
termination_by structural s => s

def elseBreaksOut : Option Stmt → Bool
  | some s => breaksOut s
  | none => false
termination_by structural s => s

def listBreaksOut : List Stmt → Bool
  | s :: ss => breaksOut s || listBreaksOut ss
  | [] => false
termination_by structural ss => ss

def blockBreaksOut : Block Stmt → Bool
  | ⟨_, stmts⟩ => listBreaksOut stmts
termination_by structural b => b

def finalBreaksOut : Option (Block Stmt) → Bool
  | some body => blockBreaksOut body
  | none => false
termination_by structural b => b

def catchBreaksOut : CatchClause Stmt → Bool
  | ⟨_, _, body⟩ => blockBreaksOut body
termination_by structural c => c

def catchesBreakOut : List (CatchClause Stmt) → Bool
  | c :: cs => catchBreaksOut c || catchesBreakOut cs
  | [] => false
termination_by structural cs => cs

end

/-! ## Endings -/

/-- Whether a loop condition lets the loop end. A missing one does not. -/
def canFail : Option Expr → Bool
  | some e => !e.isTrue
  | none => false

mutual

/-- Whether control can reach the end of a statement. -/
def canComplete : Stmt → Bool
  | .returnStmt .. | .throwStmt .. | .breakStmt _ | .continueStmt _ => false
  | .blockStmt body => blockCanComplete body
  | .ifStmt _ _ thenBranch elseBranch => canComplete thenBranch || elseCanComplete elseBranch
  | .whileStmt _ condition body => !condition.isTrue || breaksOut body
  | .doStmt _ body condition => !condition.isTrue || breaksOut body
  | .forStmt _ _ condition _ body => canFail condition || breaksOut body
  | .switchStmt _ _ groups =>
    !(groups.any fun g => g.labels.any SwitchLabel.isOtherwise) ||
      (groups.any fun g => g.stmts.any breaksOut) || lastCanComplete groups
  | .tryStmt _ body catches final =>
    (blockCanComplete body || catchesCanComplete catches) && finalCanComplete final
  | _ => true
termination_by structural s => s

/-- Whether control can reach the end of an alternative. A missing one is passed over. -/
def elseCanComplete : Option Stmt → Bool
  | some s => canComplete s
  | none => true
termination_by structural s => s

def listCanComplete : List Stmt → Bool
  | s :: ss => canComplete s && listCanComplete ss
  | [] => true
termination_by structural ss => ss

def blockCanComplete : Block Stmt → Bool
  | ⟨_, stmts⟩ => listCanComplete stmts
termination_by structural b => b

def finalCanComplete : Option (Block Stmt) → Bool
  | some body => blockCanComplete body
  | none => true
termination_by structural b => b

def catchCanComplete : CatchClause Stmt → Bool
  | ⟨_, _, body⟩ => blockCanComplete body
termination_by structural c => c

def catchesCanComplete : List (CatchClause Stmt) → Bool
  | c :: cs => catchCanComplete c || catchesCanComplete cs
  | [] => false
termination_by structural cs => cs

def groupCanComplete : SwitchGroup Stmt → Bool
  | ⟨_, stmts⟩ => listCanComplete stmts
termination_by structural g => g

def lastCanComplete : List (SwitchGroup Stmt) → Bool
  | g :: gs => if gs.isEmpty then groupCanComplete g else lastCanComplete gs
  | [] => true
termination_by structural gs => gs

end

end JMinusMinus.Stmt
