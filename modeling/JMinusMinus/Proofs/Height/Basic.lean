import JMinusMinus.Proofs.Settled.Basic

/-!
# Heights of trees

The *height* of a tree is the length of its longest chain of nested statements and expressions. The
constants of the labels of a switch are expressions of the statement. The height of a unit is that
of its highest body or first value.

The *longest name* of a tree is the number of words in its longest dotted name. A name is a single
node however long it is, until analysis makes it a chain of selections.
-/

namespace JMinusMinus

variable {e : Expr} {leaf : Expr → Nat} {n : Nat} {node : Nat → Nat}

/-- The largest value that a function has on a list, zero if the list is empty. -/
def peak {α : Type} (f : α → Nat) (xs : List α) : Nat := (xs.map f).foldr max 0

/-- A bound on the greatest value is a bound on each. -/
theorem peak_le_iff {α : Type} {f : α → Nat} {xs : List α} : peak f xs ≤ n ↔ ∀ x ∈ xs, f x ≤ n := by
  induction xs with
  | nil => simp [peak]
  | cons x xs ih =>
    rw [List.forall_mem_cons, ← ih]
    exact Nat.max_le

/-! ## Expressions -/

namespace Expr

mutual

/-- The length of the longest chain of nested expressions. -/
def height : Expr → Nat
  | literal .. | name .. | localVar .. | thisRef _ | superRef _ | typeName .. | wild _ => 1
  | field _ target _ _ => target.height + 1
  | arrayLength _ array => array.height + 1
  | element _ array index => max array.height index.height + 1
  | send _ target _ args _ => max (heightOfTarget target) (heightOf args) + 1
  | delegate _ _ args _ | newObject _ _ args _ => heightOf args + 1
  | newArray _ _ dims => heightOf dims + 1
  | arrayInit _ _ elements => heightOf elements + 1
  | binary _ _ lhs rhs | concat _ lhs rhs | assign _ _ lhs rhs => max lhs.height rhs.height + 1
  | instanceOf _ operand _ | unary _ _ operand | step _ _ operand | cast _ _ operand =>
    operand.height + 1
  | conditional _ condition thenExpr elseExpr =>
    max condition.height (max thenExpr.height elseExpr.height) + 1
termination_by structural e => e

def heightOfTarget : Option Expr → Nat
  | some e => e.height
  | none => 0
termination_by structural e => e

def heightOf : List Expr → Nat
  | e :: es => max e.height (heightOf es)
  | [] => 0
termination_by structural es => es

end

theorem heightOfTarget_eq (e : Option Expr) : heightOfTarget e = peak height e.toList := by
  cases e <;> simp [heightOfTarget, peak]

theorem heightOf_eq (es : List Expr) : heightOf es = peak height es := by
  induction es with
  | nil => rfl
  | cons e es ih => simpa [heightOf, peak] using congrArg (max e.height) ih

/-- An expression is one higher than the highest of its children. -/
theorem height_le_succ_iff : e.height ≤ n + 1 ↔ ∀ c ∈ e.children, c.height ≤ n := by
  cases e <;>
    simp [height, children, heightOf_eq, heightOfTarget_eq, peak_le_iff, or_imp, forall_and]

theorem height_pos (e : Expr) : 0 < e.height := by
  cases e <;> simp [height]

theorem height_withNote (n : Note) (e : Expr) : (e.withNote n).height = e.height := by
  cases e <;> simp [height, withNote]

/-- How many words a node has that is a dotted name. -/
def nameLength : Expr → Nat
  | name _ segments => segments.length
  | _ => 0

/-- The number of words of the longest dotted name. -/
def longestName (e : Expr) : Nat := peak nameLength e.nodes

theorem longestName_le_iff :
    e.longestName ≤ n ↔ e.nameLength ≤ n ∧ ∀ c ∈ e.children, c.longestName ≤ n := by
  rw [longestName, peak_le_iff, nodes, List.forall_mem_cons, descendants_eq]
  simp only [longestName, peak_le_iff, List.mem_flatMap]
  exact and_congr_right fun _ =>
    ⟨fun h c hc x hx => h x ⟨c, hc, hx⟩, fun h x hex => hex.elim fun c hc => h c hc.1 x hc.2⟩

end Expr

/-! ## Statements -/

/-- The expression of a case. -/
def SwitchLabel.expr? : SwitchLabel → Option Expr
  | .case e => some e
  | .otherwise _ => none

namespace Stmt

mutual

/-- A value of a statement from the values of its expressions, `leaf`, and what a statement makes of
the largest value below it, `node`. -/
def rank (node : Nat → Nat) (leaf : Expr → Nat) : Stmt → Nat
  | blockStmt body => node (rankBlock node leaf body)
  | ifStmt _ test thenBranch elseBranch =>
    node (max (leaf test) (max (thenBranch.rank node leaf) (rank? node leaf elseBranch)))
  | whileStmt _ test body | doStmt _ body test => node (max (leaf test) (body.rank node leaf))
  | forStmt _ init test update body =>
    node (max (max (rankOf node leaf init) (peak leaf test.toList))
      (max (rankOf node leaf update) (body.rank node leaf)))
  | switchStmt _ value groups => node (max (leaf value) (rankGroups node leaf groups))
  | tryStmt _ body catches final =>
    node (max (rankBlock node leaf body)
      (max (rankCatches node leaf catches) (rankBlock? node leaf final)))
  | throwStmt _ e | exprStmt _ e => node (leaf e)
  | returnStmt _ value => node (peak leaf value.toList)
  | localsStmt _ vars => node (peak leaf (vars.filterMap Declarator.init))
  | breakStmt _ | continueStmt _ | emptyStmt _ => node 0
termination_by structural s => s

def rank? (node : Nat → Nat) (leaf : Expr → Nat) : Option Stmt → Nat
  | some s => s.rank node leaf
  | none => 0
termination_by structural s => s

def rankOf (node : Nat → Nat) (leaf : Expr → Nat) : List Stmt → Nat
  | s :: ss => max (s.rank node leaf) (rankOf node leaf ss)
  | [] => 0
termination_by structural ss => ss

def rankBlock (node : Nat → Nat) (leaf : Expr → Nat) : Block Stmt → Nat
  | ⟨_, ss⟩ => rankOf node leaf ss
termination_by structural b => b

def rankBlock? (node : Nat → Nat) (leaf : Expr → Nat) : Option (Block Stmt) → Nat
  | some b => rankBlock node leaf b
  | none => 0
termination_by structural b => b

def rankCatch (node : Nat → Nat) (leaf : Expr → Nat) : CatchClause Stmt → Nat
  | ⟨_, _, body⟩ => rankBlock node leaf body
termination_by structural c => c

def rankCatches (node : Nat → Nat) (leaf : Expr → Nat) : List (CatchClause Stmt) → Nat
  | c :: cs => max (rankCatch node leaf c) (rankCatches node leaf cs)
  | [] => 0
termination_by structural cs => cs

/-- The largest value in a group of a switch, its labels included. -/
def rankGroup (node : Nat → Nat) (leaf : Expr → Nat) : SwitchGroup Stmt → Nat
  | ⟨labels, ss⟩ => max (peak leaf (labels.filterMap SwitchLabel.expr?)) (rankOf node leaf ss)
termination_by structural g => g

def rankGroups (node : Nat → Nat) (leaf : Expr → Nat) : List (SwitchGroup Stmt) → Nat
  | g :: gs => max (rankGroup node leaf g) (rankGroups node leaf gs)
  | [] => 0
termination_by structural gs => gs

end

/-- The length of the longest chain of nested statements and expressions. -/
def height (s : Stmt) : Nat := s.rank (· + 1) Expr.height

theorem height_pos (s : Stmt) : 0 < s.height := by
  cases s <;> simp [height, rank]

theorem rankOf_le_iff : rankOf node leaf ss ≤ n ↔ ∀ s ∈ ss, s.rank node leaf ≤ n := by
  induction ss with
  | nil => simp [rankOf]
  | cons s ss ih => simp [rankOf, ih]

theorem rankBlock_le_iff : rankBlock node leaf b ≤ n ↔ ∀ s ∈ b.stmts, s.rank node leaf ≤ n := by
  cases b
  exact rankOf_le_iff

theorem rankCatches_le_iff :
    rankCatches node leaf cs ≤ n ↔ ∀ c ∈ cs, rankBlock node leaf c.body ≤ n := by
  induction cs with
  | nil => simp [rankCatches]
  | cons c cs ih =>
    rw [rankCatches, Nat.max_le, List.forall_mem_cons, ih]
    cases c
    rfl

theorem rankGroups_le_iff {gs : List (SwitchGroup Stmt)} : rankGroups node leaf gs ≤ n ↔ ∀ g ∈ gs,
      (∀ e ∈ g.labels.filterMap SwitchLabel.expr?, leaf e ≤ n) ∧
        ∀ s ∈ g.stmts, s.rank node leaf ≤ n := by
  induction gs with
  | nil => simp [rankGroups]
  | cons g gs ih =>
    rw [rankGroups, Nat.max_le, List.forall_mem_cons, ih]
    refine and_congr_left fun _ => ?_
    cases g
    rw [rankGroup, Nat.max_le, peak_le_iff, rankOf_le_iff]

end Stmt

/-! ## Units -/

/-- The largest value in the body or the first values of a member. -/
def Member.rank (node : Nat → Nat) (leaf : Expr → Nat) : Member → Nat
  | .ctor c => Stmt.rankBlock node leaf c.body
  | .method m => Stmt.rankBlock? node leaf m.body
  | .field f => peak leaf (f.vars.filterMap Declarator.init)

namespace CompilationUnit

/-- The largest value in the bodies and the first values of a unit. -/
def rank (node : Nat → Nat) (leaf : Expr → Nat) (u : CompilationUnit) : Nat :=
  peak (fun d => peak (Member.rank node leaf) d.members) u.types

/-- The length of the longest chain of nested statements and expressions in a body or a first
value. -/
def height (u : CompilationUnit) : Nat := u.rank (· + 1) Expr.height

def longestName (u : CompilationUnit) : Nat := u.rank id Expr.longestName

/-- A unit is bounded if its members are. -/
theorem rank_le_iff {u : CompilationUnit} :
    u.rank node leaf ≤ n ↔ ∀ d ∈ u.types, ∀ m ∈ d.members, m.rank node leaf ≤ n := by
  simp only [rank, peak_le_iff]

end CompilationUnit

end JMinusMinus
