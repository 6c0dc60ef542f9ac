import JMinusMinus.Proofs.Parts

/-!
# Slots of variables

A body declares variables at any depth: parameters, local variables and the variables of handlers.
Analysis gives each of them the next slots, in the order in which it meets them, and never gives a
slot back when a scope ends. So the variables of a body stand one after another (`Row`), whether or
not their scopes overlap.
-/

namespace JMinusMinus

/-! ## Variables -/

/-- A variable as it was declared, with the slot it got. -/
structure Variable where
  slot : Option Nat
  ty : Ty
  /-- Whether it is the variable of a handler. -/
  caught : Bool := false
deriving DecidableEq

theorem Ty.slots_pos (t : Ty) : 0 < t.slots := Nat.lt_of_lt_of_le Nat.one_pos (Nat.le_max_right _ _)

/-- Variables whose slots do not overlap. -/
def Variable.Apart (x y : Variable) : Prop :=
  ∀ i ∈ x.slot, ∀ j ∈ y.slot, i + x.ty.slots ≤ j ∨ j + y.ty.slots ≤ i

/-- A variable whose slots are between two bounds. -/
def Variable.Between (lower upper : Nat) (x : Variable) : Prop :=
  ∃ i, x.slot = some i ∧ lower ≤ i ∧ i + x.ty.slots ≤ upper

/-- Variables one after another, from a first slot up to one that is free. -/
def Row (first : Nat) : List Variable → Nat → Prop
  | [], free => first = free
  | x :: xs, free => x.slot = some first ∧ Row (first + x.ty.slots) xs free

theorem row_append : Row first (xs ++ ys) free ↔ ∃ mid, Row first xs mid ∧ Row mid ys free := by
  induction xs generalizing first with
  | nil => exact ⟨fun h => ⟨first, rfl, h⟩, fun ⟨_, heq, h⟩ => heq ▸ h⟩
  | cons x xs ih =>
    simp only [List.cons_append, Row, ih]
    exact ⟨fun ⟨hx, mid, hxs, hys⟩ => ⟨mid, ⟨hx, hxs⟩, hys⟩,
      fun ⟨mid, ⟨hx, hxs⟩, hys⟩ => ⟨hx, mid, hxs, hys⟩⟩

namespace Row

variable {xs : List Variable} {first free : Nat}

theorem le (h : Row first xs free) : first ≤ free := by
  induction xs generalizing first with
  | nil => exact Nat.le_of_eq h
  | cons x xs ih => exact Nat.le_trans (Nat.le_add_right _ _) (ih h.2)

/-- Variables in a row lie between its ends. -/
theorem between (h : Row first xs free) : ∀ x ∈ xs, x.Between first free := by
  induction xs generalizing first with
  | nil => exact nofun
  | cons x xs ih =>
    intro y hy
    rcases List.mem_cons.1 hy with rfl | hy
    · exact ⟨first, h.1, Nat.le_refl _, h.2.le⟩
    · obtain ⟨i, hi, hlower, hupper⟩ := ih h.2 y hy
      exact ⟨i, hi, by omega, hupper⟩

/-- Variables in a row do not overlap. -/
theorem apart (h : Row first xs free) : xs.Pairwise Variable.Apart := by
  induction xs generalizing first with
  | nil => exact .nil
  | cons x xs ih =>
    refine .cons (fun y hy i hi j hj => .inl ?_) (ih h.2)
    obtain ⟨j', hj', hlower, -⟩ := h.2.between y hy
    rw [Option.mem_def, h.1] at hi
    rw [Option.mem_def, hj'] at hj
    cases hi
    cases hj
    exact hlower

theorem covers (h : Row first xs free) (hlower : first ≤ slot) (hupper : slot < free) :
    ∃ x ∈ xs, ∃ i, x.slot = some i ∧ i ≤ slot ∧ slot < i + x.ty.slots := by
  induction xs generalizing first with
  | nil =>
    have : first = free := h
    omega
  | cons x xs ih =>
    by_cases hslot : slot < first + x.ty.slots
    · exact ⟨x, by simp, first, h.1, hlower, hslot⟩
    · obtain ⟨y, hy, hcovers⟩ := ih h.2 (Nat.le_of_not_lt hslot)
      exact ⟨y, by simp [hy], hcovers⟩

theorem append (hx : Row first xs (first + n)) (hy : Row (first + n) ys (first + n + k)) :
    Row first (xs ++ ys) (first + (n + k)) :=
  row_append.2 ⟨_, hx, Nat.add_assoc first n k ▸ hy⟩

end Row

/-! ## Variables of trees -/

/-- The variable of a declarator. -/
def Declarator.variable (d : Declarator) : Variable := { slot := d.slot, ty := d.ty }

/-- The variable of a parameter. -/
def Param.variable (p : Param) : Variable := { slot := p.slot, ty := p.ty }

mutual

/-- The variables that a statement declares, in the order in which they get their slots. -/
def Stmt.variables : Stmt → List Variable
  | .blockStmt body => blockVariables body
  | .ifStmt _ _ thenBranch elseBranch => thenBranch.variables ++ elseVariables elseBranch
  | .whileStmt _ _ body | .doStmt _ body _ => body.variables
  | .forStmt _ init _ update body => stmtsVariables init ++ stmtsVariables update ++ body.variables
  | .switchStmt _ _ groups => groupsVariables groups
  | .tryStmt _ body catches final =>
    blockVariables body ++ catchesVariables catches ++ finalVariables final
  | .localsStmt _ vars => vars.map Declarator.variable
  | _ => []
termination_by structural s => s

def elseVariables : Option Stmt → List Variable
  | some s => s.variables
  | none => []
termination_by structural s => s

def stmtsVariables : List Stmt → List Variable
  | s :: ss => s.variables ++ stmtsVariables ss
  | [] => []
termination_by structural ss => ss

def blockVariables : Block Stmt → List Variable
  | ⟨_, stmts⟩ => stmtsVariables stmts
termination_by structural b => b

def finalVariables : Option (Block Stmt) → List Variable
  | some body => blockVariables body
  | none => []
termination_by structural b => b

/-- The variables of a handler, its own first. -/
def catchVariables : CatchClause Stmt → List Variable
  | ⟨_, param, body⟩ => { param.variable with caught := true } :: blockVariables body
termination_by structural c => c

def catchesVariables : List (CatchClause Stmt) → List Variable
  | c :: cs => catchVariables c ++ catchesVariables cs
  | [] => []
termination_by structural cs => cs

def groupVariables : SwitchGroup Stmt → List Variable
  | ⟨_, stmts⟩ => stmtsVariables stmts
termination_by structural g => g

def groupsVariables : List (SwitchGroup Stmt) → List Variable
  | g :: gs => groupVariables g ++ groupsVariables gs
  | [] => []
termination_by structural gs => gs

end

theorem blockVariables_eq (b : Block Stmt) : blockVariables b = stmtsVariables b.stmts := by
  cases b
  rfl

theorem stmtsVariables_eq (ss : List Stmt) : stmtsVariables ss = ss.flatMap Stmt.variables := by
  induction ss with
  | nil => rfl
  | cons s ss ih => rw [stmtsVariables, ih, List.flatMap_cons]

theorem groupsVariables_eq (gs : List (SwitchGroup Stmt)) :
    groupsVariables gs = gs.flatMap fun g => stmtsVariables g.stmts := by
  induction gs with
  | nil => rfl
  | cons g gs ih => rw [groupsVariables, ih, List.flatMap_cons, groupVariables]

theorem catchesVariables_eq (cs : List (CatchClause Stmt)) : catchesVariables cs =
    cs.flatMap fun c =>
      { c.param.variable with caught := true } :: stmtsVariables c.body.stmts := by
  induction cs with
  | nil => rfl
  | cons c cs ih => rw [catchesVariables, ih, List.flatMap_cons, catchVariables, blockVariables_eq]

theorem Stmt.variables_child {s c : Stmt} (hc : c ∈ s.children) : c.variables ⊆ s.variables := by
  intro x hx
  cases s with
  | ifStmt line test thenBranch elseBranch =>
    cases elseBranch <;> simp_all [children, Stmt.variables, elseVariables]
    grind
  | tryStmt line body catches final =>
    cases final <;> simp_all [children, Stmt.variables, finalVariables, blockVariables_eq,
      stmtsVariables_eq, catchesVariables_eq] <;> grind
  | _ =>
    simp_all [children, Stmt.variables, blockVariables_eq, stmtsVariables_eq,
      groupsVariables_eq] <;> grind

/-! ## Variables of members -/

/-- The variables of a member, in order of declaration. -/
def Member.variables : Member → List Variable
  | .ctor c => c.params.map Param.variable ++ blockVariables c.body
  | .method m => m.params.map Param.variable ++ finalVariables m.body
  | .field _ => []

namespace Member

/-- The first slot for variables of a member. -/
def firstSlot (m : Member) : Nat := if m.isStatic then 0 else 1

/-- How many slots a member has for its variables. -/
def locals : Member → Nat
  | .ctor c => c.locals
  | .method m => m.locals
  | .field _ => 0

/-- The variables of a member lie one after another in its slots. -/
def InRow : Member → Prop
  | .field _ => True
  | m => Row m.firstSlot m.variables m.locals

end Member

end JMinusMinus
