import JMinusMinus.Lowering.Unit
import JMinusMinus.Proofs.Agree.Hierarchy

/-!
# Lowering in hierarchies that are alike

Lowering asks a hierarchy only whether a conversion needs a check, and for the parents of the
classes it writes. So it makes the same code in hierarchies that are alike.
-/

namespace JMinusMinus.Lowering

/-- Surroundings with another hierarchy. -/
def Env.over (env : Env) (h : Hierarchy) : Env := { env with hierarchy := h }

theorem Env.hierarchy_over (env : Env) (h : Hierarchy) : (env.over h).hierarchy = h := rfl

theorem Env.inside_over (env : Env) (h : Hierarchy) (e : Exit) :
    (env.over h).inside e = (env.inside e).over h := rfl

set_option linter.unusedSectionVars false

variable {h k : Hierarchy} (hk : h.Alike k)

include hk

/-! ## Expressions -/

theorem conversion_congr (source target : Ty) :
    conversion k source target = conversion h source target := by
  simp only [conversion, hk.isAssignable]

mutual

/-- The code of an expression does not depend on the order of headers. -/
theorem expr_congr (use : Use) : ∀ e, expr k use e = expr h use e
  | .literal .. | .name .. | .wild _ | .localVar .. | .thisRef _ | .superRef _ | .typeName .. => rfl
  | .field _ target _ _ => by simp only [expr, expr_congr _ target]
  | .arrayLength _ array => by simp only [expr, expr_congr _ array]
  | .element _ array index => by simp only [expr, expr_congr _ array, expr_congr _ index]
  | .send _ target _ args _ => by simp only [expr, receiver_congr _ target, exprs_congr args]
  | .delegate _ _ args _ => by simp only [expr, exprs_congr args]
  | .newObject _ _ args _ => by simp only [expr, exprs_congr args]
  | .newArray _ _ dims => by simp only [expr, exprs_congr dims]
  | .arrayInit _ _ items => by simp only [expr, elements_congr _ _ items]
  | .binary _ _ lhs rhs => by simp only [expr, expr_congr _ lhs, expr_congr _ rhs]
  | .concat _ lhs rhs => by simp only [expr, expr_congr _ lhs, expr_congr _ rhs]
  | .instanceOf _ operand _ => by simp only [expr, expr_congr _ operand]
  | .unary _ _ operand => by simp only [expr, expr_congr _ operand]
  | .step _ _ operand => by simp only [expr, expr_congr _ operand]
  | .cast _ _ operand => by simp only [expr, expr_congr _ operand, conversion_congr hk]
  | .assign _ _ lhs rhs => by simp only [expr, expr_congr _ lhs, expr_congr _ rhs]
  | .conditional _ test thenExpr elseExpr => by
    simp only [expr, expr_congr _ test, expr_congr _ thenExpr, expr_congr _ elseExpr]

theorem exprs_congr : ∀ es, exprs k es = exprs h es
  | e :: es => by simp only [exprs, expr_congr _ e, exprs_congr es]
  | [] => rfl

theorem receiver_congr (isStatic : Bool) :
    ∀ e, receiver k isStatic e = receiver h isStatic e
  | some e => by simp only [receiver, expr_congr _ e]
  | none => rfl

theorem elements_congr (store : Opcode) (index : Nat) :
    ∀ es, elements k store index es = elements h store index es
  | e :: es => by simp only [elements, expr_congr _ e, elements_congr store (index + 1) es]
  | [] => rfl

end

/-! ## Statements -/

theorem initial_congr (d : Declarator) : initial k d = initial h d := by
  simp only [initial, expr_congr hk]

theorem returnStmt_congr (env : Env) (value : Option Expr) :
    returnStmt (env.over k) value = returnStmt (env.over h) value := by
  cases value with
  | none => rfl
  | some e =>
    simp only [returnStmt, Env.hierarchy_over, expr_congr hk]
    rfl

mutual

/-- Nor does that of a statement. -/
theorem stmt_congr (env : Env) :
    ∀ s, stmt (env.over k) s = stmt (env.over h) s
  | .blockStmt body => block_congr env body
  | .ifStmt _ test thenBranch elseBranch => by
    simp only [stmt, Env.hierarchy_over, expr_congr hk, stmt_congr env thenBranch,
      alternative_congr env elseBranch]
  | .whileStmt _ test body => by
    simp only [stmt, Env.hierarchy_over, Env.inside_over, expr_congr hk,
      fun e => stmt_congr (env.inside e) body]
  | .doStmt _ body test => by
    simp only [stmt, Env.hierarchy_over, Env.inside_over, expr_congr hk,
      fun e => stmt_congr (env.inside e) body]
  | .forStmt _ init test update body => by
    simp only [stmt, Env.hierarchy_over, Env.inside_over, expr_congr hk, stmts_congr env init,
      stmts_congr env update, fun e => stmt_congr (env.inside e) body]
  | .switchStmt _ value groups => by
    simp only [stmt, Env.hierarchy_over, Env.inside_over, expr_congr hk,
      fun e ls => switchGroups_congr (env.inside e) ls groups]
  | .tryStmt _ body catches final => by
    simp only [stmt, Env.inside_over, finalBlock_congr env final,
      fun e => block_congr (env.inside e) body,
      fun f g d => catchClauses_congr env f g d catches]
  | .throwStmt _ e => by simp only [stmt, Env.hierarchy_over, expr_congr hk]
  | .returnStmt _ value => returnStmt_congr hk env value
  | .breakStmt _ | .continueStmt _ | .emptyStmt _ => rfl
  | .exprStmt _ e => by simp only [stmt, Env.hierarchy_over, expr_congr hk]
  | .localsStmt _ vars => by
    simp only [stmt, Env.hierarchy_over, funext (initial_congr hk)]

theorem alternative_congr (env : Env) :
    ∀ s, alternative (env.over k) s = alternative (env.over h) s
  | some s => by simp only [alternative, stmt_congr env s]
  | none => rfl

theorem stmts_congr (env : Env) :
    ∀ ss, stmts (env.over k) ss = stmts (env.over h) ss
  | s :: ss => by simp only [stmts, stmt_congr env s, stmts_congr env ss]
  | [] => rfl

theorem block_congr (env : Env) :
    ∀ b, block (env.over k) b = block (env.over h) b
  | ⟨_, body⟩ => by simp only [block, stmts_congr env body]

theorem finalBlock_congr (env : Env) :
    ∀ b, finalBlock (env.over k) b = finalBlock (env.over h) b
  | some b => by simp only [finalBlock, block_congr env b]
  | none => rfl

theorem switchGroups_congr (env : Env) (labels : List Label) :
    ∀ gs,
      switchGroups (env.over k) labels gs = switchGroups (env.over h) labels gs
  | g :: gs => by
    cases labels with
    | nil => rfl
    | cons l ls =>
      simp only [switchGroups, switchGroup_congr env g, switchGroups_congr env ls gs]
  | [] => rfl

theorem switchGroup_congr (env : Env) :
    ∀ g, switchGroup (env.over k) g = switchGroup (env.over h) g
  | ⟨_, body⟩ => by simp only [switchGroup, stmts_congr env body]

theorem catchClause_congr (env : Env) (final : Option (Lowering Unit))
    (guarded : List (Label × Label)) (done : Label) :
    ∀ c,
      catchClause (env.over k) final guarded done c = catchClause (env.over h) final guarded done c
  | ⟨_, _, body⟩ => by
    simp only [catchClause, Env.inside_over, fun e => block_congr (env.inside e) body]

theorem catchClauses_congr (env : Env) (final : Option (Lowering Unit))
    (guarded : List (Label × Label)) (done : Label) :
    ∀ cs, catchClauses (env.over k) final guarded done cs =
        catchClauses (env.over h) final guarded done cs
  | c :: cs => by
    simp only [catchClauses, catchClause_congr env final guarded done c,
      catchClauses_congr env final guarded done cs]
  | [] => rfl

end

/-! ## Types -/

theorem fieldInit_congr (f : FieldInit) : fieldInit k f = fieldInit h f := by
  simp only [fieldInit, expr_congr hk]

theorem memberFiles_congr (inits : List FieldInit) (m : Member) :
    memberFiles k inits m = memberFiles h inits m := by
  cases m with
  | field f => rfl
  | method m =>
    have hblock := block_congr hk { hierarchy := h, result := m.result }
    simp only [Env.over] at hblock
    simp only [memberFiles, methodFile, hblock]
  | ctor c =>
    have hstmt := stmt_congr hk { hierarchy := h, result := .void }
    have hstmts := stmts_congr hk { hierarchy := h, result := .void }
    simp only [Env.over] at hstmt hstmts
    have hbody : ∀ ss, ctorBody { hierarchy := k, result := .void } inits ss =
        ctorBody { hierarchy := h, result := .void } inits ss := by
      intro ss
      cases ss with
      | nil => rfl
      | cons s ss => simp only [ctorBody, hstmt, hstmts, funext (fieldInit_congr hk)]
    simp only [memberFiles, ctorFile, hbody]

theorem typeFile_congr {u v : CompilationUnit} (huv : v.package = u.package)
    (d : TypeDecl) : typeFile k v d = typeFile h u d := by
  have hname : v.internalName = u.internalName := by
    funext name
    simp only [CompilationUnit.internalName, huv]
  cases d with
  | classDecl d =>
    simp only [typeFile, classFile, classInitFile, hname, hk.superclass?, hk.lookup,
      funext fun inits => funext (memberFiles_congr hk inits), funext (fieldInit_congr hk)]
  | interfaceDecl d => simp only [typeFile, interfaceFile, hname, hk.lookup]

end JMinusMinus.Lowering
