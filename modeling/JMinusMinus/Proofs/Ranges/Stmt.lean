import JMinusMinus.Proofs.Parts
import JMinusMinus.Proofs.Ranges.Exit

/-!
# Gaps of statements

The code of a statement is orderly where the exits around it are (`stmt_orderly`). So the gaps of a
guarded block follow each other, and every copy of its final block that the block asks for stands
in one of them.
-/

namespace JMinusMinus.Lowering

variable {k : Copy} {known : List Label} {around : Blocks} {env env' : Env}

/-- Surroundings beside their twin. -/
structure Env.Twins (k : Copy) (env env' : Env) : Prop where
  hierarchy : env'.hierarchy = env.hierarchy
  result : env'.result = env.result
  nested : env.Nested
  exits : Exit.Twins k [] env.exits env'.exits (Exit.blocks env.exits)

theorem Env.Twins.loop (h : env.Twins k env') (stop next : Label) :
    (env.inside (.loop stop next)).Twins k (env'.inside (.loop stop next)) :=
  ⟨h.hierarchy, h.result, .loop stop next h.nested, .loop stop next h.exits⟩

theorem Env.Twins.switch (h : env.Twins k env') (stop : Label) :
    (env.inside (.switch stop)).Twins k (env'.inside (.switch stop)) :=
  ⟨h.hierarchy, h.result, .switch stop h.nested, .switch stop h.exits⟩

theorem Env.Twins.guarded (h : env.Twins k env') {final : Option (Block Stmt)} {scope : Label}
    (hnew : scope ∉ (Exit.blocks env.exits).map (·.1)) {parts : List Stmt}
    (hfinal : FinalTwins k (Exit.blocks env.exits) parts (finalBlock env final)
      (finalBlock env' final)) :
    (env.inside (.guarded scope (finalBlock env final))).Twins k
      (env'.inside (.guarded scope (finalBlock env' final))) :=
  ⟨h.hierarchy, h.result, .guarded final h.nested hnew, .guarded h.exits hnew hfinal⟩

/-- Code that is orderly where the exits are. -/
def OrderlyIn {α : Type} (k : Copy) (parts : List Stmt) (x : Env → Lowering α) : Prop :=
  ∀ {known : List Label} {env env' : Env}, env.Twins k env' →
    Orderly k known (Exit.blocks env.exits) parts (x env) (x env')

/-! ## Simple statements -/

theorem breakStmt_orderly (line : Nat) : OrderlyIn k [] (breakStmt · line) := fun h =>
  Exit.sameTarget_leave _ _ h.exits.breakTarget?

theorem continueStmt_orderly (line : Nat) : OrderlyIn k [] (continueStmt · line) := fun h =>
  Exit.sameTarget_leave _ _ h.exits.continueTarget?

theorem returnStmt_orderly (value : Option Expr) : OrderlyIn k [] (returnStmt · value) := by
  intro known env env' h
  cases value with
  | none => exact h.exits.leave .finish known
  | some e =>
    simp only [returnStmt, h.hierarchy, h.result, h.exits.any_hasFinal]
    refine .after (expr_quiet _ _ e) fun _ => .ite ?_ (.quiet (instr_quiet _))
    refine .after (newSlot_quiet _) fun slot => .after (access_quiet _ _) fun _ => ?_
    exact h.exits.leave (.result _ _) known

theorem addGroups_quiet (t : Targets) (groups : List (List SwitchLabel)) :
    Quiet (t.addGroups groups) := by
  intro s a h
  obtain ⟨ha, -⟩ := Targets.addGroups_eq_ok h
  rw [ha]
  exact ⟨Nat.le_add_right _ _, rfl⟩

section

variable {parts : List Stmt} {x x' : Option (Lowering Unit)} (h : FinalTwins k around parts x x')

include h

theorem blockEnd_orderly (abrupt : Bool) (done : Label) :
    Orderly k known around [] (blockEnd abrupt x done) (blockEnd abrupt x' done) :=
  .ite (.quiet .pure) (((h.getD known).before fun _ => instr_quiet _).sub (List.nil_subset _))

theorem finalHandler?_orderly (guarded : List (Label × Label)) :
    Orderly k known around parts (finalHandler? guarded x) (finalHandler? guarded x') := by
  cases h with
  | none => exact .quiet .pure
  | some h =>
    refine .newLabel fun target _ _ => .after (mark_quiet _) fun _ => ?_
    refine .after (guard_quiet _ _ _) fun _ => .after (newSlot_quiet _) fun slot => ?_
    refine .after (access_quiet _ _) fun _ => (h _).before fun _ => ?_
    exact (access_quiet _ _).bind fun _ => instr_quiet _

end

/-! ## Statements -/

mutual

/-- The code of a statement is orderly, whatever is around it. -/
theorem stmt_orderly : ∀ s : Stmt, OrderlyIn k s.children (stmt · s)
  | .blockStmt body => block_orderly body
  | .ifStmt line test thenBranch none => fun h => by
    simp only [stmt_if_none, h.hierarchy]
    refine .newLabel fun stop _ _ => .after (expr_quiet _ _ test) fun _ => ?_
    exact ((stmt_orderly thenBranch h).self h.nested).before fun _ => mark_quiet stop
  | .ifStmt line test thenBranch (some elseBranch) => fun h => by
    simp only [stmt_if_some, h.hierarchy]
    show Orderly _ _ _ ([thenBranch] ++ [elseBranch]) _ _
    refine .newLabel fun stop _ _ => .newLabel fun otherwise _ _ => ?_
    refine .after (expr_quiet _ _ test) fun _ => ?_
    refine ((stmt_orderly thenBranch h).self h.nested).bind fun _ => ?_
    refine .after (.ite .pure (instr_quiet _)) fun _ => .after (mark_quiet _) fun _ => ?_
    exact ((stmt_orderly elseBranch h).self h.nested).before fun _ => mark_quiet stop
  | .whileStmt line test body => fun h => by
    simp only [stmt, h.hierarchy]
    refine .newLabel fun top _ _ => .newLabel fun stop _ _ => .after (mark_quiet _) fun _ => ?_
    have hinside := h.loop stop top
    refine .after (expr_quiet _ _ test) fun _ => ?_
    refine ((stmt_orderly body hinside).self hinside.nested).before fun _ => ?_
    exact (instr_quiet _).bind fun _ => mark_quiet stop
  | .doStmt line body test => fun h => by
    simp only [stmt, h.hierarchy]
    refine .newLabel fun top _ _ => .newLabel fun next _ _ => .newLabel fun stop _ _ => ?_
    have hinside := h.loop stop next
    refine .after (mark_quiet _) fun _ => ?_
    refine ((stmt_orderly body hinside).self hinside.nested).before fun _ => ?_
    exact (mark_quiet _).bind fun _ => (expr_quiet _ _ test).bind fun _ => mark_quiet stop
  | .forStmt line init test update body => fun h => by
    simp only [stmt_for, h.hierarchy]
    have hparts : init ++ update ++ [body] ⊆ init ++ ([body] ++ update) := by
      intro t
      simp [or_comm, or_left_comm]
    refine .sub ((stmts_orderly init h).bind fun _ => .newLabel fun top _ _ => ?_) hparts
    refine .newLabel fun next _ _ => .newLabel fun stop _ _ => .after (mark_quiet _) fun _ => ?_
    have hinside := h.loop stop next
    refine .after (test?_quiet _ _ test) fun _ => ?_
    refine ((stmt_orderly body hinside).self hinside.nested).bind fun _ => ?_
    refine .after (mark_quiet _) fun _ => (stmts_orderly update h).before fun _ => ?_
    exact (instr_quiet _).bind fun _ => mark_quiet stop
  | .switchStmt line value groups => fun h => by
    simp only [stmt, h.hierarchy]
    refine .after (expr_quiet _ _ value) fun _ => .newLabel fun stop _ _ => ?_
    refine .after_of_run (addGroups_quiet _ _) fun hrun => .after (instr_quiet _) fun _ => ?_
    refine (switchGroups_orderly groups _ (Nat.le_of_eq ?_) (h.switch stop)).before fun _ => ?_
    · simp [(Targets.addGroups_eq_ok hrun).2.1, created]
    · exact mark_quiet stop
  | .tryStmt line body catches last => fun h => by
    simp only [stmt_try]
    have hlast := finalBlock_orderly last h
    refine .newLabel fun start hne hnew => .newLabel fun stop _ _ => .newLabel fun done _ _ => ?_
    refine .after (mark_quiet _) fun _ => ?_
    have hinside := h.guarded hnew hlast
    show Orderly _ _ _ (body.stmts ++ _ ++ _) _ _
    rw [List.append_assoc]
    refine (Orderly.takeGaps (by simp) hne (block_orderly body hinside)).bind fun gaps => ?_
    refine .after (mark_quiet _) fun _ => ?_
    refine (blockEnd_orderly hlast _ _).bind fun _ => ?_
    refine (catchClauses_orderly catches h hlast _ _).bind fun more => ?_
    exact (finalHandler?_orderly hlast _).before fun _ => mark_quiet done
  | .throwStmt line e => fun h => by
    simp only [stmt, h.hierarchy]
    exact .quiet ((expr_quiet _ _ e).bind fun _ => instr_quiet _)
  | .returnStmt line value => returnStmt_orderly value
  | .breakStmt line => breakStmt_orderly line
  | .continueStmt line => continueStmt_orderly line
  | .emptyStmt line => fun _ => .quiet .pure
  | .exprStmt line e => fun h => by
    simp only [stmt, h.hierarchy]
    exact .quiet (expr_quiet _ _ e)
  | .localsStmt line vars => fun h => by
    simp only [stmt, h.hierarchy]
    exact .quiet (forM_quiet (initial_quiet _) vars)

theorem block_orderly : ∀ b : Block Stmt, OrderlyIn k b.stmts (block · b)
  | ⟨_, ss⟩ => stmts_orderly ss

theorem stmts_orderly : ∀ ss : List Stmt, OrderlyIn k ss (stmts · ss)
  | [] => fun _ => .quiet .pure
  | s :: ss => fun h => ((stmt_orderly s h).self h.nested).bind fun _ => stmts_orderly ss h

theorem finalBlock_orderly : ∀ (b : Option (Block Stmt)) {env env' : Env}, env.Twins k env' →
    FinalTwins k (Exit.blocks env.exits) (b.toList.flatMap Block.stmts) (finalBlock env b)
      (finalBlock env' b)
  | none, _, _, _ => .none
  | some b, _, _, h => .some fun _ => (block_orderly b h).sub (by simp)

theorem switchGroups_orderly : ∀ (gs : List (SwitchGroup Stmt)) (labels : List Label),
    gs.length ≤ labels.length →
    OrderlyIn k (gs.flatMap SwitchGroup.stmts) (switchGroups · labels gs)
  | [], _, _ => fun _ => .quiet .pure
  | _ :: _, [], hlength => nomatch hlength
  | g :: gs, l :: ls, hlength => fun h => .after (mark_quiet l) fun _ =>
    (switchGroup_orderly g h).bind fun _ =>
      switchGroups_orderly gs ls (Nat.le_of_succ_le_succ hlength) h

theorem switchGroup_orderly : ∀ g : SwitchGroup Stmt, OrderlyIn k g.stmts (switchGroup · g)
  | ⟨_, body⟩ => stmts_orderly body

theorem catchClause_orderly :
    ∀ (c : CatchClause Stmt) {known} {env env' : Env}, env.Twins k env' → ∀ {parts final},
    FinalTwins k (Exit.blocks env.exits) parts (finalBlock env final) (finalBlock env' final) →
    ∀ guarded done, Orderly k known (Exit.blocks env.exits) c.body.stmts
      (catchClause env (finalBlock env final) guarded done c)
      (catchClause env' (finalBlock env' final) guarded done c)
  | ⟨line, param, body⟩, known, env, env', h, parts, final, hfinal, guarded, done => by
    cases hslot : param.slot with
    | none =>
      simp only [catchClause, hslot]
      refine .newLabel fun target _ _ => .after (mark_quiet _) fun _ => ?_
      exact .after (guard_quiet _ _ _) fun _ => Orderly.fail
    | some slot =>
      rw [catchClause_eq hslot, catchClause_eq hslot]
      refine .newLabel fun target _ _ => .after (mark_quiet _) fun _ => ?_
      refine .after (guard_quiet _ _ _) fun _ => .after (access_quiet _ _) fun _ => ?_
      refine .newLabel fun start hne hnew => .newLabel fun stop _ _ => ?_
      refine .after (mark_quiet _) fun _ => ?_
      have hinside := h.guarded hnew hfinal
      refine .sub ((Orderly.takeGaps (by simp) hne (block_orderly body hinside)).bind
        fun gaps => ?_) (List.subset_append_left _ [])
      exact .after (mark_quiet _) fun _ => (blockEnd_orderly hfinal _ _).before fun _ => .pure

theorem catchClauses_orderly :
    ∀ (cs : List (CatchClause Stmt)) {known} {env env' : Env}, env.Twins k env' → ∀ {parts final},
    FinalTwins k (Exit.blocks env.exits) parts (finalBlock env final) (finalBlock env' final) →
    ∀ guarded done, Orderly k known (Exit.blocks env.exits) (cs.flatMap (·.body.stmts))
      (catchClauses env (finalBlock env final) guarded done cs)
      (catchClauses env' (finalBlock env' final) guarded done cs)
  | [], _, _, _, _, _, _, _, _, _ => .quiet .pure
  | c :: cs, _, _, _, h, _, _, hfinal, guarded, done =>
    (catchClause_orderly c h hfinal guarded done).bind fun _ =>
      (catchClauses_orderly cs h hfinal guarded done).before fun _ => .pure

end

end JMinusMinus.Lowering
