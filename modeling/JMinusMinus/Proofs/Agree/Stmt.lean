import JMinusMinus.Proofs.Agree.Expr

/-!
# Statements in contexts that are alike

Statements open and close scopes and declare variables. They do so alike in contexts that are
alike.
-/

namespace JMinusMinus.Analysis

open Context (Alike Similar)

/-! ## Scopes and variables -/

theorem Alike.setScopes (h : Alike c d) {f : List (List LocalVar) → List (List LocalVar)} :
    Alike { c with scopes := f c.scopes } { d with scopes := f d.scopes } :=
  ⟨⟨⟨h.hierarchy, h.package, h.names, h.mayDelegate⟩, h.className⟩, h.method,
    congrArg f h.scopes, h.jumps⟩

theorem pushScope_agrees : AgreesAlike pushScope :=
  .modify (fun _ => rfl) (fun _ => ⟨rfl, rfl, rfl, id⟩) fun _ _ h =>
    Alike.setScopes h

theorem popScope_agrees : AgreesAlike popScope :=
  .modify (fun _ => rfl) (fun _ => ⟨rfl, rfl, rfl, id⟩) fun _ _ h =>
    Alike.setScopes h

theorem enterJump_agrees (target : JumpTarget) : AgreesAlike (enterJump target) :=
  .modify (fun _ => rfl) (fun _ => ⟨rfl, rfl, rfl, id⟩) fun _ _ h =>
    ⟨⟨⟨h.hierarchy, h.package, h.names, h.mayDelegate⟩, h.className⟩, h.method, h.scopes,
      congrArg (target :: ·) h.jumps⟩

theorem leaveJump_agrees : AgreesAlike leaveJump :=
  .modify (fun _ => rfl) (fun _ => ⟨rfl, rfl, rfl, id⟩) fun _ _ h =>
    ⟨⟨⟨h.hierarchy, h.package, h.names, h.mayDelegate⟩, h.className⟩, h.method, h.scopes,
      congrArg List.tail h.jumps⟩

/-- The declaration of a variable whose name is not looked at. -/
def placeLocal (name : String) (ty : Ty) : Analysis Nat := do
  let c ← get
  match c.method with
  | some m =>
    let nextSlot ← addSlots m.nextSlot ty.slots
    set { c with
      method := some { m with nextSlot }
      scopes := addLocal ⟨name, ty, m.nextSlot⟩ c.scopes }
    return m.nextSlot
  | none => return 0

theorem declareLocal_eq (line : Nat) (name : String) (ty : Ty) :
    declareLocal line name ty = (do
      let c ← get
      if (c.local? name).isSome then do
        report line (.redefined name)
        placeLocal name ty
      else placeLocal name ty) := rfl

theorem placeLocal_run (name : String) (ty : Ty) (c : Context) : placeLocal name ty c =
      match c.method with
      | some m =>
        match addSlots m.nextSlot ty.slots with
        | .ok nextSlot => .ok (m.nextSlot, { c with
            method := some { m with nextSlot }
            scopes := addLocal ⟨name, ty, m.nextSlot⟩ c.scopes })
        | .error f => .error f
      | none => .ok (0, c) := by
  simp only [placeLocal, bind, StateT.bind, get, getThe, MonadStateOf.get, StateT.get, Except.bind,
    pure, Except.pure]
  cases c.method with
  | none => rfl
  | some m =>
    cases haddSlots : addSlots m.nextSlot ty.slots <;>
      simp [haddSlots, StateT.bind, liftM, monadLift, MonadLift.monadLift, StateT.lift, bind,
        Except.bind, set, MonadStateOf.set, StateT.set, pure, StateT.pure, Except.pure]

theorem placeLocal_agrees (name : String) (ty : Ty) : AgreesAlike (placeLocal name ty) := by
  intro c d h
  rw [placeLocal_run, placeLocal_run, h.method]
  cases c.method with
  | none => exact .inl ⟨0, c, d, [], rfl, rfl, h, rfl, rfl, .refl c⟩
  | some m =>
    dsimp only
    cases addSlots m.nextSlot ty.slots with
    | error f => exact .inr ⟨f, rfl, rfl⟩
    | ok nextSlot =>
      refine .inl ⟨_, _, _, [], rfl, rfl, ?_, rfl, rfl, rfl, rfl, rfl, id⟩
      exact ⟨⟨⟨h.hierarchy, h.package, h.names, h.mayDelegate⟩, h.className⟩, rfl,
        congrArg (addLocal _) h.scopes, h.jumps⟩

theorem declareLocal_agrees (line : Nat) (name : String) (ty : Ty) :
    AgreesAlike (declareLocal line name ty) := by
  rw [declareLocal_eq]
  refine .get_bind fun c d h => ?_
  rw [h.similar.local?]
  exact .reportIf rfl (placeLocal_agrees name ty)

theorem localVar_agrees (d : Declarator) : AgreesAlike (localVar d) := by
  have hdeclare : ∀ (ty : Ty) (init : Option Expr), AgreesAlike
      (declareLocal d.line d.name ty >>= fun slot =>
        pure { d with ty, init, slot := some slot }) :=
    fun ty init => .bind (declareLocal_agrees d.line d.name ty) fun _ => .pure
  refine .bind (resolveType_similar d.line d.ty).alike fun ty => .reportIf rfl ?_
  cases d.init with
  | none => exact hdeclare ty none
  | some e => exact .bind (expr_agrees (.initial ty) e) fun e => hdeclare ty (some e)

/-! ## Parts of statements -/

theorem returnValue_agrees (line : Nat) (value : Option Expr) :
    AgreesAlike (returnValue line value) := by
  refine .get_bind fun c d h => ?_
  rw [h.method]
  cases value with
  | none => exact .reportIf rfl .pure
  | some e =>
    refine .bind (expr_agrees .value e) fun e => .ite ?_ ?_
    · exact .bind (Reads.report rfl).agrees fun _ => .pure
    · exact .bind (coerce_reads _ e).alike fun _ => .pure

theorem caseValue_agrees (e : Expr) : AgreesAlike (caseValue e) := by
  unfold caseValue
  split
  · exact .lift
  · exact .lift
  · exact .pure

theorem switchLabel_agrees (cases : Cases) (l : SwitchLabel) :
    AgreesAlike (switchLabel cases l) := by
  cases l with
  | case e =>
    refine .bind (expr_agrees .value e) fun e => .bind (caseValue_agrees e) fun value => ?_
    cases value with
    | none => exact .reportUnless rfl .pure
    | some value => exact .ite (.bind (Reads.report rfl).agrees fun _ => .pure) .pure
  | otherwise line =>
    unfold switchLabel
    exact .reportIf rfl .pure

theorem switchLabels_agrees : ∀ cases ls, AgreesAlike (switchLabels cases ls)
  | _, [] => .pure
  | cases, l :: ls => .bind (switchLabel_agrees cases l) fun res =>
    .bind (switchLabels_agrees res.2 ls) fun _ => .pure

theorem selector_agrees (e : Expr) : AgreesAlike (selector e) :=
  .bind (expr_agrees .value e) fun _ => .reportUnless rfl .pure

theorem condition?_agrees (e : Option Expr) : AgreesAlike (condition? e) := by
  cases e with
  | some e => exact .bind (expr_agrees .condition e) fun _ => .pure
  | none => exact .pure

/-! ## Statements -/

mutual

/-- Analysis of a statement depends only on what contexts that are alike share. -/
theorem stmt_agrees : ∀ s, AgreesAlike (stmt s)
  | .blockStmt body => .bind (block_agrees body) fun _ => .pure
  | .ifStmt _ test thenBranch elseBranch => .bind (expr_agrees .condition test) fun _ =>
    .bind (stmt_agrees thenBranch) fun _ => .bind (stmt?_agrees elseBranch) fun _ => .pure
  | .whileStmt _ test body => .bind (expr_agrees .condition test) fun _ =>
    .bind (enterJump_agrees .loop) fun _ => .bind (stmt_agrees body) fun _ =>
    .bind leaveJump_agrees fun _ => .pure
  | .doStmt _ body test => .bind (enterJump_agrees .loop) fun _ =>
    .bind (stmt_agrees body) fun _ => .bind leaveJump_agrees fun _ =>
    .bind (expr_agrees .condition test) fun _ => .pure
  | .forStmt _ init test update body => .bind pushScope_agrees fun _ =>
    .bind (stmts_agrees init) fun _ => .bind (condition?_agrees test) fun _ =>
    .bind (stmts_agrees update) fun _ => .bind (enterJump_agrees .loop) fun _ =>
    .bind (stmt_agrees body) fun _ => .bind leaveJump_agrees fun _ =>
    .bind popScope_agrees fun _ => .pure
  | .switchStmt _ value groups => .bind (selector_agrees value) fun _ =>
    .bind (enterJump_agrees .switch) fun _ => .bind pushScope_agrees fun _ =>
    .bind (switchGroups_agrees {} groups) fun _ => .bind popScope_agrees fun _ =>
    .bind leaveJump_agrees fun _ => .pure
  | .tryStmt _ body catches final => .bind (block_agrees body) fun _ =>
    .bind (catchClauses_agrees catches) fun _ => .bind (block?_agrees final) fun _ => .pure
  | .throwStmt _ e => .bind (expr_agrees .value e) fun _ => .reportUnless rfl .pure
  | .returnStmt line value => .bind (returnValue_agrees line value) fun _ => .pure
  | .breakStmt _ => .get_bind fun c d h => by
    rw [h.similar.canBreak]
    exact .reportUnless rfl .pure
  | .continueStmt _ => .get_bind fun c d h => by
    rw [h.similar.canContinue]
    exact .reportUnless rfl .pure
  | .emptyStmt _ => .pure
  | .exprStmt _ e => .bind (expr_agrees .value e) fun _ => .pure
  | .localsStmt _ vars => .bind (.mapM fun d _ => localVar_agrees d) fun _ => .pure

theorem stmt?_agrees : ∀ s, AgreesAlike (stmt? s)
  | some s => .bind (stmt_agrees s) fun _ => .pure
  | none => .pure

theorem stmts_agrees : ∀ ss, AgreesAlike (stmts ss)
  | s :: ss => .bind (stmt_agrees s) fun _ => .bind (stmts_agrees ss) fun _ => .pure
  | [] => .pure

theorem block_agrees : ∀ b, AgreesAlike (block b)
  | ⟨_, body⟩ => .bind pushScope_agrees fun _ => .bind (stmts_agrees body) fun _ =>
    .bind popScope_agrees fun _ => .pure

theorem block?_agrees : ∀ b, AgreesAlike (block? b)
  | some b => .bind (block_agrees b) fun _ => .pure
  | none => .pure

theorem catchClause_agrees : ∀ c, AgreesAlike (catchClause c)
  | ⟨_, param, body⟩ => .bind pushScope_agrees fun _ =>
    .bind (resolveType_similar param.line param.ty).alike fun ty =>
    .bind (declareLocal_agrees param.line param.name ty) fun _ =>
    .bind (block_agrees body) fun _ => .bind popScope_agrees fun _ => .pure

theorem catchClauses_agrees : ∀ cs, AgreesAlike (catchClauses cs)
  | c :: cs => .bind (catchClause_agrees c) fun _ => .bind (catchClauses_agrees cs) fun _ => .pure
  | [] => .pure

theorem switchGroup_agrees (cases : Cases) : ∀ g,
    AgreesAlike (switchGroup cases g)
  | ⟨labels, body⟩ => .bind (switchLabels_agrees cases labels) fun _ =>
    .bind (stmts_agrees body) fun _ => .pure

theorem switchGroups_agrees (cases : Cases) : ∀ gs,
    AgreesAlike (switchGroups cases gs)
  | g :: gs => .bind (switchGroup_agrees cases g) fun res =>
    .bind (switchGroups_agrees res.2 gs) fun _ => .pure
  | [] => .pure

end

end JMinusMinus.Analysis
