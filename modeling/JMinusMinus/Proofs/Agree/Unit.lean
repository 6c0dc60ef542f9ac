import JMinusMinus.Proofs.Agree.Stmt

/-!
# Types in contexts that are alike

Between types it does not matter which class, method or scopes were left last: each body enters
its own. So the bodies of a type are analyzed alike in contexts that have the same headers and
bound names (`typeBody_agrees`).
-/

namespace JMinusMinus.Analysis

open Context (Alike AlikeInClass AlikeOutside)

/-! ## Methods -/

theorem enterMethod_agrees (isStatic isCtor : Bool) (result : Ty) :
    Agrees AlikeInClass Alike (enterMethod isStatic isCtor result)
      (enterMethod isStatic isCtor result) :=
  .modify (fun _ => rfl) (fun _ => ⟨rfl, rfl, rfl, id⟩) fun _ _ h =>
    ⟨⟨⟨h.hierarchy, h.package, h.names, h.mayDelegate⟩, h.className⟩, rfl, rfl, rfl⟩

theorem leaveMethod_agrees : Agrees Alike AlikeInClass leaveMethod leaveMethod := by
  refine .get_bind fun c d h => ?_
  rw [h.method]
  have hleave : Agrees Alike AlikeInClass
      (modify fun c => { c with method := none, scopes := [] } : Analysis PUnit)
      (modify fun c => { c with method := none, scopes := [] }) :=
    .modify (fun _ => rfl) (fun _ => ⟨rfl, rfl, rfl, id⟩) fun _ _ h =>
      ⟨⟨h.hierarchy, h.package, h.names, h.mayDelegate⟩, h.className⟩
  exact .bind hleave fun _ => .pure

theorem declareParams_agrees (params : List Param) : AgreesAlike (declareParams params) :=
  .mapM fun p _ => .bind (declareLocal_agrees p.line p.name p.ty) fun _ => .pure

theorem fieldVar_agrees (isStatic : Bool) (d : Declarator) :
    Agrees AlikeInClass AlikeInClass (fieldVar isStatic d) (fieldVar isStatic d) := by
  unfold fieldVar
  split
  · exact .pure
  · refine .bind (enterMethod_agrees isStatic false .void) fun _ =>
      .bind (expr_agrees (.initial d.ty) _) fun _ => ?_
    exact .bind leaveMethod_agrees.discarded fun _ => .pure

theorem methodBody_agrees (m : MethodDecl) (body : Block Stmt) : AgreesAlike (methodBody m body) :=
  .bind (block_agrees body) fun _ => .reportIf rfl .pure

theorem checkBody_reads {Q : Context → Context → Prop} (m : MethodDecl) :
    ReadsSame Q (checkBody m) := by
  unfold checkBody
  split
  · exact .report rfl
  · exact .report rfl
  · exact .pure

theorem method_agrees (m : MethodDecl) :
    Agrees AlikeInClass AlikeInClass (method m) (method m) := by
  have hleave : ∀ (params : List Param) (body : Option (Block Stmt)), Agrees Alike AlikeInClass
      (leaveMethod >>= fun locals => pure { m with params, body, locals })
      (leaveMethod >>= fun locals => pure { m with params, body, locals }) :=
    fun _ _ => .bind leaveMethod_agrees fun _ => .pure
  refine .bind (checkBody_reads m).agrees fun _ => .bind (enterMethod_agrees _ false m.result)
    fun _ => .bind (declareParams_agrees m.params) fun params => ?_
  cases m.body with
  | none => exact hleave params none
  | some body => exact .bind (methodBody_agrees m body) fun body => hleave params (some body)

theorem ctorStmts_agrees (ss : List Stmt) : AgreesAlike (ctorStmts ss) := by
  cases ss with
  | nil => exact .pure
  | cons s ss =>
    intro c d h
    have hmay : ∀ (b : Bool) {c d : Context}, Alike c d →
        Alike { c with mayDelegate := b } { d with mayDelegate := b } := fun _ _ _ h =>
      ⟨⟨⟨h.hierarchy, h.package, h.names, rfl⟩, h.className⟩, h.method, h.scopes, h.jumps⟩
    have hrest : ∀ s : Stmt, AgreesAlike (stmts ss >>= fun ss => pure (s :: ss)) :=
      fun _ => .bind (stmts_agrees ss) fun _ => .pure
    have hrun : ∀ c : Context, ctorStmts (s :: ss) c =
        (stmt s >>= fun s => (fun c => (stmts ss >>= fun ss => pure (s :: ss) : Analysis _)
          { c with mayDelegate := false }) : Analysis (List Stmt))
          { c with mayDelegate := true } := fun _ => rfl
    rw [hrun, hrun]
    rcases stmt_agrees s _ _ (hmay true h) with
      ⟨s', c₁, d₁, new, hc₁, hd₁, h₁, hlogc, hlogd, hkept⟩ | ⟨f, hc, hd⟩
    · rw [bind_run hc₁, bind_run hd₁]
      rcases hrest s' _ _ (hmay false h₁) with
        ⟨ss', c₂, d₂, later, hc₂, hd₂, h₂, hlogc', hlogd', hkept'⟩ | herror
      · refine .inl ⟨ss', c₂, d₂, later ++ new, hc₂, hd₂, h₂, ?_, ?_,
          hkept'.hierarchy.trans hkept.hierarchy, hkept'.package.trans hkept.package,
          hkept'.names.trans hkept.names, fun h => absurd (hkept'.mayDelegate h) nofun⟩
        · rw [hlogc', hlogc, List.append_assoc]
        · rw [hlogd', hlogd, List.append_assoc]
      · exact .inr herror
    · exact .inr ⟨f, bind_error hc, bind_error hd⟩

theorem ctor_agrees (class_ : String) (c : ConstructorDecl) :
    Agrees AlikeInClass AlikeInClass (ctor class_ c) (ctor class_ c) := by
  unfold ctor
  exact .reportIf rfl (.bind (enterMethod_agrees false true .void) fun _ =>
    .bind (declareParams_agrees c.params) fun _ => .bind pushScope_agrees fun _ =>
    .bind (ctorStmts_agrees _) fun _ => .bind popScope_agrees fun _ =>
    .bind leaveMethod_agrees fun _ => .pure)

theorem member_agrees (class_ : String) :
    ∀ m : Member, Agrees AlikeInClass AlikeInClass (member class_ m) (member class_ m)
  | .field _ => .bind (.mapM fun d _ => fieldVar_agrees _ d) fun _ => .pure
  | .method m => .bind (method_agrees m) fun _ => .pure
  | .ctor c => .bind (ctor_agrees class_ c) fun _ => .pure

/-! ## Types -/

theorem checkConcrete_reads {Q : Context → Context → Prop} [LogFree Q]
    (hQ : ∀ c d, Q c d → c.hierarchy.Alike d.hierarchy) (name : String) (d : ClassDecl) :
    ReadsSame Q (checkConcrete name d) := by
  refine .bind (.forM fun m _ => ?_) fun _ => .get_bind fun c d' h => ?_
  · cases m with
    | method m => exact .ite (.report rfl) .pure
    | _ => exact .pure
  · rw [(hQ c d' h).unimplemented]
    exact .forM fun m _ => .ite (.report rfl) .pure

theorem enterClass_agrees (name : String) :
    Agrees AlikeOutside AlikeInClass (enterClass name) (enterClass name) :=
  .modify (fun _ => rfl) (fun _ => ⟨rfl, rfl, rfl, id⟩) fun _ _ h =>
    ⟨⟨h.hierarchy, h.package, h.names, h.mayDelegate⟩, rfl⟩

theorem leaveClass_agrees : Agrees AlikeInClass AlikeOutside leaveClass leaveClass :=
  .modify (fun _ => rfl) (fun _ => ⟨rfl, rfl, rfl, id⟩) fun _ _ h =>
    ⟨h.hierarchy, h.package, h.names, h.mayDelegate⟩

theorem members_agree (class_ : String) (members : List Member) :
    Agrees AlikeInClass AlikeInClass (members.mapM (member class_))
      (members.mapM (member class_)) :=
  .mapM fun m _ => member_agrees class_ m

theorem classBody_agrees (d : ClassDecl) :
    Agrees AlikeOutside AlikeOutside (classBody d) (classBody d) := by
  have hmembers : Agrees AlikeInClass AlikeOutside
      ((withCtor d.line d.name d.members).mapM (member d.name) >>= fun members =>
        leaveClass >>= fun _ => pure { d with members })
      ((withCtor d.line d.name d.members).mapM (member d.name) >>= fun members =>
        leaveClass >>= fun _ => pure { d with members }) :=
    .bind (members_agree d.name _) fun _ => .bind leaveClass_agrees fun _ => .pure
  refine .get_bind fun c d' h => ?_
  rw [h.sameNames.qualify]
  have hcheck : Agrees AlikeInClass AlikeInClass (checkConcrete (c.qualify d.name) d) _ :=
    (checkConcrete_reads (fun _ _ h => h.hierarchy) _ d).agrees
  exact .bind (enterClass_agrees _) fun _ => .ite hmembers (.bind hcheck fun _ => hmembers)

theorem interfaceBody_agrees (d : InterfaceDecl) :
    Agrees AlikeOutside AlikeOutside (interfaceBody d) (interfaceBody d) := by
  refine .get_bind fun c d' h => ?_
  rw [h.sameNames.qualify]
  exact .bind (enterClass_agrees _) fun _ => .bind (members_agree d.name _) fun _ =>
    .bind leaveClass_agrees fun _ => .pure

/-- So does the analysis of a type. -/
theorem typeBody_agrees : ∀ d : TypeDecl, Agrees AlikeOutside AlikeOutside (typeBody d) (typeBody d)
  | .classDecl d => .bind (classBody_agrees d) fun _ => .pure
  | .interfaceDecl d => .bind (interfaceBody_agrees d) fun _ => .pure

end JMinusMinus.Analysis
