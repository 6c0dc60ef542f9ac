import JMinusMinus.Proofs.Settled.Expr

/-!
# Analysis settles statements

A written statement that is analyzed without a report is settled in the frame of its body. The
induction is on the written tree, as for expressions.

* A declaration takes the next slot. So the variables of a body have slots that do not overlap,
  whether or not their scopes do.
* Around a loop or a switch the jump targets of the context are those of the statement.
* The labels of a switch are followed by what is known of those before them (`Cases.Takes`).
-/

namespace JMinusMinus

theorem Vars.Within.cons {fr : Frame} {v : Vars} {bound : Nat} {t : Ty}
    (h : v.Within fr bound) (ht : t.isProper) :
    Vars.Within ((bound, t) :: v) fr (bound + t.slots) where
  first := Nat.le_add_right_of_le h.first
  proper := by simpa using ⟨ht, fun a b hx => h.proper (a, b) hx⟩
  lower := by simpa using ⟨h.first, fun a b hx => h.lower (a, b) hx⟩
  upper := by
    intro x hx
    rcases List.mem_cons.1 hx with rfl | hx
    · exact Nat.le_refl _
    · exact Nat.le_add_right_of_le (h.upper x hx)
  apart := List.pairwise_cons.2 ⟨fun x hx => .inr (h.upper x hx), h.apart⟩

namespace Analysis

variable {fr : Frame} {jumps : List JumpTarget} {F : Vars → Prop}

/-! ## Scopes and jumps -/

theorem pushScope_settles : SettlesIn fr jumps F pushScope fun _ _ => True := by
  refine modify_settles (fun _ => rfl) fun v c hc => ?_
  refine ⟨⟨hc.hierarchy, hc.package, hc.names, hc.className, hc.method, ?_, hc.jumps⟩, hc.good⟩
  intro scope hscope x hx
  rcases List.mem_cons.1 hscope with rfl | hscope
  · cases hx
  · exact hc.visible scope hscope x hx

theorem popScope_settles : SettlesIn fr jumps F popScope fun _ _ => True := by
  refine modify_settles (fun _ => rfl) fun v c hc => ?_
  exact ⟨⟨hc.hierarchy, hc.package, hc.names, hc.className, hc.method,
    fun scope hscope => hc.visible scope (List.mem_of_mem_tail hscope), hc.jumps⟩, hc.good⟩

theorem enterJump_settles (target : JumpTarget) :
    Settles (InFrame fr jumps) F (enterJump target) (InFrame fr (target :: jumps))
      fun _ _ => True := by
  refine modify_settles (fun _ => rfl) fun v c hc => ?_
  exact ⟨⟨hc.hierarchy, hc.package, hc.names, hc.className, hc.method, hc.visible,
    by simp [hc.jumps]⟩, hc.good⟩

theorem leaveJump_settles (target : JumpTarget) :
    Settles (InFrame fr (target :: jumps)) F leaveJump (InFrame fr jumps) fun _ _ => True := by
  refine modify_settles (fun _ => rfl) fun v c hc => ?_
  exact ⟨⟨hc.hierarchy, hc.package, hc.names, hc.className, hc.method, hc.visible,
    by simp [hc.jumps]⟩, hc.good⟩

/-! ## Variables -/

theorem mem_addLocal (hscope : scope ∈ addLocal x scopes) (hy : y ∈ scope) :
    y = x ∨ ∃ scope' ∈ scopes, y ∈ scope' := by
  cases scopes with
  | nil => cases hscope
  | cons s ss =>
    rcases List.mem_cons.1 hscope with rfl | hscope
    · rcases List.mem_cons.1 hy with rfl | hy
      · exact .inl rfl
      · exact .inr ⟨s, by simp, hy⟩
    · exact .inr ⟨scope, by simp [hscope], hy⟩

/-- A new variable gets the next slots. -/
theorem declareLocal_inMember (line : Nat) (name : String) (t : Ty) :
    Settles (InMember fr jumps) (fun _ => t.isProper) (declareLocal line name t)
      (InMember fr jumps) fun w slot => (slot, t) ∈ w := by
  refine get_bind fun _ => reportIf_bind ?_
  intro c a c' hrun hlog
  simp only [bind, StateT.bind, get, getThe, MonadStateOf.get, StateT.get, Except.bind, pure,
    Except.pure] at hrun
  cases hm : c.method with
  | none =>
    simp only [hm] at hrun
    cases hrun
    refine ⟨hlog, fun v hc _ => ?_⟩
    obtain ⟨m, hm', -⟩ := hc.method
    simp [hm] at hm'
  | some m =>
    simp only [hm, addSlots] at hrun
    split at hrun
    · cases hrun
      refine ⟨hlog, fun v hc ht => ⟨(m.nextSlot, t) :: v, List.subset_cons_self _ _, ?_, ?_⟩⟩
      · obtain ⟨m', hm', hstatic, hresult, hctor, hwithin⟩ := hc.method
        cases hm.symm.trans hm'
        refine ⟨hc.hierarchy, hc.package, hc.names, hc.className,
          ⟨_, rfl, hstatic, hresult, hctor, ?_⟩, ?_, hc.jumps⟩
        · exact hwithin.cons (ht v (fun _ => id)).1.1
        · intro scope hscope y hy
          rcases mem_addLocal hscope hy with rfl | ⟨scope', hscope', hy⟩
          · exact List.mem_cons_self
          · exact List.mem_cons_of_mem _ (hc.visible scope' hscope' y hy)
      · exact fun w hw => hw List.mem_cons_self
    · cases hrun

theorem declareLocal_settles (line : Nat) (name : String) (t : Ty) :
    SettlesIn fr jumps (fun _ => t.isProper) (declareLocal line name t)
      fun w slot => (slot, t) ∈ w :=
  (declareLocal_inMember line name t).inFrame

theorem localVar_settles (d : Declarator) (hd : d.Written) : SettlesIn fr jumps F (localVar d)
      fun w d' => d'.Settled (fr.over w) := by
  refine .bind ((resolveType_settles InFrame.proper d.line d.ty).given fun _ _ => hd.storable)
    fun t => ?_
  refine reportIf_bind ?_
  -- The slot is taken after the first value, whatever that is.
  have hslot : ∀ init : Option Expr, SettlesIn fr jumps
      (fun w => t.isProper ∧ ∀ e ∈ init, e.SettledAs (fr.over w) t)
      (declareLocal d.line d.name t >>= fun slot =>
        pure { d with ty := t, init := init, slot := some slot })
          fun w d' => d'.Settled (fr.over w) := by
    intro init
    refine .bind ((declareLocal_settles d.line d.name t).given fun _ hw => hw.1) fun slot =>
      .pure fun w hw => ⟨⟨slot, rfl, hw.2⟩, hw.1.2⟩
  cases hinit : d.init with
  | none => exact (hslot none).given fun w hw => ⟨hw.1.2.1, nofun⟩
  | some e =>
    have he : e.Written true := by simpa [InitWritten, hinit] using hd.init
    refine .bind (expr_settles (.initial t) e he fun w hw => hw.1.2.1) fun e' => ?_
    refine (hslot (some e')).given fun w hw => ⟨hw.1.1.2.1, fun x hx => ?_⟩
    cases hx
    exact hw.2

theorem returnValue_settles (line : Nat) :
    ∀ value, TargetWritten value → SettlesIn fr jumps F (returnValue line value)
        fun w value' => Stmt.Settled (fr.over w) jumps (.returnStmt line value')
  | none, _ => by
    refine get_bind fun c => reportIf_bind (.pure ?_)
    rintro w ⟨⟨-, v, -, hc⟩, hvoid⟩
    obtain ⟨m, hm, -, hr, -⟩ := hc.method
    have : fr.result = .void := by simpa [hm, hr] using hvoid
    exact this
  | some e, h => by
    refine get_bind fun c => .bind (expr_settles .value e h fun _ _ => trivial) fun e' => ?_
    refine .ite (fun _ => report_bind .pure) fun hvoid => ?_
    have hsame : ∀ {v : Vars}, InFrame fr jumps v c →
        (c.method.map MethodScope.result).getD .void = fr.result := by
      intro v hc
      obtain ⟨m, hm, -, hr, -⟩ := hc.method
      simp [hm, hr]
    refine .bind ((coerce_settles _ e').given ?_) fun e'' => .pure ?_
    · rintro w ⟨⟨-, v, -, hc⟩, he'⟩
      rw [hsame hc]
      exact ⟨he', Ty.ne_any_of_isKnown (Ty.isKnown_of_isProperResult hc.good.result)⟩
    · rintro w ⟨⟨⟨-, v, -, hc⟩, -⟩, he''⟩
      rw [hsame hc] at he'' hvoid
      exact ⟨hvoid, he''⟩

/-! ## Labels of a switch -/

/-- How the labels that were met grow. -/
structure Cases.Takes (cases : Cases) (labels : List SwitchLabel) (cases' : Cases) : Prop where
  values : cases'.values = (labels.filterMap SwitchLabel.value?).reverse ++ cases.values
  distinct : cases.values.Nodup → cases'.values.Nodup
  otherwise : (labels.filter SwitchLabel.isOtherwise).length + cases.hasDefault.toNat =
    cases'.hasDefault.toNat

theorem Cases.Takes.nil {cases : Cases} : cases.Takes [] cases := ⟨rfl, id, by simp⟩

theorem Cases.Takes.append {cases₁ cases₂ cases₃ : Cases} {ls ls' : List SwitchLabel}
    (h : cases₁.Takes ls cases₂) (h' : cases₂.Takes ls' cases₃) :
    cases₁.Takes (ls ++ ls') cases₃ where
  values := by simp [h'.values, h.values]
  distinct := h'.distinct ∘ h.distinct
  otherwise := by
    have := h.otherwise
    have := h'.otherwise
    simp only [List.filter_append, List.length_append]
    omega

theorem Cases.Takes.settled {cases : Cases} {ls : List SwitchLabel}
    (h : Cases.Takes {} ls cases) (hls : ∀ l ∈ ls, l.Settled fr) : LabelsSettled fr ls where
  each := hls
  distinct := by
    have := h.distinct List.nodup_nil
    rw [h.values, List.append_nil] at this
    exact (List.pairwise_reverse.1 this).imp Ne.symm
  otherwise := by
    have := h.otherwise
    have := cases.hasDefault.toNat_le
    simp only [Bool.toNat_false] at *
    omega

theorem caseValue_settles (e : Expr) : SettlesIn fr jumps F (caseValue e)
      fun _ value => ∀ x ∈ value, SwitchLabel.value? (.case e) = some x := by
  have hlit : ∀ {n : Note} {l : Literal}, SettlesIn fr jumps F
      (liftM l.intValue : Analysis (Option Int))
      fun _ value => ∀ x ∈ value, SwitchLabel.value? (.case (.literal n l)) = some x := by
    intro n l
    rw [← bind_pure (liftM l.intValue : Analysis (Option Int))]
    refine lift_bind fun value hvalue => .pure fun w _ x hx => ?_
    cases hx
    simp [SwitchLabel.value?, hvalue]
  unfold caseValue
  split
  · exact hlit
  · exact hlit
  · exact .pure fun _ _ => nofun

theorem switchLabel_settles (cases : Cases) :
    ∀ (l : SwitchLabel), l.Written → SettlesIn fr jumps F (switchLabel cases l)
      fun w res => res.1.Settled (fr.over w) ∧ cases.Takes [res.1] res.2
  | .case e, h => by
    refine .bind (expr_settles .value e h fun _ _ => trivial) fun e' => ?_
    refine .bind (caseValue_settles e') fun value => ?_
    split
    case h_1 x =>
      refine .ite (fun _ => report_bind .pure) fun hnew => .pure fun w hw => ?_
      have hx := hw.2 x rfl
      refine ⟨⟨hw.1.2.settled, by simp [hx]⟩, by simp [hx], fun hnodup => ?_, by
        simp [SwitchLabel.isOtherwise]⟩
      exact List.nodup_cons.2 ⟨by simpa using hnew, hnodup⟩
    case h_2 =>
      refine reportUnless_bind (.pure fun w hw => ?_)
      simp [Ty.isAny_eq_false hw.1.1.2.ty_ne_any] at hw
  | .otherwise line, _ => by
    unfold switchLabel
    refine reportIf_bind (.pure fun w hw => ⟨trivial, by simp [SwitchLabel.value?], id, ?_⟩)
    simp only [Bool.not_eq_true] at hw
    rw [hw.2]
    rfl

theorem switchLabels_settles : ∀ cases ls, (∀ l ∈ ls, l.Written) → ∀ {F : Vars → Prop},
      SettlesIn fr jumps F (switchLabels cases ls)
        fun w res => (∀ l ∈ res.1, l.Settled (fr.over w)) ∧ cases.Takes res.1 res.2
  | cases, [], _, _ => .pure fun _ _ => ⟨nofun, .nil⟩
  | cases, l :: ls, h, _ => by
    refine .bind (switchLabel_settles cases l (h l (by simp))) fun res => ?_
    refine .bind (switchLabels_settles res.2 ls fun l hl => h l (by simp [hl])) fun res' =>
      .pure fun w hw => ?_
    exact ⟨by simpa using ⟨hw.1.2.1, hw.2.1⟩, hw.1.2.2.append hw.2.2⟩

theorem selector_settles (e : Expr) (h : e.Written false) : SettlesIn fr jumps F (selector e)
      fun w e' => e'.SettledValue (fr.over w) ∧ e'.ty.promoted = .int := by
  refine .bind (expr_settles .value e h fun _ _ => trivial) fun e' => ?_
  refine reportUnless_bind (.pure fun w hw => ⟨hw.1.2, ?_⟩)
  have htype := hw.2
  simp only [Bool.or_eq_true, decide_eq_true_eq, Ty.isAny_eq_false hw.1.2.ty_ne_any] at htype
  rcases htype with (h | h) | h
  · simp [h, Ty.promoted]
  · simp [h, Ty.promoted]
  · cases h

theorem condition?_settles : ∀ test, TargetWritten test → SettlesIn fr jumps F (condition? test)
        fun w test' => ∀ e ∈ test', e.SettledTest (fr.over w)
  | some e, h => .bind (expr_settles .condition e h fun _ _ => trivial) fun e' =>
    .pure fun w hw x hx => by cases hx; exact hw.2
  | none, _ => .pure fun _ _ => nofun

/-! ## Statements -/

theorem Expr.settled_asStatement {e : Expr} (h : e.SettledValue fr) :
    e.asStatement.SettledValue fr := by
  obtain ⟨⟨hnode, hform⟩, hchildren⟩ := Expr.settled_iff.1 h.settled
  refine ⟨Expr.settled_iff.2 ⟨⟨?_, ?_⟩, ?_⟩, ?_⟩
  · cases e <;> exact hnode
  · cases e <;> exact hform
  · cases e <;> exact hchildren
  · cases e <;> exact h.value

mutual

/-- Analysis of a written statement settles it. -/
theorem stmt_settles :
    ∀ (s : Stmt), s.Written → ∀ {jumps} {F : Vars → Prop}, SettlesIn fr jumps F (stmt s)
        fun w s' => s'.Settled (fr.over w) jumps
  | .blockStmt body, h, _, _ => .bind (block_settles body h) fun _ => .pure fun _ hw => hw.2
  | .ifStmt line test thenBranch elseBranch, h, _, _ => by
    refine .bind (expr_settles .condition test h.1 fun _ _ => trivial) fun test' => ?_
    refine .bind (stmt_settles thenBranch h.2.1) fun then' => ?_
    refine .bind (stmt?_settles elseBranch h.2.2) fun else' => .pure fun w hw => ?_
    exact ⟨hw.1.1.2, hw.1.2, hw.2⟩
  | .whileStmt line test body, h, _, _ => by
    refine .bind (expr_settles .condition test h.1 fun _ _ => trivial) fun test' => ?_
    refine .bind (enterJump_settles .loop) fun _ => ?_
    refine .bind (stmt_settles body h.2) fun body' => ?_
    refine .bind (leaveJump_settles .loop) fun _ => .pure fun w hw => ?_
    exact ⟨hw.1.1.1.2, hw.1.2⟩
  | .doStmt line body test, h, _, _ => by
    refine .bind (enterJump_settles .loop) fun _ => ?_
    refine .bind (stmt_settles body h.1) fun body' => ?_
    refine .bind (leaveJump_settles .loop) fun _ => ?_
    refine .bind (expr_settles .condition test h.2 fun _ _ => trivial) fun test' =>
      .pure fun w hw => ?_
    exact ⟨hw.1.1.2, hw.2⟩
  | .forStmt line init test update body, h, _, _ => by
    refine .bind pushScope_settles fun _ => ?_
    refine .bind (stmts_settles init h.1) fun init' => ?_
    refine .bind (condition?_settles test h.2.1) fun test' => ?_
    refine .bind (stmts_settles update h.2.2.1) fun update' => ?_
    refine .bind (enterJump_settles .loop) fun _ => ?_
    refine .bind (stmt_settles body h.2.2.2.1) fun body' => ?_
    refine .bind (leaveJump_settles .loop) fun _ => ?_
    refine .bind popScope_settles fun _ => .pure fun w hw => ?_
    obtain ⟨⟨⟨⟨⟨⟨⟨-, hinit⟩, htest⟩, hupdate⟩, -⟩, hbody⟩, -⟩, -⟩ := hw
    exact ⟨hinit, htest, hupdate, hbody⟩
  | .switchStmt line value groups, h, _, _ => by
    refine .bind (selector_settles value h.1) fun value' => ?_
    refine .bind (enterJump_settles .switch) fun _ => ?_
    refine .bind pushScope_settles fun _ => ?_
    refine .bind (switchGroups_settles groups h.2 {}) fun groups' => ?_
    refine .bind popScope_settles fun _ => ?_
    refine .bind (leaveJump_settles .switch) fun _ => .pure fun w hw => ?_
    obtain ⟨⟨⟨⟨⟨⟨-, hvalue⟩, -⟩, -⟩, hgroups, hlabels, cases, htakes⟩, -⟩, -⟩ := hw
    exact ⟨hvalue.1, hvalue.2, htakes.settled hlabels, hgroups⟩
  | .tryStmt line body catches final, h, _, _ => by
    refine .bind (block_settles body h.1) fun body' => ?_
    refine .bind (catchClauses_settles catches h.2.1) fun catches' => ?_
    refine .bind (block?_settles final h.2.2) fun final' => .pure fun w hw => ?_
    exact ⟨hw.1.1.2, hw.1.2, hw.2⟩
  | .throwStmt line e, h, _, _ => by
    refine .bind (expr_settles .value e h fun _ _ => trivial) fun e' => ?_
    refine reportUnless_bind (.pure fun w hw => ⟨hw.1.2, ?_⟩)
    simpa [Ty.isAny_eq_false hw.1.2.ty_ne_any] using hw.2
  | .returnStmt line value, h, _, _ =>
    .bind (returnValue_settles line value h) fun _ => .pure fun _ hw => hw.2
  | .breakStmt line, _, _, _ => by
    refine get_bind fun c => reportUnless_bind (.pure ?_)
    rintro w ⟨⟨-, v, -, hc⟩, hbreak⟩ hnil
    simp [Context.canBreak, hc.jumps, hnil] at hbreak
  | .continueStmt line, _, _, _ => by
    refine get_bind fun c => reportUnless_bind (.pure ?_)
    rintro w ⟨⟨-, v, -, hc⟩, hcontinue⟩
    exact List.contains_iff_mem.1 (hc.jumps ▸ hcontinue)
  | .emptyStmt line, _, _, _ => .pure fun _ _ => trivial
  | .exprStmt line e, h, _, _ => .bind (expr_settles .value e h fun _ _ => trivial) fun _ =>
    .pure fun _ hw => Expr.settled_asStatement hw.2
  | .localsStmt line vars, h, _, _ => by
    refine .bind (mapM_settles (r := fun w _ d' => d'.Settled (fr.over w)) fun d hd =>
      localVar_settles d (h d hd)) fun vars' => .pure fun w hw d hd => ?_
    obtain ⟨d', -, hd'⟩ := hw.2 d hd
    exact hd'

theorem stmt?_settles :
    ∀ s, ElseWritten s → ∀ {jumps} {F : Vars → Prop}, SettlesIn fr jumps F (stmt? s)
        fun w s' => ElseSettled (fr.over w) jumps s'
  | some s, h, _, _ => .bind (stmt_settles s h) fun _ => .pure fun _ hw => hw.2
  | none, _, _, _ => .pure fun _ _ => trivial

theorem stmts_settles :
    ∀ ss, StmtsWritten ss → ∀ {jumps} {F : Vars → Prop}, SettlesIn fr jumps F (stmts ss)
        fun w ss' => StmtsSettled (fr.over w) jumps ss'
  | s :: ss, h, _, _ => .bind (stmt_settles s h.1) fun _ => .bind (stmts_settles ss h.2) fun _ =>
    .pure fun _ hw => ⟨hw.1.2, hw.2⟩
  | [], _, _, _ => .pure fun _ _ => trivial

/-- Analysis of a written block settles it. -/
theorem block_settles :
    ∀ b, BlockWritten b → ∀ {jumps} {F : Vars → Prop}, SettlesIn fr jumps F (block b)
        fun w b' => BlockSettled (fr.over w) jumps b'
  | ⟨_, body⟩, h, _, _ => .bind pushScope_settles fun _ => .bind (stmts_settles body h) fun _ =>
    .bind popScope_settles fun _ => .pure fun _ hw => hw.1.2

theorem block?_settles :
    ∀ b, FinalWritten b → ∀ {jumps} {F : Vars → Prop}, SettlesIn fr jumps F (block? b)
        fun w b' => FinalSettled (fr.over w) jumps b'
  | some body, h, _, _ => .bind (block_settles body h) fun _ => .pure fun _ hw => hw.2
  | none, _, _, _ => .pure fun _ _ => trivial

theorem catchClause_settles :
    ∀ c, CatchWritten c → ∀ {jumps} {F : Vars → Prop}, SettlesIn fr jumps F (catchClause c)
        fun w c' => CatchSettled (fr.over w) jumps c'
  | ⟨_, param, body⟩, h, _, _ => by
    refine .bind pushScope_settles fun _ => ?_
    refine .bind ((resolveType_settles InFrame.proper param.line param.ty).given fun _ _ => h.1)
      fun t => ?_
    refine .bind ((declareLocal_settles param.line param.name t).given fun _ hw => hw.2.1)
      fun slot => ?_
    refine .bind (block_settles body h.2) fun body' => ?_
    refine .bind popScope_settles fun _ => .pure fun w hw => ?_
    exact ⟨⟨slot, rfl, hw.1.1.2⟩, hw.1.2⟩

theorem catchClauses_settles :
    ∀ cs, CatchesWritten cs → ∀ {jumps} {F : Vars → Prop}, SettlesIn fr jumps F (catchClauses cs)
        fun w cs' => CatchesSettled (fr.over w) jumps cs'
  | c :: cs, h, _, _ => .bind (catchClause_settles c h.1) fun _ =>
    .bind (catchClauses_settles cs h.2) fun _ => .pure fun _ hw => ⟨hw.1.2, hw.2⟩
  | [], _, _, _ => .pure fun _ _ => trivial

theorem switchGroup_settles : ∀ g, GroupWritten g → ∀ cases {jumps} {F : Vars → Prop},
      SettlesIn fr jumps F (switchGroup cases g) fun w res => GroupSettled (fr.over w) jumps res.1 ∧
          (∀ l ∈ res.1.labels, l.Settled (fr.over w)) ∧ cases.Takes res.1.labels res.2
  | ⟨labels, body⟩, h, cases, _, _ => by
    refine .bind (switchLabels_settles cases labels h.1) fun res => ?_
    refine .bind (stmts_settles body h.2) fun body' => .pure fun w hw => ?_
    exact ⟨hw.2, hw.1.2.1, hw.1.2.2⟩

theorem switchGroups_settles : ∀ gs, GroupsWritten gs → ∀ cases {jumps} {F : Vars → Prop},
      SettlesIn fr jumps F (switchGroups cases gs)
        fun w gs' => GroupsSettled (fr.over w) jumps gs' ∧
          (∀ l ∈ gs'.flatMap SwitchGroup.labels, l.Settled (fr.over w)) ∧
          ∃ cases', cases.Takes (gs'.flatMap SwitchGroup.labels) cases'
  | g :: gs, h, cases, _, _ => by
    refine .bind (switchGroup_settles g h.1 cases) fun res => ?_
    refine .bind (switchGroups_settles gs h.2 res.2) fun gs' => .pure fun w hw => ?_
    obtain ⟨⟨-, hg, hlabels, htakes⟩, hgs, hlabels', cases', htakes'⟩ := hw
    refine ⟨⟨hg, hgs⟩, fun l hl => ?_, cases', htakes.append htakes'⟩
    rcases List.mem_append.1 hl with hl | hl
    · exact hlabels l hl
    · exact hlabels' l hl
  | [], _, cases, _, _ => .pure fun _ _ => ⟨trivial, nofun, cases, .nil⟩

end

end Analysis

end JMinusMinus
