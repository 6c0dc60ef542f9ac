import JMinusMinus.Proofs.Built
import JMinusMinus.Proofs.Labels.Try
import JMinusMinus.Proofs.Stack.Exit

/-!
# Labels of statements

The code of a statement is closed where the labels of the exits around it are known
(`stmt_closed`). It repeats the final blocks of exits, so those have to be closed as well
(`Exit.Tidy`).
-/

namespace JMinusMinus.Lowering

variable {group target : Label} {left exits : List Exit} {known : List Label} {jump : Lowering Unit}
  {final : Option (Lowering Unit)}

/-! ## Exits -/

namespace Exit

/-- The labels that a jump out of statements may go to. -/
def labels : List Exit → List Label
  | [] => []
  | loop stop next :: es => stop :: next :: labels es
  | switch stop :: es => stop :: labels es
  | guarded _ _ :: es => labels es

/-- Exits whose final blocks are closed. -/
def Tidy : List Exit → Prop
  | [] => True
  | guarded _ final :: es => (∀ code ∈ final, Closed (labels es) code) ∧ Tidy es
  | loop _ _ :: es | switch _ :: es => Tidy es

theorem labels_append_subset (left rest : List Exit) : labels rest ⊆ labels (left ++ rest) := by
  induction left with
  | nil => exact List.Subset.refl _
  | cons e es ih =>
    cases e with
    | loop stop next => exact List.subset_cons_of_subset _ (List.subset_cons_of_subset _ ih)
    | switch stop => exact List.subset_cons_of_subset _ ih
    | guarded scope final => exact ih

theorem labels_loop_subset (hstop : stop ∈ known) (hnext : next ∈ known) (hes : labels es ⊆ known) :
    labels (loop stop next :: es) ⊆ known :=
  List.cons_subset.2 ⟨hstop, List.cons_subset.2 ⟨hnext, hes⟩⟩

theorem getD_final_closed
    (hfinal : ∀ code ∈ final, Closed known code) : Closed known (final.getD (pure ())) := by
  cases final with
  | none => exact .pure
  | some code => exact hfinal code rfl

theorem unwind_closed (h : Tidy (left ++ rest)) : Closed (labels (left ++ rest)) (unwind left) := by
  induction left with
  | nil => exact .pure
  | cons e es ih =>
    cases e with
    | loop stop next =>
      exact (ih h).more (List.subset_cons_of_subset _ (List.subset_cons_of_subset _
        (List.Subset.refl _)))
    | switch stop => exact (ih h).more (List.subset_cons_of_subset _ (List.Subset.refl _))
    | guarded scope final =>
      refine .ite (fun _ => ?_) fun _ => ih h.2
      refine newLabel_marks.bind fun start => ?_
      refine (mark_closes start).bind fun _ => ?_
      refine (getD_final_closed h.1).bind fun _ => ?_
      exact (ih h.2).bind fun _ => .pure

theorem mem_marked_of_unwind (h : unwind left s = .ok a) :
    ∀ p ∈ a.value, p.2 ∈ marked a.code.lines := by
  induction left generalizing s a with
  | nil =>
    cases h
    simp
  | cons e es ih =>
    cases e with
    | loop stop next => exact ih h
    | switch stop => exact ih h
    | guarded scope final =>
      rw [unwind_guarded] at h
      split at h
      · rw [newLabel_bind] at h
        obtain ⟨a₁, h₁, rfl⟩ := emit_bind_eq_ok h
        obtain ⟨a₂, a₃, -, h₂, rfl⟩ := bind_eq_ok h₁
        obtain ⟨a₄, a₅, hrest, h₃, rfl⟩ := bind_eq_ok h₂
        obtain rfl := pure_eq_ok h₃
        intro p hp
        rcases List.mem_cons.1 hp with rfl | hp
        · simp [Fragment.append_def, Fragment.mark]
        · simp [Fragment.append_def, Fragment.mark, ih hrest p hp]
      · exact ih h

theorem leave_closed (rest : List Exit)
    (h : Tidy (left ++ rest)) (hjump : Closed (labels (left ++ rest)) jump) :
    Closed (labels (left ++ rest)) (leave left jump) := by
  intro s c hrun
  rw [leave_eq] at hrun
  obtain ⟨a, a₁, ha, h₁, rfl⟩ := bind_eq_ok hrun
  obtain ⟨b, d, hb, h₂, rfl⟩ := bind_eq_ok h₁
  have ha' := unwind_closed h s a ha
  have hb' := hjump a.supply b hb
  split at h₂
  · exact ha'.bind (hb'.bind (Closed.pure _ d h₂))
  · rw [newLabel_bind] at h₂
    obtain ⟨d', h₃, rfl⟩ := emit_bind_eq_ok h₂
    cases h₃
    -- Without its gaps, what follows the jump is closed.
    have hmark : Closed (labels (left ++ rest)) (newLabel >>= mark) :=
      newLabel_marks.bind mark_closes
    have hd := hmark b.supply _ (newLabel_bind mark b.supply)
    refine (ha'.bind (hb'.bind hd)).withGaps ?_
    intro g hg
    simp only [Fragment.append_def, Fragment.mark, marked_append, List.mem_append]
    rcases List.mem_append.1 hg with hg | hg
    · exact ⟨.inl (ha'.gaps g hg).1, .inl (ha'.gaps g hg).2⟩
    · rcases List.mem_append.1 hg with hg | hg
      · exact ⟨.inr (.inl (hb'.gaps g hg).1), .inr (.inl (hb'.gaps g hg).2)⟩
      · obtain ⟨p, hp, rfl⟩ := List.mem_map.1 hg
        exact ⟨.inl (mem_marked_of_unwind ha p hp), .inr (.inr (by simp))⟩

end Exit

variable {env : Env}

theorem jump_closed (h : Exit.Tidy env.exits) :
    ∀ line, Closed (Exit.labels env.exits) (breakStmt env line) ∧
      Closed (Exit.labels env.exits) (continueStmt env line) := by
  refine jump_cases (motive := Closed _) (fun {left} _ _ _ hexits hlands => ?_) fun _ =>
    failWith_marks
  rw [hexits] at h ⊢
  refine Exit.leave_closed _ h (branch_closed _ (Exit.labels_append_subset left _ ?_))
  cases hlands with
  | next => exact List.mem_cons_of_mem _ List.mem_cons_self
  | _ => exact List.mem_cons_self

theorem leave_all_closed (h : Exit.Tidy env.exits) (hjump : Closed (Exit.labels env.exits) jump) :
    Closed (Exit.labels env.exits) (Exit.leave env.exits jump) := by
  have hexits : env.exits = env.exits ++ [] := (List.append_nil _).symm
  rw [hexits] at h hjump
  have hleave := Exit.leave_closed [] h hjump
  rwa [← hexits] at hleave

theorem returnStmt_closed (h : Exit.Tidy env.exits) (value : Option Expr) :
    Closed (Exit.labels env.exits) (returnStmt env value) := by
  cases value with
  | none => exact leave_all_closed h (op_closed _)
  | some e =>
    refine (expr_closed e).value.bind fun _ => .ite (fun _ => ?_) fun _ => op_closed _
    refine (newSlot_closed _).bind fun slot => (access_closed _ _).bind fun _ => ?_
    exact leave_all_closed h ((access_closed _ _).bind fun _ => op_closed _)

theorem initial_closed (h : Hierarchy) (d : Declarator) : Closed known (initial h d) := by
  unfold initial
  split
  · exact (expr_closed _).value.bind fun _ => access_closed _ _
  · exact .pure

/-! ## Switches -/

namespace Targets

def labels (t : Targets) : List Label := t.otherwise :: t.cases.map (·.2)

variable {t : Targets} {s : Supply}

theorem add_eq_ok (h : t.add group l s = .ok a) :
    a = ⟨a.value, {}, [], s⟩ ∧ a.value.labels ⊆ group :: t.labels := by
  cases l with
  | otherwise line =>
    cases h
    exact ⟨rfl, List.cons_subset_cons _ (List.subset_cons_self _ _)⟩
  | case e =>
    obtain ⟨value, -, h⟩ := ofExcept_bind_eq_ok h
    cases value with
    | none => cases h
    | some value =>
      cases h
      refine ⟨rfl, ?_⟩
      intro l hl
      rcases List.mem_cons.1 hl with rfl | hl
      · simp [labels]
      · obtain ⟨p, hp, rfl⟩ := List.mem_map.1 hl
        rcases mem_insertPair hp with rfl | hp
        · exact List.mem_cons_self
        · exact List.mem_cons_of_mem _ (List.mem_cons_of_mem _ (List.mem_map.2 ⟨p, hp, rfl⟩))

theorem foldlM_add_eq_ok {labels : List SwitchLabel}
    (h : labels.foldlM (fun t l => t.add group l) t s = .ok a) :
    a = ⟨a.value, {}, [], s⟩ ∧ a.value.labels ⊆ group :: t.labels := by
  induction labels generalizing t a with
  | nil =>
    cases h
    exact ⟨rfl, List.subset_cons_self _ _⟩
  | cons l labels ih =>
    rw [List.foldlM_cons] at h
    obtain ⟨b, c, hb, hc, rfl⟩ := bind_eq_ok h
    obtain ⟨hbeq, hbl⟩ := add_eq_ok hb
    rw [hbeq] at hc
    obtain ⟨hceq, hcl⟩ := ih hc
    refine ⟨by rw [hbeq, hceq]; rfl, fun l hl => ?_⟩
    rcases List.mem_cons.1 (hcl hl) with rfl | hl
    · exact List.mem_cons_self
    · exact hbl hl

/-- Adding groups makes one label for each and no code. -/
theorem addGroups_eq_ok (h : t.addGroups groups s = .ok a) :
    a = ⟨a.value, {}, [], ⟨s.labels + groups.length, s.slot⟩⟩ ∧
      a.value.2 = created s.labels (s.labels + groups.length) ∧
      a.value.1.labels ⊆ t.labels ++ a.value.2 := by
  induction groups generalizing t s a with
  | nil =>
    cases h
    exact ⟨rfl, (created_self _).symm, List.subset_append_left _ _⟩
  | cons labels groups ih =>
    rw [addGroups, newLabel_bind] at h
    obtain ⟨b, c, hb, h₁, rfl⟩ := bind_eq_ok h
    obtain ⟨hbeq, hbl⟩ := foldlM_add_eq_ok hb
    obtain ⟨d, e, hd, h₂, rfl⟩ := bind_eq_ok h₁
    rw [hbeq] at hd
    obtain ⟨hdeq, hdcreated, hdl⟩ := ih hd
    obtain rfl := pure_eq_ok h₂
    have hnumber : s.labels + (labels :: groups).length = s.labels + 1 + groups.length := by
      simp only [List.length_cons]
      omega
    have hcreated := created_append (Nat.le_succ s.labels)
      (Nat.le_add_right (s.labels + 1) groups.length)
    refine ⟨?_, ?_, ?_⟩
    · rw [hbeq, hdeq, hnumber]
      rfl
    · rw [hdcreated, hnumber, ← hcreated, created_succ]
      rfl
    · intro l hl
      rcases List.mem_append.1 (hdl hl) with hl | hl
      · rcases List.mem_cons.1 (hbl hl) with rfl | hl
        · simp
        · exact List.mem_append_left _ hl
      · simp [hl]

theorem table_labels (t : Targets) (lo : Int) (n : Nat) : t.table lo n ⊆ t.labels := by
  induction n generalizing lo with
  | zero => exact List.nil_subset _
  | succ n ih =>
    refine List.cons_subset.2 ⟨?_, ih (lo + 1)⟩
    cases hlookup : t.cases.lookup lo with
    | none => exact List.mem_cons_self
    | some l =>
      obtain ⟨before, after, hcases, -⟩ := List.lookup_eq_some_iff.1 hlookup
      simp [labels, hcases]

theorem dispatch_targets (t : Targets) : t.dispatch.targets ⊆ t.labels := by
  unfold dispatch
  dsimp only
  split
  · exact List.cons_subset.2 ⟨List.mem_cons_self, t.table_labels _ _⟩
  · exact List.Subset.refl _

theorem addGroups_marks (t : Targets) (groups : List (List SwitchLabel)) :
    Marks known due (t.addGroups groups) fun r => due ++ r.2 := by
  intro s a hrun
  obtain ⟨ha, hcreated, -⟩ := addGroups_eq_ok hrun
  rw [ha]
  dsimp only
  rw [hcreated]
  exact ⟨⟨Nat.le_add_right _ _, .refl _, by simp, by simp⟩, by simp⟩

end Targets

/-! ## Statements -/

theorem blockEnd_closed (hfinal : ∀ code ∈ final, Closed known code) (hdone : done ∈ known)
    (abrupt : Bool) : Closed known (blockEnd abrupt final done) :=
  .ite (fun _ => .pure) fun _ =>
    (Exit.getD_final_closed hfinal).bind fun _ => branch_closed _ hdone

theorem finalHandler?_guardTidy
    (hfinal : ∀ code ∈ final, Closed known code) {ranges : List (Label × Label)} {s : Supply}
    {a : Emitted Unit} (h : finalHandler? ranges final s = .ok a) : GuardTidy known ranges s a := by
  cases final with
  | none => exact Closed.pure.guardTidy h
  | some code =>
    obtain ⟨store, load, f, hrun⟩ := finalHandler_eq_ok h
    exact hrun.guardTidy (hfinal code rfl)

theorem test?_closed (h : Hierarchy) (ht : target ∈ known)
    (test : Option Expr) : Closed known (test? h target test) := by
  cases test with
  | none => exact .pure
  | some e => exact (expr_closed e).tests false ht

mutual

/-- The code of a statement names only labels that are known. -/
theorem stmt_closed :
    ∀ s {env : Env}, Exit.Tidy env.exits → Closed (Exit.labels env.exits) (stmt env s)
  | .blockStmt body, _, henv => block_closed body henv
  | .ifStmt line test thenBranch none, env, henv => by
    rw [stmt_if_none]
    refine newLabel_marks.bind fun stop => ?_
    refine .after ((expr_closed test).tests false (by simp)) fun _ => ?_
    refine .after ((stmt_closed thenBranch henv).more (by simp)) fun _ => ?_
    exact mark_closes stop
  | .ifStmt line test thenBranch (some elseBranch), env, henv => by
    rw [stmt_if_some]
    refine newLabel_marks.bind fun stop => ?_
    refine newLabel_marks.bind fun otherwise => ?_
    refine .after ((expr_closed test).tests false (by simp)) fun _ => ?_
    refine .after ((stmt_closed thenBranch henv).more (by simp)) fun _ => ?_
    refine .after (.ite (fun _ => .pure) fun _ => branch_closed _ (by simp)) fun _ => ?_
    refine .swap (.mark_bind ?_)
    refine .after ((stmt_closed elseBranch henv).more (by simp)) fun _ => ?_
    exact mark_closes stop
  | .whileStmt line test body, env, henv => by
    refine newLabel_marks.bind fun top => ?_
    refine newLabel_marks.bind fun stop => ?_
    have hbody : Closed _ (stmt (env.inside (.loop stop top)) body) := stmt_closed body henv
    refine .mark_bind ?_
    refine .after ((expr_closed test).tests false (by simp)) fun _ => ?_
    refine .after (hbody.more (Exit.labels_loop_subset (by simp) (by simp) fun _ h => by simp [h]))
      fun _ => ?_
    refine .after (branch_closed _ (by simp)) fun _ => ?_
    exact mark_closes stop
  | .doStmt line body test, env, henv => by
    refine newLabel_marks.bind fun top => ?_
    refine newLabel_marks.bind fun next => ?_
    refine newLabel_marks.bind fun stop => ?_
    have hbody : Closed _ (stmt (env.inside (.loop stop next)) body) := stmt_closed body henv
    refine .mark_bind ?_
    refine .after (hbody.more (Exit.labels_loop_subset (by simp) (by simp) fun _ h => by simp [h]))
      fun _ => ?_
    refine .mark_bind ?_
    refine .after ((expr_closed test).tests true (by simp)) fun _ => ?_
    exact mark_closes stop
  | .forStmt line init test update body, env, henv => by
    rw [stmt_for]
    refine (stmts_closed init henv).bind fun _ => ?_
    refine newLabel_marks.bind fun top => ?_
    refine newLabel_marks.bind fun next => ?_
    refine newLabel_marks.bind fun stop => ?_
    have hbody : Closed _ (stmt (env.inside (.loop stop next)) body) := stmt_closed body henv
    refine .mark_bind ?_
    refine .after (test?_closed _ (by simp) test) fun _ => ?_
    refine .after (hbody.more (Exit.labels_loop_subset (by simp) (by simp) fun _ h => by simp [h]))
      fun _ => ?_
    refine .mark_bind ?_
    refine .after ((stmts_closed update henv).more fun _ h => by simp [h]) fun _ => ?_
    refine .after (branch_closed _ (by simp)) fun _ => ?_
    exact mark_closes stop
  | .switchStmt line value groups, env, henv => by
    refine (expr_closed value).value.bind fun _ => ?_
    refine newLabel_marks.bind fun stop => ?_
    refine (Targets.addGroups_marks _ _).bind_of_run fun s r hrun => ?_
    obtain ⟨-, hlabels, htargets⟩ := Targets.addGroups_eq_ok hrun
    have hinside : Exit.Tidy (env.inside (.switch stop)).exits := henv
    have hgroups : Marks (Exit.labels env.exits) (r.value.2 ++ [stop])
        (switchGroups (env.inside (.switch stop)) r.value.2 groups) fun _ => [stop] :=
      switchGroups_marks groups hinside _ (by simp [hlabels, created]) (List.Subset.refl _)
    refine .after (instr_closed fun l hl => ?_) fun _ => ?_
    · have := htargets (Targets.dispatch_targets _ hl)
      simp only [Targets.labels, List.map_nil] at this
      exact List.mem_append_left _ this
    · exact (hgroups.bind fun _ => mark_closes stop).perm List.perm_append_comm
  | .tryStmt line body catches final, env, henv => by
    intro s a hrun
    obtain ⟨b, e, c, f, h⟩ := stmt_try_eq_ok hrun
    have hfinal := finalBlock_closed final henv
    have hfinal' : ∀ code ∈ finalBlock env final,
        Closed (⟨s.labels + 2⟩ :: Exit.labels env.exits) code := fun code hcode =>
      (hfinal code hcode).more (List.subset_cons_self _ _)
    have hb : Closed (Exit.labels env.exits)
        (block (env.inside (.guarded ⟨s.labels⟩ (finalBlock env final))) body) :=
      block_closed body ⟨hfinal, henv⟩
    obtain ⟨hc, hvalue⟩ := catchClauses_guardTidy catches henv hfinal h.caught
    exact h.tidy (hb.more (List.subset_cons_self _ _) _ b h.ran)
      (blockEnd_closed hfinal' List.mem_cons_self _ _ e h.ended) hc hvalue
      (finalHandler?_guardTidy hfinal' h.finished)
  | .throwStmt line e, _, _ => (expr_closed e).value.bind fun _ => op_closed _
  | .returnStmt line value, _, henv => returnStmt_closed henv value
  | .breakStmt line, _, henv => (jump_closed henv line).1
  | .continueStmt line, _, henv => (jump_closed henv line).2
  | .emptyStmt line, _, _ => .pure
  | .exprStmt line e, _, _ => expr_closed e _ .effect trivial
  | .localsStmt line vars, _, _ => forM_closed fun d _ => initial_closed _ d

theorem block_closed :
    ∀ b {env : Env}, Exit.Tidy env.exits → Closed (Exit.labels env.exits) (block env b)
  | ⟨_, ss⟩, _, henv => stmts_closed ss henv

theorem stmts_closed :
    ∀ ss {env : Env}, Exit.Tidy env.exits → Closed (Exit.labels env.exits) (stmts env ss)
  | [], _, _ => .pure
  | s :: ss, _, henv => (stmt_closed s henv).bind fun _ => stmts_closed ss henv

theorem finalBlock_closed : ∀ b {env : Env}, Exit.Tidy env.exits →
    ∀ code ∈ finalBlock env b, Closed (Exit.labels env.exits) code
  | none, _, _, _, hcode => nomatch hcode
  | some b, _, henv, _, hcode => Option.some.inj hcode ▸ block_closed b henv

theorem switchGroups_marks : ∀ (gs : List (SwitchGroup Stmt)) {env : Env},
    Exit.Tidy env.exits → ∀ {known due} (labels : List Label),
    labels.length = gs.length → Exit.labels env.exits ⊆ due ++ known →
    Marks known (labels ++ due) (switchGroups env labels gs) fun _ => due
  | [], _, _, _, due, [], _, _ => @Marks.pure _ _ (fun _ => due) ()
  | g :: gs, env, henv, known, due, l :: ls, hlength, hknown => by
    have hsub : Exit.labels env.exits ⊆ ls ++ due ++ known := by
      rw [List.append_assoc]
      exact List.subset_append_of_subset_right _ hknown
    refine (mark_marks l).bind fun _ => ?_
    refine .after ((switchGroup_closed g henv).more hsub) fun _ => ?_
    exact switchGroups_marks gs henv ls (Nat.succ.inj hlength) hknown

theorem switchGroup_closed :
    ∀ g {env : Env}, Exit.Tidy env.exits → Closed (Exit.labels env.exits) (switchGroup env g)
  | ⟨_, body⟩, _, henv => stmts_closed body henv

theorem catchClause_guardTidy : ∀ c {env : Env}, Exit.Tidy env.exits →
    ∀ {final}, (∀ code ∈ final, Closed (Exit.labels env.exits) code) →
    ∀ {guarded done s a}, catchClause env final guarded done c s = .ok a →
    GuardTidy (done :: Exit.labels env.exits) guarded s a ∧
      ∀ r ∈ a.value, r.1 ∈ marked a.code.lines ∧ r.2 ∈ marked a.code.lines
  | ⟨line, param, body⟩, env, henv, final, hfinal, guarded, done, s, a, hrun => by
    obtain ⟨store, b, e, h⟩ := catchClause_eq_ok hrun
    have hb : Closed (Exit.labels env.exits)
        (block (env.inside (.guarded ⟨s.labels + 1⟩ final)) body) :=
      block_closed body ⟨hfinal, henv⟩
    refine h.guardTidy (hb.more (List.subset_cons_self _ _) _ b h.ran) ?_
    refine blockEnd_closed (fun code hcode => ?_) List.mem_cons_self _ _ e h.ended
    exact (hfinal code hcode).more (List.subset_cons_self _ _)

theorem catchClauses_guardTidy : ∀ cs {env : Env}, Exit.Tidy env.exits →
    ∀ {final}, (∀ code ∈ final, Closed (Exit.labels env.exits) code) →
    ∀ {guarded done s a}, catchClauses env final guarded done cs s = .ok a →
    GuardTidy (done :: Exit.labels env.exits) guarded s a ∧
      ∀ r ∈ a.value, r.1 ∈ marked a.code.lines ∧ r.2 ∈ marked a.code.lines
  | [], _, _, _, _, _, _, _, _, hrun => by
    cases hrun
    exact ⟨Closed.pure.guardTidy rfl, by simp⟩
  | c :: cs, env, henv, final, hfinal, guarded, done, s, a, hrun => by
    obtain ⟨own, a₁, hown, h₁, rfl⟩ := bind_eq_ok hrun
    obtain ⟨others, a₂, hothers, h₂, rfl⟩ := bind_eq_ok h₁
    obtain rfl := pure_eq_ok h₂
    obtain ⟨htidy, hmarked⟩ := catchClause_guardTidy c henv hfinal hown
    obtain ⟨htidy', hmarked'⟩ := catchClauses_guardTidy cs henv hfinal hothers
    refine ⟨?_, ?_⟩
    · simpa [Fragment.append_empty] using htidy.bind htidy' (own.value ++ others.value)
    intro r hr
    rcases List.mem_append.1 hr with hr | hr
    · simp [Fragment.append_def, hmarked r hr]
    · simp [Fragment.append_def, hmarked' r hr]

end

end JMinusMinus.Lowering
