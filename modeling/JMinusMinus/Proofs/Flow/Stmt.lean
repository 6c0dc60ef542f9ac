import JMinusMinus.Proofs.Flow.Steps
import JMinusMinus.Proofs.Labels.Stmt
import JMinusMinus.Proofs.Parts

/-!
# Flow through statements

Control comes to the end of the code of a statement only if the statement can complete
(`stmt_passes`). Three judgements meet here: `canComplete` and `breaksOut` look at the shape of a
statement, `endsAbruptly` decides which jumps are left out, and the flow is about the jumps that
are there.

* The label behind a loop or a switch is alive if the statement can complete. So a `break` may go
  there if it breaks out, and nothing else does where the statement cannot complete.
* The code of a final block is repeated on the way out. A jump is alive only as far as the final
  blocks before it can complete (`Exit.Passed`).
* Behind a place that control does not come to, nothing has to be known of a statement, since its
  code is closed.
-/

namespace JMinusMinus

open List

variable {e : Expr} {next stop group scope target : Label} {left : List Exit} {jump : Lowering Unit}
  {final : Option (Lowering Unit)}

namespace Stmt

theorem listBreaksOut_eq_any (ss : List Stmt) : listBreaksOut ss = ss.any breaksOut := by
  induction ss with
  | nil => rfl
  | cons s ss ih => rw [listBreaksOut, any_cons, ih]

theorem breaksOut_of_isSimple {s : Stmt} (h : s.isSimple) : s.breaksOut = false := by
  cases s with
  | exprStmt | localsStmt => rfl
  | _ => cases h

theorem listBreaksOut_of_isSimple {ss : List Stmt} (h : ∀ s ∈ ss, s.isSimple) :
    listBreaksOut ss = false := by
  rw [listBreaksOut_eq_any, any_eq_false]
  intro s hs
  rw [breaksOut_of_isSimple (h s hs)]
  exact Bool.false_ne_true

/-! ## Abrupt endings -/

mutual

theorem canComplete_of_endsAbruptly : ∀ s : Stmt, s.endsAbruptly → s.canComplete = false
  | .returnStmt .., _ | .throwStmt .., _ | .breakStmt _, _ | .continueStmt _, _ => rfl
  | .blockStmt body, h => blockCanComplete_of_endsAbruptly body h
  | .ifStmt _ _ thenBranch elseBranch, h => by
    simp only [endsAbruptly, Bool.and_eq_true] at h
    simp [canComplete, canComplete_of_endsAbruptly thenBranch h.1,
      elseCanComplete_of_endsAbruptly elseBranch h.2]

theorem elseCanComplete_of_endsAbruptly : ∀ s : Option Stmt, elseEndsAbruptly s →
    elseCanComplete s = false
  | some s, h => canComplete_of_endsAbruptly s h

theorem listCanComplete_of_endsAbruptly : ∀ ss : List Stmt, listEndsAbruptly ss →
    listCanComplete ss = false
  | [s], h => by simp [listCanComplete, canComplete_of_endsAbruptly s h]
  | _ :: s' :: ss, h => by
    rw [listCanComplete, listCanComplete_of_endsAbruptly (s' :: ss) h, Bool.and_false]

theorem blockCanComplete_of_endsAbruptly : ∀ b : Block Stmt, blockEndsAbruptly b →
    blockCanComplete b = false
  | ⟨_, ss⟩, h => listCanComplete_of_endsAbruptly ss h

end

end Stmt

namespace Lowering

/-! ## Exits -/

namespace Exit

/-- What a jump leads to, if to anything, is alive. -/
def Leads (P : List Bool → Prop) (found : Option (List Exit × Label)) : Prop :=
  ∀ ℓ, P ℓ → ∀ p ∈ found, p.2.Alive true ℓ

/-- Code that control passes where `c` holds, if it comes to it. -/
def PassedAs (P : List Bool → Prop) (code : Lowering α) (c : Bool) : Prop :=
  ∀ P' : List Bool → Prop, (∀ ℓ, P' ℓ → P ℓ) → ∀ b, Flows P' code b (b && c) fun _ _ => True

/-- Code that control passes through, whether or not it comes out at the end. -/
def Passed (P : List Bool → Prop) (code : Lowering Unit) : Prop := ∃ c, PassedAs P code c

/-- The final blocks around are passed through on the way out. -/
def FinalsPassed (P : List Bool → Prop) (exits : List Exit) : Prop :=
  ∀ scope final, guarded scope final ∈ exits → Passed P (final.getD (pure ()))

variable {P P' : List Bool → Prop} {es : List Exit}

theorem Leads.given (h : Leads P found) (hP : ∀ ℓ, P' ℓ → P ℓ) : Leads P' found :=
  fun ℓ hℓ => h ℓ (hP ℓ hℓ)

theorem Leads.to (h : ∀ ℓ, P ℓ → l.Alive true ℓ) : Leads P (some (left, l)) := by
  rintro ℓ hℓ _ ⟨⟩
  exact h ℓ hℓ

theorem Leads.outer (h : Leads P found) (e : Exit) :
    Leads P (found.map fun p => (e :: p.1, p.2)) := by
  intro ℓ hℓ p hp
  obtain ⟨q, hq, rfl⟩ := Option.map_eq_some_iff.1 hp
  exact h ℓ hℓ q hq

theorem PassedAs.given {code : Lowering α} (h : PassedAs P code c) (hP : ∀ ℓ, P' ℓ → P ℓ) :
    PassedAs P' code c :=
  fun P'' hP'' => h P'' fun ℓ hℓ => hP ℓ (hP'' ℓ hℓ)

theorem FinalsPassed.given (h : FinalsPassed P es) (hP : ∀ ℓ, P' ℓ → P ℓ) : FinalsPassed P' es :=
  fun scope final hmem => (h scope final hmem).imp fun _ hc => hc.given hP

theorem unwind_passes (h : FinalsPassed P left) :
    ∃ c, PassedAs P (unwind left) c := by
  induction left with
  | nil => exact ⟨true, fun _ _ b => .pure (by simp) fun _ _ => trivial⟩
  | cons e es ih =>
    obtain ⟨c, hc⟩ := ih fun scope final hmem => h scope final (mem_cons_of_mem _ hmem)
    cases e with
    | loop stop next => exact ⟨c, hc⟩
    | switch stop => exact ⟨c, hc⟩
    | guarded scope final =>
      obtain ⟨d, hd⟩ := h scope final mem_cons_self
      by_cases hany : (guarded scope final :: es).any hasFinal
      · refine ⟨d && c, fun P' hP' b => ?_⟩
        rw [unwind_guarded, if_pos hany]
        refine (newLabel_flows b).bind fun start => ?_
        refine .seq (mark_flows b (fun _ h => h.2) id) ?_
        refine .seq (hd _ (fun ℓ h => hP' ℓ h.1) b) ?_
        refine (hc _ (fun ℓ h => hP' ℓ h.1) (b && d)).bind fun rest => ?_
        exact .pure (by simp [Bool.and_assoc]) fun _ _ => trivial
      · refine ⟨c, fun P' hP' b => ?_⟩
        rw [unwind_guarded, if_neg hany]
        exact hc P' hP' b

theorem leave_passes (h : FinalsPassed P left) (hjump : ∀ b, Passes P jump b false) :
    Passes P (leave left jump) b false := by
  obtain ⟨c, hc⟩ := unwind_passes h
  rw [leave_eq]
  refine (hc P (fun _ => id) b).bind fun starts => ?_
  refine .seq ((hjump _).given fun _ h => h.1) ?_
  refine .ite (fun _ => .pure id fun _ _ => trivial) fun _ => ?_
  refine (newLabel_flows false).bind fun stop => ?_
  exact .seq (mark_flows false (fun _ h => h.2) id) addGaps_flows

end Exit

/-! ## Simple statements -/

/-- Surroundings of statements that control comes to. -/
structure Env.Flowing (P : List Bool → Prop) (env : Env) : Prop where
  tidy : Exit.Tidy env.exits
  finals : Exit.FinalsPassed P env.exits
  continues : Exit.Leads P (Exit.continueTarget? env.exits)

variable {P P' : List Bool → Prop} {env : Env} {b : Bool}

namespace Env.Flowing

theorem given (henv : env.Flowing P) (hP : ∀ ℓ, P' ℓ → P ℓ) : env.Flowing P' :=
  ⟨henv.tidy, henv.finals.given hP, henv.continues.given hP⟩

theorem loop (henv : env.Flowing P)
    (hnext : ∀ ℓ, P ℓ → next.Alive true ℓ) : (env.inside (.loop stop next)).Flowing P := by
  refine ⟨henv.tidy, fun scope final hmem => ?_, .to hnext⟩
  exact henv.finals scope final (by simpa [Env.inside] using hmem)

theorem switch (henv : env.Flowing P) : (env.inside (.switch stop)).Flowing P := by
  refine ⟨henv.tidy, fun scope final hmem => ?_, henv.continues.outer _⟩
  exact henv.finals scope final (by simpa [Env.inside] using hmem)

theorem guarded (henv : env.Flowing P)
    (hclosed : ∀ code ∈ final, Closed (Exit.labels env.exits) code)
    (hfinal : Exit.Passed P (final.getD (pure ()))) :
    (env.inside (.guarded scope final)).Flowing P := by
  refine ⟨⟨hclosed, henv.tidy⟩, fun scope' final' hmem => ?_, henv.continues.outer _⟩
  rcases mem_cons.1 hmem with heq | hmem
  · cases heq
    exact hfinal
  · exact henv.finals scope' final' hmem

end Env.Flowing

theorem isTrue_eq (h : e.isTrue) : ∃ n, e = .literal n (.boolean true) := by
  unfold Expr.isTrue at h
  split at h
  · exact ⟨_, rfl⟩
  · cases h

theorem test_passes (h : Hierarchy) (htarget : e.isTrue = false → ∀ ℓ, P ℓ → target.Alive true ℓ) :
    Passes P (expr h (.branch target false) e) true true := by
  cases he : e.isTrue with
  | true =>
    obtain ⟨n, rfl⟩ := isTrue_eq he
    exact .pure id fun _ _ => trivial
  | false =>
    refine ((expr_closed e).tests false (mem_singleton_self target)).flows fun _ ℓ hP l hl => ?_
    rw [mem_singleton.1 hl]
    exact htarget he ℓ hP

theorem test_passes_back (h : Hierarchy) (htarget : ∀ ℓ, P ℓ → target.Alive true ℓ) :
    Passes P (expr h (.branch target true) e) true (!e.isTrue) := by
  cases he : e.isTrue with
  | true =>
    obtain ⟨n, rfl⟩ := isTrue_eq he
    exact goto_flows fun _ => htarget
  | false =>
    refine ((expr_closed e).tests true (mem_singleton_self target)).flows fun _ ℓ hP l hl => ?_
    rw [mem_singleton.1 hl]
    exact htarget ℓ hP

theorem leave_all_passes (henv : env.Flowing P)
    (hjump : ∀ b, Passes P jump b false) : Passes P (Exit.leave env.exits jump) b false :=
  Exit.leave_passes henv.finals hjump

theorem fallsThrough_returnOp (t : Ty) : (returnOp t).fallsThrough = false := (returnOp_effect t).2

theorem returnStmt_passes (henv : env.Flowing P) (value : Option Expr) :
    Passes P (returnStmt env value) true false := by
  cases value with
  | none => exact leave_all_passes henv fun _ => op_flows rfl
  | some e =>
    refine .seq (expr_closed e).value.passes (.ite (fun _ => ?_) fun _ => ?_)
    · refine (newSlot_closed _).passes.bind fun slot => ?_
      refine .seq (access_closed _ _).passes ?_
      refine leave_all_passes (henv.given fun _ h => h.1) fun _ => ?_
      exact .seq (access_closed _ _).passes (op_flows (fallsThrough_returnOp _))
    · exact op_flows (fallsThrough_returnOp _)

theorem jump_passes (henv : env.Flowing P) (htarget : Exit.breakTarget? env.exits = some (left, l) ∨
    Exit.continueTarget? env.exits = some (left, l)) (hl : ∀ ℓ, P ℓ → l.Alive true ℓ) :
    Passes P (Exit.leave left (branch .goto l)) true false := by
  obtain ⟨e, rest, hexits, -⟩ := Exit.lands_of_target htarget
  refine Exit.leave_passes (fun scope final hmem => ?_) fun _ => goto_flows fun _ => hl
  exact henv.finals scope final (by simp [hexits, hmem])

theorem breakStmt_passes (henv : env.Flowing P)
    (hbreak : Exit.Leads P (Exit.breakTarget? env.exits)) (line : Nat) :
    Passes P (breakStmt env line) true false := by
  unfold breakStmt
  split
  next htarget => exact jump_passes henv (.inl htarget) fun ℓ hP => hbreak ℓ hP _ htarget
  next => exact failWith_flows

theorem continueStmt_passes (henv : env.Flowing P) (line : Nat) :
    Passes P (continueStmt env line) true false := by
  unfold continueStmt
  split
  next htarget => exact jump_passes henv (.inr htarget) fun ℓ hP => henv.continues ℓ hP _ htarget
  next => exact failWith_flows

/-! ## Switches -/

namespace Targets

/-- Targets of a switch that are alive. The one for every other value may not be. -/
def Alive (t : Targets) (otherwise : Bool) (lives : List Bool) : Prop :=
  (otherwise → t.otherwise.Alive true lives) ∧ ∀ c ∈ t.cases, c.2.Alive true lives

variable {t : Targets} {d : Bool}

theorem add_flows (l : SwitchLabel) (hP : ∀ ℓ, P ℓ → t.Alive d ℓ ∧ group.Alive true ℓ) :
    Flows P (t.add group l) b b fun ℓ t' => t'.Alive (d || l.isOtherwise) ℓ := by
  cases l with
  | otherwise line => exact .pure id fun ℓ h => ⟨fun _ => (hP ℓ h).2, (hP ℓ h).1.2⟩
  | case e =>
    refine ofExcept_closed.passes.bind fun value => ?_
    cases value with
    | none => exact failWith_flows
    | some value =>
      refine .pure id fun ℓ h => ⟨?_, fun c hc => ?_⟩
      · simpa [SwitchLabel.isOtherwise] using (hP ℓ h.1).1.1
      · rcases mem_insertPair hc with rfl | hc
        · exact (hP ℓ h.1).2
        · exact (hP ℓ h.1).1.2 c hc

theorem foldlM_add_flows (labels : List SwitchLabel)
    (hP : ∀ ℓ, P ℓ → t.Alive d ℓ ∧ group.Alive true ℓ) :
    Flows P (labels.foldlM (fun t l => t.add group l) t) b b
      fun ℓ t' => t'.Alive (d || labels.any SwitchLabel.isOtherwise) ℓ := by
  induction labels generalizing t d P with
  | nil => exact .pure id fun ℓ h => by simpa using (hP ℓ h).1
  | cons l labels ih =>
    rw [foldlM_cons]
    refine (add_flows l hP).bind fun t' => ?_
    rw [any_cons, ← Bool.or_assoc]
    exact ih fun ℓ h => ⟨h.2, (hP ℓ h.1).2⟩

theorem addGroups_flows (groups : List (List SwitchLabel)) (hP : ∀ ℓ, P ℓ → t.Alive d ℓ) :
    Flows P (t.addGroups groups) b b fun ℓ r =>
      r.1.Alive (d || groups.any fun labels => labels.any SwitchLabel.isOtherwise) ℓ ∧
        r.2.length = groups.length ∧ ∀ l ∈ r.2, l.Alive true ℓ := by
  induction groups generalizing t d P with
  | nil => exact .pure id fun ℓ h => ⟨by simpa using hP ℓ h, rfl, nofun⟩
  | cons labels groups ih =>
    refine (newLabel_flows true).bind fun group => ?_
    refine (foldlM_add_flows labels fun ℓ h => ⟨hP ℓ h.1, h.2⟩).bind fun t' => ?_
    refine (ih fun ℓ h => h.2).bind fun r => ?_
    refine .pure id fun ℓ h => ⟨?_, by simp [h.2.2.1], ?_⟩
    · simpa [Bool.or_assoc] using h.2.1
    · simpa using ⟨h.1.1.2, h.2.2.2⟩

theorem dispatch_flows (hP : ∀ ℓ, P ℓ → t.Alive true ℓ) : Passes P (instr t.dispatch) b false := by
  refine instr_flows ?_ fun _ l hl ℓ h => ?_
  · unfold dispatch
    dsimp only
    split <;> rfl
  · rcases mem_cons.1 (t.dispatch_targets hl) with rfl | hl
    · exact (hP ℓ h).1 rfl
    · obtain ⟨c, hc, rfl⟩ := mem_map.1 hl
      exact (hP ℓ h).2 c hc

end Targets

/-! ## Guarded blocks -/

theorem blockEnd_passes {abrupt : Bool} {done : Label} {c d : Bool}
    (habrupt : abrupt → c = false) (hfinal : Passes P (final.getD (pure ())) c (c && d))
    (hdone : c && d → ∀ ℓ, P ℓ → done.Alive true ℓ) :
    Passes P (blockEnd abrupt final done) c false := by
  refine .ite (fun h => ?_) fun _ => hfinal.seq (goto_flows hdone)
  rw [habrupt h]
  exact .pure id fun _ _ => trivial

theorem finalHandler?_passes
    (hfinal : Exit.Passed P (final.getD (pure ()))) (ranges : List (Label × Label)) :
    Passes P (finalHandler? ranges final) false false := by
  obtain ⟨c, hc⟩ := hfinal
  cases final with
  | none => exact .pure id fun _ _ => trivial
  | some code =>
    refine (newLabel_flows true).bind fun target => ?_
    refine .seq (mark_flows true (fun _ h => h.2) nofun) ?_
    refine .seq (guard_flows fun _ h => h.2) ?_
    refine (newSlot_closed _).passes.bind fun slot => ?_
    refine .seq (access_closed _ _).passes ?_
    refine .seq (hc _ (fun ℓ h => h.1.1) true) ?_
    exact .seq (access_closed _ _).passes (op_flows rfl)

/-! ## Statements -/

mutual

theorem stmt_passes : ∀ (s : Stmt) {env : Env} {P}, s.Plain → env.Flowing P →
    (s.breaksOut → Exit.Leads P (Exit.breakTarget? env.exits)) →
      Passes P (stmt env s) true s.canComplete
  | .blockStmt body, _, _, hs, henv, hbreak =>
    block_passes body (fun _ h => hs.child h) henv hbreak
  | .ifStmt line test thenBranch none, env, P, hs, henv, hbreak => by
    rw [stmt_if_none]
    refine (newLabel_flows true).bind fun stop => ?_
    refine .seq (test_passes _ fun _ _ h => h.2) ?_
    refine .seq (stmt_passes thenBranch (hs.child (by simp [Stmt.children]))
      (henv.given fun _ h => h.1) fun h ℓ hP => hbreak (by simp [Stmt.breaksOut, h]) ℓ hP.1) ?_
    refine (mark_flows true (fun _ h => h.2) fun _ => rfl).imp fun _ => ?_
    simp [Stmt.canComplete, Stmt.elseCanComplete]
  | .ifStmt line test thenBranch (some elseBranch), env, P, hs, henv, hbreak => by
    rw [stmt_if_some]
    let ends := thenBranch.canComplete || elseBranch.canComplete
    refine (newLabel_flows ends).bind fun stop => ?_
    refine (newLabel_flows true).bind fun otherwise => ?_
    refine .seq (test_passes _ fun _ _ h => h.2) ?_
    refine .seq (stmt_passes thenBranch (hs.child (by simp [Stmt.children]))
      (henv.given fun _ h => h.1.1)
      fun h ℓ hP => hbreak (by simp [Stmt.breaksOut, h]) ℓ hP.1.1) ?_
    have hjump : Passes (fun ℓ => (P ℓ ∧ stop.Alive ends ℓ) ∧ otherwise.Alive true ℓ)
        (if thenBranch.endsAbruptly then pure () else branch .goto stop)
        thenBranch.canComplete thenBranch.canComplete := by
      refine .ite (fun _ => .pure id fun _ _ => trivial) fun _ => ?_
      exact (goto_flows fun h _ hP => hP.1.2.of_eq (by simp [ends, h])).imp nofun
    refine hjump.seq ?_
    refine .seq (mark_flows true (fun _ h => h.2) fun _ => rfl) ?_
    refine .seq (stmt_passes elseBranch (hs.child (by simp [Stmt.children]))
      (henv.given fun _ h => h.1.1)
      fun h ℓ hP => hbreak (by simp [Stmt.breaksOut, Stmt.elseBreaksOut, h]) ℓ hP.1.1) ?_
    exact mark_flows ends (fun _ h => h.1.2) fun h => by simp [ends, h]
  | .whileStmt line test body, env, P, hs, henv, hbreak => by
    let ends := !test.isTrue || body.breaksOut
    refine (newLabel_flows true).bind fun top => ?_
    refine (newLabel_flows ends).bind fun stop => ?_
    refine .seq (mark_flows true (fun _ h => h.1.2) id) ?_
    refine .seq (test_passes _ fun htest _ h => h.2.of_eq (by simp [ends, htest])) ?_
    refine .seq (stmt_passes body (hs.child (by simp [Stmt.children]))
      ((henv.given fun _ h => h.1.1).loop fun _ h => h.1.2) fun hbody => .to fun _ h =>
        h.2.of_eq (by simp [ends, hbody])) ?_
    refine .seq (goto_flows fun _ _ h => h.1.2) ?_
    exact mark_flows ends (fun _ h => h.2) nofun
  | .doStmt line body test, env, P, hs, henv, hbreak => by
    let ends := !test.isTrue || body.breaksOut
    refine (newLabel_flows true).bind fun top => ?_
    refine (newLabel_flows true).bind fun next => ?_
    refine (newLabel_flows ends).bind fun stop => ?_
    refine .seq (mark_flows true (fun _ h => h.1.1.2) id) ?_
    refine .seq (stmt_passes body (hs.child (by simp [Stmt.children]))
      ((henv.given fun _ h => h.1.1.1).loop fun _ h => h.1.2) fun hbody => .to fun _ h =>
        h.2.of_eq (by simp [ends, hbody])) ?_
    refine .seq (mark_flows true (fun _ h => h.1.2) fun _ => rfl) ?_
    refine .seq (test_passes_back _ fun _ h => h.1.1.2) ?_
    exact mark_flows ends (fun _ h => h.2) fun h => by simp [ends, h]
  | .forStmt line init test update body, env, P, hs, henv, hbreak => by
    let ends := Stmt.canFail test || body.breaksOut
    have hsimple := hs _ _ _ _ _ .self
    have hinit := Stmt.listBreaksOut_of_isSimple fun s h => hsimple s (mem_append_left _ h)
    have hupdate := Stmt.listBreaksOut_of_isSimple fun s h => hsimple s (mem_append_right _ h)
    rw [stmt_for]
    refine .seq (stmts_passes init (fun s h => hs.child (by simp [Stmt.children, h])) henv ?_) ?_
    · simp [hinit]
    refine (newLabel_flows true).bind fun top => ?_
    refine (newLabel_flows true).bind fun next => ?_
    refine (newLabel_flows ends).bind fun stop => ?_
    refine .seq (mark_flows true (fun _ h => h.1.1.2) fun _ => rfl) ?_
    refine .seq (c := true) ?_ ?_
    · cases test with
      | none => exact .pure id fun _ _ => trivial
      | some e =>
        exact test_passes _ fun htest _ h => h.2.of_eq (by simp [ends, Stmt.canFail, htest])
    refine .seq (stmt_passes body (hs.child (by simp [Stmt.children]))
      ((henv.given fun _ h => h.1.1.1).loop fun _ h => h.1.2) fun hbody => .to fun _ h =>
        h.2.of_eq (by simp [ends, hbody])) ?_
    refine .seq (mark_flows true (fun _ h => h.1.2) fun _ => rfl) ?_
    refine .seq (stmts_passes update (fun s h => hs.child (by simp [Stmt.children, h]))
      (henv.given fun _ h => h.1.1.1) ?_) ?_
    · simp [hupdate]
    refine .seq (goto_flows fun _ _ h => h.1.1.2) ?_
    exact mark_flows ends (fun _ h => h.2) nofun
  | .switchStmt line value groups, env, P, hs, henv, hbreak => by
    let ends := Stmt.canComplete (.switchStmt line value groups)
    refine .seq (expr_closed value).value.passes ?_
    refine (newLabel_flows ends).bind fun stop => ?_
    have hstart : ∀ ℓ, P ℓ ∧ stop.Alive ends ℓ → Targets.Alive ⟨stop, []⟩ ends ℓ := fun ℓ h =>
      ⟨fun hends => hends ▸ h.2, by simp⟩
    refine (Targets.addGroups_flows _ hstart).bind fun r => ?_
    refine .known (fun _ h => h.2.2.1) fun hlength => ?_
    have hopen : (ends || (groups.map SwitchGroup.labels).any
        fun labels => labels.any SwitchLabel.isOtherwise) = true := by
      rw [any_map]
      cases hany : groups.any fun g => g.labels.any SwitchLabel.isOtherwise with
      | true => simp [Function.comp_def, hany]
      | false => simp [ends, Stmt.canComplete, hany]
    refine .seq (Targets.dispatch_flows fun ℓ h => hopen ▸ h.2.1) ?_
    refine .seq (switchGroups_passes groups (fun g hg s h => hs.child ?_)
      (henv.given fun _ h => h.1.1).switch (fun g hg h => ?_) (by simpa using hlength)
      (fun ℓ h => h.2.2.2) false) ?_
    · exact mem_flatMap.2 ⟨g, hg, h⟩
    · rw [Stmt.listBreaksOut_eq_any] at h
      have hany : (groups.any fun g => g.stmts.any Stmt.breaksOut) = true :=
        any_eq_true.2 ⟨g, hg, h⟩
      exact .to fun _ hP => hP.1.2.of_eq (by simp [ends, Stmt.canComplete, hany])
    refine mark_flows ends (fun _ h => h.1.2) fun h => ?_
    cases groups with
    | nil => cases h
    | cons g gs =>
      have hlast : Stmt.lastCanComplete (g :: gs) = true := h
      simp [ends, Stmt.canComplete, hlast]
  | .tryStmt line body catches final, env, P, hs, henv, hbreak => by
    let ends := Stmt.canComplete (.tryStmt line body catches final)
    let through := Stmt.finalCanComplete final
    have hfinal : Exit.PassedAs P ((finalBlock env final).getD (pure ())) through := by
      intro P' hP'
      refine finalBlock_passes final (fun b hb s h => hs.child ?_) (henv.given hP')
        fun h ℓ hP => hbreak (by simp [Stmt.breaksOut, h]) ℓ (hP' ℓ hP)
      simp only [Stmt.children, mem_append, mem_flatMap]
      exact .inr ⟨b, Option.mem_toList.2 hb, h⟩
    have hclosed := finalBlock_closed final henv.tidy
    rw [stmt_try]
    refine (newLabel_flows true).bind fun start => ?_
    refine (newLabel_flows (Stmt.blockCanComplete body)).bind fun stop => ?_
    refine (newLabel_flows ends).bind fun done => ?_
    refine .seq (mark_flows true (fun _ h => h.1.1.2) id) ?_
    refine .bind (takeGaps_flows (block_passes body (fun s h => hs.child ?_)
      ((henv.given fun _ h => h.1.1.1).guarded hclosed
        ⟨through, hfinal.given fun _ h => h.1.1.1⟩) fun h =>
        ((hbreak (by simp [Stmt.breaksOut, h])).given fun _ h => h.1.1.1).outer _)) fun gaps => ?_
    · simp only [Stmt.children, mem_append]
      exact .inl (.inl h)
    refine .seq (mark_flows _ (fun _ h => h.1.1.2) id) ?_
    refine .seq (blockEnd_passes (Stmt.blockCanComplete_of_endsAbruptly body)
      (hfinal _ (fun _ h => h.1.1.1.1) _) fun hboth ℓ h => ?_) ?_
    · rw [Bool.and_eq_true] at hboth
      exact h.1.2.of_eq (by simp [ends, Stmt.canComplete, hboth.1, through, hboth.2])
    refine (catchClauses_passes catches (fun c hc s h => hs.child ?_)
      (henv.given fun _ h => h.1.1.1.1)
      (fun h ℓ hP => hbreak (by simp [Stmt.breaksOut, h]) ℓ hP.1.1.1.1) hclosed
      (hfinal.given fun _ h => h.1.1.1.1) (fun hboth ℓ h => ?_) _).bind
      fun more => ?_
    · simp only [Stmt.children, mem_append, mem_flatMap]
      exact .inl (.inr ⟨c, hc, h⟩)
    · rw [Bool.and_eq_true] at hboth
      exact h.1.2.of_eq (by simp [ends, Stmt.canComplete, hboth.1, through, hboth.2])
    refine .seq (finalHandler?_passes ⟨through, hfinal.given fun _ h => h.1.1.1.1.1⟩ _) ?_
    exact mark_flows ends (fun _ h => h.1.1.2) nofun
  | .throwStmt line e, _, _, _, _, _ => .seq (expr_closed e).value.passes (op_flows rfl)
  | .returnStmt line value, _, _, _, henv, _ => returnStmt_passes henv value
  | .breakStmt line, _, _, _, henv, hbreak => breakStmt_passes henv (hbreak rfl) line
  | .continueStmt line, _, _, _, henv, _ => continueStmt_passes henv line
  | .emptyStmt line, _, _, _, _, _ => .pure id fun _ _ => trivial
  | .exprStmt line e, _, _, _, _, _ => (expr_closed e _ .effect trivial).passes
  | .localsStmt line vars, _, _, _, _, _ => (forM_closed fun d _ => initial_closed _ d).passes

theorem block_passes : ∀ (b : Block Stmt) {env : Env} {P}, StmtsPlain b.stmts →
    env.Flowing P → (Stmt.blockBreaksOut b → Exit.Leads P (Exit.breakTarget? env.exits)) →
      Passes P (block env b) true (Stmt.blockCanComplete b)
  | ⟨_, ss⟩, _, _, hs, henv, hbreak => stmts_passes ss hs henv hbreak

theorem stmts_passes : ∀ ss {env : Env} {P}, StmtsPlain ss →
    env.Flowing P → (Stmt.listBreaksOut ss → Exit.Leads P (Exit.breakTarget? env.exits)) →
      Passes P (stmts env ss) true (Stmt.listCanComplete ss)
  | [], _, _, _, _, _ => .pure id fun _ _ => trivial
  | s :: ss, env, P, hs, henv, hbreak => by
    have hfirst := stmt_passes s (hs s (by simp)) henv fun h =>
      hbreak (by simp [Stmt.listBreaksOut, h])
    have hrest := stmts_passes ss (fun t ht => hs t (by simp [ht])) henv fun h =>
      hbreak (by simp [Stmt.listBreaksOut, h])
    exact hfirst.seq (hrest.orDead (stmts_closed ss henv.tidy) _)

theorem finalBlock_passes : ∀ (final : Option (Block Stmt)) {env : Env} {P},
    (∀ b ∈ final, StmtsPlain b.stmts) → env.Flowing P →
      (Stmt.finalBreaksOut final → Exit.Leads P (Exit.breakTarget? env.exits)) → ∀ b : Bool,
        Passes P ((finalBlock env final).getD (pure ())) b (b && Stmt.finalCanComplete final)
  | none, _, _, _, _, _, _ => .pure (by simp [Stmt.finalCanComplete]) fun _ _ => trivial
  | some body, _, _, hs, henv, hbreak, _ =>
    (block_passes body (hs body rfl) henv hbreak).orDead (block_closed body henv.tidy) _

theorem switchGroups_passes : ∀ (gs : List (SwitchGroup Stmt)) {env : Env} {P},
    (∀ g ∈ gs, StmtsPlain g.stmts) → env.Flowing P →
      (∀ g ∈ gs, Stmt.listBreaksOut g.stmts → Exit.Leads P (Exit.breakTarget? env.exits)) →
        ∀ {labels : List Label}, labels.length = gs.length →
          (∀ ℓ, P ℓ → ∀ l ∈ labels, l.Alive true ℓ) → ∀ b : Bool,
            Passes P (switchGroups env labels gs) b
              (if gs.isEmpty then b else Stmt.lastCanComplete gs)
  | [], _, _, _, _, _, _, _, _, _ => .pure id fun _ _ => trivial
  | g :: gs, env, P, hs, henv, hbreak, l :: ls, hlength, hlabels, b => by
    refine .seq (mark_flows true (fun ℓ h => hlabels ℓ h l (by simp)) fun _ => rfl) ?_
    refine .seq (switchGroup_passes g (hs g (by simp)) henv (hbreak g (by simp))) ?_
    refine (switchGroups_passes gs (fun g' hg => hs g' (by simp [hg])) henv
      (fun g' hg => hbreak g' (by simp [hg])) (Nat.succ.inj hlength)
      (fun ℓ h l' hl' => hlabels ℓ h l' (by simp [hl'])) _).imp ?_
    simp [Stmt.lastCanComplete]

theorem switchGroup_passes : ∀ (g : SwitchGroup Stmt) {env : Env} {P},
    StmtsPlain g.stmts → env.Flowing P →
      (Stmt.listBreaksOut g.stmts → Exit.Leads P (Exit.breakTarget? env.exits)) →
        Passes P (switchGroup env g) true (Stmt.groupCanComplete g)
  | ⟨_, ss⟩, _, _, hs, henv, hbreak => stmts_passes ss hs henv hbreak

theorem catchClause_passes : ∀ (c : CatchClause Stmt) {env : Env} {P},
    StmtsPlain c.body.stmts → env.Flowing P →
      (Stmt.catchBreaksOut c → Exit.Leads P (Exit.breakTarget? env.exits)) →
        ∀ {final : Option (Lowering Unit)}, (∀ code ∈ final, Closed (Exit.labels env.exits) code) →
          ∀ {through}, Exit.PassedAs P (final.getD (pure ())) through → ∀ {done : Label},
              (Stmt.catchCanComplete c && through → ∀ ℓ, P ℓ → done.Alive true ℓ) →
                ∀ guarded : List (Label × Label),
                  Flows P (catchClause env final guarded done c) false false fun _ _ => True
  | ⟨line, param, body⟩, env, P, hs, henv, hbreak, final, hclosed, through, hfinal, done, hdone,
      guarded => by
      cases hslot : param.slot with
      | none =>
        intro s a hrun
        obtain ⟨_, _, _, h⟩ := catchClause_eq_ok hrun
        obtain ⟨slot, hsome, -⟩ := h.stored
        cases hslot.symm.trans hsome
      | some slot =>
        rw [catchClause_eq hslot]
        refine (newLabel_flows true).bind fun target => ?_
        refine .seq (mark_flows true (fun _ h => h.2) nofun) ?_
        refine .seq (guard_flows fun _ h => h.2) ?_
        refine .seq (access_closed _ _).passes ?_
        refine (newLabel_flows true).bind fun start => ?_
        refine (newLabel_flows (Stmt.blockCanComplete body)).bind fun stop => ?_
        refine .seq (mark_flows true (fun _ h => h.1.2) id) ?_
        refine .bind (takeGaps_flows (block_passes body hs
          ((henv.given fun _ h => h.1.1.1).guarded hclosed
            ⟨through, hfinal.given fun _ h => h.1.1.1⟩) fun h =>
            ((hbreak h).given fun _ h => h.1.1.1).outer _)) fun gaps => ?_
        refine .seq (mark_flows _ (fun _ h => h.1.2) id) ?_
        refine .seq (blockEnd_passes (Stmt.blockCanComplete_of_endsAbruptly body)
          (hfinal _ (fun _ h => h.1.1.1.1) _) fun hboth ℓ h => hdone hboth ℓ h.1.1.1.1) ?_
        exact .pure id fun _ _ => trivial

theorem catchClauses_passes : ∀ (cs : List (CatchClause Stmt)) {env : Env} {P},
    (∀ c ∈ cs, StmtsPlain c.body.stmts) → env.Flowing P →
      (Stmt.catchesBreakOut cs → Exit.Leads P (Exit.breakTarget? env.exits)) →
        ∀ {final : Option (Lowering Unit)}, (∀ code ∈ final, Closed (Exit.labels env.exits) code) →
          ∀ {through}, Exit.PassedAs P (final.getD (pure ())) through → ∀ {done : Label},
              (Stmt.catchesCanComplete cs && through → ∀ ℓ, P ℓ → done.Alive true ℓ) →
                ∀ guarded : List (Label × Label),
                  Flows P (catchClauses env final guarded done cs) false false fun _ _ => True
  | [], _, _, _, _, _, _, _, _, _, _, _, _ => .pure id fun _ _ => trivial
  | c :: cs, env, P, hs, henv, hbreak, final, hclosed, through, hfinal, done, hdone, guarded => by
    refine (catchClause_passes c (hs c (by simp)) henv
      (fun h => hbreak (by simp [Stmt.catchesBreakOut, h])) hclosed hfinal
      (fun h => hdone ?_) guarded).bind fun own => ?_
    · simp only [Bool.and_eq_true] at h
      simp [Stmt.catchesCanComplete, h.1, h.2]
    refine (catchClauses_passes cs (fun d hd => hs d (by simp [hd])) (henv.given fun _ h => h.1)
      (fun h ℓ hP => hbreak (by simp [Stmt.catchesBreakOut, h]) ℓ hP.1) hclosed
      (hfinal.given fun _ h => h.1)
      (fun h ℓ hP => hdone ?_ ℓ hP.1) guarded).bind fun others => ?_
    · simp only [Bool.and_eq_true] at h
      simp [Stmt.catchesCanComplete, h.1, h.2]
    exact .pure id fun _ _ => trivial

end

end Lowering

end JMinusMinus
