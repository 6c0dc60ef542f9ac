import JMinusMinus.Proofs.Edits
import JMinusMinus.Proofs.Machine.Basic
import JMinusMinus.Proofs.Ranges.Try

/-!
# Try statements of a member

The code of a member is laid out from what its body made. A row of the exception table covers an
instruction if its handler has started there and has not stopped (`LaidOut`). Every statement of
the body has code in it. So what a try statement excludes wherever it has code is what the member
excludes.
-/

namespace JMinusMinus.Lowering

theorem Emits.part (h : Emits made root) (ht : root.Part t) : Emits made t := by
  induction ht with
  | self => exact h
  | @child t c _ hc ih =>
    obtain ⟨env, s, before, a, after, hnested, hbelow, hran, hlines, hhandlers⟩ := ih
    have htwins := hnested.twins ⟨none, pure (), s⟩
    have hmade := (stmt_orderly t htwins).made hran ⟨nofun, hbelow⟩ (List.forall_mem_nil _)
    have hparts := hmade.2.2
    exact (hparts c hc).mono ⟨before, after, hlines.symm⟩ hhandlers

/-! ## Layout -/

/-- Code as it is laid out from what was made: instructions, table rows, and what rows cover. -/
structure LaidOut (code : Code) (made : Fragment) : Prop where
  instructions : code.instructions = placed 0 made.lines
  exceptions : code.exceptions = (made.handlers.map code.rowOf).filter fun r => r.start < r.stop
  covers : ∀ before i after, made.lines = before ++ .instr i :: after → ∀ h ∈ made.handlers,
    ((code.rowOf h).covers (endOffset 0 before) ↔ Covers (h.start, h.stop) before)

theorem offsetOf_le_iff {code : Code} (hlocates : code.Locates labels (before ++ .instr i :: after))
    (hnodup : (marked (before ++ .instr i :: after)).Nodup) {l : Label} (hl : l.id < labels) :
    code.offsetOf l ≤ endOffset 0 before ↔ l ∈ marked before := by
  have hid : l.id < code.labelOffsets.size := hlocates.size ▸ hl
  have hoffset : code.labelOffsets[l.id]? = some (code.offsetOf l) := by
    simp [Code.offsetOf, hid]
  have hmark := hlocates.marked _ _ hoffset
  rw [marks_append, List.mem_append] at hmark
  rw [marked_append] at hnodup
  rcases hmark with hmark | hmark
  · exact iff_of_true (le_endOffset_of_mem_marks hmark) (mem_marked_of_mem_marks hmark)
  · have hmark : (l, code.offsetOf l) ∈
        marks (endOffset 0 before + i.size (endOffset 0 before)) after := hmark
    have hle := le_of_mem_marks hmark
    have hpos := i.size_pos (endOffset 0 before)
    refine iff_of_false (by omega) fun hin => ?_
    exact (List.nodup_append.1 hnodup).2.2 _ hin _ (mem_marked_of_mem_marks hmark) rfl

theorem marked_of_within {h : Handler} (hlines : h.Within lines) :
    h.start ∈ marked lines ∧ h.stop ∈ marked lines := by
  obtain ⟨before, first, inside, after, rfl, hstart, hstop, -⟩ := hlines
  exact ⟨mem_marked_mono hstart ⟨before, after, rfl⟩, mem_marked_mono hstop ⟨before, after, rfl⟩⟩

/-- Assembled code is laid out from what was made. -/
theorem laidOut_of_assemble (hx : Closed [] x)
    (hparts : Orderly ⟨none, pure (), ⟨0, locals⟩⟩ [] [] parts x x)
    (hcode : assemble locals x = .ok code) : ∃ made, LaidOut code made ∧
      (marked made.lines).Nodup ∧ ∀ root ∈ parts, ∀ t, root.Part t → Emits made t := by
  obtain ⟨a, hrun, hlayout⟩ := exists_of_bind_eq_ok hcode
  have hclosed := hx _ a hrun
  have hmarks : (marked a.code.lines).Perm (created 0 a.supply.labels) := by
    simpa using hclosed.marks
  have hnodup : (marked a.code.lines).Nodup := hmarks.nodup_iff.2 (nodup_created _ _)
  obtain ⟨hlocates, hinstructions, -, -, rows, hrows, hexceptions⟩ := layout_eq_ok hlayout
  have hemits := (hparts.made hrun ⟨nofun, nofun⟩ nofun).2.2
  refine ⟨a.code, ⟨hinstructions, ?_, ?_⟩, hnodup, fun root hroot t ht => ?_⟩
  · rw [hexceptions, rows_eq hrows]
    rfl
  · intro before i after hlines h hh
    have hbelow : ∀ l ∈ marked a.code.lines, l.id < a.supply.labels := fun l hl =>
      (mem_created.1 (hmarks.mem_iff.1 hl)).2
    obtain ⟨hstart, hstop⟩ := marked_of_within (hclosed.handlers h hh)
    have hlocates : code.Locates a.supply.labels (before ++ .instr i :: after) := by
      rw [← hlines]
      exact hlocates
    rw [hlines] at hnodup
    rw [TableRow.covers, Bool.and_eq_true, decide_eq_true_iff, decide_eq_true_iff, Covers,
      ← offsetOf_le_iff hlocates hnodup (hbelow _ hstart),
      ← offsetOf_le_iff hlocates hnodup (hbelow _ hstop), Nat.not_le]
    rfl
  · exact (hemits root hroot).part ht

/-! ## Members -/

theorem closeBody_quiet (result : Ty) (body : List Stmt) : Quiet (closeBody result body) :=
  .ite (instr_quiet _) .pure

theorem ctorBody_orderly (inits : List FieldInit) (ss : List Stmt) :
    OrderlyIn k ss (ctorBody · inits ss) := by
  intro known env env' h
  cases ss with
  | nil => exact .quiet .pure
  | cons s ss =>
    simp only [ctorBody, h.hierarchy]
    refine ((stmt_orderly s h).self h.nested).bind fun _ => ?_
    split
    · exact .after (forM_quiet (fieldInit_quiet _) inits) fun _ => stmts_orderly ss h
    · exact stmts_orderly ss h

/-- So is the code of a member, and each of its statements has code in it. -/
theorem memberFiles_laidOut (hrun : memberFiles h inits m = .ok own) (hfile : file ∈ own)
    (hcode : file.code = some code) (hbody : m.body? = some (result, body)) :
    ∃ made, LaidOut code made ∧
      (marked made.lines).Nodup ∧ ∀ root ∈ body.stmts, ∀ t, root.Part t → Emits made t := by
  cases m with
  | field f => cases hbody
  | ctor c =>
    obtain ⟨file', hctor, heq⟩ := exists_of_bind_eq_ok hrun
    cases heq
    cases hbody
    obtain rfl := List.mem_singleton.1 hfile
    have henv : Env.Nested { hierarchy := h, result := .void } := .nil
    refine laidOut_of_assemble ?_ ?_ (code_of_ctorFile hctor hcode)
    · exact .bind (ctorBody_closed henv.tidy _ _) fun _ => closeBody_closed _ _
    · exact (ctorBody_orderly _ _ (henv.twins _)).before fun _ => closeBody_quiet _ _
  | method decl =>
    obtain ⟨file', hmethod, heq⟩ := exists_of_bind_eq_ok hrun
    cases heq
    obtain rfl := List.mem_singleton.1 hfile
    obtain ⟨body', hbody', hcode⟩ := code_of_methodFile hmethod hcode
    simp only [Member.body?, hbody', Option.map_some, Option.some.injEq, Prod.mk.injEq] at hbody
    obtain ⟨rfl, rfl⟩ := hbody
    have henv : Env.Nested { hierarchy := h, result := decl.result } := .nil
    refine laidOut_of_assemble ?_ ?_ hcode
    · exact .bind (block_closed body' trivial) fun _ => closeBody_closed _ _
    · exact (block_orderly _ (henv.twins _)).before fun _ => closeBody_quiet _ _

/-- In the code of a member every try statement has code, and wherever it has, its handlers exclude
its ways out and nothing else of its blocks. -/
theorem member_excludes_exits {code : Code} {h : Hierarchy} {inits : List FieldInit} {m : Member}
    {own : List MethodFile} (hrun : memberFiles h inits m = .ok own) {file : MethodFile}
    (hfile : file ∈ own) (hcode : file.code = some code) {result : Ty} {body : Block Stmt}
    (hbody : m.body? = some (result, body)) : ∃ made, LaidOut code made ∧
      (∀ root ∈ body.stmts, ∀ t, root.Part t → Emits made t) ∧
      ∀ line block catches final env s before a after,
        Emission made env (.tryStmt line block catches final) s before a after →
        ∃ b e c f guarded all,
          TryExcludes env block catches final s before b e c f a guarded all := by
  obtain ⟨made, hlaid, hnodup, hparts⟩ := memberFiles_laidOut hrun hfile hcode hbody
  refine ⟨made, hlaid, hparts, ?_⟩
  intro line block catches final env s before a after h
  exact try_excludes h.nested h.below h.ran (h.lines ▸ hnodup)

/-- A loop around a try statement that is left from its block and from its handler, and whose final
block counts how often. -/
def leavingMember : Member :=
  .method {
    line := 1
    modifiers := []
    result := .void
    name := "leave"
    params := [⟨1, "n", .int, some 1⟩]
    throws := []
    body := some ⟨1, [.whileStmt 2 (.literal ⟨2, some .boolean, false⟩ (.boolean true)) (.tryStmt 3
      ⟨3, [.breakStmt 4]⟩
      [⟨5, ⟨5, "e", .named "java/lang/RuntimeException", some 2⟩, ⟨5, [.continueStmt 6]⟩⟩]
      (some ⟨7, [.exprStmt 8 (.step ⟨8, some .int, true⟩ .postInc
        (.localVar ⟨8, some .int, false⟩ "n" 1))]⟩))]⟩
    locals := 3 }

theorem leavingMember_excludes_exits : ∃ own file code result body,
    memberFiles {} [] leavingMember = .ok own ∧ file ∈ own ∧ file.code = some code ∧
      leavingMember.body? = some (result, body) ∧
      ∃ made, LaidOut code made ∧ (∀ root ∈ body.stmts, ∀ t, root.Part t → Emits made t) ∧
        ∀ line block catches final env s before a after,
          Emission made env (.tryStmt line block catches final) s before a after →
          ∃ b e c f guarded all,
            TryExcludes env block catches final s before b e c f a guarded all := by
  have hcode : ((memberFiles {} [] leavingMember).toOption.getD []).any (·.code.isSome) = true := by
    decide +kernel
  cases hrun : memberFiles {} [] leavingMember with
  | error e =>
    rw [hrun] at hcode
    cases hcode
  | ok own =>
    rw [hrun] at hcode
    obtain ⟨file, hfile, hsome⟩ := List.any_eq_true.1 hcode
    obtain ⟨code, hcode⟩ := Option.isSome_iff_exists.1 hsome
    exact ⟨own, file, code, _, _, rfl, hfile, hcode, rfl,
      member_excludes_exits hrun hfile hcode rfl⟩

end JMinusMinus.Lowering
