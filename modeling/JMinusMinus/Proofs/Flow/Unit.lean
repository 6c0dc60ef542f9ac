import JMinusMinus.Compile
import JMinusMinus.Proofs.Faults.Unit
import JMinusMinus.Proofs.Flow.Stmt

/-!
# Flow through units

Control never comes to the end of the code of an accepted unit (`accepted_never_runs_off`). A
body without a result gets a return unless it ends with a jump, and a body with a result cannot
complete.

A jump may still go to the end of the code, but only from where control does not come. Every
other jump, and every handler, goes to an instruction (`accepted_targets`).
-/

namespace JMinusMinus

variable {a : Analyzed} {i : Instruction} {l : Label} {P : List Bool → Prop}
  {files : List ClassFile} {inits : List FieldInit} {known : List Label} {lines : List Line}
  {p start maxDepth : Nat} {file source : String} {result : Ty}

namespace Lowering

/-! ## Bodies -/

variable {h : Hierarchy} {u : CompilationUnit} {name : String}

theorem closeBody_closed (result : Ty) (body : List Stmt) : Closed known (closeBody result body) :=
  .ite (fun _ => op_closed _) fun _ => .pure

theorem fieldInit_closed (h : Hierarchy) (f : FieldInit) : Closed known (fieldInit h f) := by
  have hvalue : Closed known (expr h .value f.value) := (expr_closed f.value).value
  refine .ite (fun _ => ?_) fun _ => ?_
  · exact .bind hvalue fun _ => member_closed _ _ _ _
  · exact .bind (access_closed _ _) fun _ => .bind hvalue fun _ => member_closed _ _ _ _

theorem inits_closed (h : Hierarchy) (inits : List FieldInit) :
    Closed known (inits.forM (fieldInit h)) :=
  forM_closed fun f _ => fieldInit_closed h f

theorem ctorBody_closed {env : Env} (henv : Exit.Tidy env.exits) (inits : List FieldInit)
    (ss : List Stmt) : Closed (Exit.labels env.exits) (ctorBody env inits ss) := by
  cases ss with
  | nil => exact .pure
  | cons s ss =>
    refine .bind (stmt_closed s henv) fun _ => .ite (fun _ => ?_) fun _ => stmts_closed ss henv
    exact .bind (inits_closed _ _) fun _ => stmts_closed ss henv

/-- A body that is closed, and whose end control does not come to. -/
structure Ends (x : Lowering Unit) : Prop where
  closed : Closed [] x
  passes : Passes (fun _ => True) x true false

theorem closeBody_passes (hvoid : result = .void → Stmt.listEndsAbruptly body → b = false)
    (hresult : result ≠ .void → b = false) : Passes P (closeBody result body) b false := by
  refine .ite (fun _ => op_flows rfl) fun hopen => .pure (fun hb => ?_) fun _ _ => trivial
  by_cases h : result = .void
  · have habrupt : Stmt.listEndsAbruptly body := by simpa [h] using hopen
    exact (hvoid h habrupt).symm.trans hb
  · exact (hresult h).symm.trans hb

theorem flowing_body : Env.Flowing P { hierarchy := h, result } where
  tidy := trivial
  finals := nofun
  continues := fun _ _ => nofun

theorem method_ends {m : MethodDecl} {body : Block Stmt} (hplain : StmtsPlain body.stmts)
    (hresult : m.result ≠ .void → Stmt.blockCanComplete body = false) :
    Ends (do
      block { hierarchy := h, result := m.result } body
      closeBody m.result body.stmts) where
  closed := .bind (block_closed body trivial) fun _ => closeBody_closed _ _
  passes := by
    refine .seq (block_passes body hplain flowing_body fun _ _ _ => nofun) ?_
    refine closeBody_passes (fun _ habrupt => ?_) hresult
    obtain ⟨_, ss⟩ := body
    exact Stmt.listCanComplete_of_endsAbruptly ss habrupt

theorem ctor_ends {body : List Stmt} (hplain : StmtsPlain body) :
    Ends (do
      ctorBody { hierarchy := h, result := .void } inits body
      closeBody .void body) where
  closed := by
    have htidy : Exit.Tidy (Env.exits { hierarchy := h, result := .void }) := trivial
    exact .bind (ctorBody_closed htidy _ _) fun _ => closeBody_closed _ _
  passes := by
    have hbody : Passes (fun _ => True) (ctorBody { hierarchy := h, result := .void } inits body)
        true (Stmt.listCanComplete body) := by
      cases body with
      | nil => exact .pure id fun _ _ => trivial
      | cons s ss =>
        obtain ⟨hs, hss⟩ := List.forall_mem_cons.1 hplain
        have hrest : Passes (fun _ => True) (stmts { hierarchy := h, result := .void } ss)
            s.canComplete (s.canComplete && Stmt.listCanComplete ss) :=
          (stmts_passes ss hss flowing_body fun _ _ _ => nofun).orDead
            (stmts_closed ss trivial) s.canComplete
        refine .seq (stmt_passes s hs flowing_body fun _ _ _ => nofun) ?_
        refine .ite (fun _ => ?_) fun _ => hrest
        exact .seq (inits_closed _ _).passes hrest
    refine .seq hbody (closeBody_passes (fun _ habrupt => ?_) fun hne => absurd rfl hne)
    exact Stmt.listCanComplete_of_endsAbruptly body habrupt

theorem classInit_ends :
    Ends (do
      inits.forM (fieldInit h)
      closeBody .void []) where
  closed := .bind (inits_closed _ _) fun _ => closeBody_closed _ _
  passes := .seq (inits_closed _ _).passes (closeBody_passes nofun fun hne => absurd rfl hne)

end Lowering

/-! ## Targets -/

/-- An instruction starts at the offset. -/
def Code.StartsAt (code : Code) (offset : Nat) : Prop := ∃ i, (offset, i) ∈ code.instructions

/-- Code that is laid out from a closed body whose end control does not come to. -/
structure Code.Sealed (code : Code) (lives : List Bool) (buffer : Buffer) : Prop
    extends code.Flows lives false buffer where
  jumps : ∀ i, .instr i ∈ buffer.code.lines → ∀ l ∈ i.targets, l.id < buffer.labels
  handlers : ∀ h ∈ buffer.code.handlers, h.Within buffer.code.lines

theorem instr_mem_of_mem_placed (h : (p, i) ∈ placed start lines) : .instr i ∈ lines := by
  induction lines generalizing start with
  | nil => cases h
  | cons line lines ih =>
    cases line with
    | mark l => exact List.mem_cons_of_mem _ (ih h)
    | instr j =>
      rcases List.mem_cons.1 h with heq | h
      · cases heq
        exact List.mem_cons_self
      · exact List.mem_cons_of_mem _ (ih h)

theorem placed_append (start : Nat) (a b : List Line) :
    placed start (a ++ b) = placed start a ++ placed (endOffset start a) b := by
  induction a generalizing start with
  | nil => rfl
  | cons line a ih =>
    cases line with
    | mark l => exact ih start
    | instr i => exact congrArg _ (ih _)

theorem Label.Lands.exists_placed (h : l.Lands lines) (hnodup : (marked lines).Nodup)
    (hmark : (l, offset) ∈ marks start lines) : ∃ i, (offset, i) ∈ placed start lines := by
  obtain ⟨before, i, after, rfl⟩ := h
  have hlines : before ++ .mark l :: .instr i :: after =
    before ++ [.mark l, .instr i] ++ after := by
    simp
  rw [hlines] at hnodup hmark ⊢
  have hoffset := mem_marks_of_nodup hnodup hmark (by simp)
  obtain rfl : offset = endOffset start before := by simpa [marks] using hoffset
  exact ⟨i, by simp [placed_append, placed]⟩

namespace Code.Sealed

variable {code : Code} {lives : List Bool} {buffer : Buffer}

theorem target (h : code.Sealed lives buffer)
    (hi : (p, i) ∈ code.instructions) (hl : l ∈ i.targets) :
    ∃ offset, code.labelOffsets[l.id]? = some offset ∧
      (code.StartsAt offset ∨ offset = code.length ∧ ¬code.Reachable p) := by
  obtain ⟨hlocates, hplaced, hlength, -⟩ := layout_eq_ok h.layout
  have hbound : l.id < code.labelOffsets.size := by
    rw [hlocates.size]
    exact h.jumps i (instr_mem_of_mem_placed (hplaced ▸ hi)) l hl
  refine ⟨_, Array.getElem?_eq_getElem hbound, ?_⟩
  have hoffset := Array.getElem?_eq_getElem hbound
  have hmark := hlocates.marked l.id _ hoffset
  simp only [Code.StartsAt, hplaced, hlength]
  rcases placed_or_end_of_mem_marks hmark with hstart | hend
  · exact .inl hstart
  · refine .inr ⟨hend, fun hp => ?_⟩
    -- Where control comes, the label is alive, and the end is not.
    have halive := (h.flow.aliveAt_next (hplaced ▸ hi) (h.aliveAt_of_reachable hp)).1 l hl
    have htarget := h.aliveAt_target halive hoffset
    simp only at hend
    rw [hend] at htarget
    cases h.flow.of_aliveAt_end htarget

theorem handler (h : code.Sealed lives buffer) {r : TableRow} (hr : r ∈ code.exceptions) :
    code.StartsAt r.target := by
  obtain ⟨hlocates, hplaced, -, -, rows, hrows, hexceptions⟩ := layout_eq_ok h.layout
  rw [hexceptions] at hr
  obtain ⟨g, hg, hrow⟩ := exists_of_mem_mapM hrows (List.mem_filter.1 hr).1
  obtain ⟨-, -, htarget, -⟩ := row_eq_ok hrow
  obtain ⟨before, first, inside, after, hlines, -, -, hlands⟩ := h.handlers g hg
  have hlands' : g.target.Lands buffer.code.lines := hlines ▸ hlands.append before after
  rw [Code.StartsAt, hplaced]
  exact hlands'.exists_placed h.nodup (hlocates.marked _ _ htarget)

end Code.Sealed

namespace Lowering

theorem Ends.sealed {locals : Nat} {x : Lowering Unit} {code : Code} (hx : Ends x)
    (hcode : assemble locals x = .ok code) : ∃ lives buffer, code.Sealed lives buffer := by
  obtain ⟨a, hrun, hlayout⟩ := exists_of_bind_eq_ok hcode
  obtain ⟨⟨-, hmarks, hjumps, -⟩, hhandlers⟩ := hx.closed _ a hrun
  obtain ⟨lives, -, -, hflow, hcalm, -⟩ := hx.passes _ a hrun [] rfl fun _ _ => trivial
  have hlines : (Fragment.reserve locals ++ a.code).lines = a.code.lines := rfl
  have hsame : (Fragment.reserve locals ++ a.code).handlers = a.code.handlers := rfl
  have hnodup : (marked a.code.lines).Nodup := by
    have hperm : (marked a.code.lines).Perm (created 0 a.supply.labels) := by simpa using hmarks
    exact hperm.nodup_iff.2 (nodup_created _ _)
  refine ⟨lives, _, ⟨⟨hlayout, ?_, ?_, ?_⟩, ?_, ?_⟩⟩
  all_goals simp only [hlines, hsame]
  · exact hnodup
  · exact hflow
  · exact hcalm
  · intro i hi l hl
    rcases hjumps i hi l hl with h | h | h
    · cases h
    · cases h
    · exact (mem_created.1 h).2
  · exact hhandlers

/-- Control never runs off the code of a class. -/
theorem CodeOf.sealed {h : Hierarchy} {u : CompilationUnit} {name owner : String} {d : ClassDecl}
    (hsettled : ∀ m ∈ d.members, m.Settled h u name) (hsized : ∀ m ∈ d.members, m.Sized)
    {code : Code} (hcode : CodeOf h owner d code) : ∃ lives buffer, code.Sealed lives buffer := by
  cases hcode with
  | method hm hbody hcode =>
    have hresult := (hsettled _ hm).2.2
    exact (method_ends ((hsized _ hm).2 _ hbody) fun hne => hresult hne _ hbody).sealed hcode
  | ctor hc hcode => exact (ctor_ends (hsized _ hc).2).sealed hcode
  | classInit hcode => exact classInit_ends.sealed hcode

end Lowering

/-! ## Accepted sources -/

open Lowering

theorem Accepted.sealed (h : Accepted file maxDepth source a)
    (hfiles : generate a.unit a.hierarchy = .ok files) {classFile : ClassFile}
    (hclassFile : classFile ∈ files) {m : MethodFile} (hm : m ∈ classFile.methods) {code : Code}
    (hcode : m.code = some code) : ∃ lives buffer, code.Sealed lives buffer := by
  have hwritten := Grammar.parseSource_written h.parsed
  obtain ⟨d, hd, hcodeOf⟩ := codeOf_of_generate hfiles hclassFile hm hcode
  refine hcodeOf.sealed (analyze_settled hwritten h.analyzed h.silent _ hd) fun m hm => ?_
  exact (analyze_sized hwritten h.analyzed).2 m (List.mem_flatMap.2 ⟨_, hd, hm⟩)

/-- Control never comes to the end of the code of an accepted source, whichever way it goes
through instructions, jumps, switches and handlers. -/
theorem accepted_never_runs_off {file : String} {maxDepth : Nat} {source : String} {a : Analyzed}
    (h : Accepted file maxDepth source a) {files : List ClassFile}
    (hfiles : generate a.unit a.hierarchy = .ok files) :
    ∀ classFile ∈ files, ∀ m ∈ classFile.methods, ∀ code ∈ m.code,
      ¬code.Reachable code.length := by
  intro classFile hclassFile m hm code hcode
  obtain ⟨lives, buffer, hsealed⟩ := h.sealed hfiles hclassFile hm hcode
  exact hsealed.not_reachable_length

theorem accepted_never_runs_off_counter : ∃ a files, Accepted "Counter.java" 100 counterSource a ∧
    generate a.unit a.hierarchy = .ok files ∧ ∀ classFile ∈ files, ∀ m ∈ classFile.methods,
      ∀ code ∈ m.code, ¬code.Reachable code.length := by
  obtain ⟨a, files, ha, hfiles⟩ := exists_generated counterSource_generates
  exact ⟨a, files, ha, hfiles, accepted_never_runs_off ha hfiles⟩

/-- Jumps and handlers of an accepted source go to instructions, but for jumps that control never
comes to. Those may go to the end of the code. -/
theorem accepted_targets {file : String} {maxDepth : Nat} {source : String} {a : Analyzed}
    (h : Accepted file maxDepth source a) {files : List ClassFile}
    (hfiles : generate a.unit a.hierarchy = .ok files) :
    ∀ classFile ∈ files, ∀ m ∈ classFile.methods, ∀ code ∈ m.code,
      (∀ p i, (p, i) ∈ code.instructions → ∀ l ∈ i.targets, ∃ offset,
        code.labelOffsets[l.id]? = some offset ∧
          (code.StartsAt offset ∨ offset = code.length ∧ ¬code.Reachable p)) ∧
      ∀ r ∈ code.exceptions, code.StartsAt r.target := by
  intro classFile hclassFile m hm code hcode
  obtain ⟨lives, buffer, hsealed⟩ := h.sealed hfiles hclassFile hm hcode
  exact ⟨fun p i hi l hl => hsealed.target hi hl, fun r hr => hsealed.handler hr⟩

theorem accepted_targets_counter : ∃ a files, Accepted "Counter.java" 100 counterSource a ∧
    generate a.unit a.hierarchy = .ok files ∧ ∀ classFile ∈ files, ∀ m ∈ classFile.methods,
      ∀ code ∈ m.code,
        (∀ p i, (p, i) ∈ code.instructions → ∀ l ∈ i.targets, ∃ offset,
          code.labelOffsets[l.id]? = some offset ∧
            (code.StartsAt offset ∨ offset = code.length ∧ ¬code.Reachable p)) ∧
        ∀ r ∈ code.exceptions, code.StartsAt r.target := by
  obtain ⟨a, files, ha, hfiles⟩ := exists_generated counterSource_generates
  exact ⟨a, files, ha, hfiles, accepted_targets ha hfiles⟩

/-! ## A jump to the end -/

/-- Whether a jump goes behind the last instruction. -/
def Code.jumpsToEnd (code : Code) : Bool :=
  code.instructions.any fun p => p.2.targets.any fun l =>
    code.labelOffsets[l.id]? = some code.length

/-- A source with a loop that never ends before an alternative. -/
def loopSource : String :=
  "class T \x7b int m(boolean b) \x7b if (b) while (true) ; else return 1; \x7d \x7d"

/-- The jump over the alternative goes to the end of the code. -/
theorem loopSource_jumps_to_end : ∃ files, compile "T.java" loopSource {} = .ok files ∧
    ∃ classFile ∈ files, ∃ m ∈ classFile.methods, ∃ code ∈ m.code, code.jumpsToEnd := by
  have hjump : ((compile "T.java" loopSource {}).toOption.any fun files => files.any fun c =>
      c.methods.any fun m => m.code.any Code.jumpsToEnd) := by decide +kernel
  cases hrun : compile "T.java" loopSource {} with
  | error f =>
    rw [hrun] at hjump
    cases hjump
  | ok files =>
    rw [hrun] at hjump
    obtain ⟨c, hc, hjump⟩ := List.any_eq_true.1 hjump
    obtain ⟨m, hm, hjump⟩ := List.any_eq_true.1 hjump
    obtain ⟨code, hcode, hjump⟩ := (Option.any_eq_true _ _).1 hjump
    exact ⟨files, rfl, c, hc, m, hm, code, hcode, hjump⟩

end JMinusMinus
