import JMinusMinus.Compile
import JMinusMinus.Proofs.Agree.Order
import JMinusMinus.Proofs.Recovery.Limit

/-!
# The budget for diagnostics

A recorder stores the first reports that come in and only counts the others. It decides what is
shown and nothing else.

* What is stored at any moment is the start of the list of all reports, and the number of all is
  known whatever was stored (`Log.recorded_eq`). So the gate of the compiler sees them all
  (`Log.recorded_failed`).
* Neither the grammar nor analysis looks at the log. After whatever earlier reports, and however few
  of them were stored, they come to the same tree and headers and report the same
  (`parseUnit_above`, `analyze_above`).
* So compilation with a recorder is compilation with the logs of all reports (`compile_eq_logged`).
-/

namespace JMinusMinus

/-! ## What a budget keeps -/

/-- What is recorded of a log whose reports came in one after the other. -/
def Log.recorded (log : Log Problem) (budget : Nat) : Recorder :=
  log.entries.foldl Recorder.report { budget }

/-- The reports of one log on top of those of an earlier one. -/
def Log.above {ε : Type} (log earlier : Log ε) : Log ε := ⟨log.latest ++ earlier.latest⟩

/-- A recorder keeps the first reports and counts all of them. -/
theorem Recorder.report_take (budget : Nat) (rs : List (Report Problem)) (r : Report Problem) :
    Recorder.report ⟨budget, rs.take budget, rs.length - budget⟩ r =
      ⟨budget, (rs ++ [r]).take budget, (rs ++ [r]).length - budget⟩ := by
  simp only [Recorder.report, List.length_take, List.length_append, List.length_singleton]
  split
  · rename_i hlt
    have hall : rs.length < budget := by omega
    rw [List.take_of_length_le (Nat.le_of_lt hall), List.take_of_length_le (by simp; omega)]
    congr 1
    omega
  · rename_i hge
    have hfull : budget ≤ rs.length := by omega
    rw [List.take_append_of_le_length hfull]
    congr 1
    omega

/-- The first reports of a log are stored, and the others are counted. -/
theorem Log.recorded_eq (log : Log Problem) (budget : Nat) :
    log.recorded budget = ⟨budget, log.shown budget, log.count - budget⟩ := by
  have hrun (rs before : List (Report Problem)) :
      rs.foldl Recorder.report ⟨budget, before.take budget, before.length - budget⟩ =
        ⟨budget, (before ++ rs).take budget, (before ++ rs).length - budget⟩ := by
    induction rs generalizing before with
    | nil => simp
    | cons r rs ih => rw [List.foldl_cons, Recorder.report_take, ih, List.append_assoc]; rfl
  have hall := hrun log.entries []
  simpa [Log.recorded, Log.shown, Log.count_eq_length_entries] using hall

theorem Log.shown_eq_take (log : Log Problem) (budget : Nat) :
    log.shown budget = log.entries.take (min budget log.count) := by
  rw [Log.shown, Log.count_eq_length_entries]
  simp [List.take_eq_take_iff]

theorem Log.recorded_count (log : Log Problem) (budget : Nat) :
    (log.recorded budget).count = log.count := by
  simp only [Log.recorded_eq, Recorder.count, Log.shown, List.length_take,
    Log.count_eq_length_entries]
  omega

/-- The gate sees every report, also under a budget of none. -/
theorem Log.recorded_failed (log : Log Problem) (budget : Nat) :
    (log.recorded budget).failed = log.failed := by
  rw [Bool.eq_iff_iff, Log.recorded_eq]
  simp only [Recorder.failed, Log.failed, Log.shown, Log.count_eq_length_entries, Log.entries,
    Bool.or_eq_true, Bool.not_eq_true', decide_eq_true_eq, List.length_reverse,
    ← List.length_pos_iff, List.isEmpty_eq_false_iff, List.length_take]
  omega

/-! ## Steps of analysis -/

/-- A context whose log stands on top of earlier reports. -/
def Context.above (c : Context) (earlier : Log Problem) : Context :=
  { c with log := c.log.above earlier }

theorem Context.logged_above (c : Context) (new : List (Report Problem)) (earlier : Log Problem) :
    (c.logged new).above earlier = (c.above earlier).logged new := by
  simp [Context.above, Context.logged, Log.above]

theorem Context.sameNames_above (c : Context) (earlier : Log Problem) :
    c.SameNames (c.above earlier) := ⟨rfl, fun _ => rfl, rfl, rfl⟩

namespace Analysis

/-- A step that does the same whatever was reported before it. -/
def Blind {α : Type} (x : Analysis α) : Prop := ∀ (c : Context) (earlier : Log Problem),
  (∃ a c', x c = .ok (a, c') ∧ x (c.above earlier) = .ok (a, c'.above earlier)) ∨
    ∃ f, x c = .error f ∧ x (c.above earlier) = .error f

namespace Blind

variable {α β : Type} {x y : Analysis α}

theorem pure {a : α} : Blind (pure a : Analysis α) := fun c _ => .inl ⟨a, c, rfl, rfl⟩

theorem bind {f : α → Analysis β} (hx : Blind x) (hf : ∀ a, Blind (f a)) : Blind (x >>= f) := by
  intro c earlier
  rcases hx c earlier with ⟨a, c', hrun, habove⟩ | ⟨e, hrun, habove⟩
  · rw [bind_run hrun, bind_run habove]
    exact hf a c' earlier
  · exact .inr ⟨e, bind_error hrun, bind_error habove⟩

theorem get_bind {f : Context → Analysis α} (h : ∀ c earlier, f (c.above earlier) = f c)
    (hf : ∀ c, Blind (f c)) : Blind (get >>= f) := by
  intro c earlier
  rcases hf c c earlier with ⟨a, c', hrun, habove⟩ | ⟨e, hrun, habove⟩
  · exact .inl ⟨a, c', hrun, (congrFun (h c earlier) _).trans habove⟩
  · exact .inr ⟨e, hrun, (congrFun (h c earlier) _).trans habove⟩

theorem report : Blind (report line problem) := fun _ _ => .inl ⟨(), _, rfl, rfl⟩

theorem discarded (h : Blind x) : Blind (discard x : Analysis PUnit) := by
  rw [discard_eq]
  exact .bind h fun _ => .pure

theorem ite {p : Prop} [Decidable p] (hx : Blind x) (hy : Blind y) :
    Blind (if p then x else y) := by
  split
  · exact hx
  · exact hy

theorem forM {f : β → Analysis PUnit} (h : ∀ b, Blind (f b)) : ∀ bs : List β, Blind (bs.forM f)
  | [] => .pure
  | b :: bs => .bind (h b) fun _ => forM h bs

theorem mapM {f : β → Analysis α} (h : ∀ b, Blind (f b)) : ∀ bs : List β, Blind (bs.mapM f)
  | [] => .pure
  | b :: bs => by
    rw [List.mapM_cons]
    exact .bind (h b) fun _ => .bind (mapM h bs) fun _ => .pure

end Blind

theorem Reads.blind {α : Type} {x : Analysis α} (h : Reads Context.SameNames x x) : Blind x := by
  intro c earlier
  obtain ⟨a, new, -, hrun, habove, -⟩ := h c _ (c.sameNames_above earlier)
  exact .inl ⟨a, c.logged new, hrun, by rw [habove, Context.logged_above]⟩

/-! ## Headers and bodies -/

theorem bindName_blind (simple internal : String) : Blind (bindName simple internal) := by
  intro c earlier
  cases hbound : c.names.lookup simple with
  | none => exact .inl ⟨_, _, bindName_new hbound, bindName_new (c := c.above earlier) hbound⟩
  | some b => exact .inl ⟨_, _, bindName_bound hbound, bindName_bound (c := c.above earlier) hbound⟩

theorem declareHeader_blind (header : ClassHeader) : Blind (declareHeader header) :=
  fun _ _ => .inl ⟨(), _, rfl, rfl⟩

theorem declareType_blind (d : TypeDecl) : Blind (declareType d) :=
  .get_bind (fun _ _ => rfl) fun _ => .get_bind (fun _ _ => rfl) fun _ =>
    .ite .report (.bind (.discarded (bindName_blind _ _)) fun _ => declareHeader_blind _)

theorem bindImport_blind (q : QualifiedName) : Blind (bindImport q) :=
  .get_bind (fun _ _ => rfl) fun _ => .ite .report (.bind (bindName_blind _ _) fun _ =>
    .ite .report .pure)

theorem typeHeader_blind (d : TypeDecl) : Blind (typeHeader d) := by
  rw [typeHeader_eq]
  exact .bind (describe_reads d).blind fun _ => .bind (declareHeader_blind _) fun _ => .pure

theorem breakCycle_blind (d : TypeDecl) : Blind (breakCycle d) :=
  .get_bind (fun _ _ => rfl) fun _ => .get_bind (fun _ _ => rfl) fun _ =>
    .ite (.bind .report fun _ => fun _ _ => .inl ⟨(), _, rfl, rfl⟩) .pure

theorem unitHeaders_blind (u : CompilationUnit) : Blind (unitHeaders u) := by
  refine .bind (fun _ _ => .inl ⟨(), _, rfl, rfl⟩) fun _ => ?_
  refine .bind (.forM declareType_blind _) fun _ => .bind (.forM bindImport_blind _) fun _ => ?_
  refine .bind (.mapM typeHeader_blind _) fun _ => ?_
  exact .bind (.forM breakCycle_blind _) fun _ => .pure

theorem typeBodies_above (ds : List TypeDecl) (c : Context) (earlier : Log Problem) :
    (∃ res c' d', ds.mapM typeBody c = .ok (res, c') ∧
      ds.mapM typeBody (c.above earlier) = .ok (res, d') ∧ d'.hierarchy = c'.hierarchy ∧
      d'.log = c'.log.above earlier) ∨
    ∃ f, ds.mapM typeBody c = .error f ∧ ds.mapM typeBody (c.above earlier) = .error f := by
  have hagrees : Agrees Context.AlikeOutside Context.AlikeOutside (ds.mapM typeBody)
      (ds.mapM typeBody) := .mapM fun d _ => typeBody_agrees d
  have halike : c.AlikeOutside (c.above earlier) := ⟨.refl _, rfl, fun _ => rfl, rfl⟩
  rcases hagrees c _ halike with ⟨res, c', d', new, hrun, habove, -, hc, hd, hkept⟩ | herror
  · have hkept' := hagrees.kept (.refl _) habove
    refine .inl ⟨res, c', d', hrun, habove, ?_, ?_⟩
    · rw [hkept'.hierarchy, hkept.hierarchy]
      rfl
    · have hlatest : d'.log.latest = c'.log.latest ++ earlier.latest := by
        rw [hd, hc, List.append_assoc]
        rfl
      exact congrArg Log.mk hlatest
  · exact .inr herror

end Analysis

/-! ## Whole runs -/

/-- The result of an analysis after earlier reports. -/
def Analyzed.above (a : Analyzed) (earlier : Log Problem) : Analyzed :=
  { a with log := a.log.above earlier }

theorem analyze_above (u : CompilationUnit) (earlier : Log Problem) :
    analyze u earlier = (analyze u {}).map fun a => a.above earlier := by
  have hfault (log : Log Problem) {f : Fault} (h : Analysis.unit u { log } = .error f) :
      analyze u log = .error f := by
    simp only [analyze, StateT.run, h]
    rfl
  rcases Analysis.unitHeaders_blind u {} earlier with ⟨v, c, hhead, hhead'⟩ | ⟨f, hhead, hhead'⟩
  · rcases Analysis.typeBodies_above v.types c earlier with
      ⟨types, c', d', hbody, hbody', hhierarchy, hlog⟩ | ⟨f, hbody, hbody'⟩
    · have habove : analyze u earlier = .ok ⟨{ v with types }, d'.hierarchy, d'.log⟩ :=
        analyze_of_parts hhead' hbody'
      rw [analyze_of_parts hhead hbody, habove, hhierarchy, hlog]
      rfl
    · rw [hfault {} ((Analysis.bind_run hhead).trans (Analysis.bind_error hbody)),
        hfault earlier ((Analysis.bind_run hhead').trans (Analysis.bind_error hbody'))]
      rfl
  · rw [hfault {} (Analysis.bind_error hhead), hfault earlier (Analysis.bind_error hhead')]
    rfl

theorem parseUnit_above (file : String) (d : Nat) (tokens : List Token) (earlier : Log Problem) :
    Grammar.parseUnit file d tokens earlier = ((Grammar.parseUnit file d tokens {}).1,
        (Grammar.parseUnit file d tokens {}).2.above earlier) := by
  have hrun := (Grammar.compilationUnit_made file).tracks (Grammar.start tokens {} d) d
    earlier.latest (Nat.le_refl d) fun _ => rfl
  change ((Grammar.compilationUnit file (Grammar.start tokens earlier d)).1,
    (Grammar.compilationUnit file (Grammar.start tokens earlier d)).2.log) = _
  have hstart : (Grammar.start tokens {} d).over d earlier.latest =
      Grammar.start tokens earlier d := rfl
  rw [← hstart, hrun]
  rfl

/-! ## Runs under a budget -/

/-- What a phase adds to the stored reports is recorded as if it had gone on from all of them. -/
theorem Log.record_recorded (budget : Nat) (new log : Log Problem) :
    (log.recorded budget).record (new.above (log.recorded budget).log) =
      (new.above log).recorded budget := by
  simp [Recorder.record, Recorder.log, Log.recorded, Log.above, Log.entries, List.foldl_append]

/-- Parsing into the recorder records what an unlimited parse logs. -/
theorem parseWithin_eq (file source : String) (config : Config) :
    parseWithin file source config =
      ((Grammar.parseSource file config.maxDepth source).1,
        (Grammar.parseSource file config.maxDepth source).2.recorded config.maxErrors) := by
  generalize hread : Grammar.readTokens source = read
  obtain ⟨tokens, lexical⟩ := read
  have hlexical : Recorder.record { budget := config.maxErrors } lexical =
      lexical.recorded config.maxErrors := rfl
  simp only [parseWithin, Grammar.parseSource, hread, hlexical]
  rw [parseUnit_above, parseUnit_above file config.maxDepth tokens lexical, Log.record_recorded]

/-- Analyzing into the recorder records what an unlimited analysis logs. -/
theorem analyzeWithin_eq (u : CompilationUnit) (log : Log Problem) (budget : Nat) :
    analyzeWithin u (log.recorded budget) =
      (analyze u log).map fun a => (a.unit, a.hierarchy, a.log.recorded budget) := by
  rw [analyzeWithin, analyze_above, analyze_above u log]
  cases analyze u {} with
  | error f => rfl
  | ok a =>
    exact congrArg (fun d => Except.ok (a.unit, a.hierarchy, d)) (Log.record_recorded _ _ _)

/-- A failure with the first reports of a log. -/
def Failure.ofLog (file : String) (config : Config) (log : Log Problem) : Failure :=
  .error (.compilation file (log.diagnostics file config.maxErrors))

theorem Failure.ofRecorder_recorded (file : String) (config : Config) (log : Log Problem) :
    Failure.ofRecorder file (log.recorded config.maxErrors) = Failure.ofLog file config log := by
  rw [Failure.ofRecorder, Log.recorded_eq]
  rfl

/-- Compilation with the logs of all reports. -/
def compileLogged (file source : String) (config : Config) : Except Failure (List ClassFile) := do
  let (parsed, log) := Grammar.parseSource file config.maxDepth source
  if log.failed then throw (Failure.ofLog file config log)
  let analyzed ← Failure.lift (analyze parsed log)
  if analyzed.log.failed then throw (Failure.ofLog file config analyzed.log)
  generate analyzed.unit analyzed.hierarchy

/-- A recorder does for compilation what the logs of all reports would do. -/
theorem compile_eq_logged (file source : String) (config : Config) :
    compile file source config = compileLogged file source config := by
  simp only [compile, compileLogged, parseWithin_eq, Log.recorded_failed, analyzeWithin_eq,
    Failure.ofRecorder_recorded]
  cases analyze (Grammar.parseSource file config.maxDepth source).1
      (Grammar.parseSource file config.maxDepth source).2 with
  | error f => rfl
  | ok a =>
    simp only [Except.map, Failure.lift, bind, Except.bind, Log.recorded_failed,
      Failure.ofRecorder_recorded]

/-- Parses and analyzes a source, whether or not it has problems. -/
def check (file : String) (maxDepth : Nat) (source : String) : Except Fault Analyzed :=
  let (u, log) := Grammar.parseSource file maxDepth source
  analyze u log

/-- Parses and analyzes a source with one recorder, whether or not it has problems. -/
def checkWithin (file source : String) (config : Config) :
    Except Fault (CompilationUnit × Hierarchy × Recorder) :=
  let (parsed, recorder) := parseWithin file source config
  analyzeWithin parsed recorder

theorem checkWithin_eq (file source : String) (config : Config) :
    checkWithin file source config = (check file config.maxDepth source).map fun a =>
      (a.unit, a.hierarchy, a.log.recorded config.maxErrors) := by
  rw [checkWithin, parseWithin_eq]
  exact analyzeWithin_eq _ _ _

/-- Compilation under two budgets ends the same way, or the source has problems and both list what
their budgets let through of one log. -/
theorem compile_budget (file source : String) (config : Config) (m m' : Nat) :
    compile file source { config with maxErrors := m } =
        compile file source { config with maxErrors := m' } ∨
      ∃ log : Log Problem, log.failed ∧ ∀ budget,
        compile file source { config with maxErrors := budget } =
          .error (.error (.compilation file (log.diagnostics file budget))) := by
  simp only [compile_eq_logged, compileLogged]
  generalize Grammar.parseSource file config.maxDepth source = parsed
  obtain ⟨u, log⟩ := parsed
  cases hparsed : log.failed with
  | true => exact .inr ⟨log, hparsed, fun _ => rfl⟩
  | false =>
    cases analyze u log with
    | error f => exact .inl rfl
    | ok a =>
      cases hanalyzed : a.log.failed with
      | true =>
        refine .inr ⟨a.log, hanalyzed, fun _ => ?_⟩
        simp [Failure.lift, hanalyzed, Failure.ofLog, throw, throwThe, MonadExceptOf.throw,
          bind, Except.bind]
      | false => exact .inl (by simp [Failure.lift, hanalyzed, bind, Except.bind])

/-- A budget only truncates. A run under a smaller budget comes to the same unit, the same headers
and the same count as one under a larger budget. It stores the first reports of all that are made,
and those are the first of what the larger budget stores. Compilation under the one budget makes
classes if and only if it makes the same classes under the other. It fails for the same reason under
both, and if it fails for the problems of the source, it lists the first of them, as many as the
budget lets through. -/
theorem budget_truncates (file source : String) (config : Config) {m m' : Nat} (hle : m ≤ m') :
    ((∃ f, check file config.maxDepth source = .error f ∧
        ∀ budget, checkWithin file source { config with maxErrors := budget } = .error f) ∨
      ∃ (a : Analyzed) (d d' : Recorder), check file config.maxDepth source = .ok a ∧
        checkWithin file source { config with maxErrors := m } = .ok (a.unit, a.hierarchy, d) ∧
        checkWithin file source { config with maxErrors := m' } = .ok (a.unit, a.hierarchy, d') ∧
        d.count = a.log.count ∧ d'.count = a.log.count ∧
        d.entries = a.log.entries.take (min m a.log.count) ∧ d.entries <+: d'.entries) ∧
    (∀ classes, compile file source { config with maxErrors := m } = .ok classes ↔
      compile file source { config with maxErrors := m' } = .ok classes) ∧
    (compile file source { config with maxErrors := m } =
        compile file source { config with maxErrors := m' } ∨
      ∃ reports : List (Report Problem), reports ≠ [] ∧ ∀ budget,
        compile file source { config with maxErrors := budget } = .error (.error
          (.compilation file ((reports.take budget).map (Report.diagnostic file))))) := by
  refine ⟨?_, ?_, ?_⟩
  · cases hcheck : check file config.maxDepth source with
    | error f => exact .inl ⟨f, rfl, fun budget => by rw [checkWithin_eq, hcheck]; rfl⟩
    | ok a =>
      refine .inr ⟨a, a.log.recorded m, a.log.recorded m', rfl, ?_, ?_, a.log.recorded_count m,
        a.log.recorded_count m', ?_, ?_⟩
      · rw [checkWithin_eq, hcheck]
        rfl
      · rw [checkWithin_eq, hcheck]
        rfl
      · rw [Log.recorded_eq, Log.shown_eq_take]
      · rw [Log.recorded_eq, Log.recorded_eq]
        exact List.take_prefix_take_left hle
  · intro classes
    rcases compile_budget file source config m m' with hsame | ⟨log, -, hfails⟩
    · rw [hsame]
    · rw [hfails m, hfails m']
      exact ⟨nofun, nofun⟩
  · refine (compile_budget file source config m m').imp_right ?_
    rintro ⟨log, hfailed, hfails⟩
    exact ⟨log.entries, by simpa [Log.entries, Log.failed] using hfailed, hfails⟩

/-- A class with three fields whose first values are names that stand for nothing. -/
def threeErrors : String := "class A { int f = x; int g = y; int h = z; }"

/-- None of the three errors is stored under a budget of none, and all are counted. -/
theorem budget_truncates_threeErrors : ∃ (a : Analyzed) (d d' : Recorder),
    check "A.java" 64 threeErrors = .ok a ∧ a.log.count = 3 ∧
      checkWithin "A.java" threeErrors { maxErrors := 0 } = .ok (a.unit, a.hierarchy, d) ∧
      checkWithin "A.java" threeErrors { maxErrors := 2 } = .ok (a.unit, a.hierarchy, d') ∧
      d.count = 3 ∧ d'.count = 3 ∧ d.entries = [] ∧ d.entries <+: d'.entries := by
  have hcount : (check "A.java" 64 threeErrors).toOption.map (fun a => a.log.count) = some 3 := by
    decide +kernel
  rcases (budget_truncates "A.java" threeErrors {} (Nat.zero_le 2)).1 with
    ⟨f, hfault, -⟩ | ⟨a, d, d', ha, hd, hd', hsame, hsame', hentries, hfirst⟩
  · rw [hfault] at hcount
    cases hcount
  · rw [ha] at hcount
    have hthree : a.log.count = 3 := Option.some.inj hcount
    refine ⟨a, d, d', ha, hthree, hd, hd', hsame.trans hthree, hsame'.trans hthree, ?_, hfirst⟩
    simpa using hentries

end JMinusMinus
