import JMinusMinus.Proofs.Budget
import JMinusMinus.Proofs.Flow.Unit
import JMinusMinus.Proofs.Stack.Unit

/-!
# Lowering of accepted units

Code is made for every accepted unit, but for two limits that analysis does not check
(`accepted_generates`): an array creation with more lengths than an instruction can count, and a
member whose code takes more slots than can be counted. The slots of the code of a member come
after those of its variables, so that their number is known without its code (`Member.demand`).

The compiler itself stops only where slots run out, in analysis or in code (`compile_stops`).
-/

namespace JMinusMinus

/-! ## Slots of members -/

/-- The slots of the code of a member. -/
def Member.demand : Member → Nat
  | .ctor c => c.locals + stmtsSpills Ty.void.slots [] c.body.stmts
  | .method m => m.locals + (finalSpills m.result.slots [] m.body).getD 0
  | .field _ => 0

/-- A member with reasons to stop for array creations with too many lengths. -/
structure Member.Excused (E : Failure → Prop) (m : Member) : Prop where
  body : ∀ result body, m.body? = some (result, body) → StmtsExcused E body.stmts
  inits : ∀ e ∈ m.inits, ∀ x ∈ e.nodes, x.isDeepCreation → E (.ofDefect (.dimensions x.line))

/-- A failure that names an array creation with too many lengths. -/
def CompilationUnit.TooDeep (u : CompilationUnit) (f : Failure) : Prop :=
  ∃ e, u.HasExpr e ∧ e.isDeepCreation ∧ f = .ofDefect (.dimensions e.line)

theorem CompilationUnit.excused {u : CompilationUnit} {m : Member} (hm : m ∈ u.members) :
    m.Excused u.TooDeep where
  body := fun result body hbody s hs t hpart e he x hx hdeep =>
    ⟨x, .inl ⟨result, t, ⟨m, hm, body, hbody, s, hs, hpart⟩, e, he, hx⟩, hdeep, rfl⟩
  inits := fun e he x hx hdeep => ⟨x, .inr ⟨m, hm, e, he, hx⟩, hdeep, rfl⟩

/-! ## Steps of code generation -/

/-- A step that stops for a reason, or exactly where slots run out. -/
structure Makes {α : Type} (E : Failure → Prop) (fits : Prop) (x : Except Failure α) : Prop where
  stops : ∀ f, x = .error f → E f ∨ f = .fault .slotOverflow ∧ ¬fits
  fits : ∀ a, x = .ok a → fits

namespace Makes

variable {α β : Type} {E : Failure → Prop} {p q : Prop} {x : Except Failure α}

theorem pure {a : α} : Makes E True (pure a : Except Failure α) := ⟨nofun, fun _ _ => trivial⟩

theorem iff (h : Makes E p x) (hiff : p ↔ q) : Makes E q x := propext hiff ▸ h

theorem bind {f : α → Except Failure β} (hx : Makes E p x) (hf : ∀ a, Makes E q (f a)) :
    Makes E (p ∧ q) (x >>= f) := by
  cases x with
  | error e =>
    refine ⟨fun f heq => ?_, nofun⟩
    cases heq
    exact (hx.stops e rfl).imp id fun h => ⟨h.1, fun hand => h.2 hand.1⟩
  | ok a =>
    refine ⟨fun e heq => ?_, fun b heq => ⟨hx.fits a rfl, (hf a).fits b heq⟩⟩
    exact ((hf a).stops e heq).imp id fun h => ⟨h.1, fun hand => h.2 hand.2⟩

theorem before {f : α → Except Failure β} (hx : Makes E p x) (hf : ∀ a, Makes E True (f a)) :
    Makes E p (x >>= f) :=
  (hx.bind hf).iff (iff_of_eq (and_true p))

theorem mapM {f : α → Except Failure β} {fits : α → Prop} {as : List α}
    (h : ∀ a ∈ as, Makes E (fits a) (f a)) : Makes E (∀ a ∈ as, fits a) (as.mapM f) := by
  induction as with
  | nil => exact pure.iff (by simp)
  | cons a as ih =>
    obtain ⟨hfirst, hrest⟩ := List.forall_mem_cons.1 h
    rw [List.mapM_cons]
    exact (hfirst.bind fun _ => (ih hrest).before fun _ => pure).iff List.forall_mem_cons.symm

end Makes

/-! ## Bodies -/

namespace Lowering

variable {E : Failure → Prop} {h : Hierarchy} {u : CompilationUnit} {name : String}

theorem mem_marks_of_mem_marked (h : l ∈ marked lines) (start : Nat) :
    ∃ p, (l, p) ∈ marks start lines := by
  induction lines generalizing start with
  | nil => cases h
  | cons line lines ih =>
    cases line with
    | instr i => exact ih h _
    | mark l' =>
      rcases List.mem_cons.1 h with rfl | h
      · exact ⟨start, List.mem_cons_self⟩
      · obtain ⟨p, hp⟩ := ih h start
        exact ⟨p, List.mem_cons_of_mem _ hp⟩

theorem assemble_makes (hx : Lowers E n x fun _ => True) (hclosed : Closed [] x)
    (hlocals : locals ≤ maxSlots) : Makes E (locals + n ≤ maxSlots) (assemble locals x) := by
  obtain ⟨hstops, hmakes⟩ := hx ⟨0, locals⟩
  unfold assemble
  cases hrun : x ⟨0, locals⟩ with
  | error e =>
    refine ⟨fun f heq => ?_, nofun⟩
    cases heq
    exact (hstops e hrun).imp id fun h => ⟨h.1, Nat.not_le.2 h.2⟩
  | ok a =>
    obtain ⟨-, hle, -⟩ := hmakes a hrun
    obtain ⟨⟨-, hmarks, -, -⟩, hhandlers⟩ := hclosed _ a hrun
    have hperm : (marked a.code.lines).Perm (created 0 a.supply.labels) := by simpa using hmarks
    have hknown : ∀ l, l ∈ marked a.code.lines ↔ l.id < a.supply.labels := fun l => by
      simp [hperm.mem_iff]
    obtain ⟨code, hcode⟩ : ∃ code,
        Buffer.layout ⟨a.supply.labels, .reserve locals ++ a.code⟩ = .ok code := by
      refine exists_layout (fun id hid => ?_) fun g hg => ?_
      · exact mem_marks_of_mem_marked ((hknown ⟨id⟩).2 hid) 0
      · obtain ⟨before, first, inside, after, hlines, hstart, hstop, htarget⟩ := hhandlers g hg
        have hall : ∀ l ∈ marked (.mark first :: inside), l.id < a.supply.labels := by
          intro l hl
          rw [← hknown, hlines, marked_append, marked_append]
          exact List.mem_append_left _ (List.mem_append_right _ hl)
        exact ⟨hall _ hstart, hall _ hstop, hall _ htarget.mem_marked⟩
    show Makes E _ (Buffer.layout ⟨a.supply.labels, .reserve locals ++ a.code⟩)
    rw [hcode]
    exact ⟨nofun, fun _ _ => hle hlocals⟩

/-! ## Members -/

/-- Terms under which every use of a slot is allowed. -/
def Terms.free (E : Failure → Prop) : Terms := ⟨True, E, fun _ => True⟩

theorem granted_free {fr : Frame} : fr.Granted (Terms.free E).allowed :=
  ⟨fun _ _ _ _ => trivial, fun _ => trivial⟩

theorem fair_free (hx : StmtsExcused E ss) : ∀ s ∈ ss, Fair (.free E) s := fun s hs =>
  ⟨fun _ => hx s hs, fun _ _ _ _ _ => trivial⟩

/-- First values of fields for which code is made. -/
def Initial (E : Failure → Prop) (h : Hierarchy) (inits : List FieldInit) : Prop :=
  ∀ f ∈ inits, Coded (.free E) .void (fun _ => True) 0 (fieldInit h f) 0 0

theorem methodFile_makes (hsettled : Member.Settled h u name (.method m))
    (hsized : Member.Sized (.method m)) (hx : ∀ b ∈ m.body, StmtsExcused E b.stmts) :
    Makes E (Member.demand (.method m) ≤ maxSlots) (methodFile h m) := by
  obtain ⟨-, ⟨vars, hbody⟩, -⟩ := hsettled
  simp only [methodFile, Member.demand]
  cases heq : m.body with
  | none => exact Makes.pure.iff (iff_of_true trivial hsized.1)
  | some body =>
    rw [heq] at hbody
    refine .before (assemble_makes ?_ ?_ hsized.1) fun _ => .pure
    · exact (methodBody_codes hbody (fun _ => hsized.1) (fun _ => granted_free)
        (fair_free (hx body heq))).lowers trivial
    · exact .bind (block_closed body trivial) fun _ => closeBody_closed _ _

theorem ctorFile_makes (hinits : Initial E h inits)
    (hsettled : Member.Settled h u name (.ctor c)) (hsized : Member.Sized (.ctor c))
    (hx : StmtsExcused E c.body.stmts) :
    Makes E (Member.demand (.ctor c) ≤ maxSlots) (ctorFile h inits c) := by
  obtain ⟨vars, hbody⟩ := hsettled
  refine .before (assemble_makes ?_ ?_ hsized.1) fun _ => .pure
  · exact (ctorBody_codes hbody (fun _ => hsized.1) (fun _ => granted_free) hinits
      (fair_free hx)).lowers trivial
  · have htidy : Exit.Tidy (Env.exits { hierarchy := h, result := .void }) := trivial
    exact .bind (ctorBody_closed htidy _ _) fun _ => closeBody_closed _ _

theorem classInitFile_makes {inits : List FieldInit} (hinits : Initial E h inits) :
    Makes E True (classInitFile h inits) := by
  have hcodes : Coded (.free E) .void (fun _ => True) 0 (do
      inits.forM (fieldInit h)
      closeBody .void []) 0 0 := .next (.forM hinits) (closeBody_codes _ _)
  have hmakes := assemble_makes (hcodes.lowers trivial) classInit_ends.closed (Nat.zero_le _)
  exact .before (hmakes.iff (iff_of_true (Nat.zero_le _) trivial)) fun _ => .pure

/-! ## Units -/

theorem memberFiles_makes {inits : List FieldInit} (hinits : Initial E h inits) {m : Member}
    (hsettled : m.Settled h u name) (hsized : m.Sized) (hx : m.Excused E) :
    Makes E (m.demand ≤ maxSlots) (memberFiles h inits m) := by
  cases m with
  | ctor c =>
    exact .before (ctorFile_makes hinits hsettled hsized (hx.body _ _ rfl)) fun _ => .pure
  | method m =>
    refine .before (methodFile_makes hsettled hsized fun b hb => ?_) fun _ => .pure
    exact hx.body m.result b (by simp [Member.body?, Option.mem_def.1 hb])
  | field f => exact Makes.pure.iff (iff_of_true trivial (Nat.zero_le _))

theorem classFile_makes {d : ClassDecl} (hsettled : ∀ m ∈ d.members, m.Settled h u name)
    (hsized : ∀ m ∈ d.members, m.Sized) (hx : ∀ m ∈ d.members, m.Excused E) (owner : String) :
    Makes E (∀ m ∈ d.members, m.demand ≤ maxSlots) (classFile h owner d) := by
  have hinits (isStatic : Bool) : Initial E h (initsOf owner d isStatic) :=
    initsOf_codes hsettled (fun _ => hsized) (fun _ m hm => (hx m hm).inits) fun _ => trivial
  unfold classFile
  simp only [partition_inits]
  refine .before (.mapM fun m hm => ?_) fun methods => ?_
  · exact memberFiles_makes (hinits false) (hsettled m hm) (hsized m hm) (hx m hm)
  · split
    · exact .pure
    · exact .before (classInitFile_makes (hinits true)) fun _ => .pure

end Lowering

/-! ## Accepted sources -/

open Lowering

theorem Accepted.makes {file : String} {maxDepth : Nat} {source : String} {a : Analyzed}
    (h : Accepted file maxDepth source a) :
    Makes a.unit.TooDeep (∀ m ∈ a.unit.members, m.demand ≤ maxSlots)
      (generate a.unit a.hierarchy) := by
  have hwritten := Grammar.parseSource_written h.parsed
  have hsettled := analyze_settled hwritten h.analyzed h.silent
  have hsized := (analyze_sized hwritten h.analyzed).2
  unfold CompilationUnit.members at hsized ⊢
  refine Makes.iff (.mapM fun d hd => ?_) List.forall_mem_flatMap.symm
  cases d with
  | classDecl d =>
    have hmember : ∀ m ∈ d.members, m ∈ a.unit.members := fun m hm =>
      List.mem_flatMap.2 ⟨_, hd, hm⟩
    exact classFile_makes (hsettled _ hd) (fun m hm => hsized m (hmember m hm))
      (fun m hm => CompilationUnit.excused (hmember m hm)) _
  | interfaceDecl d => exact Makes.pure.iff (by simp)

/-- Code is made for an accepted source, unless it has an array creation with more lengths than an
instruction can count, or a member whose code takes more slots than can be counted. -/
theorem accepted_generates {file : String} {maxDepth : Nat} {source : String} {a : Analyzed}
    (h : Accepted file maxDepth source a) :
    (∃ files, generate a.unit a.hierarchy = .ok files ∧
        ∀ m ∈ a.unit.members, m.demand ≤ maxSlots) ∨
      (∃ e, a.unit.HasExpr e ∧ e.isDeepCreation ∧
        generate a.unit a.hierarchy = .error (.ofDefect (.dimensions e.line))) ∨
      generate a.unit a.hierarchy = .error (.fault .slotOverflow) ∧
        ∃ m ∈ a.unit.members, maxSlots < m.demand := by
  cases hrun : generate a.unit a.hierarchy with
  | ok files => exact .inl ⟨files, rfl, h.makes.fits files hrun⟩
  | error f =>
    rcases h.makes.stops f hrun with ⟨e, he, hdeep, rfl⟩ | ⟨rfl, hover⟩
    · exact .inr (.inl ⟨e, he, hdeep, rfl⟩)
    · exact .inr (.inr ⟨rfl, by simpa using hover⟩)

theorem accepted_generates_counter : ∃ a, Accepted "Counter.java" 100 counterSource a ∧
    ((∃ files, generate a.unit a.hierarchy = .ok files ∧
        ∀ m ∈ a.unit.members, m.demand ≤ maxSlots) ∨
      (∃ e, a.unit.HasExpr e ∧ e.isDeepCreation ∧
        generate a.unit a.hierarchy = .error (.ofDefect (.dimensions e.line))) ∨
      generate a.unit a.hierarchy = .error (.fault .slotOverflow) ∧
        ∃ m ∈ a.unit.members, maxSlots < m.demand) := by
  obtain ⟨a, files, ha, hfiles⟩ := exists_generated counterSource_generates
  exact ⟨a, ha, accepted_generates ha⟩

/-! ## Faults of the compiler -/

/-- Why slots run out: some variables of a source cannot be counted, or the code of a member of an
accepted source takes too many. -/
def OutOfSlots (file : String) (maxDepth : Nat) (source : String) : Prop :=
  ¬(Grammar.parseSource file maxDepth source).1.Fits ∨
    ∃ a, Accepted file maxDepth source a ∧ ∃ m ∈ a.unit.members, maxSlots < m.demand

section Compile

variable (file source : String) (config : Config)

/-- How a compilation ends: the source has problems, analysis stops, or code is made. -/
inductive Ended : Except Failure (List ClassFile) → Prop
  | unparsed {log : Log Problem} :
      (Grammar.parseSource file config.maxDepth source).2.failed = true →
      Ended (.error (Failure.ofLog file config log))
  | stopped {f : Fault} : (Grammar.parseSource file config.maxDepth source).2.failed = false →
      analyze (Grammar.parseSource file config.maxDepth source).1
        (Grammar.parseSource file config.maxDepth source).2 = .error f → Ended (.error (.fault f))
  | rejected {a : Analyzed} : (Grammar.parseSource file config.maxDepth source).2.failed = false →
      analyze (Grammar.parseSource file config.maxDepth source).1
        (Grammar.parseSource file config.maxDepth source).2 = .ok a →
      Ended (.error (Failure.ofLog file config a.log))
  | accepted {a : Analyzed} : Accepted file config.maxDepth source a →
      Ended (generate a.unit a.hierarchy)

theorem compile_ended : Ended file source config (compile file source config) := by
  rw [compile_eq_logged]
  unfold compileLogged
  cases hparsed : (Grammar.parseSource file config.maxDepth source).2.failed with
  | true =>
    simp only [hparsed]
    exact .unparsed hparsed
  | false =>
    cases hrun : analyze (Grammar.parseSource file config.maxDepth source).1
        (Grammar.parseSource file config.maxDepth source).2 with
    | error f =>
      simp only [hparsed, hrun]
      exact .stopped hparsed hrun
    | ok a =>
      simp only [hparsed, hrun, Failure.lift, bind, Except.bind]
      cases hsilent : a.log.failed with
      | true => exact .rejected hparsed hrun
      | false => exact .accepted ⟨hparsed, hrun, hsilent⟩

/-- The compiler stops only because slots run out. A source that is parsed makes it stop if its
variables cannot be counted, and what is compiled has slots for everything. -/
theorem compile_stops :
    (∀ f, compile file source config = .error (.fault f) →
      f = .slotOverflow ∧ OutOfSlots file config.maxDepth source) ∧
    ((Grammar.parseSource file config.maxDepth source).2.failed = false →
      ¬(Grammar.parseSource file config.maxDepth source).1.Fits →
      compile file source config = .error (.fault .slotOverflow)) ∧
    ∀ files, compile file source config = .ok files →
      ¬OutOfSlots file config.maxDepth source := by
  generalize hresult : compile file source config = result
  cases hresult ▸ compile_ended file source config with
  | unparsed hparsed =>
    refine ⟨nofun, fun hsilent => ?_, nofun⟩
    cases hparsed.symm.trans hsilent
  | stopped hparsed hrun =>
    obtain ⟨rfl, hfits⟩ := analyze_fault (Grammar.parseSource_written hparsed) hrun
    refine ⟨fun f heq => ?_, fun _ _ => rfl, nofun⟩
    cases heq
    exact ⟨rfl, .inl hfits⟩
  | rejected hparsed hrun =>
    have hfits := (analyze_sized (Grammar.parseSource_written hparsed) hrun).1
    exact ⟨nofun, fun _ hover => absurd hfits hover, nofun⟩
  | @accepted a ha =>
    have hfits := (analyze_sized (Grammar.parseSource_written ha.parsed) ha.analyzed).1
    refine ⟨fun f heq => ?_, fun _ hover => absurd hfits hover, fun files heq => ?_⟩
    · rcases ha.makes.stops _ heq with ⟨e, -, -, hdeep⟩ | ⟨hfault, hover⟩
      · cases hdeep
      · cases hfault
        exact ⟨rfl, .inr ⟨a, ha, by simpa using hover⟩⟩
    · rintro (hover | ⟨b, hb, m, hm, hover⟩)
      · exact hover hfits
      · obtain rfl : a = b := Except.ok.inj (ha.analyzed.symm.trans hb.analyzed)
        exact absurd (ha.makes.fits files heq m hm) (Nat.not_le.2 hover)

end Compile

/-- Every class of this source is made, so it has slots for everything. -/
theorem compile_stops_counter :
    ∃ files, compile "Counter.java" counterSource {} = .ok files ∧
      ¬OutOfSlots "Counter.java" ({} : Config).maxDepth counterSource := by
  have hok : (compile "Counter.java" counterSource {}).toOption.isSome = true := by decide +kernel
  cases hrun : compile "Counter.java" counterSource {} with
  | error e =>
    rw [hrun] at hok
    cases hok
  | ok files => exact ⟨files, rfl, (compile_stops "Counter.java" counterSource {}).2.2 files hrun⟩

end JMinusMinus
