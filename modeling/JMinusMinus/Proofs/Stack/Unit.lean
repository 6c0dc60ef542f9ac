import JMinusMinus.Proofs.Faults.Unit
import JMinusMinus.Proofs.Generate
import JMinusMinus.Proofs.Progress.Stmt

/-!
# Stack heights of units

Every method, constructor and class initializer of an accepted unit has stack heights
(`accepted_balanced`). For heights nothing has to be known of slots (`Terms.loose`).
-/

namespace JMinusMinus

theorem Expr.Settled.of_clean {e : Expr} (he : e.Settled fr) (hclean : e.Clean [[]]) :
    e.Settled (fr.over []) := by
  intro x hx
  obtain ⟨htyped, hform⟩ := he x hx
  have hnode := hclean x hx
  cases x with
  | localVar n name slot => simp [NodeClean] at hnode
  | _ => exact ⟨htyped, hform⟩

namespace Lowering

/-! ## Bodies -/

variable {T : Terms} {P : List Nat → Prop} {h : Hierarchy} {u : CompilationUnit} {name : String}
  {result : Ty} {fr : Frame}

/-- The end of a body leaves the stack as it is. -/
theorem closeBody_codes (t : Ty) (body : List Stmt) : Coded T result P 0 (closeBody t body) 0 0 :=
  .ite (fun _ => return_codes .void) fun _ => .pure fun _ _ => trivial

/-- The first value of a field that fits its type. -/
def FieldInit.Settled (h : Hierarchy) (f : FieldInit) : Prop :=
  ∃ t, t.isProper ∧ f.ref.descriptor = t.descriptor ∧
    ∃ fr : Frame, fr.hierarchy = h ∧ fr.Laid ∧ f.value.SettledAs fr t

theorem fieldInit_codes {f : FieldInit} (hf : f.Settled h)
    (hself : T.strict → T.allowed (.aload, 0))
    (hvalue : T.strict → Uses result T.allowed (expr h .value f.value) ∧
      Runs T.stops (expr h .value f.value)) : Coded T result P 0 (fieldInit h f) 0 0 := by
  obtain ⟨t, ht, hdescriptor, fr, rfl, ⟨bound, hlaid⟩, hfits⟩ := hf
  have hcode (k : Nat) : Coded T result P 0 (expr fr.hierarchy .value f.value) k (k + t.words) := by
    refine ⟨?_, fun hT => (hvalue hT).1, fun hT => (hvalue hT).2⟩
    rw [← words_eq_of_fits hfits.fits]
    exact (expr_shifts hlaid.proper hfits.settled).value k
  have hfield := Descriptor.fieldWords_descriptor ht
  refine .ite (fun _ => ?_) fun _ => ?_
  · refine .next (hcode 0) (instr_codes ?_ rfl)
    exact member_shifts t.words 0 (by simp [Instruction.effect, hdescriptor, hfield]) (by omega)
      (by omega)
  · refine .next (access_codes currentObject_shifts hself fun _ => by decide)
      (.next (hcode _) (instr_codes ?_ rfl))
    exact member_shifts (1 + t.words) 0 (by simp [Instruction.effect, hdescriptor, hfield])
      (by omega) (by omega)

theorem initsOf_codes {d : ClassDecl} (hsettled : ∀ m ∈ d.members, m.Settled h u name)
    (hsized : T.strict → ∀ m ∈ d.members, m.Sized)
    (hdeep : T.strict → ∀ m ∈ d.members, ∀ e ∈ m.inits, ∀ x ∈ e.nodes, x.isDeepCreation →
      T.stops (.ofDefect (.dimensions x.line))) (hself : T.strict → T.allowed (.aload, 0)) :
    ∀ f ∈ initsOf owner d isStatic, Coded T result P 0 (fieldInit h f) 0 0 := by
  intro f hf
  obtain ⟨decl, hdecl, v, hv, value, hvalue, rfl⟩ := exists_of_mem_initsOf hf
  obtain ⟨hproper, hinit⟩ := hsettled _ hdecl v hv
  obtain ⟨vars, bound, hwithin, hfits⟩ := hinit value hvalue
  let fr := u.frame h name (Analysis.isStatic decl.modifiers) .void vars
  refine fieldInit_codes ⟨v.ty, hproper, rfl, fr, rfl, ⟨bound, hwithin⟩, hfits⟩ hself fun hT => ?_
  have hplain : value.Settled (fr.over []) :=
    hfits.settled.of_clean (hsized hT _ hdecl v hv value hvalue)
  have hcountable : Countable (fr.over []) := fun _ hx => absurd hx List.not_mem_nil
  have hmeets : Use.Meets value .value := hfits.value
  exact ⟨expr_uses value (named_of_settled nofun (fun _ => hself hT) hplain) .value,
    expr_runs hcountable hplain (hdeep hT _ hdecl value (List.mem_filterMap.2 ⟨v, hv, hvalue⟩))
      hmeets⟩

section Bodies

variable {params : List Param} {locals : Nat} {body : Block Stmt}

theorem suits_body (h : BodySettled fr params locals body?)
    (hlocals : T.strict → locals ≤ maxSlots) (hgranted : T.strict → fr.Granted T.allowed) :
    Env.Suits T fr { hierarchy := fr.hierarchy, result := fr.result } [] [] :=
  ⟨rfl, rfl, h.within.proper, hgranted,
    fun hT x hx => Nat.le_trans (h.within.upper x hx) (hlocals hT), .nil, fun _ => rfl⟩

theorem methodBody_codes (h : BodySettled fr params locals (some body))
    (hlocals : T.strict → locals ≤ maxSlots) (hgranted : T.strict → fr.Granted T.allowed)
    (hx : ∀ s ∈ body.stmts, Fair T s) :
    Coded T fr.result (fun _ => True) (blockSpills fr.result.slots [] body) (do
      block { hierarchy := fr.hierarchy, result := fr.result } body
      closeBody fr.result body.stmts) 0 0 :=
  .last (block_codes body (suits_body h hlocals hgranted) h.body hx (fun _ _ => trivial) fun _ =>
    rfl)
    (closeBody_codes _ _)

theorem ctorBody_codes (h : BodySettled fr params locals (some body))
    (hlocals : T.strict → locals ≤ maxSlots) (hgranted : T.strict → fr.Granted T.allowed)
    (hinits : ∀ f ∈ inits, Coded T fr.result (fun _ => True) 0 (fieldInit fr.hierarchy f) 0 0)
    (hx : ∀ s ∈ body.stmts, Fair T s) :
    Coded T fr.result (fun _ => True) (stmtsSpills fr.result.slots [] body.stmts) (do
      ctorBody { hierarchy := fr.hierarchy, result := fr.result } inits body.stmts
      closeBody fr.result body.stmts) 0 0 := by
  refine .last (m := 0) ?_ (closeBody_codes _ _)
  have henv := suits_body h hlocals hgranted
  have hbody : BlockSettled fr [] body := h.body
  have hs := hbody.stmts
  cases hss : body.stmts with
  | nil => exact .pure fun _ _ => trivial
  | cons s ss =>
    rw [hss] at hs hx
    have hrest := stmts_codes ss henv hs.2 (fun t ht => hx t (by simp [ht]))
      (P := fun _ => True) (fun _ _ => trivial) fun _ => rfl
    refine .seq (stmt_codes s henv hs.1 (hx s (by simp)) (fun _ _ => trivial) fun _ => rfl) ?_
    exact .ite (fun _ => .next (.forM hinits) hrest) fun _ => hrest

end Bodies

/-! ## Heights -/

/-- Terms under which slots are not spoken of. -/
def Terms.loose : Terms := ⟨False, fun _ => True, fun _ => True⟩

theorem fair_loose : Fair Terms.loose s := ⟨False.elim, False.elim⟩

theorem exitCodes_loose {es : List Exit} (result : Ty) (h : Exit.Finals es) :
    ∃ ns, ExitCodes Terms.loose result es ns := by
  induction es with
  | nil => exact ⟨[], .nil⟩
  | cons e es ih =>
    cases e with
    | loop stop next => exact (ih h).imp' _ fun _ => .loop
    | switch stop => exact (ih h).imp' _ fun _ => .switch
    | guarded scope final =>
      obtain ⟨ns, hns⟩ := ih h.2
      refine ⟨.guarded (final.map fun _ => 0) :: ns, .guarded ?_ hns⟩
      cases final with
      | none => trivial
      | some code => exact fun P hP => ⟨h.1 code rfl P hP, False.elim, False.elim⟩

theorem assemble_heights {locals k : Nat} {x : Lowering Unit} {code : Code}
    (hx : Shifts (fun _ => True) x 0 k) (hcode : assemble locals x = .ok code) :
    ∃ height, code.Heights height := by
  obtain ⟨a, hrun, hcode⟩ := exists_of_bind_eq_ok hcode
  obtain ⟨heights, -, hlength, hchecks, hhandlers, -⟩ := hx _ a hrun [] rfl fun _ _ => trivial
  exact hchecks.exists_heights hcode hlength hhandlers

/-- The code of a class has a height of the stack at every offset. -/
theorem CodeOf.exists_heights {d : ClassDecl} (hmembers : ∀ m ∈ d.members, m.Settled h u name)
    (hcode : CodeOf h owner d code) : ∃ height, code.Heights height := by
  have hinits (result : Ty) (isStatic : Bool) : ∀ f ∈ initsOf owner d isStatic,
      Coded Terms.loose result (fun _ => True) 0 (fieldInit h f) 0 0 :=
    initsOf_codes hmembers nofun nofun nofun
  cases hcode with
  | method hm hbody hcode =>
    obtain ⟨-, ⟨vars, hsettled⟩, -⟩ := hmembers _ hm
    rw [hbody] at hsettled
    exact assemble_heights (methodBody_codes (T := .loose) hsettled nofun nofun fun _ _ =>
      fair_loose).balances hcode
  | @ctor c hc hcode =>
    obtain ⟨vars, hsettled⟩ := hmembers _ hc
    exact assemble_heights (ctorBody_codes (T := .loose) hsettled nofun nofun
      (hinits .void false) fun _ _ => fair_loose).balances hcode
  | classInit hcode =>
    exact assemble_heights ((Codes.forM (hinits .void true)).next (closeBody_codes _ _)).balances
      hcode

end Lowering

/-! ## Accepted sources -/

open Lowering

/-- A unit whose code keeps to the discipline of the operand stack. -/
structure Analyzed.Balanced (a : Analyzed) : Prop where
  /-- Every code has heights. -/
  codes : ∀ files, generate a.unit a.hierarchy = .ok files → ∀ file ∈ files, ∀ m ∈ file.methods,
    ∀ code ∈ m.code, ∃ height, code.Heights height
  /-- Statements start and end with an empty stack, where the labels outside of them are level. -/
  stmts : ∀ result s, a.unit.HasStmt result s → ∀ env : Env, env.hierarchy = a.hierarchy →
    env.result = result → Exit.Finals env.exits → Shifts (Exit.Level env.exits) (stmt env s) 0 0
  /-- A value leaves the words of its type, at any height. -/
  values : ∀ e, a.unit.HasExpr e → ∀ k,
    Shifts (fun _ => True) (expr a.hierarchy .value e) k (k + e.ty.words)
  /-- An effect leaves nothing. -/
  effects : ∀ e, a.unit.HasExpr e → ∀ k, Shifts (fun _ => True) (expr a.hierarchy .effect e) k k
  /-- A test leaves nothing where it goes on and where it jumps. -/
  tests : ∀ e, a.unit.HasExpr e → e.ty = .boolean → ∀ target sense k,
    Shifts (target.At k) (expr a.hierarchy (.branch target sense) e) k k

theorem Analyzed.Settled.shiftsExpr {a : Analyzed} (h : a.Settled) (he : a.unit.HasExpr e) :
    ShiftsExpr a.hierarchy e := by
  obtain ⟨fr, hh, ⟨bound, hwithin⟩, hsettled⟩ := h.expr he
  rw [← hh]
  exact expr_shifts hwithin.proper hsettled

/-- The code of an accepted source keeps to the discipline of the operand stack. -/
theorem accepted_balanced {file : String} {maxDepth : Nat} {source : String} {a : Analyzed}
    (h : Accepted file maxDepth source a) : a.Balanced := by
  have hsettled := analyze_settled (Grammar.parseSource_written h.parsed) h.analyzed h.silent
  constructor
  case codes =>
    intro files hfiles classFile hclassFile m hm code hcode
    obtain ⟨d, hd, hcodeOf⟩ := codeOf_of_generate hfiles hclassFile hm hcode
    exact hcodeOf.exists_heights (hsettled _ hd)
  case stmts =>
    intro result s hs env hhierarchy hresult hfinals
    obtain ⟨fr, jumps, hh, hr, ⟨bound, hwithin⟩, hstmt⟩ := hsettled.stmt hs
    obtain ⟨ns, hns⟩ := exitCodes_loose env.result hfinals
    have henv : env.Suits Terms.loose fr ns jumps :=
      ⟨hhierarchy.trans hh.symm, hresult.trans hr.symm, hwithin.proper, False.elim,
        False.elim, hns, False.elim⟩
    exact (stmt_codes s henv hstmt fair_loose (fun _ h => h) fun _ => rfl).balances
  case values => exact fun e he k => (hsettled.shiftsExpr he).value k
  case effects =>
    exact fun e he k => hsettled.shiftsExpr he _ .effect k trivial fun _ _ => trivial
  case tests =>
    exact fun e he hty target sense k =>
      (hsettled.shiftsExpr he).tests hty k _ target sense fun _ h => h

theorem accepted_balanced_counter : ∃ a files, Accepted "Counter.java" 100 counterSource a ∧
    generate a.unit a.hierarchy = .ok files ∧ a.Balanced := by
  obtain ⟨a, files, ha, hfiles⟩ := exists_generated counterSource_generates
  exact ⟨a, files, ha, hfiles, accepted_balanced ha⟩

end JMinusMinus
