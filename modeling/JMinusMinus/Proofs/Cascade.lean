import JMinusMinus.Proofs.Scope.Expr

/-!
# Operands that failed a check

An operand that failed a check has type `any`, and its problem is in the log. A node all of whose
operands are such adds nothing to the log (`expr_of_any_operands`): what the operands reported is
all that is reported.

A step is the exception. It asks whether its operand is a variable before it asks for its type, so
the step of an operation that failed is reported a second time.
-/

namespace JMinusMinus.Analysis

/-! ## Operands -/

/-- The operands of a node, as values. A selection also takes a type or a package as its target. -/
def operands : Expr → List (Role × Expr)
  | .unary _ _ operand | .step _ _ operand | .cast _ _ operand | .instanceOf _ operand _ =>
    [(.value, operand)]
  | .binary _ _ lhs rhs | .assign _ _ lhs rhs => [(.value, lhs), (.value, rhs)]
  | .conditional _ test thenExpr elseExpr =>
    [(.value, test), (.value, thenExpr), (.value, elseExpr)]
  | .field _ target _ _ => [(.selected, target)]
  | .element _ array index => [(.value, array), (.value, index)]
  | .send _ target _ args _ => target.toList.map (.selected, ·) ++ args.map (.value, ·)
  | _ => []

/-- Analyzes the operands of a node in order. -/
def analyzeOperands (e : Expr) : Analysis (List Expr) := (operands e).mapM fun p => expr p.1 p.2

/-- Nothing but the operands of an operation is wrong with it: a type that it names is known, and
one that it tests for is a class or an array, and a call without a target stands in a class. -/
def Applies (c : Context) : Expr → Prop
  | .cast n target _ => ∃ t, resolveType n.line target c = .ok (t, c)
  | .instanceOf n _ target => ∃ t, resolveType n.line target c = .ok (t, c) ∧ t.isReference
  | .send _ none _ _ _ => c.className.isSome
  | _ => True

/-- What an operation on operands that failed a check reports. -/
def cascade : Expr → List Expr → List (Report Problem)
  | .step n op _, [operand] =>
    if operand.isVariable then [] else [⟨n.line, .semantic (.stepOperand op.text)⟩]
  | _, _ => []

/-! ## Operations -/

section

variable {line : Nat} {c : Context} {e : Expr}

theorem unary_any (op : UnaryOp) (he : e.ty = .any) :
    unary line op e c = .ok (.unary (typed line .any) op e, c) := by
  simp only [unary, he]
  rfl

theorem step_any (op : StepOp) (he : e.ty = .any) : step line op e c =
      .ok (.step (typed line .any) op e,
        c.logged (cascade (.step (typed line .any) op e) [e])) := by
  simp only [step, he, cascade]
  cases e.isVariable <;> rfl

theorem instanceOf_any {t : Ty} (ht : t.isReference) (he : e.ty = .any) :
    instanceOf line e t c = .ok (.instanceOf (typed line .boolean) e t, c) := by
  simp only [instanceOf, he, ht]
  rfl

theorem castTo_any (t : Ty) (he : e.ty = .any) : castTo line t e c = .ok (convert t e, c) := by
  have hcast : castable c.hierarchy e.ty t = true := by simp [castable, he, Ty.isAny]
  have hget : (get : Analysis Context) c = .ok (c, c) := rfl
  rw [castTo, bind_run hget, hcast]
  rfl

theorem selectField_any (name : String) (he : e.ty = .any) :
    selectField line e name c = .ok (.field (typed line .any) e name none, c) := by
  simp only [selectField, he]
  rfl

theorem element_any {index : Expr} (he : e.ty = .any) :
    element line e index c = .ok (.element (typed line .any) e index, c) := by
  simp only [element, he]
  rfl

theorem binary_any {rhs : Expr} (op : BinaryOp) (he : e.ty = .any) (hrhs : rhs.ty = .any) :
    binary line op e rhs c = .ok (.binary (typed line (failedType op)) op e rhs, c) := by
  simp only [binary, he, hrhs]
  cases op <;> rfl

theorem assign_any {rhs : Expr} (op : AssignOp) (he : e.ty = .any) :
    assign line op e rhs c = .ok (.assign (typed line .any) op e rhs, c) := by
  simp only [assign, he]
  cases e.isVariable <;> rfl

theorem conditional_any {test elseExpr : Expr} (he : e.ty = .any) :
    conditional line test e elseExpr c =
      .ok (.conditional (typed line .any) test e elseExpr, c) := by
  simp only [conditional, he]
  rfl

theorem send_any {target : Option Expr} {name : String} {args : List Expr}
    (htarget : target = none → c.className.isSome) (hsome : target.toList ++ args ≠ [])
    (hany : ∀ x ∈ target.toList ++ args, x.ty = .any) :
    send line target name args c = .ok (.send (typed line .any) target name args none, c) := by
  cases target with
  | some t =>
    have ht : t.ty = .any := hany t (by simp)
    simp only [send, Option.any_some, ht]
    rfl
  | none =>
    obtain ⟨class_, hclass⟩ := Option.isSome_iff_exists.1 (htarget rfl)
    have hargs : (args.map Expr.ty).any Ty.isAny = true := by
      obtain ⟨x, hx⟩ := List.exists_mem_of_ne_nil args (by simpa using hsome)
      exact List.any_eq_true.2 ⟨x.ty, List.mem_map_of_mem hx, by rw [hany x (by simp [hx])]; rfl⟩
    have hget : (get : Analysis Context) c = .ok (c, c) := rfl
    refine (bind_run hget).trans ?_
    simp only [hclass, hargs]
    rfl

end

/-! ## Nodes -/

theorem literal_ty_ne_any (n : Note) (l : Literal) :
    Returns (expr .value (.literal n l)) fun e => e.ty ≠ .any := by
  have hty : (Expr.literal (typed n.line l.ty) l).ty ≠ .any := by cases l <;> exact nofun
  exact .bind (.skip fun _ => .reportUnless (.pure hty)) fun _ he => .pure he

/-- A condition and an index are analyzed as values, and then checked. -/
theorem expr_eq_settle (e : Expr) {role : Role} (hrole : role = .condition ∨ role = .index) :
    expr role e = expr .value e >>= role.settle := by
  have hvalue (e : Expr) : Role.settle .value e = pure e := rfl
  rcases hrole with rfl | rfl
  all_goals
    cases e
    case unary n op operand =>
      simp only [expr]
      split <;> simp only [hvalue, bind_assoc, pure_bind]
    case thisRef n =>
      simp only [expr, hvalue, bind_assoc]
      refine bind_congr fun c => ?_
      split <;> simp only [bind_assoc, pure_bind]
    all_goals simp only [expr, hvalue, bind_assoc, pure_bind, Role.arrayType]

/-- The check of a place lets a value pass that failed another. -/
theorem expr_any {e x : Expr} {role : Role} (hrole : role = .condition ∨ role = .index)
    {c c' : Context} (hrun : expr .value e c = .ok (x, c')) (hx : x.ty = .any) :
    expr role e c = .ok (x, c') := by
  rw [expr_eq_settle e hrole]
  refine (bind_run hrun).trans ?_
  rcases hrole with rfl | rfl
  all_goals
    simp only [Role.settle, hx]
    rfl

theorem exprs_eq_mapM (role : Role) :
    ∀ es : List Expr, exprs role es = (es.map (role, ·)).mapM fun p => expr p.1 p.2
  | [] => rfl
  | e :: es => by rw [exprs, List.map_cons, List.mapM_cons, exprs_eq_mapM role es]

theorem mapM_cons_run {α β : Type} {f : β → Analysis α} {b : β} {bs : List β} {as : List α}
    {c c' : Context} (hrun : (b :: bs).mapM f c = .ok (as, c')) :
    ∃ a c₁ rest, f b c = .ok (a, c₁) ∧ bs.mapM f c₁ = .ok (rest, c') ∧ as = a :: rest := by
  rw [List.mapM_cons] at hrun
  obtain ⟨a, c₁, ha, hrun⟩ := runs_of_bind hrun
  obtain ⟨rest, c₂, hrest, hrun⟩ := runs_of_bind hrun
  cases hrun
  exact ⟨a, c₁, rest, ha, hrest, rfl⟩

theorem mapM_ne_nil_run {α β : Type} {f : β → Analysis α} {bs : List β} {as : List α}
    {c c' : Context} (hsome : bs ≠ []) (hrun : bs.mapM f c = .ok (as, c')) : as ≠ [] := by
  obtain ⟨b, bs, rfl⟩ := List.exists_cons_of_ne_nil hsome
  obtain ⟨a, _, rest, _, _, rfl⟩ := mapM_cons_run hrun
  exact List.cons_ne_nil a rest

theorem sendOperands_run {n : Note} {target : Option Expr} {name : String} {args es : List Expr}
    {method : Option MethodRef} {c c' : Context}
    (hrun : analyzeOperands (.send n target name args method) c = .ok (es, c')) :
    ∃ target' args' c₁, es = target'.toList ++ args' ∧ (target' = none → target = none) ∧
      optional target c = .ok (target', c₁) ∧ exprs .value args c₁ = .ok (args', c') := by
  cases target with
  | none =>
    have hargs : exprs .value args c = .ok (es, c') := by rwa [exprs_eq_mapM]
    exact ⟨none, es, c, rfl, id, rfl, hargs⟩
  | some t =>
    obtain ⟨t', c₁, args', ht, hargs, rfl⟩ := mapM_cons_run hrun
    refine ⟨some t', args', c₁, rfl, nofun, (bind_run ht).trans rfl, ?_⟩
    rwa [exprs_eq_mapM]

/-- An operation whose operands all failed a check reports nothing beyond what they did, but for the
step of something that is no variable. -/
theorem expr_of_any_operands {c c' : Context} {e : Expr} {es : List Expr} (happlies : Applies c e)
    (hsome : operands e ≠ []) (hrun : analyzeOperands e c = .ok (es, c'))
    (hany : ∀ x ∈ es, x.ty = .any) :
    ∃ e', expr .value e c = .ok (e', c'.logged (cascade e es)) := by
  cases e with
  | unary n op operand =>
    obtain ⟨x, _, _, hx, hnil, rfl⟩ := mapM_cons_run hrun
    cases hnil
    have hplain : negatedLiteral? op operand = none := by
      cases operand with
      | literal n l => exact absurd (hany x (by simp)) (literal_ty_ne_any n l _ _ _ hx)
      | _ => cases op <;> rfl
    refine ⟨.unary (typed n.line .any) op x, ?_⟩
    simp only [expr, hplain]
    exact (bind_run hx).trans (bind_run (unary_any op (hany x (by simp))))
  | step n op operand =>
    obtain ⟨x, _, _, hx, hnil, rfl⟩ := mapM_cons_run hrun
    cases hnil
    exact ⟨_, (bind_run hx).trans (bind_run (step_any op (hany x (by simp))))⟩
  | cast n target operand =>
    obtain ⟨x, _, _, hx, hnil, rfl⟩ := mapM_cons_run hrun
    cases hnil
    obtain ⟨t, ht⟩ := happlies
    refine ⟨convert t x, (bind_run ht).trans ((bind_run hx).trans ?_)⟩
    exact bind_run (castTo_any t (hany x (by simp)))
  | instanceOf n operand target =>
    obtain ⟨x, _, _, hx, hnil, rfl⟩ := mapM_cons_run hrun
    cases hnil
    obtain ⟨t, ht, hreference⟩ := happlies
    -- The operand leaves names as they are, so the type is known after it too.
    have hnames := (expr_stays hx).sameNames
    have ht' := (resolveType_reads n.line target).transfer hnames ht
    refine ⟨.instanceOf (typed n.line .boolean) x t,
      (bind_run hx).trans ((bind_run ht').trans ?_)⟩
    exact bind_run (instanceOf_any hreference (hany x (by simp)))
  | binary n op lhs rhs =>
    obtain ⟨x, _, _, hx, hrest, rfl⟩ := mapM_cons_run hrun
    obtain ⟨y, _, _, hy, hnil, rfl⟩ := mapM_cons_run hrest
    cases hnil
    refine ⟨.binary (typed n.line (failedType op)) op x y,
      (bind_run hx).trans ((bind_run hy).trans ?_)⟩
    exact bind_run (binary_any op (hany x (by simp)) (hany y (by simp)))
  | assign n op lhs rhs =>
    obtain ⟨x, _, _, hx, hrest, rfl⟩ := mapM_cons_run hrun
    obtain ⟨y, _, _, hy, hnil, rfl⟩ := mapM_cons_run hrest
    cases hnil
    refine ⟨.assign (typed n.line .any) op x y, (bind_run hx).trans ((bind_run hy).trans ?_)⟩
    exact bind_run (assign_any op (hany x (by simp)))
  | conditional n test thenExpr elseExpr =>
    obtain ⟨x, _, _, hx, hrest, rfl⟩ := mapM_cons_run hrun
    obtain ⟨y, _, _, hy, hlast, rfl⟩ := mapM_cons_run hrest
    obtain ⟨z, _, _, hz, hnil, rfl⟩ := mapM_cons_run hlast
    cases hnil
    have htest := expr_any (.inl rfl) hx (hany x (by simp))
    refine ⟨.conditional (typed n.line .any) x y z,
      (bind_run htest).trans ((bind_run hy).trans ((bind_run hz).trans ?_))⟩
    exact bind_run (conditional_any (hany y (by simp)))
  | field n target name ref =>
    obtain ⟨x, _, _, hx, hnil, rfl⟩ := mapM_cons_run hrun
    cases hnil
    exact ⟨_, (bind_run hx).trans (bind_run (selectField_any name (hany x (by simp))))⟩
  | element n array index =>
    obtain ⟨x, _, _, hx, hrest, rfl⟩ := mapM_cons_run hrun
    obtain ⟨y, _, _, hy, hnil, rfl⟩ := mapM_cons_run hrest
    cases hnil
    have hindex := expr_any (.inr rfl) hy (hany y (by simp))
    refine ⟨.element (typed n.line .any) x y, (bind_run hx).trans ((bind_run hindex).trans ?_)⟩
    exact bind_run (element_any (hany x (by simp)))
  | send n target name args method =>
    have hne : es ≠ [] := mapM_ne_nil_run hsome hrun
    obtain ⟨target', args', c₁, rfl, htarget, hx, hargs⟩ := sendOperands_run hrun
    have hclass : target' = none → c'.className.isSome := by
      intro hnone
      cases htarget hnone
      cases hx
      rw [(exprs_stays hargs).className]
      exact happlies
    exact ⟨_, (bind_run hx).trans ((bind_run hargs).trans (bind_run (send_any hclass hne hany)))⟩
  | _ => exact absurd rfl hsome

/-- The report of a name that stands for nothing. -/
def nameReport (line : Nat) (name : String) : Report Problem :=
  ⟨line, .semantic (.nameUnknown name)⟩

/-- `f(x, y)`, where `x` and `y` stand for nothing. -/
def unknownCall : Expr :=
  .send { line := 1 } none "f" [.name { line := 1 } ["x"], .name { line := 2 } ["y"]] none

/-- The arguments are an error each, and the call adds none. -/
theorem unknownCall_reports :
    (∀ x ∈ [unknown 1, unknown 2], x.ty = .any) ∧ ∃ e',
      expr .value unknownCall { className := some "A" } =
        .ok (e', Context.logged { className := some "A" } [nameReport 2 "y", nameReport 1 "x"]) :=
  have hany : ∀ x ∈ [unknown 1, unknown 2], x.ty = .any := by
    simp [unknown, Expr.ty, Expr.note, typed]
  ⟨hany, expr_of_any_operands (c := { className := some "A" })
    (e := unknownCall) rfl nofun rfl hany⟩

/-- `(x + y)++`, where `x` and `y` stand for nothing. -/
def unknownStep : Expr :=
  .step { line := 3 } .postInc
    (.binary { line := 1 } .add (.name { line := 1 } ["x"]) (.name { line := 2 } ["y"]))

/-- The sum failed already, and its step is reported all the same. -/
theorem unknownStep_reports :
    ∃ sum e, sum.ty = .any ∧
      analyzeOperands unknownStep {} =
        .ok ([sum], Context.logged {} [nameReport 2 "y", nameReport 1 "x"]) ∧
      expr .value unknownStep {} =
        .ok (e, Context.logged {}
          [⟨3, .semantic (.stepOperand "++")⟩, nameReport 2 "y", nameReport 1 "x"]) :=
  ⟨_, _, rfl, rfl, rfl⟩

end JMinusMinus.Analysis
