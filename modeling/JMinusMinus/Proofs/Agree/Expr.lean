import JMinusMinus.Proofs.Agree.Basic
import JMinusMinus.Proofs.Hierarchy.Order

/-!
# Expressions in contexts that are alike

The steps that make a node from its analyzed parts only read the context. Analysis of an
expression also takes back the permission to call another constructor, and nothing else.
-/

namespace JMinusMinus.Analysis

open Context (SameNames Alike Similar)

/-! ## Types -/

theorem resolveType_reads (line : Nat) : ∀ t : Ty,
    ReadsSame SameNames (resolveType line t) fun t' => t'.slots = t.slots
  | .named name => by
    refine .get_bind fun c d h => ?_
    rw [h.resolveClass?]
    cases c.resolveClass? name with
    | none => exact .bind (.report rfl) fun _ => .ret rfl
    | some internal =>
      refine .ret ?_
      unfold Ty.ofClass
      split <;> rfl
  | .array component => by
    refine .bind (resolveType_reads line component) fun t => ?_
    split <;> exact .ret rfl
  | .int | .long | .double | .boolean | .char | .string | .void | .null | .any => .ret rfl

variable (line : Nat)

theorem resolveType_similar (t : Ty) :
    ReadsSame Similar (resolveType line t) fun t' => t'.slots = t.slots :=
  (resolveType_reads line t).of_imp fun _ _ h => h.sameNames

/-! ## Conversions -/

/-- The same expression, or a conversion of it. -/
def Converts (e e' : Expr) : Prop := e' = e ∨ ∃ t, e' = convert t e

theorem Converts.refl (e : Expr) : Converts e e := .inl rfl

/-- What becomes of an expression in a role. -/
def Role.Settles : Role → Expr → Expr → Prop
  | .value, e, e' | .selected, e, e' => e' = e
  | _, e, e' => Converts e e'

theorem coerce_reads (t : Ty) (e : Expr) : ReadsSame Similar (coerce t e) (Converts e) := by
  refine .ite (.ret (.refl e)) (.get_bind fun c d h => ?_)
  rw [h.hierarchy.isAssignable]
  refine .ite (.bind (.report rfl) fun _ => .ret (.refl e)) (.ite (.ret (.inr ⟨t, rfl⟩)) ?_)
  exact .ret (.refl e)

theorem coerceArgs_reads : ∀ es ts, ReadsSame Similar (coerceArgs es ts)
      fun es' => ts.length = es.length → List.Forall₂ Converts es es'
  | e :: es, t :: ts => .andThen (coerce_reads t e) fun _ he =>
    .andThen (coerceArgs_reads es ts) fun _ hes =>
    .ret fun hlength => .cons he (hes (Nat.succ.inj hlength))
  | [], _ => .ret fun _ => .nil
  | _ :: _, [] => .ret nofun

theorem settle_reads (role : Role) (e : Expr) :
    ReadsSame Similar (role.settle e) (role.Settles e) := by
  cases role with
  | value => exact .ret rfl
  | selected => exact .ret rfl
  | condition => exact .reportUnless rfl (.ret (.refl e))
  | index =>
    simp only [Role.settle]
    split
    · exact .ret (.refl e)
    · exact .ret (.refl e)
    · exact coerce_reads _ _
    · exact .bind (.report rfl) fun _ => .ret (.refl e)
  | initial t => exact coerce_reads t e

/-! ## Names -/

theorem literal_agrees (l : Literal) : AgreesAlike (literal line l) :=
  .bind .lift fun _ => .reportUnless rfl .pure

theorem thisRef_reads : ReadsSame Similar (thisRef line) fun e => ∃ n, e = .thisRef n := by
  refine .get_bind fun c d h => ?_
  rw [h.classType]
  exact .ret ⟨_, rfl⟩

/-- A node that stands for no variable of a body. -/
def isOuter : Expr → Bool
  | .thisRef _ | .typeName .. | .wild _ => true
  | _ => false

/-- So many fields selected one after another, the last of which may be the length of an array. -/
inductive Selected (base : Expr) : Nat → Expr → Prop
  | base : Selected base 0 base
  | field {k : Nat} {e : Expr} (n : Note) (x : String) (r : Option FieldRef) :
      Selected base k e → Selected base (k + 1) (.field n e x r)
  | arrayLength {k : Nat} {e : Expr} (n : Note) :
      Selected base k e → Selected base (k + 1) (.arrayLength n e)

theorem selectField_reads (target : Expr) (name : String) :
    ReadsSame Similar (selectField line target name) (Selected target 1) := by
  have hfield (n : Note) (r : Option FieldRef) : Reads Similar
      (pure (Expr.field n target name r)) (pure (.field n target name r)) (Selected target 1) :=
    .ret (.field n name r .base)
  refine .ite (hfield _ _) (.ite (.ret (.arrayLength _ .base)) ?_)
  cases memberClass? target.ty with
  | none => exact .bind (.report rfl) fun _ => hfield _ _
  | some owner =>
    refine .get_bind fun c d h => ?_
    rw [h.hierarchy.findField]
    cases c.hierarchy.findField owner name with
    | none => exact .bind (.report rfl) fun _ => hfield _ _
    | some found => exact .reportIf rfl (hfield _ _)

theorem Selected.trans {base e e' : Expr} {j k : Nat} (h : Selected base j e)
    (h' : Selected e k e') : Selected base (j + k) e' := by
  induction h' with
  | base => exact h
  | field n x r _ ih => exact .field n x r ih
  | arrayLength n _ ih => exact .arrayLength n ih

theorem selectFields_reads (line : Nat) :
    ∀ names e, ReadsSame Similar (selectFields line names e) (Selected e names.length)
  | [], _ => .ret .base
  | name :: names, e => .andThen (selectField_reads line e name) fun _ he' =>
    (selectFields_reads line names _).imp fun _ he'' => by
      rw [List.length_cons, Nat.add_comm]
      exact he'.trans he''

theorem implicitField_reads (name owner : String) (f : FieldHeader) :
    ReadsSame Similar (implicitField line name owner f) fun e =>
      ∃ base, isOuter base ∧ Selected base 1 e := by
  refine .ite (.ret ⟨_, rfl, .field _ _ _ .base⟩) (.get_bind fun c d h => ?_)
  rw [h.isStatic]
  refine .reportIf rfl (.andThen (thisRef_reads line) fun e he => .ret ?_)
  obtain ⟨n, rfl⟩ := he
  exact ⟨_, rfl, .field _ _ _ .base⟩

theorem typePart?_congr (h : SameNames c d) (segments : List String) :
    ∀ n, typePart? d segments n = typePart? c segments n
  | 0 => rfl
  | n + 1 => by simp only [typePart?, h.resolveClass?, typePart?_congr h segments n]

/-- What a dotted name becomes, given the variables in scope. If its first word is one of them the
name is that variable with fields selected from it. -/
inductive Named (look : String → Option LocalVar) (line : Nat) : List String → Expr → Prop
  | declared {x : String} {xs : List String} {v : LocalVar} {e : Expr} : look x = some v →
      Selected (.localVar (typed line v.ty) v.name v.slot) xs.length e → Named look line (x :: xs) e
  | other {xs : List String} {base e : Expr} {k : Nat} : (∀ x ∈ xs.head?, look x = none) →
      isOuter base → k ≤ xs.length → Selected base k e → Named look line xs e

/-- Similar contexts with given variables in scope. -/
def SimilarAt (look : String → Option LocalVar) (c d : Context) : Prop :=
  c.Similar d ∧ c.local? = look

instance {look : String → Option LocalVar} : LogFree (SimilarAt look) where
  logged new later h := ⟨LogFree.logged new later h.1, h.2⟩

theorem classify_named (look : String → Option LocalVar) (line : Nat) (segments : List String)
    (typeAllowed : Bool) :
    ReadsSame (SimilarAt look) (classify line segments typeAllowed) (Named look line segments) := by
  have hfields {names : List String} {base e : Expr} {j : Nat}
      (hhead : ∀ x ∈ segments.head?, look x = none) (hbase : isOuter base)
      (he : Selected base j e) (hlength : j + names.length ≤ segments.length) :
      ReadsSame (SimilarAt look) (selectFields line names e) (Named look line segments) :=
    ((selectFields_reads line names e).of_imp fun _ _ h => h.1).imp fun _ he' =>
      .other hhead hbase hlength (he.trans he')
  have hunknown (hhead : ∀ x ∈ segments.head?, look x = none) : ReadsSame (SimilarAt look)
      (pure (unknown line)) (Named look line segments) :=
    .ret (.other hhead rfl (Nat.zero_le _) .base)
  cases segments with
  | nil => exact hunknown nofun
  | cons first rest =>
    refine .get_bind fun c d h => ?_
    rw [h.1.local?, h.1.className, h.1.hierarchy.findField, typePart?_congr h.1.sameNames]
    cases hv : c.local? first with
    | some v =>
      refine ((selectFields_reads line rest _).of_imp fun _ _ h => h.1).imp fun e he => ?_
      exact .declared (by rw [← h.2, hv]) he
    | none =>
      have hhead : ∀ x ∈ (first :: rest).head?, look x = none := by simpa [← h.2] using hv
      cases c.className.bind fun name => c.hierarchy.findField name first with
      | some found =>
        refine .andThen ((implicitField_reads line first found.1 found.2).of_imp
          fun _ _ h => h.1) fun e he => ?_
        obtain ⟨base, hbase, he⟩ := he
        exact hfields hhead hbase he (by simp [Nat.add_comm])
      | none =>
        cases typePart? c (first :: rest) (first :: rest).length with
        | none => exact .bind (.report rfl) fun _ => hunknown hhead
        | some part =>
          exact .ite (.bind (.report rfl) fun _ => hunknown hhead)
            (hfields hhead rfl .base (by simp))

theorem classify_reads (segments : List String) (typeAllowed : Bool) :
    ReadsSame Similar (classify line segments typeAllowed) :=
  fun c d h => (classify_named c.local? line segments typeAllowed).any c d ⟨h, rfl⟩

theorem superRef_reads : ReadsSame Similar (superRef line) fun e => ∃ n, e = .superRef n := by
  refine .get_bind fun c d h => ?_
  rw [h.isStatic]
  refine .reportIf rfl (.get_bind fun c d h => ?_)
  rw [h.superclass?]
  exact .ret ⟨_, rfl⟩

/-! ## Calls -/

/-- A call of the given arguments, converted or not, on the given target or for want of one on the
current object. -/
def Sends (target : Option Expr) (name : String) (args : List Expr) (e : Expr) : Prop :=
  ∃ n t es r, e = .send n t name es r ∧ List.Forall₂ Converts args es ∧
    (t = target ∨ target = none ∧ ∃ n, t = some (.thisRef n))

theorem forall₂_converts (es : List Expr) : List.Forall₂ Converts es es :=
  List.forall₂_same.2 fun e _ => .refl e

theorem resolvedSend_reads (target : Option Expr) (name : String) (args : List Expr)
    (owner : String) (m : MethodHeader) (hlength : m.params.length = args.length) :
    ReadsSame Similar (resolvedSend line target name args owner m) (Sends target name args) := by
  have hcall (t : Option Expr) (ht : t = target ∨ target = none ∧ ∃ n, t = some (.thisRef n)) :
      ReadsSame Similar
      (get >>= fun c => coerceArgs args m.params >>= fun args => pure (Expr.send
        (typed line m.result) t name args (some ⟨owner, name, m.descriptor,
          invocation c.hierarchy owner m (target.any Expr.isSuperRef)⟩)))
      (Sends target name args) := by
    refine .get_bind fun c d h => ?_
    rw [h.hierarchy.invocation]
    exact .andThen (coerceArgs_reads args m.params) fun _ hargs =>
      .ret ⟨_, _, _, _, rfl, hargs hlength, ht⟩
  unfold resolvedSend
  refine .reportIf rfl ?_
  refine .reportIf rfl ?_
  refine dite (target.isNone && !m.isStatic) (fun hnone => ?_) fun hsome => ?_
  · rw [if_pos hnone]
    refine .get_bind fun c d h => ?_
    rw [h.isStatic]
    refine .reportIf rfl (.andThen (thisRef_reads line) fun e he => hcall (some e) (.inr ⟨?_, ?_⟩))
    · simp only [Bool.and_eq_true, Option.isNone_iff_eq_none] at hnone
      exact hnone.1
    · simpa using he
  · rw [if_neg hsome]
    exact hcall target (.inl rfl)

theorem send_reads (target : Option Expr) (name : String) (args : List Expr) :
    ReadsSame Similar (send line target name args) (Sends target name args) := by
  have hunresolved : ReadsSame Similar (pure (Expr.send (typed line .any) target name args none))
    (Sends target name args) :=
    .ret ⟨_, _, _, _, rfl, forall₂_converts args, .inl rfl⟩
  refine .ite hunresolved (.get_bind fun c d h => ?_)
  simp only [h.className, h.hierarchy.selectMethod]
  split
  · exact .bind (.report rfl) fun _ => hunresolved
  · refine .ite hunresolved ?_
    split
    case h_1 hfound =>
      exact resolvedSend_reads line target name args _ _
        ((Hierarchy.selectMethod_length hfound).trans (List.length_map _))
    · exact .bind (.report rfl) fun _ => hunresolved
    · exact .bind (.report rfl) fun _ => hunresolved

theorem constructWith_reads (owner : String) (args : List Expr) :
    ReadsSame Similar (constructWith line owner args)
      fun res => List.Forall₂ Converts args res.1 := by
  refine .get_bind fun c d h => ?_
  rw [h.hierarchy.selectCtor]
  cases hfound : c.hierarchy.selectCtor owner (args.map Expr.ty) with
  | found found =>
    exact .andThen (coerceArgs_reads args found.2) fun _ hargs =>
      .ret (hargs ((Hierarchy.selectCtor_length hfound).trans (List.length_map _)))
  | notFound => exact .bind (.report rfl) fun _ => .ret (forall₂_converts args)
  | ambiguous => exact .bind (.report rfl) fun _ => .ret (forall₂_converts args)

theorem delegate_reads (target : Delegation) (args : List Expr) :
    ReadsSame Similar (delegate line target args) fun e =>
      ∃ n es r, e = .delegate n target es r ∧ List.Forall₂ Converts args es := by
  have hnode (es : List Expr) (r : Option MethodRef) (hes : List.Forall₂ Converts args es) :
      ∃ n es' r', Expr.delegate (typed line .void) target es r = .delegate n target es' r' ∧
        List.Forall₂ Converts args es' := ⟨_, es, r, rfl, hes⟩
  refine .get_bind fun c d h => ?_
  simp only [h.className, h.superclass?]
  split
  · refine .ite (.ret (hnode _ _ (forall₂_converts args))) ?_
    exact .andThen (constructWith_reads line _ args) fun _ hargs => .ret (hnode _ _ hargs)
  · exact .ret (hnode _ _ (forall₂_converts args))

theorem newObject_reads (type : Ty) (args : List Expr) :
    ReadsSame Similar (newObject line type args) fun e =>
      ∃ n es r, e = .newObject n type es r ∧ List.Forall₂ Converts args es := by
  have hnode (n : Note) (es : List Expr) (r : Option MethodRef)
      (hes : List.Forall₂ Converts args es) :
      ∃ n' es' r', Expr.newObject n type es r = .newObject n' type es' r' ∧
        List.Forall₂ Converts args es' := ⟨n, es, r, rfl, hes⟩
  have hargs := forall₂_converts args
  unfold newObject
  split
  · exact .ret (hnode _ _ _ hargs)
  · exact .bind (.report rfl) fun _ => .ret (hnode _ _ _ hargs)
  · cases memberClass? type with
    | none => exact .bind (.report rfl) fun _ => .ret (hnode _ _ _ hargs)
    | some name =>
      refine .get_bind fun c d h => ?_
      rw [h.hierarchy.lookup]
      refine .ite (.bind (.report rfl) fun _ => .ret (hnode _ _ _ hargs))
        (.ite (.ret (hnode _ _ _ hargs)) ?_)
      exact .andThen (constructWith_reads line name args) fun _ hargs => .ret (hnode _ _ _ hargs)

/-! ## Operators -/

theorem shiftDistance_converts (op : BinaryOp) (e : Expr) : Converts e (shiftDistance op e) := by
  unfold shiftDistance
  split
  · exact .inr ⟨_, rfl⟩
  · exact .refl e

theorem binary_reads (op : BinaryOp) (lhs rhs : Expr) :
    ReadsSame Similar (binary line op lhs rhs) fun e =>
      ∃ n r, (e = .binary n op lhs r ∨ e = .concat n lhs r) ∧ Converts rhs r := by
  refine .ite (.reportIf rfl (.ret ⟨_, _, .inr rfl, .refl rhs⟩))
    (.ite (.ret ⟨_, _, .inl rfl, .refl rhs⟩) ?_)
  split
  · exact .ret ⟨_, _, .inl rfl, shiftDistance_converts op rhs⟩
  · exact .bind (.report rfl) fun _ => .ret ⟨_, _, .inl rfl, .refl rhs⟩

theorem unary_reads (op : UnaryOp) (operand : Expr) :
    ReadsSame Similar (unary line op operand) fun e =>
      ∃ n, e = .unary n op operand := by
  unfold unary
  split
  · exact .ret ⟨_, rfl⟩
  · exact .bind (.report rfl) fun _ => .ret ⟨_, rfl⟩

theorem step_reads (op : StepOp) (operand : Expr) :
    ReadsSame Similar (step line op operand) fun e =>
      ∃ n, e = .step n op operand :=
  .ite (.bind (.report rfl) fun _ => .ret ⟨_, rfl⟩) (.reportIf rfl (.ret ⟨_, rfl⟩))

theorem instanceOf_reads (operand : Expr) (target : Ty) :
    ReadsSame Similar (instanceOf line operand target) fun e =>
      ∃ n, e = .instanceOf n operand target := by
  unfold instanceOf
  exact .reportIf rfl (.ret ⟨_, rfl⟩)

theorem castTo_reads (target : Ty) (operand : Expr) :
    ReadsSame Similar (castTo line target operand) fun e =>
      e = convert target operand := by
  refine .get_bind fun c d h => ?_
  rw [h.hierarchy.castable]
  exact .reportUnless rfl (.ret rfl)

theorem assign_reads (op : AssignOp) (lhs rhs : Expr) :
    ReadsSame Similar (assign line op lhs rhs) fun e =>
      ∃ n r, e = .assign n op lhs r ∧ Converts rhs r := by
  have hnode (n : Note) : ∃ n' r, Expr.assign n op lhs rhs = .assign n' op lhs r ∧ Converts rhs r :=
    ⟨n, rhs, rfl, .refl rhs⟩
  refine .ite (.reportUnless rfl (.ret (hnode _))) (.ite (.ret (hnode _)) ?_)
  cases op.binary? with
  | none => exact .andThen (coerce_reads _ _) fun _ hr => .ret ⟨_, _, rfl, hr⟩
  | some b =>
    refine .get_bind fun c d h => ?_
    rw [h.hierarchy.compoundFits]
    refine .ite (.bind (.report rfl) fun _ => .ret (hnode _)) (.ite (.ret (hnode _)) (.ite ?_ ?_))
    · exact .ret ⟨_, _, rfl, shiftDistance_converts b rhs⟩
    · exact .andThen (coerce_reads _ _) fun _ hr => .ret ⟨_, _, rfl, hr⟩

theorem conditional_reads (test thenExpr elseExpr : Expr) :
    ReadsSame Similar (conditional line test thenExpr elseExpr) fun e =>
        ∃ n t f, e = .conditional n test t f ∧ Converts thenExpr t ∧ Converts elseExpr f := by
  have hnode (n : Note) : ∃ n' t f, Expr.conditional n test thenExpr elseExpr =
      .conditional n' test t f ∧ Converts thenExpr t ∧ Converts elseExpr f :=
    ⟨n, _, _, rfl, .refl _, .refl _⟩
  refine .ite (.ret (hnode _)) (.get_bind fun c d h => ?_)
  rw [h.hierarchy.choiceType?]
  cases choiceType? c.hierarchy thenExpr.ty elseExpr.ty with
  | none => exact .bind (.report rfl) fun _ => .ret (hnode _)
  | some t =>
    exact .andThen (coerce_reads _ _) fun _ ht => .andThen (coerce_reads _ _) fun _ hf =>
      .ret ⟨_, _, _, rfl, ht, hf⟩

/-! ## Arrays -/

theorem element_reads (array index : Expr) : ReadsSame Similar (element line array index) fun e =>
      ∃ n, e = .element n array index := by
  unfold element
  split
  · exact .ret ⟨_, rfl⟩
  · exact .ret ⟨_, rfl⟩
  · exact .bind (.report rfl) fun _ => .ret ⟨_, rfl⟩

theorem componentType_reads (t : Ty) : ReadsSame Similar (componentType line t) := by
  unfold componentType
  split
  · exact .pure
  · exact .pure
  · exact .bind (.report rfl) fun _ => .pure

/-! ## Expressions -/

theorem delegationAllowed_agrees (target : Delegation) :
    AgreesAlike (delegationAllowed line target) := by
  intro c d h
  have hd : Alike { c with mayDelegate := false } { d with mayDelegate := false } :=
    ⟨⟨⟨h.hierarchy, h.package, h.names, rfl⟩, h.className⟩, h.method, h.scopes, h.jumps⟩
  have hcheck : Reads Alike
      (if c.mayDelegate && (c.method.map MethodScope.isCtor).getD false then pure ()
        else report line (.delegationNotFirst target))
      (if d.mayDelegate && (d.method.map MethodScope.isCtor).getD false then pure ()
        else report line (.delegationNotFirst target)) := by
    rw [h.mayDelegate, h.method]
    exact .ite .pure (.report rfl)
  obtain ⟨a, new, -, hc', hd', -⟩ := hcheck _ _ hd
  exact .inl ⟨a, _, _, new, hc', hd', LogFree.logged new new hd, rfl, rfl, rfl, rfl, rfl, nofun⟩

theorem settle_agrees (role : Role) (e : Expr) : AgreesAlike (role.settle e) :=
  (settle_reads role e).alike

/-- A step that only reads, with the check of a role after it. -/
theorem settled_agrees (role : Role) {p : Expr → Prop} (hx : Reads Similar x x p) :
    AgreesAlike (x >>= role.settle) :=
  .bind hx.alike fun e => settle_agrees role e

mutual

/-- Analysis of an expression depends only on what contexts that are alike share. -/
theorem expr_agrees (role : Role) : ∀ e : Expr, AgreesAlike (expr role e)
  | .literal n l => .bind (literal_agrees n.line l) fun e => settle_agrees role e
  | .name n segments => settled_agrees role (classify_reads n.line segments _)
  | .localVar .. => settle_agrees role _
  | .typeName .. => settle_agrees role _
  | .concat .. => settle_agrees role _
  | .thisRef n => by
    refine .get_bind fun c d h => ?_
    rw [h.similar.isStatic]
    exact .reportIf rfl (settled_agrees role (thisRef_reads n.line))
  | .superRef n => settled_agrees role (superRef_reads n.line)
  | .field n target name _ => .bind (expr_agrees .selected target) fun target =>
    settled_agrees role (selectField_reads n.line target name)
  | .arrayLength n array => .bind (expr_agrees .value array) fun _ => settle_agrees role _
  | .element n array index => .bind (expr_agrees .value array) fun array =>
    .bind (expr_agrees .index index) fun index =>
    settled_agrees role (element_reads n.line array index)
  | .send n target name args _ => .bind (optional_agrees target) fun target =>
    .bind (exprs_agrees .value args) fun args =>
    settled_agrees role (send_reads n.line target name args)
  | .delegate n target args _ => .bind (delegationAllowed_agrees n.line target) fun _ =>
    .bind (exprs_agrees .value args) fun args =>
    settled_agrees role (delegate_reads n.line target args)
  | .newObject n type args _ => .bind (resolveType_similar n.line type).alike fun type =>
    .bind (exprs_agrees .value args) fun args =>
    settled_agrees role (newObject_reads n.line type args)
  | .newArray n type dims => .bind (resolveType_similar n.line type).alike fun _ =>
    .bind (exprs_agrees .index dims) fun _ => settle_agrees role _
  | .arrayInit n type elements => .bind (resolveType_similar n.line _).alike fun type =>
    .bind (componentType_reads n.line type).alike fun component =>
    .bind (exprs_agrees (.initial component) elements) fun _ => settle_agrees role _
  | .binary n op lhs rhs => .bind (expr_agrees .value lhs) fun lhs =>
    .bind (expr_agrees .value rhs) fun rhs => settled_agrees role (binary_reads n.line op lhs rhs)
  | .instanceOf n operand target => .bind (expr_agrees .value operand) fun operand =>
    .bind (resolveType_similar n.line target).alike fun target =>
    settled_agrees role (instanceOf_reads n.line operand target)
  | .unary n op operand => by
    unfold expr
    split
    · exact .bind (literal_agrees n.line _) fun e => settle_agrees role e
    · exact .bind (expr_agrees .value operand) fun operand =>
        settled_agrees role (unary_reads n.line op operand)
  | .step n op operand => .bind (expr_agrees .value operand) fun operand =>
    settled_agrees role (step_reads n.line op operand)
  | .cast n target operand => .bind (resolveType_similar n.line target).alike fun target =>
    .bind (expr_agrees .value operand) fun operand =>
    settled_agrees role (castTo_reads n.line target operand)
  | .assign n op lhs rhs => .bind (expr_agrees .value lhs) fun lhs =>
    .bind (expr_agrees .value rhs) fun rhs => settled_agrees role (assign_reads n.line op lhs rhs)
  | .conditional n test thenExpr elseExpr => .bind (expr_agrees .condition test) fun test =>
    .bind (expr_agrees .value thenExpr) fun thenExpr =>
    .bind (expr_agrees .value elseExpr) fun elseExpr =>
    settled_agrees role (conditional_reads n.line test thenExpr elseExpr)
  | .wild n => settle_agrees role _

theorem optional_agrees : ∀ e : Option Expr, AgreesAlike (optional e)
  | some e => .bind (expr_agrees .selected e) fun _ => .pure
  | none => .pure

theorem exprs_agrees (role : Role) : ∀ es : List Expr, AgreesAlike (exprs role es)
  | e :: es => .bind (expr_agrees role e) fun _ => .bind (exprs_agrees role es) fun _ => .pure
  | [] => .pure

end

end JMinusMinus.Analysis
