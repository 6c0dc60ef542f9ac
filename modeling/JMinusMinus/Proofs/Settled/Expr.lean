import JMinusMinus.Proofs.Settled.Members
import JMinusMinus.Proofs.Settled.Settles

/-!
# Analysis settles expressions

A written expression that is analyzed without a report is settled in the frame of its body, and
meets its role. The induction is on the written tree. For each form there is a lemma about the
step of analysis that makes its node from analyzed parts.

A check is passed over when a part has type `any`. A settled part never has, so in a run that
reports nothing every check was made.
-/

namespace JMinusMinus

variable {b : BinaryOp} {c : Context} {h : Hierarchy} {args : List Expr} {m : MethodHeader}
  {line : Nat} {role : Role} {name owner : String} {t lt rt t' : Ty} {v : Vars}

open Analysis

/-! ## Frames -/

/-- A frame whose headers and result are proper and whose class has a superclass. -/
structure Frame.Good (fr : Frame) : Prop where
  proper : fr.hierarchy.Proper
  result : fr.result.isProperResult
  superclass : (fr.hierarchy.superclass? fr.className).isSome

/-- A context whose headers and bound names are proper. -/
structure Context.Proper (c : Context) : Prop where
  hierarchy : c.hierarchy.Proper
  names : ∀ p ∈ c.names, isProperName p.2

namespace Analysis

/-- A context inside a member: that of its frame, with the loops and switches around the point. -/
structure InMember (fr : Frame) (jumps : List JumpTarget) (v : Vars) (c : Context) : Prop where
  hierarchy : c.hierarchy = fr.hierarchy
  package : c.package = fr.package
  names : ∀ p ∈ c.names, isProperName p.2
  className : c.className = some fr.className
  method : ∃ m, c.method = some m ∧ m.isStatic = fr.isStatic ∧ m.result = fr.result ∧
    (m.isCtor → fr.isStatic = false) ∧ v.Within fr m.nextSlot
  visible : ∀ scope ∈ c.scopes, ∀ x ∈ scope, (x.slot, x.ty) ∈ v
  jumps : c.jumps = jumps

/-- A context inside a body. -/
structure InFrame (fr : Frame) (jumps : List JumpTarget) (v : Vars) (c : Context) : Prop
    extends InMember fr jumps v c where
  good : fr.Good

/-- What a step does that stays at its place in a frame. -/
abbrev SettlesIn {α : Type} (fr : Frame) (jumps : List JumpTarget) (F : Vars → Prop)
    (x : Analysis α) (p : Vars → α → Prop) : Prop :=
  Settles (InFrame fr jumps) F x (InFrame fr jumps) p

/-- What needs no body can be done in one. -/
theorem Settles.inFrame {α : Type} {fr : Frame} {jumps : List JumpTarget} {F : Vars → Prop}
    {x : Analysis α} {p : Vars → α → Prop}
    (h : Settles (InMember fr jumps) F x (InMember fr jumps) p) : SettlesIn fr jumps F x p := by
  intro c a c' hrun hlog
  obtain ⟨hstart, hafter⟩ := h c a c' hrun hlog
  refine ⟨hstart, fun v hc hF => ?_⟩
  obtain ⟨v', hv, hc', hp⟩ := hafter v hc.toInMember hF
  exact ⟨v', hv, ⟨hc', hc.good⟩, hp⟩

theorem InFrame.proper {fr : Frame} {jumps : List JumpTarget} (v : Vars) (c : Context)
    (h : InFrame fr jumps v c) : c.Proper :=
  ⟨h.hierarchy ▸ h.good.proper, h.names⟩

theorem InFrame.isStatic_eq {fr : Frame} {jumps : List JumpTarget}
    (h : InFrame fr jumps v c) : c.isStatic = fr.isStatic := by
  obtain ⟨m, hm, hstatic, -⟩ := h.method
  simp [Context.isStatic, hm, hstatic]

theorem InFrame.classType_eq {fr : Frame} {jumps : List JumpTarget}
    (h : InFrame fr jumps v c) : c.classType = .ofClass fr.className := by
  simp [Context.classType, h.className]

end Analysis

/-! ## Types -/

theorem Ty.ne_any_of_isKnown (h : t.isKnown) : t ≠ .any := by
  rintro rfl
  cases h

theorem Ty.isKnown_of_isProper : ∀ {t : Ty}, t.isProper → t.isKnown
  | .array _, h => h
  | .int, _ | .long, _ | .double, _ | .boolean, _ | .char, _ | .string, _ | .named _, _ => rfl

theorem Ty.ne_any_of_isProper (h : t.isProper) : t ≠ .any :=
  Ty.ne_any_of_isKnown (Ty.isKnown_of_isProper h)

theorem Ty.isKnown_of_isProperResult (h : t.isProperResult) : t.isKnown := by
  simp only [Ty.isProperResult, Bool.or_eq_true, decide_eq_true_eq] at h
  rcases h with rfl | h
  · rfl
  · exact Ty.isKnown_of_isProper h

theorem Ty.ofClass_isReference (name : String) : (Ty.ofClass name).isReference := by
  unfold Ty.ofClass
  split <;> rfl

theorem Ty.ofClass_isKnown (name : String) : (Ty.ofClass name).isKnown := by
  unfold Ty.ofClass
  split <;> rfl

theorem Ty.isPrimitive_of_isNumeric (h : t.isNumeric) : t.isPrimitive := by
  cases t <;> first | rfl | cases h

theorem Ty.isPrimitive_of_isReference (h : t.isReference) : t.isPrimitive = false := by
  cases t <;> first | rfl | cases h

theorem Ty.isPrimitive_of_isIntegral (h : t.isIntegral) : t.isPrimitive := by
  cases t <;> first | rfl | cases h

theorem Ty.isAny_eq_false (h : t ≠ .any) : t.isAny = false := by
  cases t <;> first | rfl | exact absurd rfl h

theorem Ty.isProper_of_isNumeric (h : t.isNumeric) : t.isProper := by
  cases t <;> first | rfl | cases h

/-! ## Types of settled trees -/

namespace Expr

variable {fr : Frame} {e : Expr}

theorem Settled.node (h : e.Settled fr) : e.NodeSettled fr := h e e.mem_nodes_self

theorem Settled.ty_isKnown (h : e.Settled fr) : e.ty.isKnown := by
  obtain ⟨t, ht, hknown⟩ := h.node.typed
  simpa [Expr.ty, ht] using hknown

theorem Settled.ty_ne_any (h : e.Settled fr) : e.ty ≠ .any := Ty.ne_any_of_isKnown h.ty_isKnown

/-- A node with a note of its own is settled if it meets the rules of its form. -/
theorem settled_node (hn : e.note = n) (ht : n.ty = some t) (hknown : t.isKnown)
    (hform : e.FormSettled fr) (hchildren : ∀ c ∈ e.children, c.Settled fr) : e.Settled fr :=
  settled_iff.2 ⟨⟨⟨t, hn ▸ ht, hknown⟩, hform⟩, hchildren⟩

theorem SettledValue.ty_isKnown (h : e.SettledValue fr) : e.ty.isKnown := h.settled.ty_isKnown

/-- A settled value has a type. -/
theorem SettledValue.ty_ne_any (h : e.SettledValue fr) : e.ty ≠ .any := h.settled.ty_ne_any

end Expr

theorem BinaryOp.CompoundTyped.typed (h : b.CompoundTyped lt rt)
    (hb : b.isCondition = false) (hstring : ¬(b = .add ∧ lt = .string)) : b.Typed lt rt lt := by
  have hpromoted : lt ≠ .char → lt.promoted = lt := by
    cases lt <;> simp [Ty.promoted]
  rw [BinaryOp.CompoundTyped, if_neg hstring] at h
  cases b with
  | add | sub | mul | div | rem =>
    obtain ⟨hnumeric, hchar, rfl⟩ := h
    exact ⟨hpromoted hchar, hpromoted hchar, hnumeric⟩
  | shl | shr | ushr =>
    obtain ⟨hintegral, hchar, hint⟩ := h
    exact ⟨hpromoted hchar, hintegral, hint⟩
  | bitAnd | bitOr | bitXor =>
    obtain ⟨hintegral, hchar, rfl⟩ := h
    exact ⟨hpromoted hchar, hpromoted hchar, hintegral⟩
  | _ => cases hb

theorem AssignOp.isCondition_of_binary? {o : AssignOp} (h : o.binary? = some b) :
    b.isCondition = false := by
  cases o <;> cases h <;> rfl

theorem Expr.Fits.eq_of_isPrimitive {e : Expr} (hfits : e.Fits h t)
    (ht : t.isPrimitive) : e.ty = t := by
  rcases hfits with heq | ⟨-, href, -⟩
  · exact heq
  · simp [Ty.isPrimitive_of_isReference href] at ht

namespace Analysis

variable {fr : Frame} {jumps : List JumpTarget} {F : Vars → Prop}

/-! ## Conversions -/

theorem settled_convert {e : Expr} (he : e.SettledValue fr) (ht : t.isProper)
    (hcast : castable fr.hierarchy e.ty t) : (convert t e).SettledValue fr :=
  ⟨Expr.settled_node rfl rfl (Ty.isKnown_of_isProper ht) ⟨rfl, ht, he.value, hcast⟩
    (by simpa [convert, Expr.children] using he.settled), rfl⟩

theorem coerce_settles (t : Ty) (e : Expr) :
    SettlesIn fr jumps (fun w => e.SettledValue (fr.over w) ∧ t ≠ .any) (coerce t e)
      fun w e' => e'.SettledAs (fr.over w) t := by
  refine .ite (fun h => .pure fun w he => ⟨he.1, ?_⟩) fun hne => get_bind fun c => ?_
  · simp only [Bool.or_eq_true, decide_eq_true_eq] at h
    rcases h with (h | h) | h
    · exact .inl h
    · simp [Ty.isAny_eq_false he.1.ty_ne_any] at h
    · simp [Ty.isAny_eq_false he.2] at h
  refine .ite (fun _ => report_bind .pure) fun hassign => ?_
  simp only [Bool.not_eq_true', Bool.not_eq_false] at hassign
  have hcases : ∀ w, e.SettledValue (fr.over w) ∧ t ≠ .any → e.ty.isNumeric ∧ t.isNumeric ∨
      e.ty.isReference ∧ t.isReference := by
    intro w he
    simp only [Bool.or_eq_true, decide_eq_true_eq, not_or] at hne
    exact Hierarchy.isAssignable_cases hassign hne.1.1 he.1.ty_ne_any he.2
  refine .ite (fun hprim => .pure ?_) fun hprim => .pure ?_
  · rintro w ⟨he, v, -, hc⟩
    rcases hcases w he with hnum | href
    · refine ⟨settled_convert he.1 (Ty.isProper_of_isNumeric hnum.2) ?_, .inl rfl⟩
      simp [castable, hnum]
    · simp [Ty.isPrimitive_of_isReference href.1] at hprim
  · rintro w ⟨he, v, -, hc⟩
    rcases hcases w he with hnum | href
    · simp [Ty.isPrimitive_of_isNumeric hnum.1, Ty.isPrimitive_of_isNumeric hnum.2] at hprim
    · exact ⟨he.1, .inr ⟨href.1, href.2, by simpa [Frame.over, ← hc.hierarchy] using hassign⟩⟩

theorem coerceArgs_settles : ∀ es (ts : List Ty), SettlesIn fr jumps
        (fun w => (∀ e ∈ es, e.SettledValue (fr.over w)) ∧ ts.length = es.length ∧
          ∀ t ∈ ts, t.isProper) (coerceArgs es ts) fun w es' =>
          (∀ e ∈ es', e.Settled (fr.over w)) ∧ ArgsFit fr.hierarchy es' ts
  | [], [] => .pure fun _ _ => ⟨by simp, trivial⟩
  | [], _ :: _ => .pure fun _ h => nomatch h.2.1
  | _ :: _, [] => .pure fun _ h => nomatch h.2.1
  | e :: es, t :: ts => by
    refine .bind ((coerce_settles t e).given fun w h => ?_) fun e' => ?_
    · exact ⟨h.1 e (by simp), Ty.ne_any_of_isProper (h.2.2 t (by simp))⟩
    refine .bind ((coerceArgs_settles es ts).given fun w h => ?_) fun es' => .pure ?_
    · exact ⟨fun e he => h.1.1 e (by simp [he]), by simpa using h.1.2.1,
        fun t ht => h.1.2.2 t (by simp [ht])⟩
    · rintro w ⟨⟨_, he'⟩, hes', hfit⟩
      exact ⟨by simpa using ⟨he'.settled, hes'⟩, he'.value, he'.fits, hfit⟩

/-! ## Roles -/

/-- What a role asks of a settled expression. -/
def Role.Met (fr : Frame) (e : Expr) : Role → Prop
  | .value => e.SettledValue fr
  | .selected => e.Settled fr
  | .condition => e.SettledTest fr
  | .index => e.SettledAs fr .int
  | .initial t => e.SettledAs fr t

/-- Whether a type name may stand in the role. -/
def Role.admitsType (role : Role) : Bool := role matches .selected

/-- The type that a role asks for is known. -/
def Role.Proper : Role → Prop
  | .initial t => t.isProper
  | _ => True

/-- A settled expression, and a value unless the role admits a type. -/
def Role.Open (role : Role) (fr : Frame) (e : Expr) : Prop :=
  e.Settled fr ∧ (role.admitsType = false → e.isTypeName = false)

theorem Role.settle_settles (role : Role) (e : Expr) :
    SettlesIn fr jumps (fun w => role.Proper ∧ role.Open (fr.over w) e) (role.settle e)
      fun w e' => role.Met (fr.over w) e' := by
  have hvalue : ∀ {r : Role} {w}, r.admitsType = false → r.Open (fr.over w) e →
      e.SettledValue (fr.over w) := fun hr he => ⟨he.1, he.2 hr⟩
  cases role with
  | value => exact .pure fun w he => hvalue rfl he.2
  | selected => exact .pure fun w he => he.2.1
  | condition =>
    refine reportUnless_bind (.pure ?_)
    rintro w ⟨⟨-, he⟩, hb⟩
    simp only [Bool.or_eq_true, decide_eq_true_eq, Ty.isAny_eq_false he.1.ty_ne_any] at hb
    exact ⟨hvalue rfl he, by simpa using hb⟩
  | index =>
    simp only [Role.settle]
    split
    case h_1 hty => exact .pure fun w he => ⟨hvalue rfl he.2, .inl hty⟩
    case h_2 hty => exact .pure fun w he => absurd hty he.2.1.ty_ne_any
    case h_3 => exact (coerce_settles _ e).given fun w he => ⟨hvalue rfl he.2, by simp⟩
    case h_4 => exact report_bind .pure
  | initial t =>
    exact (coerce_settles t e).given fun w he =>
      ⟨hvalue rfl he.2, Ty.ne_any_of_isProper he.1⟩

/-! ## Literals and names -/

theorem literal_settles (role : Role) (line : Nat) (l : Literal) :
    SettlesIn fr jumps F (literal line l) fun w e =>
      role.Open (fr.over w) e := by
  refine lift_bind fun valid hvalid => reportUnless_bind (.pure ?_)
  rintro w ⟨-, hv⟩
  subst hv
  refine ⟨Expr.settled_node rfl rfl ?_ ⟨rfl, hvalid⟩ (by simp [Expr.children]), fun _ => rfl⟩
  cases l <;> rfl

variable (line : Nat)

theorem thisRef_settles : SettlesIn fr jumps (fun _ => fr.isStatic = false) (thisRef line)
      fun w e => e.SettledValue (fr.over w) ∧ e.ty.isReference := by
  refine get_bind fun c => .pure ?_
  rintro w ⟨hstatic, v, -, hc⟩
  rw [hc.classType_eq]
  refine ⟨⟨Expr.settled_node rfl rfl (Ty.ofClass_isKnown _) ⟨hstatic, rfl⟩ ?_, rfl⟩, ?_⟩
  · simp [Expr.children]
  · exact Ty.ofClass_isReference _

theorem settled_field {line : Nat} {target : Expr} {f : FieldHeader}
    (ht : target.Settled fr) (href : target.ty.isReference)
    (hstatic : target.isTypeName → f.isStatic) (hf : f.ty.isProper) :
    (Expr.field (typed line f.ty) target name
      (some { fieldRef owner f with name })).SettledValue fr := by
  refine ⟨Expr.settled_node rfl rfl (Ty.isKnown_of_isProper hf) ?_ (by simpa [Expr.children]), rfl⟩
  refine ⟨_, _, rfl, rfl, hf, rfl, rfl, href, fun h => ?_⟩
  cases htn : target.isTypeName with
  | false => rfl
  | true => exact absurd (hstatic htn) (by simpa [fieldRef] using h)

theorem isReference_of_memberClass? (h : memberClass? t = some owner) : t.isReference := by
  cases t <;> first | rfl | cases h

theorem selectField_settles (target : Expr) (name : String) :
    SettlesIn fr jumps (fun w => target.Settled (fr.over w))
      (selectField line target name) fun w e => e.SettledValue (fr.over w) := by
  refine .ite (fun h => .pure fun w ht => ?_) fun _ => .ite (fun h => .pure fun w ht => ?_) fun _ =>
    ?_
  · simp [Ty.isAny_eq_false ht.ty_ne_any] at h
  · simp only [Bool.and_eq_true, Bool.not_eq_true'] at h
    exact ⟨Expr.settled_node rfl rfl rfl ⟨rfl, h.2, h.1.1⟩ (by simpa [Expr.children]), rfl⟩
  split
  case h_1 => exact report_bind .pure
  case h_2 owner howner =>
    refine get_bind fun c => ?_
    split
    case h_1 => exact report_bind .pure
    case h_2 owner' f hf =>
      refine reportIf_bind (.pure ?_)
      rintro w ⟨⟨ht, v, -, hc⟩, hstatic⟩
      rw [hc.hierarchy] at hf
      refine settled_field ht (isReference_of_memberClass? howner) (fun htn => ?_)
        (Hierarchy.findField_isProper hc.good.proper hf)
      simpa [htn] using hstatic

theorem selectFields_settles (role : Role) (line : Nat) : ∀ names (e : Expr), SettlesIn fr jumps
        (fun w => e.Settled (fr.over w) ∧ (names = [] → e.isTypeName → role.admitsType))
        (selectFields line names e) fun w e' => role.Open (fr.over w) e'
  | [], e => .pure fun w he => ⟨he.1, fun hr => by
    cases htn : e.isTypeName with
    | false => rfl
    | true => rw [he.2 rfl htn] at hr; cases hr⟩
  | name :: names, e => by
    refine .bind ((selectField_settles line e name).given fun w he => he.1) fun e' => ?_
    refine (selectFields_settles role line names e').given fun w he => ⟨he.2.settled, ?_⟩
    exact fun _ htn => absurd htn (by simp [he.2.value])

theorem settled_typeName (name : String) :
    (Expr.typeName (typed line (.ofClass name)) (.ofClass name)).Settled fr :=
  Expr.settled_node rfl rfl (Ty.ofClass_isKnown _) ⟨rfl, name, rfl⟩ (by simp [Expr.children])

theorem implicitField_settles (name owner : String) (f : FieldHeader) :
    SettlesIn fr jumps (fun _ => f.ty.isProper) (implicitField line name owner f)
      fun w e => e.SettledValue (fr.over w) := by
  refine .ite (fun hstatic => ?_) fun hstatic => get_bind fun c => reportIf_bind ?_
  · refine .pure fun w hf => settled_field (settled_typeName _ _) (Ty.ofClass_isReference _) ?_ hf
    exact fun _ => hstatic
  · refine .bind ((thisRef_settles line).given ?_) fun target => .pure ?_
    · rintro w ⟨⟨-, v, -, hc⟩, hinstance⟩
      rw [← hc.isStatic_eq]
      simpa using hinstance
    · rintro w ⟨⟨⟨hf, -⟩, -⟩, ht, href⟩
      exact settled_field ht.settled href (fun htn => absurd htn (by simp [ht.value])) hf

theorem typePart?_ofClass :
    ∀ {n k t}, typePart? c segments n = some (t, k) → k ≤ n ∧ 0 < k ∧ ∃ name, t = .ofClass name
  | 0, _, _, h => nomatch h
  | n + 1, k, t, h => by
    rw [typePart?] at h
    split at h
    · cases h
      exact ⟨Nat.le_refl _, Nat.succ_pos _, _, rfl⟩
    · obtain ⟨hle, hpos, hname⟩ := typePart?_ofClass h
      exact ⟨by omega, hpos, hname⟩

theorem LocalVar.find?_mem : ∀ {vs}, LocalVar.find? name vs = some x → x ∈ vs
  | v :: vs, h => by
    rw [LocalVar.find?] at h
    split at h
    · cases h
      exact List.mem_cons_self
    · exact List.mem_cons_of_mem _ (LocalVar.find?_mem h)

theorem InFrame.local?_mem (hc : InFrame fr jumps v c) (h : c.local? name = some x) :
    (x.slot, x.ty) ∈ v ∧ x.ty.isProper := by
  obtain ⟨scope, hscope, hx⟩ := List.exists_of_findSome?_eq_some h
  have hmem := hc.visible scope hscope x (LocalVar.find?_mem hx)
  obtain ⟨m, -, -, -, -, hwithin⟩ := hc.method
  exact ⟨hmem, hwithin.proper _ hmem⟩

theorem classify_settles (role : Role) (line : Nat) (segments : List String)
    (hsegments : segments ≠ []) :
    SettlesIn fr jumps F (classify line segments role.admitsType)
      fun w e => role.Open (fr.over w) e := by
  obtain ⟨first, rest, rfl⟩ := List.exists_cons_of_ne_nil hsegments
  refine get_bind fun c => ?_
  split
  case h_1 x hx =>
    refine (selectFields_settles role line rest _).given ?_
    rintro w ⟨-, v, hvw, hc⟩
    obtain ⟨hmem, hproper⟩ := hc.local?_mem hx
    refine ⟨Expr.settled_node rfl rfl (Ty.isKnown_of_isProper hproper) ⟨_, rfl, hvw hmem⟩ ?_, nofun⟩
    simp [Expr.children]
  case h_2 =>
    split
    case h_1 owner f hf =>
      refine .bind ((implicitField_settles line first owner f).given ?_) fun e => ?_
      · rintro w ⟨-, v, -, hc⟩
        rw [hc.className, Option.bind_some, hc.hierarchy] at hf
        exact Hierarchy.findField_isProper hc.good.proper hf
      · refine (selectFields_settles role line rest e).given fun w he => ⟨he.2.settled, ?_⟩
        exact fun _ htn => absurd htn (by simp [he.2.value])
    case h_2 =>
      split
      case h_1 t n ht =>
        obtain ⟨hle, hpos, name, rfl⟩ := typePart?_ofClass ht
        refine .ite (fun _ => report_bind .pure) fun hallowed => ?_
        refine (selectFields_settles role line _ _).given ?_
        refine fun w _ => ⟨settled_typeName line name, fun hdrop _ => ?_⟩
        have hn : n = (first :: rest).length := Nat.le_antisymm hle (List.drop_eq_nil_iff.1 hdrop)
        simpa [hn] using hallowed
      case h_2 => exact report_bind .pure

theorem superRef_settles (role : Role) (line : Nat) :
    SettlesIn fr jumps F (superRef line) fun w e =>
      role.Open (fr.over w) e := by
  refine get_bind fun c₀ => reportIf_bind (get_bind fun c => .pure ?_)
  rintro w ⟨⟨⟨-, v₀, -, hc₀⟩, hinstance⟩, v, -, hc⟩
  obtain ⟨name, hname⟩ := Option.isSome_iff_exists.1 hc.good.superclass
  have hsuper : c.superclass? = some name := by
    rw [Context.superclass?, hc.className, Option.bind_some, hc.hierarchy, hname]
  rw [hsuper]
  refine ⟨Expr.settled_node rfl rfl (Ty.ofClass_isKnown name) ⟨?_, name, rfl⟩ ?_, fun _ => rfl⟩
  · have := hc₀.isStatic_eq
    simp_all [Frame.over]
  · simp [Expr.children]

/-! ## Calls -/

theorem settled_send {line : Nat} (htarget : ∀ e ∈ target, e.Settled fr ∧ e.ty.isReference)
    (hstatic : kind ≠ .static → ∃ e, target = some e ∧ e.isTypeName = false)
    (hargs : ∀ e ∈ args, e.Settled fr) (hfit : ArgsFit fr.hierarchy args m.params)
    (hparams : ∀ p ∈ m.params, p.isProper) (hresult : m.result.isProperResult) :
    (Expr.send (typed line m.result) target name args
      (some ⟨owner, name, m.descriptor, kind⟩)).SettledValue fr := by
  refine ⟨Expr.settled_node rfl rfl (Ty.isKnown_of_isProperResult hresult) ?_ ?_, rfl⟩
  · refine ⟨_, m.params, m.result, rfl, rfl, hresult, hparams, rfl, rfl, ?_, ?_, hfit⟩
    · intro e he
      refine ⟨(htarget e he).2, fun hk => ?_⟩
      obtain ⟨e', rfl, he'⟩ := hstatic (by simpa using hk)
      cases he
      exact he'
    · rintro rfl
      by_cases hk : kind = .static
      · exact hk
      · obtain ⟨e', he', -⟩ := hstatic hk
        cases he'
  · intro c hc
    rcases List.mem_append.1 hc with hc | hc
    · exact (htarget c (by simpa using hc)).1
    · exact hargs c hc

theorem invocation_eq_static (hm : m.isStatic) : invocation h owner m isSuper = .static := by
  simp [invocation, hm]

theorem resolvedSend_settles (target : Option Expr) (name : String)
    (args : List Expr) (owner : String) (m : MethodHeader) :
    SettlesIn fr jumps (fun w => (∀ e ∈ target, e.Settled (fr.over w) ∧ e.ty.isReference) ∧
        (∀ e ∈ args, e.SettledValue (fr.over w)) ∧ (∀ p ∈ m.params, p.isProper) ∧
        m.result.isProperResult ∧ m.params.length = args.length)
      (resolvedSend line target name args owner m)
      fun w e => e.SettledValue (fr.over w) := by
  unfold resolvedSend
  refine reportIf_bind ?_
  refine reportIf_bind ?_
  -- A missing target is the current object, unless the method is static.
  let Chosen (w : Vars) (t : Option Expr) : Prop :=
    (∀ e ∈ t, e.Settled (fr.over w) ∧ e.ty.isReference) ∧
      (m.isStatic = false → ∃ e, t = some e ∧ e.isTypeName = false)
  have hrest : ∀ t, SettlesIn fr jumps
      (fun w => Chosen w t ∧ (∀ e ∈ args, e.SettledValue (fr.over w)) ∧
        (∀ p ∈ m.params, p.isProper) ∧ m.result.isProperResult ∧ m.params.length = args.length)
      (get >>= fun c => coerceArgs args m.params >>= fun args => pure
        (Expr.send (typed line m.result) t name args (some ⟨owner, name, m.descriptor,
            invocation c.hierarchy owner m (target.any Expr.isSuperRef)⟩)))
              fun w e => e.SettledValue (fr.over w) := by
    intro t
    refine get_bind fun c => .bind ((coerceArgs_settles args m.params).given fun w hw => ?_)
      fun args' => .pure ?_
    · exact ⟨hw.1.2.1, hw.1.2.2.2.2, hw.1.2.2.1⟩
    · rintro w ⟨⟨⟨⟨htarget, hstatic⟩, -, hparams, hresult, -⟩, -⟩, hargs, hfit⟩
      refine settled_send htarget (fun hk => hstatic ?_) hargs hfit hparams hresult
      cases hm : m.isStatic with
      | false => rfl
      | true => exact absurd (invocation_eq_static hm) hk
  refine .ite (fun hnone => get_bind fun c => reportIf_bind ?_) fun hsome => ?_
  · refine .bind ((thisRef_settles line).given ?_) fun this => (hrest (some this)).given ?_
    · rintro w ⟨⟨-, v, -, hc⟩, hinstance⟩
      rw [← hc.isStatic_eq]
      simpa using hinstance
    · rintro w ⟨⟨⟨⟨⟨⟨-, hothers⟩, -⟩, -⟩, -⟩, -⟩, hthis, href⟩
      exact ⟨⟨by simpa using ⟨hthis.settled, href⟩, fun _ => ⟨this, rfl, hthis.value⟩⟩, hothers⟩
  · refine (hrest target).given ?_
    rintro w ⟨⟨⟨htarget, hothers⟩, hthrough⟩, -⟩
    refine ⟨⟨htarget, fun hm => ?_⟩, hothers⟩
    cases target with
    | none => simp [hm] at hsome
    | some e => exact ⟨e, rfl, by simpa [hm] using hthrough⟩

theorem send_settles (target : Option Expr) (name : String) (args : List Expr) : SettlesIn fr jumps
      (fun w => (∀ e ∈ target, e.Settled (fr.over w)) ∧ ∀ e ∈ args, e.SettledValue (fr.over w))
      (send line target name args) fun w e => e.SettledValue (fr.over w) := by
  have hargs : ∀ w, (∀ e ∈ args, e.SettledValue (fr.over w)) →
      ¬(args.map Expr.ty).any Ty.isAny = true := by
    intro w hw h
    obtain ⟨t, ht, hany⟩ := List.any_eq_true.1 h
    obtain ⟨e, he, rfl⟩ := List.mem_map.1 ht
    simp [Ty.isAny_eq_false (hw e he).ty_ne_any] at hany
  have hfound : ∀ {c : Context} {w v : Vars} {owner owner' : String} {m : MethodHeader},
      c.hierarchy.selectMethod owner name (args.map Expr.ty) = .found (owner', m) →
      InFrame fr jumps v c → (∀ e ∈ args, e.SettledValue (fr.over w)) →
      (∀ e ∈ args, e.SettledValue (fr.over w)) ∧ (∀ p ∈ m.params, p.isProper) ∧
        m.result.isProperResult ∧ m.params.length = args.length := by
    intro c w v owner owner' m hm hc hw
    rw [hc.hierarchy] at hm
    obtain ⟨hparams, hresult, hlen⟩ := Hierarchy.selectMethod_found hc.good.proper hm
    exact ⟨hw, hparams, hresult, by simpa using hlen⟩
  refine .ite (fun h => .pure fun w hw => ?_) fun _ => get_bind fun c => ?_
  · cases target with
    | none => cases h
    | some e => simp [Ty.isAny_eq_false (hw.1 e rfl).ty_ne_any] at h
  cases target with
  | none =>
    dsimp only
    split
    case h_1 => exact report_bind .pure
    case h_2 owner howner =>
      refine .ite (fun h => .pure fun w hw => absurd h (hargs w hw.1.2)) fun _ => ?_
      split
      case h_1 owner' m hm =>
        refine (resolvedSend_settles line none name args owner' m).given ?_
        exact fun w ⟨⟨_, hw⟩, v, _, hc⟩ => ⟨nofun, hfound hm hc hw⟩
      case h_2 => exact report_bind .pure
      case h_3 => exact report_bind .pure
  | some target =>
    dsimp only
    split
    case h_1 => exact report_bind .pure
    case h_2 owner howner =>
      refine .ite (fun h => .pure fun w hw => absurd h (hargs w hw.1.2)) fun _ => ?_
      split
      case h_1 owner' m hm =>
        refine (resolvedSend_settles line (some target) name args owner' m).given ?_
        refine fun w ⟨⟨ht, hw⟩, v, _, hc⟩ => ⟨fun e he => ⟨ht e he, ?_⟩, hfound hm hc hw⟩
        cases he
        exact isReference_of_memberClass? howner
      case h_2 => exact report_bind .pure
      case h_3 => exact report_bind .pure

theorem constructWith_settles (owner : String) (args : List Expr) :
    SettlesIn fr jumps (fun w => ∀ e ∈ args, e.SettledValue (fr.over w))
      (constructWith line owner args) fun w res =>
        (∀ e ∈ res.1, e.Settled (fr.over w)) ∧ ∃ r params, res.2 = some r ∧
          (∀ p ∈ params, p.isProper) ∧ r.descriptor = Ty.methodDescriptor params .void ∧
          ArgsFit fr.hierarchy res.1 params := by
  refine get_bind fun c => ?_
  split
  case h_1 ctor params hctor =>
    have hfound : ∀ {v : Vars}, InFrame fr jumps v c → _ := fun hc =>
      Hierarchy.selectCtor_found hc.good.proper (by rw [← hc.hierarchy]; exact hctor)
    refine .bind ((coerceArgs_settles args params).given ?_) fun args' => .pure ?_
    · rintro w ⟨hw, v, -, hc⟩
      obtain ⟨hparams, -, hlen⟩ := hfound hc
      exact ⟨hw, by simpa using hlen, hparams⟩
    · rintro w ⟨⟨-, v, -, hc⟩, hargs, hfit⟩
      obtain ⟨hparams, hdesc, -⟩ := hfound hc
      exact ⟨hargs, ctor, params, rfl, hparams, hdesc, hfit⟩
  case h_2 => exact report_bind .pure
  case h_3 => exact report_bind .pure

theorem not_erroneous (h : ∀ e ∈ args, e.SettledValue fr) : ¬erroneous args = true := by
  intro herr
  obtain ⟨e, he, hany⟩ := List.any_eq_true.1 herr
  simp [Ty.isAny_eq_false (h e he).ty_ne_any] at hany

/-- Nothing that is known in a body depends on the log or on whether another constructor may be
called. -/
theorem InFrame.congr (h : InFrame fr jumps v c)
    (hc : c' = { c with log := c'.log, mayDelegate := c'.mayDelegate }) :
    InFrame fr jumps v c' := by
  rw [hc]
  exact ⟨⟨h.hierarchy, h.package, h.names, h.className, h.method, h.visible, h.jumps⟩, h.good⟩

theorem delegationAllowed_settles (target : Delegation) :
    SettlesIn fr jumps F (delegationAllowed line target) fun _ _ => fr.isStatic = false := by
  intro c a c' hrun hlog
  by_cases hallowed : (c.mayDelegate && (c.method.map MethodScope.isCtor).getD false) = true
  · have hc' : c' = { c with mayDelegate := false } := by
      simp only [delegationAllowed, bind, StateT.bind, get, getThe, MonadStateOf.get, StateT.get,
        set, MonadStateOf.set, StateT.set, Except.bind, pure, Except.pure, hallowed, if_true,
        StateT.pure] at hrun
      cases hrun
      rfl
    subst hc'
    refine ⟨hlog, fun v hK _ => ⟨v, fun _ => id, hK.congr rfl, fun _ _ => ?_⟩⟩
    obtain ⟨m, hm, -, -, hctor, -⟩ := hK.method
    simp only [hm, Option.map_some, Option.getD_some, Bool.and_eq_true] at hallowed
    exact hctor hallowed.2
  · simp only [delegationAllowed, bind, StateT.bind, get, getThe, MonadStateOf.get, StateT.get,
      set, MonadStateOf.set, StateT.set, Except.bind, pure, Except.pure, hallowed] at hrun
    exact absurd hlog (by cases hrun; simp [Log.add])

theorem settled_delegate {line : Nat} {target : Delegation}
    {ctor : Option MethodRef} (hstatic : fr.isStatic = false)
    (h : (∀ e ∈ args, e.Settled fr) ∧ ∃ r params, ctor = some r ∧
      (∀ p ∈ params, p.isProper) ∧ r.descriptor = Ty.methodDescriptor params .void ∧
      ArgsFit fr.hierarchy args params) :
    (Expr.delegate (typed line .void) target args ctor).SettledValue fr := by
  obtain ⟨hargs, r, params, rfl, hparams, hdesc, hfit⟩ := h
  exact ⟨Expr.settled_node rfl rfl rfl
    ⟨r, params, rfl, rfl, hstatic, hparams, hdesc, hfit⟩ hargs, rfl⟩

theorem delegate_settles (target : Delegation) (args : List Expr) : SettlesIn fr jumps
      (fun w => fr.isStatic = false ∧ ∀ e ∈ args, e.SettledValue (fr.over w))
      (delegate line target args) fun w e => e.SettledValue (fr.over w) := by
  refine get_bind fun c => ?_
  have howner : ∀ {v}, InFrame fr jumps v c → c.superclass? ≠ none ∧ c.className ≠ none := by
    intro v hc
    refine ⟨?_, by simp [hc.className]⟩
    rw [Context.superclass?, hc.className, Option.bind_some, hc.hierarchy]
    exact Option.isSome_iff_ne_none.1 hc.good.superclass
  dsimp only
  split
  case h_1 owner _ =>
    refine .ite (fun h => .pure fun w hw => absurd h (not_erroneous hw.1.2)) fun _ => ?_
    refine .bind ((constructWith_settles line owner args).given fun w hw => hw.1.2)
      fun res => .pure fun w hw => settled_delegate hw.1.1.1 hw.2
  case h_2 hnone =>
    refine .pure ?_
    rintro w ⟨-, v, -, hc⟩
    cases target
    · exact absurd hnone (howner hc).1
    · exact absurd hnone (howner hc).2

theorem newObject_settles (type : Ty) (args : List Expr) : SettlesIn fr jumps
      (fun w => type.isProper ∧ ∀ e ∈ args, e.SettledValue (fr.over w))
      (newObject line type args) fun w e => e.SettledValue (fr.over w) := by
  have hnode : ∀ {w : Vars} {res : List Expr × Option MethodRef}, type.isProper →
      type.isReference → type.isArray = false →
      ((∀ e ∈ res.1, e.Settled (fr.over w)) ∧ ∃ r params, res.2 = some r ∧
        (∀ p ∈ params, p.isProper) ∧ r.descriptor = Ty.methodDescriptor params .void ∧
        ArgsFit fr.hierarchy res.1 params) →
      (Expr.newObject (typed line (if res.2.isSome then type else .any)) type res.1
        res.2).SettledValue (fr.over w) := by
    rintro w ⟨args, ctor⟩ hproper href harray ⟨hargs, r, params, rfl, hparams, hdesc, hfit⟩
    exact ⟨Expr.settled_node rfl rfl (Ty.isKnown_of_isProper hproper)
      ⟨r, params, rfl, rfl, href, harray, hparams, hdesc, hfit⟩ hargs, rfl⟩
  unfold newObject
  split
  case h_1 => exact .pure fun w hw => absurd hw.1 (by simp [Ty.isProper])
  case h_2 => exact report_bind .pure
  case h_3 hany harray =>
    split
    case h_1 => exact report_bind .pure
    case h_2 name hname =>
      refine get_bind fun c => .ite (fun _ => report_bind .pure) fun _ => ?_
      refine .ite (fun h => .pure fun w hw => absurd h (not_erroneous hw.1.2)) fun _ => ?_
      refine .bind ((constructWith_settles line name args).given fun w hw => hw.1.2)
        fun res => .pure fun w hw => hnode hw.1.1.1 (isReference_of_memberClass? hname) ?_ hw.2
      cases type <;> first | rfl | exact absurd rfl (harray _)

/-! ## Operators -/

theorem promoted_isKnown (h : t.isKnown) : t.promoted.isKnown := by
  cases t <;> first | rfl | exact h

theorem eq_boolean_of_promoted (h : t.promoted = .boolean) : t = .boolean := by
  cases t <;> first | rfl | cases h

theorem promoted_distance (h : t.promoted.isIntegral) :
    (if t = .long then Ty.int else t).promoted = .int := by
  cases t <;> simp_all [Ty.promoted, Ty.isIntegral]

/-- The type of an operation says how its operands are typed, after a shift distance is made an
`int`. -/
theorem typed_of_operationType? (h : operationType? op lt rt = some t) (hlt : lt.isKnown) :
    t.isKnown ∧ op.Typed lt (if op.isShift ∧ rt = .long then .int else rt) t := by
  have hpromoted := promoted_isKnown hlt
  cases op <;>
    simp only [operationType?, BinaryOp.isArithmetic, BinaryOp.isShift, BinaryOp.isBitwise,
      BinaryOp.isLogical, BinaryOp.isRelational, BinaryOp.Typed, if_true, Bool.false_eq_true,
      if_false, false_and, true_and, Option.ite_none_right_eq_some, Bool.and_eq_true,
      Bool.or_eq_true, decide_eq_true_eq, Option.some.injEq] at h ⊢ <;>
    obtain ⟨hcond, rfl⟩ := h
  case shl | shr | ushr => exact ⟨hpromoted, rfl, hcond.1, promoted_distance hcond.2⟩
  case logicalAnd | logicalOr => exact ⟨rfl, hcond.1, hcond.2, rfl⟩
  case lt | le | gt | ge => exact ⟨rfl, hcond.1, hcond.2, rfl⟩
  case eq | ne =>
    exact ⟨rfl, rfl, hcond.imp (fun h => ⟨h.1, h.2.imp id eq_boolean_of_promoted⟩) id⟩
  all_goals exact ⟨hpromoted, rfl, hcond.1.symm, hcond.2⟩

theorem settled_shiftDistance (op : BinaryOp) {e : Expr} (he : e.SettledValue fr) :
    (shiftDistance op e).SettledValue fr ∧
      (shiftDistance op e).ty = if op.isShift ∧ e.ty = .long then .int else e.ty := by
  unfold shiftDistance
  by_cases h : op.isShift ∧ e.ty = .long
  · rw [if_pos (by simpa using h), if_pos h]
    exact ⟨settled_convert he rfl (by simp [castable, h.2, Ty.isNumeric]), rfl⟩
  · rw [if_neg (by simpa using h), if_neg h]
    exact ⟨he, rfl⟩

theorem binary_settles (op : BinaryOp) (lhs rhs : Expr) : SettlesIn fr jumps
      (fun w => lhs.SettledValue (fr.over w) ∧ rhs.SettledValue (fr.over w))
      (binary line op lhs rhs) fun w e => e.SettledValue (fr.over w) := by
  refine .ite (fun hconcat => reportIf_bind (.pure ?_)) fun _ =>
    .ite (fun h => .pure fun w hw => ?_)
    fun _ => ?_
  · rintro w ⟨⟨hl, hr⟩, hvoid⟩
    simp only [Bool.or_eq_true, decide_eq_true_eq, not_or, Bool.and_eq_true] at hvoid hconcat
    refine ⟨Expr.settled_node rfl rfl rfl ?_ ?_, rfl⟩
    · exact ⟨rfl, hl.value, hr.value, hvoid.1, hvoid.2, hconcat.2⟩
    · simpa [Expr.children] using ⟨hl.settled, hr.settled⟩
  · simp [Ty.isAny_eq_false hw.1.ty_ne_any, Ty.isAny_eq_false hw.2.ty_ne_any] at h
  · split
    case h_1 t ht =>
      refine .pure fun w hw => ?_
      obtain ⟨hknown, htyped⟩ := typed_of_operationType? ht hw.1.ty_isKnown
      obtain ⟨hr, hty⟩ := settled_shiftDistance op hw.2
      rw [← hty] at htyped
      refine ⟨Expr.settled_node rfl rfl hknown ⟨hw.1.value, hr.value, t, rfl, htyped⟩ ?_, rfl⟩
      simpa [Expr.children] using ⟨hw.1.settled, hr.settled⟩
    case h_2 => exact report_bind .pure

theorem unaryType?_eq_some {op : UnaryOp} (ht : t ≠ .any) (h : unaryType? op t = some t') :
    match op with
    | .not => t = .boolean ∧ t' = .boolean
    | .neg | .plus => t.promoted.isNumeric ∧ t' = t.promoted
    | .bitNot => t.promoted.isIntegral ∧ t' = t.promoted := by
  cases op <;> simp only [unaryType?, Ty.isAny_eq_false ht, Bool.false_eq_true, if_false] at h ⊢
  all_goals
    split at h
    next hif => exact ⟨hif, (Option.some.inj h).symm⟩
    next => cases h

theorem unaryType?_isKnown (h : unaryType? op t = some t') (ht : t.isKnown) : t'.isKnown := by
  have := promoted_isKnown ht
  simp only [unaryType?, Ty.isAny_eq_false (Ty.ne_any_of_isKnown ht), Bool.false_eq_true,
    if_false] at h
  split at h <;> split at h <;> cases h <;> first | assumption | rfl

theorem unary_settles (op : UnaryOp) (operand : Expr) :
    SettlesIn fr jumps (fun w => operand.SettledValue (fr.over w))
      (unary line op operand) fun w e => e.SettledValue (fr.over w) := by
  unfold unary
  split
  case h_1 t ht =>
    refine .pure fun w hw => ⟨Expr.settled_node rfl rfl (unaryType?_isKnown ht hw.ty_isKnown) ?_ ?_,
      rfl⟩
    · exact ⟨hw.value, t, rfl, ht⟩
    · simpa [Expr.children] using hw.settled
  case h_2 => exact report_bind .pure

theorem step_settles (op : StepOp) (operand : Expr) :
    SettlesIn fr jumps (fun w => operand.SettledValue (fr.over w))
      (step line op operand) fun w e => e.SettledValue (fr.over w) := by
  refine .ite (fun _ => report_bind .pure) fun hvar => reportIf_bind (.pure ?_)
  rintro w ⟨hw, htype⟩
  simp only [Bool.not_eq_true', Bool.not_eq_false, Bool.or_eq_true, decide_eq_true_eq,
    Ty.isAny_eq_false hw.ty_ne_any, Bool.false_eq_true, or_false] at hvar htype
  refine ⟨Expr.settled_node rfl rfl hw.ty_isKnown ⟨rfl, hvar, ?_⟩ ?_, rfl⟩
  · simpa [or_assoc] using htype
  · simpa [Expr.children] using hw.settled

theorem instanceOf_settles (operand : Expr) (target : Ty) :
    SettlesIn fr jumps (fun w => operand.SettledValue (fr.over w) ∧ target.isProper)
      (instanceOf line operand target)
      fun w e => e.SettledValue (fr.over w) := by
  unfold instanceOf
  refine reportIf_bind (.pure ?_)
  rintro w ⟨⟨hw, htarget⟩, hvalid⟩
  simp only [Ty.isAny_eq_false hw.ty_ne_any, Ty.isAny_eq_false (Ty.ne_any_of_isProper htarget),
    Bool.or_false, Bool.or_eq_true, Bool.not_eq_true', decide_eq_true_eq, not_or,
    Bool.not_eq_false] at hvalid
  refine ⟨Expr.settled_node rfl rfl rfl ?_ ?_, rfl⟩
  · exact ⟨rfl, hw.value, hvalid.1.1, hvalid.1.2, htarget⟩
  · simpa [Expr.children] using hw.settled

theorem castTo_settles (target : Ty) (operand : Expr) :
    SettlesIn fr jumps (fun w => operand.SettledValue (fr.over w) ∧ target.isProper)
      (castTo line target operand) fun w e => e.SettledValue (fr.over w) := by
  refine get_bind fun c => reportUnless_bind (.pure ?_)
  rintro w ⟨⟨⟨hw, htarget⟩, v, -, hc⟩, hcast⟩
  exact settled_convert hw htarget (by simpa [Frame.over, ← hc.hierarchy] using hcast)

theorem compoundTyped_of_fits
    (hb : ∃ op : AssignOp, op.binary? = some b) (hfits : compoundFits h b lt rt) :
    (b = .add ∧ lt = .string ∧ rt ≠ .void) ∨
      (¬(b = .add ∧ lt = .string) ∧ b.isShift ∧ lt.isIntegral ∧ lt ≠ .char ∧
        rt.promoted.isIntegral) ∨
      (¬(b = .add ∧ lt = .string) ∧ b.isShift = false ∧ lt ≠ .char ∧
        (if b.isArithmetic then lt.isNumeric else lt.isIntegral) = true) := by
  unfold compoundFits at hfits
  by_cases hstring : b = .add ∧ lt = .string
  · rw [if_pos (by simpa using hstring)] at hfits
    exact .inl ⟨hstring.1, hstring.2, by simpa using hfits⟩
  · rw [if_neg (by simpa using hstring)] at hfits
    by_cases hchar : lt = .char
    · simp [hchar] at hfits
    · rw [if_neg hchar] at hfits
      refine .inr ?_
      obtain ⟨op, hop⟩ := hb
      cases op <;> cases hop <;> simp_all [BinaryOp.isArithmetic, BinaryOp.isShift]

theorem assign_settles (op : AssignOp) (lhs rhs : Expr) : SettlesIn fr jumps
      (fun w => lhs.SettledValue (fr.over w) ∧ rhs.SettledValue (fr.over w))
      (assign line op lhs rhs) fun w e => e.SettledValue (fr.over w) := by
  refine .ite (fun _ => ?_) fun hvar => .ite (fun h => .pure fun w hw => ?_) fun _ => ?_
  · refine reportUnless_bind (.pure ?_)
    rintro w ⟨hw, hany⟩
    simp [Ty.isAny_eq_false hw.1.ty_ne_any] at hany
  · simp [Ty.isAny_eq_false hw.1.ty_ne_any, Ty.isAny_eq_false hw.2.ty_ne_any] at h
  simp only [Bool.not_eq_true', Bool.not_eq_false] at hvar
  have hnode : ∀ {w : Vars} {r : Expr}, lhs.SettledValue (fr.over w) → r.SettledValue (fr.over w) →
      op.binary?.elim (r.Fits fr.hierarchy lhs.ty) (BinaryOp.CompoundTyped · lhs.ty r.ty) →
      (Expr.assign (typed line lhs.ty) op lhs r).SettledValue (fr.over w) := by
    intro w r hl hr hform
    refine ⟨Expr.settled_node rfl rfl hl.ty_isKnown ⟨rfl, hvar, hr.value, ?_⟩ ?_, rfl⟩
    · cases hop : op.binary? <;> rw [hop] at hform <;> exact hform
    · simpa [Expr.children] using ⟨hl.settled, hr.settled⟩
  split
  case h_1 hop =>
    refine .bind ((coerce_settles lhs.ty rhs).given fun w hw => ⟨hw.2, hw.1.ty_ne_any⟩) fun r => ?_
    exact .pure fun w hw => hnode hw.1.1 hw.2.toSettledValue (hop ▸ hw.2.fits)
  case h_2 b hop =>
    refine get_bind fun c => .ite (fun _ => report_bind .pure) fun hfits => ?_
    simp only [Bool.not_eq_true', Bool.not_eq_false] at hfits
    have hcases := compoundTyped_of_fits ⟨op, hop⟩ hfits
    refine .ite (fun hstring => .pure ?_) fun hstring => .ite (fun hshift => .pure ?_) fun hshift =>
      ?_
    · rintro w ⟨hw, -⟩
      simp only [Bool.and_eq_true, decide_eq_true_eq] at hstring
      refine hnode hw.1 hw.2 ?_
      simp only [hop, Option.elim_some, BinaryOp.CompoundTyped, hstring, and_self, if_true]
      rcases hcases with h | h | h
      · exact h.2.2
      · exact absurd hstring h.1
      · exact absurd hstring h.1
    · rintro w ⟨hw, -⟩
      obtain ⟨hr, hty⟩ := settled_shiftDistance b hw.2
      refine hnode hw.1 hr ?_
      simp only [Bool.and_eq_true, decide_eq_true_eq] at hstring
      simp only [hop, Option.elim_some, BinaryOp.CompoundTyped, hstring, hshift, if_true, if_false,
        hty, true_and]
      rcases hcases with h | h | h
      · exact absurd ⟨h.1, h.2.1⟩ hstring
      · exact ⟨h.2.2.1, h.2.2.2.1, promoted_distance h.2.2.2.2⟩
      · simp [hshift] at h
    · refine .bind ((coerce_settles lhs.ty rhs).given fun w hw => ⟨hw.1.2, hw.1.1.ty_ne_any⟩)
        fun r => .pure ?_
      rintro w ⟨⟨hw, -⟩, hr⟩
      refine hnode hw.1 hr.toSettledValue ?_
      simp only [Bool.and_eq_true, decide_eq_true_eq] at hstring
      simp only [hop, Option.elim_some, BinaryOp.CompoundTyped, hstring, hshift, if_false]
      rcases hcases with h | h | h
      · exact absurd ⟨h.1, h.2.1⟩ hstring
      · exact absurd h.2.1 hshift
      · refine ⟨h.2.2.2, h.2.2.1, hr.fits.eq_of_isPrimitive ?_⟩
        have := h.2.2.2
        split at this
        · exact Ty.isPrimitive_of_isNumeric this
        · exact Ty.isPrimitive_of_isIntegral this

theorem choiceType?_isKnown (hchoice : choiceType? h tt et = some t) (htt : tt.isKnown)
    (het : et.isKnown) : t.isKnown := by
  have := promoted_isKnown htt
  unfold choiceType? at hchoice
  repeat' split at hchoice
  all_goals cases hchoice <;> assumption

theorem conditional_settles (test thenExpr elseExpr : Expr) : SettlesIn fr jumps
      (fun w => test.SettledTest (fr.over w) ∧ thenExpr.SettledValue (fr.over w) ∧
        elseExpr.SettledValue (fr.over w))
      (conditional line test thenExpr elseExpr)
      fun w e => e.SettledValue (fr.over w) := by
  refine .ite (fun h => .pure fun w hw => ?_) fun _ => get_bind fun c => ?_
  · simp [Ty.isAny_eq_false hw.2.1.ty_ne_any, Ty.isAny_eq_false hw.2.2.ty_ne_any] at h
  split
  case h_1 t ht =>
    have hknown : ∀ {w : Vars}, thenExpr.SettledValue (fr.over w) →
        elseExpr.SettledValue (fr.over w) → t.isKnown :=
      fun h₁ h₂ => choiceType?_isKnown ht h₁.ty_isKnown h₂.ty_isKnown
    refine .bind ((coerce_settles t thenExpr).given fun w hw =>
      ⟨hw.1.2.1, Ty.ne_any_of_isKnown (hknown hw.1.2.1 hw.1.2.2)⟩) fun thenExpr' => ?_
    refine .bind ((coerce_settles t elseExpr).given fun w hw =>
      ⟨hw.1.1.2.2, Ty.ne_any_of_isKnown (hknown hw.1.1.2.1 hw.1.1.2.2)⟩) fun elseExpr' => .pure ?_
    rintro w ⟨⟨⟨⟨htest, h₁, h₂⟩, -⟩, h₁'⟩, h₂'⟩
    refine ⟨Expr.settled_node rfl rfl (hknown h₁ h₂) ?_ ?_, rfl⟩
    · exact ⟨htest.value, htest.boolean, t, rfl, h₁'.value, h₁'.fits, h₂'.value, h₂'.fits⟩
    · simpa [Expr.children] using ⟨htest.settled, h₁'.settled, h₂'.settled⟩
  case h_2 => exact report_bind .pure

/-! ## Arrays and written types -/

theorem element_settles (array index : Expr) : SettlesIn fr jumps
      (fun w => array.SettledValue (fr.over w) ∧ index.SettledAs (fr.over w) .int)
      (element line array index) fun w e => e.SettledValue (fr.over w) := by
  unfold element
  split
  case h_1 t ht =>
    refine .pure fun w hw => ⟨Expr.settled_node rfl rfl ?_ ?_ ?_, rfl⟩
    · have harray := hw.1.ty_isKnown
      rw [ht] at harray
      exact Ty.isKnown_of_isProper harray
    · exact ⟨t, rfl, hw.1.value, ht, hw.2.value, hw.2.fits.eq_of_isPrimitive rfl⟩
    · simpa [Expr.children] using ⟨hw.1.settled, hw.2.settled⟩
  case h_2 hany => exact .pure fun w hw => absurd hany hw.1.ty_ne_any
  case h_3 => exact report_bind .pure

theorem componentType_settles (t : Ty) :
    SettlesIn fr jumps (fun _ => t.isProper) (componentType line t)
      fun _ c => t = .array c ∧ c.isProper := by
  unfold componentType
  split
  case h_1 => exact .pure fun w hw => ⟨rfl, hw⟩
  case h_2 => exact .pure fun w hw => absurd hw (by simp [Ty.isProper])
  case h_3 => exact report_bind .pure

theorem ofClass_isProper (h : isProperName name) : (Ty.ofClass name).isProper := by
  unfold Ty.ofClass
  split
  · rfl
  · exact h

theorem resolveClass?_isProper (hc : c.Proper) (h : c.resolveClass? name = some internal) :
    isProperName internal := by
  have hknown : ∀ {s : String}, c.known? s = some internal → isProperName internal := by
    intro s hs
    simp only [Context.known?, Option.ite_none_right_eq_some, Option.some.injEq] at hs
    obtain ⟨hcontains, rfl⟩ := hs
    exact Hierarchy.isProperName_of_contains hc.hierarchy hcontains
  unfold Context.resolveClass? at h
  split at h
  · exact hknown h
  · split at h
    · exact hknown h
    · rcases Option.or_eq_some_iff.1 h with hbound | ⟨-, hlang⟩
      · obtain ⟨before, after, hnames, -⟩ := List.lookup_eq_some_iff.1 hbound
        exact hc.names (name, internal) (by simp [hnames])
      · exact hknown hlang

theorem resolveType_settles (hK : ∀ v c, K v c → c.Proper) (line : Nat) :
    ∀ t : Ty, Settles K (fun _ => t.isStorable) (resolveType line t) K
      fun _ t' => t'.isProper ∧ t'.dims = t.dims
  | .named name => by
    refine get_bind fun c => ?_
    split
    case h_1 internal hinternal =>
      refine .pure ?_
      rintro w ⟨-, v, -, hc⟩
      refine ⟨ofClass_isProper (resolveClass?_isProper (hK v c hc) hinternal), ?_⟩
      unfold Ty.ofClass
      split <;> rfl
    case h_2 => exact report_bind .pure
  | .array component => by
    refine .bind (resolveType_settles hK line component) fun t' => ?_
    split
    · exact .pure fun w hw => absurd hw.2.1 (by simp [Ty.isProper])
    · exact .pure fun w hw => ⟨hw.2.1, by simp [Ty.dims, hw.2.2]⟩
  | .int | .long | .double | .boolean | .char | .string => .pure fun _ _ => ⟨rfl, rfl⟩
  | .void | .null | .any => .pure fun _ h => by cases h

/-! ## Expressions -/

/-- Whether a role gives elements in braces their type. -/
def Role.placed : Role → Bool
  | .initial _ => true
  | _ => false

theorem isStorable_of_isProper : ∀ {t : Ty}, t.isProper → t.isStorable
  | .array c, h => isStorable_of_isProper (t := c) h
  | .int, _ | .long, _ | .double, _ | .boolean, _ | .char, _ | .string, _ | .named _, _ => rfl

theorem Role.arrayType_isStorable (hrole : role.Proper)
    (ht : role.placed = false → t.isStorable) : (role.arrayType t).isStorable := by
  cases role with
  | initial t' => exact isStorable_of_isProper hrole
  | _ => exact ht rfl

theorem settle_bind (hrole : ∀ w, F w → role.Proper)
    (hx : SettlesIn fr jumps F x fun w e => role.Open (fr.over w) e) :
    SettlesIn fr jumps F (x >>= role.settle) fun w e => role.Met (fr.over w) e :=
  .bind hx fun e => (role.settle_settles e).given fun w hw => ⟨hrole w hw.1, hw.2⟩

theorem settle_value_bind {G : Vars → Prop} (hrole : ∀ w, F w → role.Proper)
    (hx : SettlesIn fr jumps G x fun w e => e.SettledValue (fr.over w)) (hF : ∀ w, F w → G w) :
    SettlesIn fr jumps F (x >>= role.settle) fun w e => role.Met (fr.over w) e :=
  settle_bind hrole (hx.imp hF fun _ _ _ he => ⟨he.settled, fun _ => he.value⟩)

mutual

/-- Analysis of a written expression settles it, as its role asks. -/
theorem expr_settles : ∀ (role : Role) (e : Expr), e.Written role.placed → ∀ {F : Vars → Prop},
      (∀ w, F w → role.Proper) → SettlesIn fr jumps F (expr role e)
        fun w e' => role.Met (fr.over w) e'
  | role, .literal n l, _, _, hrole => settle_bind hrole (literal_settles role n.line l)
  | role, .name n segments, hsegments, _, hrole =>
    settle_bind hrole (classify_settles role n.line segments hsegments)
  | role, .thisRef n, _, _, hrole => by
    refine get_bind fun c => reportIf_bind ?_
    refine settle_value_bind (fun w h => hrole w h.1.1) ((thisRef_settles n.line).imp
      (fun _ h => h) fun _ _ _ h => h.1) ?_
    rintro w ⟨⟨-, v, -, hc⟩, hinstance⟩
    rw [← hc.isStatic_eq]
    simpa using hinstance
  | role, .superRef n, _, _, hrole => settle_bind hrole (superRef_settles role n.line)
  | role, .field n target name _, h, _, hrole => by
    refine .bind (expr_settles .selected target h fun _ _ => trivial) fun target' => ?_
    exact settle_value_bind (fun w h => hrole w h.1)
      (selectField_settles n.line target' name) fun _ h => h.2
  | role, .element n array index, h, _, hrole => by
    refine .bind (expr_settles .value array h.1 fun _ _ => trivial) fun array' => ?_
    refine .bind (expr_settles .index index h.2 fun _ _ => trivial) fun index' => ?_
    exact settle_value_bind (fun w h => hrole w h.1.1)
      (element_settles n.line array' index') fun _ h => ⟨h.1.2, h.2⟩
  | role, .send n target name args _, h, _, hrole => by
    refine .bind (optional_settles target h.1) fun target' => ?_
    refine .bind (exprs_settles .value args h.2 fun _ _ => trivial) fun args' => ?_
    exact settle_value_bind (fun w h => hrole w h.1.1)
      (send_settles n.line target' name args') fun _ h => ⟨h.1.2, h.2.1⟩
  | role, .delegate n target args _, h, _, hrole => by
    refine .bind (delegationAllowed_settles n.line target) fun _ => ?_
    refine .bind (exprs_settles .value args h fun _ _ => trivial) fun args' => ?_
    exact settle_value_bind (fun w h => hrole w h.1.1)
      (delegate_settles n.line target args') fun _ h => ⟨h.1.2, h.2.1⟩
  | role, .newObject n type args _, h, _, hrole => by
    refine .bind ((resolveType_settles InFrame.proper n.line type).given fun _ _ => h.1)
      fun type' => ?_
    refine .bind (exprs_settles .value args h.2 fun _ _ => trivial) fun args' => ?_
    exact settle_value_bind (fun w h => hrole w h.1.1)
      (newObject_settles n.line type' args') fun _ h => ⟨h.1.2.1, h.2.1⟩
  | role, .newArray n type dims, ⟨hty, hne, hdims, hall⟩, _, hrole => by
    refine .bind ((resolveType_settles InFrame.proper n.line type).given fun _ _ => hty)
      fun type' => ?_
    refine .bind (exprs_settles .index dims hall fun _ _ => trivial) fun dims' => ?_
    refine (role.settle_settles _).given ?_
    rintro w ⟨⟨hw, hproper, hsame⟩, hmet, hlen⟩
    refine ⟨hrole w hw, Expr.settled_node rfl rfl (Ty.isKnown_of_isProper hproper) ?_ ?_,
      fun _ => rfl⟩
    · refine ⟨rfl, hproper, ?_, by omega, fun d hd => ?_⟩
      · rintro rfl
        exact hne (List.length_eq_zero_iff.1 hlen.symm)
      · exact ⟨(hmet d hd).value, (hmet d hd).fits.eq_of_isPrimitive rfl⟩
    · exact fun d hd => (hmet d hd).settled
  | role, .arrayInit n type elements, ⟨hty, hall⟩, _, hrole => by
    refine .bind ((resolveType_settles InFrame.proper n.line _).given fun w hw =>
      Role.arrayType_isStorable (hrole w hw) hty) fun type' => ?_
    refine .bind ((componentType_settles n.line type').given fun w h => h.2.1) fun c => ?_
    refine .bind (exprs_settles (.initial c) elements hall fun w h => h.2.2) fun elements' => ?_
    refine (role.settle_settles _).given ?_
    rintro w ⟨⟨⟨hw, hproper, -⟩, rfl, hc⟩, hmet, -⟩
    refine ⟨hrole w hw, Expr.settled_node rfl rfl (Ty.isKnown_of_isProper hproper) ?_ ?_,
      fun _ => rfl⟩
    · exact ⟨c, rfl, rfl, hc, fun e he => ⟨(hmet e he).value, (hmet e he).fits⟩⟩
    · exact fun e he => (hmet e he).settled
  | role, .binary n op lhs rhs, h, _, hrole => by
    refine .bind (expr_settles .value lhs h.1 fun _ _ => trivial) fun lhs' => ?_
    refine .bind (expr_settles .value rhs h.2 fun _ _ => trivial) fun rhs' => ?_
    exact settle_value_bind (fun w h => hrole w h.1.1)
      (binary_settles n.line op lhs' rhs') fun _ h => ⟨h.1.2, h.2⟩
  | role, .instanceOf n operand target, h, _, hrole => by
    refine .bind (expr_settles .value operand h.1 fun _ _ => trivial) fun operand' => ?_
    refine .bind ((resolveType_settles InFrame.proper n.line target).given fun _ _ => h.2)
      fun target' => ?_
    exact settle_value_bind (fun w h => hrole w h.1.1)
      (instanceOf_settles n.line operand' target') fun _ h => ⟨h.1.2, h.2.1⟩
  | role, .unary n op operand, h, _, hrole => by
    unfold expr
    split
    · exact settle_bind hrole (literal_settles role n.line _)
    · refine .bind (expr_settles .value operand h fun _ _ => trivial) fun operand' => ?_
      exact settle_value_bind (fun w h => hrole w h.1)
        (unary_settles n.line op operand') fun _ h => h.2
  | role, .step n op operand, h, _, hrole => by
    refine .bind (expr_settles .value operand h fun _ _ => trivial) fun operand' => ?_
    exact settle_value_bind (fun w h => hrole w h.1)
      (step_settles n.line op operand') fun _ h => h.2
  | role, .cast n target operand, h, _, hrole => by
    refine .bind ((resolveType_settles InFrame.proper n.line target).given fun _ _ => h.1)
      fun target' => ?_
    refine .bind (expr_settles .value operand h.2 fun _ _ => trivial) fun operand' => ?_
    exact settle_value_bind (fun w h => hrole w h.1.1)
      (castTo_settles n.line target' operand') fun _ h => ⟨h.2, h.1.2.1⟩
  | role, .assign n op lhs rhs, h, _, hrole => by
    refine .bind (expr_settles .value lhs h.1 fun _ _ => trivial) fun lhs' => ?_
    refine .bind (expr_settles .value rhs h.2 fun _ _ => trivial) fun rhs' => ?_
    exact settle_value_bind (fun w h => hrole w h.1.1)
      (assign_settles n.line op lhs' rhs') fun _ h => ⟨h.1.2, h.2⟩
  | role, .conditional n test thenExpr elseExpr, h, _, hrole => by
    refine .bind (expr_settles .condition test h.1 fun _ _ => trivial) fun test' => ?_
    refine .bind (expr_settles .value thenExpr h.2.1 fun _ _ => trivial) fun then' => ?_
    refine .bind (expr_settles .value elseExpr h.2.2 fun _ _ => trivial) fun else' => ?_
    exact settle_value_bind (fun w h => hrole w h.1.1.1)
      (conditional_settles n.line test' then' else') fun _ h => ⟨h.1.1.2, h.1.2, h.2⟩

theorem optional_settles :
    ∀ target, TargetWritten target → ∀ {F : Vars → Prop}, SettlesIn fr jumps F (optional target)
        fun w target' => ∀ e ∈ target', e.Settled (fr.over w)
  | some e, h, _ => .bind (expr_settles .selected e h fun _ _ => trivial) fun e' =>
    .pure fun w hw x hx => by cases hx; exact hw.2
  | none, _, _ => .pure fun _ _ => nofun

theorem exprs_settles : ∀ (role : Role) es, AllWritten role.placed es → ∀ {F : Vars → Prop},
      (∀ w, F w → role.Proper) → SettlesIn fr jumps F (exprs role es)
        fun w es' => (∀ e ∈ es', role.Met (fr.over w) e) ∧ es'.length = es.length
  | role, e :: es, h, _, hrole => by
    refine .bind (expr_settles role e h.1 hrole) fun e' => ?_
    refine .bind (exprs_settles role es h.2 fun w h => hrole w h.1) fun es' =>
      .pure fun w hw => ?_
    exact ⟨by simpa using ⟨hw.1.2, hw.2.1⟩, by simp [hw.2.2]⟩
  | _, [], _, _, _ => .pure fun _ _ => ⟨by simp, rfl⟩

end

end Analysis

end JMinusMinus
