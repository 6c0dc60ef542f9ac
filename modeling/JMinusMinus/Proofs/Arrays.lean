import JMinusMinus.Proofs.Agree.Expr
import JMinusMinus.Proofs.Parts

/-!
# Elements in braces

Elements in braces are one form of expression, with a written type in front of them or without
one. Analysis takes the type of their array from what is written, resolved, except where they are a
first value: there it is the type of the variable or of the element, whatever is written
(`Role.arrayType`).

In either case the elements are analyzed as first values of the component type, and the array has
the very type that it was given (`arrayInit_silent`). So an array with a written type is held to it,
like any other value of that type, in every place but that of a first value.
-/

namespace JMinusMinus

/-- What an array type is an array of, `any` for other types. -/
def Ty.component : Ty → Ty
  | .array t => t
  | _ => .any

/-- A written type with its names resolved, `any` if one of them is unknown. -/
def Context.resolved (c : Context) : Ty → Ty
  | .named name => ((c.resolveClass? name).map Ty.ofClass).getD .any
  | .array component =>
    match c.resolved component with
    | .any => .any
    | t => .array t
  | t => t

namespace Analysis

variable {line : Nat} {c c' : Context} {t t' : Ty}

theorem resolveType_run (line : Nat) (c : Context) :
    ∀ t : Ty, ∃ new, resolveType line t c = .ok (c.resolved t, c.logged new)
  | .named name => by
    have hget : (get : Analysis Context) c = .ok (c, c) := rfl
    rw [resolveType, bind_run hget, Context.resolved]
    cases c.resolveClass? name with
    | some internal => exact ⟨[], rfl⟩
    | none => exact ⟨[⟨line, .semantic (.typeUnknown name)⟩], rfl⟩
  | .array component => by
    obtain ⟨new, hrun⟩ := resolveType_run line c component
    refine ⟨new, ?_⟩
    rw [resolveType, bind_run hrun, Context.resolved]
    cases c.resolved component <;> rfl
  | .int | .long | .double | .boolean | .char | .string | .void | .null | .any => ⟨[], rfl⟩

theorem resolveType_silent (hrun : resolveType line t c = .ok (t', c'))
    (hlog : c'.log.latest = []) : t' = c.resolved t ∧ c' = c := by
  obtain ⟨new, heq⟩ := resolveType_run line c t
  rw [heq] at hrun
  cases hrun
  obtain rfl : new = [] := (List.append_eq_nil_iff.1 hlog).1
  exact ⟨rfl, rfl⟩

theorem report_not_silent (hrun : report line problem c = .ok (x, c')) : c'.log.latest ≠ [] := by
  cases hrun
  exact List.cons_ne_nil _ _

theorem componentType_silent (hrun : componentType line t c = .ok (t', c'))
    (hlog : c'.log.latest = []) : t' = t.component ∧ c' = c ∧
      (t = .array t.component ∨ t = .any) := by
  unfold componentType at hrun
  split at hrun
  · cases hrun
    exact ⟨rfl, rfl, .inl rfl⟩
  · cases hrun
    exact ⟨rfl, rfl, .inr rfl⟩
  · obtain ⟨x, c₁, hreport, hpure⟩ := runs_of_bind hrun
    cases hpure
    exact absurd hlog (report_not_silent hreport)

theorem settle_silent {role : Role} (hrun : role.settle e c = .ok (e', c'))
    (hlog : c'.log.latest = []) (hty : e.ty = .array t ∨ e.ty = .any)
    (hrole : ∀ u, role = .initial u → e.ty = u) : e' = e ∧ c' = c := by
  cases role with
  | value | selected =>
    cases hrun
    exact ⟨rfl, rfl⟩
  | condition | index =>
    rcases hty with hty | hty
    · simp only [Role.settle, hty] at hrun
      obtain ⟨x, c₁, hreport, hpure⟩ := runs_of_bind hrun
      cases hpure
      exact absurd hlog (report_not_silent hreport)
    · simp only [Role.settle, hty] at hrun
      cases hrun
      exact ⟨rfl, rfl⟩
  | initial u =>
    simp only [Role.settle, coerce, hrole u rfl, decide_true, Bool.true_or, if_true] at hrun
    cases hrun
    exact ⟨rfl, rfl⟩

/-- Elements in braces that are analyzed without a report have the type they were given. -/
theorem arrayInit_silent (hrole : ∀ u, role = .initial u → c.resolved u = u)
    (hrun : expr role (.arrayInit n t es) c = .ok (e, c')) (hlog : c'.log.latest = []) :
    ∃ type es', type = c.resolved (role.arrayType t) ∧
      (type = .array type.component ∨ type = .any) ∧
      exprs (.initial type.component) es c = .ok (es', c') ∧
      e = .arrayInit (typed n.line type) type es' := by
  obtain ⟨type, c₁, htype, hrest⟩ := runs_of_bind hrun
  obtain ⟨k, c₂, hk, hrest⟩ := runs_of_bind hrest
  obtain ⟨es', c₃, hes, hsettle⟩ := runs_of_bind hrest
  have hquiet₃ : c₃.log.latest = [] := (settle_agrees role _).quiet (.refl _) hsettle hlog
  have hquiet₂ : c₂.log.latest = [] := (exprs_agrees _ es).quiet (.refl _) hes hquiet₃
  obtain ⟨rfl, rfl, hshape⟩ := componentType_silent hk hquiet₂
  obtain ⟨rfl, rfl⟩ := resolveType_silent htype hquiet₂
  have hplace : ∀ u, role = .initial u → c₂.resolved (role.arrayType t) = u := by
    rintro u rfl
    exact hrole u rfl
  obtain ⟨rfl, rfl⟩ := settle_silent hsettle hlog hshape hplace
  exact ⟨_, es', rfl, hshape, hes, rfl⟩

end Analysis

/-- Elements in braces that are analyzed without a report become an array of the written type,
resolved, or of the type of the variable or element that they are the first value of, and there the
written type does not matter. In the tree of an accepted source each of them has a type that says
so, its elements fit what it is an array of, and it fits its place. -/
theorem accepted_arrayInit {file : String} {maxDepth : Nat} {source : String} {a : Analyzed}
    (h : Accepted file maxDepth source a) :
    (∀ role n t es c e c', (∀ u, role = .initial u → c.resolved u = u) →
      Analysis.expr role (.arrayInit n t es) c = .ok (e, c') → c'.log.latest = [] →
      ∃ type es', type = c.resolved (role.arrayType t) ∧
        (type = .array type.component ∨ type = .any) ∧
        Analysis.exprs (.initial type.component) es c = .ok (es', c') ∧
        e = .arrayInit (Analysis.typed n.line type) type es') ∧
    (∀ u n t t' es, Analysis.expr (.initial u) (.arrayInit n t es) =
      Analysis.expr (.initial u) (.arrayInit n t' es)) ∧
    (∀ n t es, a.unit.HasExpr (.arrayInit n t es) →
      n.ty = some t ∧ t = .array t.component ∧ ∀ e ∈ es, e.Fits a.hierarchy t.component) ∧
    a.Settled := by
  have hsettled := analyze_settled (Grammar.parseSource_written h.parsed) h.analyzed h.silent
  refine ⟨fun role n t es c e c' => Analysis.arrayInit_silent, fun _ _ _ _ _ => rfl, ?_, hsettled⟩
  intro n t es he
  obtain ⟨fr, hh, -, hnode⟩ := hsettled.expr he
  obtain ⟨k, hty, rfl, -, helements⟩ := hnode.node.form
  exact ⟨hty, rfl, fun e he => hh ▸ (helements e he).2⟩

/-- A variable whose first value is an array that does not fit it, by the type written for it. -/
def widenedSource : String :=
  "class T \x7b void m() \x7b long[] a = new int[] \x7b 1 \x7d; \x7d \x7d"

theorem accepts_widenedSource : accepts "T.java" 64 widenedSource := by decide +kernel

theorem widenedSource_accepted : accepts "T.java" 64 widenedSource ∧
    ∀ h : Hierarchy, h.isAssignable (.array .int) (.array .long) = false :=
  ⟨accepts_widenedSource, fun _ => rfl⟩

theorem accepted_arrayInit_widened : ∃ a, Accepted "T.java" 64 widenedSource a ∧
    ∀ n t es, a.unit.HasExpr (.arrayInit n t es) → n.ty = some t := by
  obtain ⟨a, ha⟩ := exists_accepted accepts_widenedSource
  exact ⟨a, ha, fun n t es he => ((accepted_arrayInit ha).2.2.1 n t es he).1⟩

end JMinusMinus
