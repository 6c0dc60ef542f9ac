import JMinusMinus.Lowering.Expr
import JMinusMinus.Proofs.Parts

/-!
# Static code

Static methods and the first values of static fields have no current object. Their trees do not
mention it, and nothing makes the code of a call fall back on it: a call without a target means a
static method, so the code of a receiver is that of a target that is there (`Lowering.explicit`).
-/

namespace JMinusMinus

/-- The code of a target that is there. -/
def Lowering.explicit (h : Hierarchy) (isStatic : Bool) (target : Option Expr) : Lowering Unit :=
  target.elim (pure ()) (expr h (if isStatic then .discarded else .value))

theorem Lowering.receiver_eq_explicit {h : Hierarchy} {isStatic : Bool} {target : Option Expr}
    (htarget : target = none → isStatic) : receiver h isStatic target =
      explicit h isStatic target := by
  cases target with
  | none => simp [receiver, explicit, htarget rfl]
  | some e => rfl

/-- Whether a node stands for the current object or calls a constructor on it. -/
def Expr.usesCurrent : Expr → Bool
  | .thisRef _ | .superRef _ | .delegate .. => true
  | _ => false

theorem Expr.Settled.formSettled {e : Expr} (h : e.Settled fr) : e.FormSettled fr :=
  (h e e.mem_nodes_self).form

/-- Static code never touches the current object. It has no node for it. In every member, a
selection of an instance field and a call of an instance method have a target that is no type, and
the code of a call is that of its target, of the arguments, and the call, with no load of the
current object for a target that is missing. -/
theorem accepted_static {file : String} {maxDepth : Nat} {source : String} {a : Analyzed}
    (h : Accepted file maxDepth source a) : ∀ m ∈ a.unit.members, ∀ e, m.Holds e →
    (m.isStatic → e.usesCurrent = false) ∧
    (∀ n target x ref, e = .field n target x ref → ∃ r, ref = some r ∧
      (r.isStatic = false → target.isTypeName = false)) ∧
    ∀ n target x args method, e = .send n target x args method → ∃ r, method = some r ∧
      (r.kind ≠ .static → ∃ t, target = some t ∧ t.isTypeName = false) ∧
      ∀ place, Lowering.expr a.hierarchy place e = place.finish n (do
        Lowering.explicit a.hierarchy (r.kind = .static) target
        Lowering.exprs a.hierarchy args
        Lowering.member (Lowering.invokeOp r.kind) r.owner r.name r.descriptor) := by
  intro m hm e he
  obtain ⟨fr, -, hstatic, -, hsettled⟩ := (analyze_settled (Grammar.parseSource_written h.parsed)
    h.analyzed h.silent).holds hm he
  have hform := hsettled.formSettled
  refine ⟨fun hm => ?_, ?_, ?_⟩
  · rw [hm] at hstatic
    cases e with
    | thisRef n => simp [Expr.FormSettled, hstatic] at hform
    | superRef n => simp [Expr.FormSettled, hstatic] at hform
    | delegate n kind args ctor =>
      obtain ⟨_, _, -, -, hinstance, -⟩ := hform
      cases hstatic.symm.trans hinstance
    | _ => rfl
  · rintro n target x ref rfl
    obtain ⟨r, _, href, -, -, -, -, htarget⟩ := hform
    exact ⟨r, href, htarget.2⟩
  · rintro n target x args method rfl
    obtain ⟨r, _, _, hmethod, -, -, -, -, -, htarget, hmissing, -⟩ := hform
    refine ⟨r, hmethod, fun hinstance => ?_, fun place => ?_⟩
    · cases target with
      | none => exact absurd (hmissing rfl) hinstance
      | some t => exact ⟨t, rfl, (htarget t rfl).2 (decide_eq_false hinstance)⟩
    · have hcode := Lowering.receiver_eq_explicit (h := a.hierarchy) fun hnone =>
        decide_eq_true (hmissing hnone)
      rw [Lowering.expr, hmethod, ← hcode]
      simp [Lowering.resolved]

/-- A static method that calls an instance method on a new object, and a static field. -/
def sharedSource : String :=
  "class T \x7b static int n = T.twice(2); int id(int k) \x7b return k; \x7d " ++
  "static int twice(int k) \x7b return new T().id(k) + k; \x7d \x7d"

theorem accepted_static_shared :
    ∃ a, Accepted "T.java" 64 sharedSource a ∧
      (a.unit.members.filter Member.isStatic).length = 2 ∧
      ∀ m ∈ a.unit.members, m.isStatic → ∀ e, m.Holds e → e.usesCurrent = false := by
  obtain ⟨a, ha⟩ := exists_accepted (by decide +kernel : accepts "T.java" 64 sharedSource)
  have hall : (analyze (Grammar.parseSource "T.java" 64 sharedSource).1
      (Grammar.parseSource "T.java" 64 sharedSource).2).toOption.all fun a =>
        (a.unit.members.filter Member.isStatic).length = 2 := by
    decide +kernel
  rw [ha.analyzed] at hall
  exact ⟨a, ha, of_decide_eq_true hall,
    fun m hm hstatic e he => (accepted_static ha m hm e he).1 hstatic⟩

end JMinusMinus
