import JMinusMinus.Proofs.Height.Basic
import JMinusMinus.Proofs.Scope.Expr

/-!
# Heights of analyzed trees

Analysis puts at most one conversion between a node and each of its children, which at most doubles
the height of a tree. A dotted name becomes a chain of selections, one for each word. A name has
nothing below it, so what a chain adds is added once (`Made.height`).

Nothing is said about the log, so this holds of wrong units too.
-/

namespace JMinusMinus.Analysis

variable {words n : Nat} {e e' m : Expr} {look : String → Option LocalVar}

/-- The bound on an analyzed expression, of which `n` bounds the height and `words` the names. -/
def stretch (words n : Nat) : Nat := 2 * n + words

/-- An expression of limited height whose names have a limited number of words. -/
def Within (words n : Nat) (e : Expr) : Prop := e.height ≤ n ∧ e.longestName ≤ words

theorem Within.child {c : Expr} (h : Within words (n + 1) e) (hc : c ∈ e.children) :
    Within words n c :=
  ⟨Expr.height_le_succ_iff.1 h.1 c hc, (Expr.longestName_le_iff.1 h.2).2 c hc⟩

theorem Within.succ (h : Within words n e) : ∃ m, n = m + 1 :=
  Nat.exists_eq_succ_of_ne_zero (Nat.ne_of_gt (Nat.lt_of_lt_of_le e.height_pos h.1))

/-- Each word of a dotted name that is selected adds one to the height. -/
theorem Selected.height {base : Expr} {k : Nat} (h : Selected base k e) :
    e.height = base.height + k := by
  induction h with
  | base => rfl
  | field _ _ _ _ ih | arrayLength _ _ ih => rw [Expr.height, ih, Nat.add_assoc]

/-- A conversion adds one at most. -/
theorem Converts.height (h : Converts e e') : e'.height ≤ e.height + 1 := by
  rcases h with rfl | ⟨t, rfl⟩
  · exact Nat.le_succ _
  · exact Nat.le_refl _

theorem Named.height (h : Named look line segments e) : e.height ≤ segments.length + 1 := by
  cases h with
  | declared _ he =>
    rw [he.height, Expr.height, List.length_cons]
    omega
  | @other _ base _ k _ hbase hk he =>
    have hone : base.height = 1 := by
      cases base with
      | thisRef | typeName | wild => rfl
      | _ => cases hbase
    rw [he.height, hone]
    omega

/-- What is made of an expression leaves room for a conversion. -/
theorem Made.height (hwords : 1 ≤ words) (h : Made look e m) (hin : Within words n e) :
    m.height + 1 ≤ stretch words n := by
  induction e using Expr.childrenInduction generalizing m n with
  | step e ih =>
    obtain ⟨n, rfl⟩ := hin.succ
    have hleaf : 1 + 1 ≤ stretch words (n + 1) := by
      unfold stretch
      omega
    cases h with
    | name hnamed =>
      have hlength := (Expr.longestName_le_iff.1 hin.2).1
      have := hnamed.height
      simp only [Expr.nameLength] at hlength
      unfold stretch
      omega
    | literal | negated | thisRef | superRef | wild => exact hleaf
    | raw =>
      have := hin.1
      unfold stretch
      omega
    | node _ hmade hparts hfront hchildren =>
      have hnode : m.height ≤ stretch words n + 1 := by
        refine Expr.height_le_succ_iff.2 fun c hc => ?_
        rw [hchildren] at hc
        rcases List.mem_append.1 hc with hc | hc
        · rcases hfront with rfl | ⟨_, rfl⟩
          · cases hc
          · obtain rfl := List.mem_singleton.1 hc
            exact Nat.le_add_left_of_le hwords
        · obtain ⟨mid, hmid, hconverts⟩ := exists_of_mem_forall₂ hparts hc
          obtain ⟨w, hw, hmade⟩ := exists_of_mem_forall₂ hmade hmid
          exact Nat.le_trans hconverts.height (ih w hw hmade (hin.child hw))
      unfold stretch at *
      omega

theorem Turns.height {q : Prop} (hwords : 1 ≤ words) (h : Turns look q e e')
    (hin : Within words n e) : e'.height ≤ stretch words n := by
  obtain ⟨m, hm, hconverts⟩ := h
  exact Nat.le_trans hconverts.height (hm.1.height hwords hin)

end JMinusMinus.Analysis
