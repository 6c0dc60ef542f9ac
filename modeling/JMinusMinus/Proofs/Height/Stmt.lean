import JMinusMinus.Proofs.Height.Expr

/-!
# Heights of analyzed statements

A statement stays one node, and each of its expressions gets at most one conversion. So a tree of
statements is stretched as its expressions are (`Lows`).
-/

namespace JMinusMinus.Analysis

variable {q : Prop} {look : String → Option LocalVar}

/-- A tree with a value as in `Stmt.rank` and what becomes of it, which is no higher than what
becomes of an expression of its height and its names. -/
def Lows {α : Type} (rank : (Nat → Nat) → (Expr → Nat) → α → Nat) (a a' : α) : Prop :=
  ∀ words n, 1 ≤ words → rank (· + 1) Expr.height a ≤ n → rank id Expr.longestName a ≤ words →
    rank (· + 1) Expr.height a' ≤ stretch words n

theorem lows_node {s s' : Stmt} (h : ∀ words n, 1 ≤ words → s.rank (· + 1) Expr.height ≤ n + 1 →
    s.rank id Expr.longestName ≤ words → s'.rank (· + 1) Expr.height ≤ stretch words n + 1) :
    Lows Stmt.rank s s' := by
  intro words n hwords hh hw
  obtain ⟨n, rfl⟩ : ∃ m, n = m + 1 :=
    Nat.exists_eq_succ_of_ne_zero (Nat.ne_of_gt (Nat.lt_of_lt_of_le s.height_pos hh))
  refine Nat.le_trans (h words n hwords hh hw) ?_
  unfold stretch
  omega

/-- A statement without parts. -/
theorem bare_lows {s s' : Stmt} (h : s'.rank (· + 1) Expr.height = 1 := by rfl) :
    Lows Stmt.rank s s' :=
  lows_node fun _ _ _ _ _ => Nat.le_trans (Nat.le_of_eq h) (Nat.le_add_left 1 _)

theorem turns_lows (h : List.Forall₂ (Turns look q) es es') :
    Lows (fun _ leaf => peak leaf) es es' := by
  intro words n hwords hh hw
  refine peak_le_iff.2 fun e' he' => ?_
  obtain ⟨e, he, hturns⟩ := exists_of_mem_forall₂ h he'
  exact hturns.height hwords ⟨peak_le_iff.1 hh e he, peak_le_iff.1 hw e he⟩

theorem labels_lows (h : List.Forall₂ (LabelTurns look q) ls ls') :
    Lows (fun _ leaf ls => peak leaf (ls.filterMap SwitchLabel.expr?)) ls ls' := by
  intro words n hwords hh hw
  refine peak_le_iff.2 fun e' he' => ?_
  obtain ⟨l', hl', he'⟩ := List.mem_filterMap.1 he'
  obtain ⟨l, hl, hturns⟩ := exists_of_mem_forall₂ h hl'
  cases l' with
  | otherwise => cases he'
  | case e' =>
    cases he'
    cases l with
    | otherwise => cases hturns
    | case e =>
      have he : e ∈ ls.filterMap SwitchLabel.expr? := List.mem_filterMap.2 ⟨_, hl, rfl⟩
      exact Turns.height hwords hturns ⟨peak_le_iff.1 hh e he, peak_le_iff.1 hw e he⟩

/-- First values of variables. -/
theorem inits_lows {ds ds' : List Declarator} (h : ∀ d' ∈ ds', ∃ d ∈ ds, ∃ look,
    List.Forall₂ (Turns look q) d.init.toList d'.init.toList) :
    Lows (fun _ leaf ds => peak leaf (ds.filterMap Declarator.init)) ds ds' := by
  intro words n hwords hh hw
  refine peak_le_iff.2 fun e' he' => ?_
  obtain ⟨d', hd', he'⟩ := List.mem_filterMap.1 he'
  obtain ⟨d, hd, _, hturns⟩ := h d' hd'
  obtain ⟨e, he, hturns⟩ := exists_of_mem_forall₂ hturns (Option.mem_toList.2 he')
  have he := List.mem_filterMap.2 ⟨d, hd, Option.mem_toList.1 he⟩
  exact hturns.height hwords ⟨peak_le_iff.1 hh e he, peak_le_iff.1 hw e he⟩

end JMinusMinus.Analysis
