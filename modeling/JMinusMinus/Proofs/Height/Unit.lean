import JMinusMinus.Proofs.Faults.Unit
import JMinusMinus.Proofs.Height.Chain

/-!
# Heights of analyzed units

The headers of a unit leave its bodies alone. Analysis then adds a call to each constructor that
starts with none, which is two nodes high. So the height of an analyzed unit is bounded by the
depth limit and by the longest dotted name of the text (`analyze_height`).

The depth limit alone bounds the height of what is parsed (`parse_height_le_square`), but not of
what is analyzed. The words of a name take no level, and each becomes a selection around those
before it (`height_not_bounded_by_depth`).
-/

namespace JMinusMinus

variable {a : Analyzed} {u : CompilationUnit} {ms : List Member} {ss : List Stmt}
  {log : Log Problem} {line maxDepth : Nat} {class_ : String}

open Analysis Grammar

/-- The height of an analyzed unit is at most twice that of the unit and the longest name, whatever
is reported. -/
theorem height_of_analyze {words n : Nat}
    (hwords : 1 ≤ words) (hn : 2 ≤ n) (hh : u.height ≤ n) (hw : u.longestName ≤ words)
    (h : analyze u log = .ok a) : a.unit.height ≤ stretch words n := by
  have hcounted := (analyze_counted (q := False) (fun h : False => h.elim) h nofun).2
  refine CompilationUnit.rank_le_iff.2 fun d hd m' hm' => ?_
  obtain ⟨m, hm, hrank⟩ := hcounted d hd m' hm'
  exact hm.low words n hwords hn (hrank _ _ n hh) (hrank _ _ words hw)

/-- The height of a parsed unit is bounded by the depth limit. -/
theorem parseUnit_height (file : String) (maxDepth : Nat) (tokens : List Token)
    (log : Log Problem) :
    (parseUnit file maxDepth tokens log).1.height ≤ reach maxDepth + 1 := by
  have hstart := start_sound tokens log maxDepth
  exact ((compilationUnit_moves file).run _ hstart (Nat.lt_succ_self _) trivial).low

/-- So is that of a parsed expression. -/
theorem parseExpr_height (maxDepth : Nat) (tokens : List Token) (log : Log Problem) :
    (parseExpr maxDepth tokens log).1.height ≤ reach maxDepth := by
  have hstart := start_sound tokens log maxDepth
  exact ((Moves.expression (P := anywhere)).run _ hstart (Nat.lt_succ_self _) trivial).low

theorem parseSource_height (file : String) (maxDepth : Nat) (source : String) :
    (parseSource file maxDepth source).1.height ≤ reach maxDepth + 1 :=
  parseUnit_height file maxDepth (readTokens source).1 (readTokens source).2

theorem reach_lt_square (q : Nat) : reach q < 16 * ((q + 1) * (q + 1)) := by
  induction q with
  | zero => decide
  | succ q ih =>
    have hsquare : (q + 1 + 1) * (q + 1 + 1) = (q + 1) * (q + 1) + (2 * q + 3) := by
      rw [Nat.succ_mul, Nat.mul_succ]
      omega
    rw [reach]
    omega

/-- The height of everything that is parsed is at most quadratic in the depth limit, whatever the
tokens are and whatever is reported: of the bodies and first values of a unit, and of an expression
that stands alone. -/
theorem parse_height_le_square (file : String) (maxDepth : Nat) (tokens : List Token)
    (log : Log Problem) :
    (∀ d ∈ (parseUnit file maxDepth tokens log).1.types, ∀ m ∈ d.members,
      m.rank (· + 1) Expr.height ≤ 16 * ((maxDepth + 1) * (maxDepth + 1))) ∧
    (parseExpr maxDepth tokens log).1.height ≤ 16 * ((maxDepth + 1) * (maxDepth + 1)) := by
  have hreach := reach_lt_square maxDepth
  constructor
  · exact CompilationUnit.rank_le_iff.1 (Nat.le_trans (parseUnit_height _ _ _ _) hreach)
  · exact Nat.le_trans (parseExpr_height _ _ _) (Nat.le_of_lt hreach)

/-- The height of an analyzed unit is at most a function of the depth limit and the number of words
in the longest dotted name of the text, whatever is reported. -/
theorem analyze_height {file source : String} {maxDepth : Nat} {log : Log Problem} {a : Analyzed}
    (h : analyze (parseSource file maxDepth source).1 log = .ok a) :
    a.unit.height ≤
      2 * (reach maxDepth + 1) + ((parseSource file maxDepth source).1.longestName + 1) :=
  height_of_analyze (Nat.le_add_left 1 _) (Nat.succ_le_succ (reach_pos maxDepth))
    (parseSource_height file maxDepth source) (Nat.le_succ _) h

/-- A text with a long name is accepted at any limit from two levels on, and as high as the name is
long. -/
theorem chainSource_accepted (file : String) (h : 2 ≤ maxDepth) (n : Nat) :
    ∃ a, Accepted file maxDepth (chainSource n) a ∧ n + 2 ≤ a.unit.height := by
  obtain ⟨e, hrun, hheight⟩ := expr_chain n
  have hparsed := chainSource_parsed file h n
  refine ⟨_, ⟨by rw [hparsed]; rfl, by rw [hparsed]; exact analyze_chain hrun, rfl⟩, ?_⟩
  let u : CompilationUnit := ⟨file, none, [], [.classDecl (chainAnalyzed e)]⟩
  have hfield := CompilationUnit.rank_le_iff.1 (Nat.le_refl u.height) (.classDecl (chainAnalyzed e))
    List.mem_cons_self (chainField e) List.mem_cons_self
  exact hheight ▸ peak_le_iff.1 hfield e List.mem_cons_self

/-- The text with a name of two hundred words is within the bound. -/
theorem analyze_height_chain : ∃ a, Accepted "T.java" 2 (chainSource 199) a ∧
    201 ≤ a.unit.height ∧ a.unit.height ≤
      2 * (reach 2 + 1) + ((parseSource "T.java" 2 (chainSource 199)).1.longestName + 1) := by
  obtain ⟨a, haccepted, hheight⟩ := chainSource_accepted "T.java" (Nat.le_refl 2) 199
  exact ⟨a, haccepted, hheight, analyze_height haccepted.analyzed⟩

/-- No bound on the heights of accepted units depends on the depth limit alone: at a limit of two
levels a text with a name that is longer than the bound is accepted. -/
theorem height_not_bounded_by_depth : ¬∃ bound : Nat → Nat, ∀ file maxDepth source a,
    Accepted file maxDepth source a → a.unit.height ≤ bound maxDepth := by
  rintro ⟨bound, hbound⟩
  obtain ⟨a, haccepted, hheight⟩ := chainSource_accepted "T.java" (Nat.le_refl 2) (bound 2)
  have := hbound _ _ _ _ haccepted
  omega

end JMinusMinus
