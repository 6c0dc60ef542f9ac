import JMinusMinus.Proofs.Parse.Unit

/-!
# Every rule recovers the same way

Each rule of the grammar has a trace, whatever the tokens, since it is made from `require`,
`complain` and steps that touch neither the log nor the state of recovery. So whatever is reported
between two matches of a required kind, at most the first report is a mismatch.

This bounds mismatches only. A rule that reports a problem of its own does so in either state, and
a unit of tokens that start no declaration gets one report for each of them.
-/

namespace JMinusMinus.Grammar

/-- The rule for units is made from steps. -/
theorem compilationUnit_made (file : String) : Made (compilationUnit file) :=
  have hmoves : Moves [] anywhere 0 0 _ _ _ (compilationUnit file) := compilationUnit_moves file
  hmoves.made

/-- The rule for expressions is made from steps. -/
theorem expression_made : Made expression :=
  have hmoves : Low [] anywhere 0 reach .expression expression := .expression
  hmoves.made

/-! ## Stray tokens -/

/-- A parse on a token that starts no declaration. -/
structure State.Stray (s : State) : Prop where
  modifier : Modifier.ofKind? s.cursor.kind = none
  starts : s.cursor.kind ∉ [.kwClass, .kwInterface, .endOfInput]
  left : s.cursor.position < s.size

namespace State

variable {s : State}

/-- What is reported of a token where a declaration should start. -/
def strayProblem (s : State) : SyntaxProblem := .declarationSought s.cursor.token.image

/-- The parse after that report. -/
def strayReported (s : State) : State :=
  { s with recovered := false, log := s.log.add s.cursor.token.line (.syntactic s.strayProblem) }

theorem Stray.modifiers_eq (h : s.Stray) : modifiers s = ([], s) := by
  obtain ⟨bound, hbound⟩ : ∃ bound, s.size - s.cursor.position = bound + 1 :=
    ⟨s.size - s.cursor.position - 1, by have := h.left; omega⟩
  change modifiersWithin (s.size - s.cursor.position) [] s = _
  rw [hbound, modifiersWithin]
  refine (run_bind (rfl : currentKind s = (s.cursor.kind, s))).trans ?_
  rw [h.modifier]
  rfl

theorem Stray.sees_eq (h : s.Stray) (hkind : kind ∈ [.kwClass, .kwInterface, .endOfInput]) :
    sees kind s = (false, s) := by
  have hne : s.cursor.kind ≠ kind := fun heq => h.starts (heq ▸ hkind)
  change (s.cursor.kind == kind, s) = _
  rw [beq_eq_false_iff_ne.2 hne]

theorem Stray.typeDeclaration_traces (h : s.Stray) :
    Traces typeDeclaration s [.reported s.cursor.token.line s.strayProblem] := by
  refine .skip h.modifiers_eq rfl rfl (.skip (h.sees_eq (by decide)) rfl rfl ?_)
  refine .skip (h.sees_eq (by decide)) rfl rfl (.skip rfl rfl rfl ?_)
  exact .bind (.complain s rfl) (.quiet rfl rfl)

theorem Stray.typeDeclaration_eq (h : s.Stray) : typeDeclaration s = (none, s.strayReported) := by
  rw [typeDeclaration, run_bind h.modifiers_eq]
  refine (run_bind (h.sees_eq (by decide))).trans ((run_bind (h.sees_eq (by decide))).trans ?_)
  rfl

theorem Stray.itemsWithin_traces (h : s.Stray)
    (rest : Traces (itemsWithin (fun _ => false) typeDeclaration bound) s.strayReported.next es) :
    Traces (itemsWithin (fun _ => false) typeDeclaration (bound + 1)) s
      (.reported s.cursor.token.line s.strayProblem :: es) := by
  have hend : s.cursor.kind ≠ .endOfInput := fun heq => h.starts (by rw [heq]; decide)
  have hprogress : ensureProgress s.cursor.position s.strayReported =
    ((), s.strayReported.next) := by
    change (if s.cursor.position = s.cursor.position ∧ s.cursor.kind ≠ .endOfInput
      then advance else pure ()) s.strayReported = _
    rw [if_pos ⟨rfl, hend⟩]
    rfl
  refine .skip rfl rfl rfl ?_
  rw [if_neg (by simpa using hend)]
  refine .skip rfl rfl rfl ?_
  refine .andThen h.typeDeclaration_traces h.typeDeclaration_eq ?_
  refine .skip hprogress rfl rfl ?_
  have hlast : Traces (itemsWithin (fun _ => false) typeDeclaration bound >>= fun xs =>
      (pure (none :: xs) : Parser (List (Option TypeDecl)))) s.strayReported.next (es ++ []) :=
    .bind rest (.quiet rfl rfl)
  rwa [List.append_nil] at hlast

end State

/-! ## Parses -/

/-- Between any two reports, the second of a given sort, a required kind is met. -/
def MatchedBetween (p : SyntaxProblem → Bool) (es : List Event) : Prop :=
  ∀ before line problem between line' problem' after,
    es = before ++ .reported line problem :: between ++ .reported line' problem' :: after →
      p problem' = true → ∃ kind, .matched kind ∈ between

/-- A parse has events. Whichever they are, the log is made of their reports, and between a report
and a mismatch that is reported later a required kind is matched. -/
theorem parse_matchedBetween (file : String) (maxDepth : Nat) (tokens : List Token)
    (log : Log Problem) :
    ((∃ es, Traces (compilationUnit file) (start tokens log maxDepth) es) ∧
      ∀ es, Traces (compilationUnit file) (start tokens log maxDepth) es →
        (parseUnit file maxDepth tokens log).2 = logAfter log es ∧
          MatchedBetween SyntaxProblem.isMismatch es) ∧
    ((∃ es, Traces expression (start tokens log maxDepth) es) ∧
      ∀ es, Traces expression (start tokens log maxDepth) es →
        (parseExpr maxDepth tokens log).2 = logAfter log es ∧
          MatchedBetween SyntaxProblem.isMismatch es) := by
  refine ⟨⟨(compilationUnit_made file).traces _, fun es h => ⟨h.log_eq, ?_⟩⟩,
    ⟨expression_made.traces _, fun es h => ⟨h.log_eq, ?_⟩⟩⟩
  · exact fun _ _ _ _ _ _ _ => h.orderly.matched_between
  · exact fun _ _ _ _ _ _ _ => h.orderly.matched_between

/-- Two numbers, where a declaration must start. -/
def strayTokens : List Token :=
  [{ kind := .intLiteral, lexeme := "1" }, { kind := .intLiteral, lexeme := "1" }]

theorem strayTokens_traces : Traces (compilationUnit "T.java") (start strayTokens {} 64)
    [.reported 1 (.declarationSought "1"), .reported 1 (.declarationSought "1"),
      .matched .endOfInput] := by
  have hitems : Traces (itemsUntil (fun _ => false) typeDeclaration) (start strayTokens {} 64)
      [.reported 1 (.declarationSought "1"), .reported 1 (.declarationSought "1")] := by
    refine .skip rfl rfl rfl ?_
    refine State.Stray.itemsWithin_traces ⟨rfl, by decide, by decide⟩ ?_
    exact State.Stray.itemsWithin_traces ⟨rfl, by decide, by decide⟩ (.quiet rfl rfl)
  refine .skip rfl rfl rfl (.skip rfl rfl rfl (.skip rfl rfl rfl (.skip rfl rfl rfl ?_)))
  exact .bind hitems (.bind (.require .endOfInput _) (.quiet rfl rfl))

/-- Problems that are no mismatch are reported without a match between them. -/
theorem not_all_matchedBetween : ¬ ∀ tokens es,
    Traces (compilationUnit "T.java") (start tokens {} 64) es →
      MatchedBetween (fun _ => true) es := by
  intro h
  obtain ⟨kind, hkind⟩ := h _ _ strayTokens_traces [] _ _ [] _ _ [.matched .endOfInput] rfl rfl
  cases hkind

end JMinusMinus.Grammar
