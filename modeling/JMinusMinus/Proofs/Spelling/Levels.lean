import Mathlib
import JMinusMinus.Proofs.Spelling.Loops

/-!
# From one level to the next

Each level has a rule (`Rules.ruleAt`). The rules of eleven levels run in a loop, which they enter
by the rule of the next level (`Rules.entry`, `Rules.loop`).

`Reads R p i e` says that at a place of the level `p` the tokens `i` are read as the tree `e`. A
rule with a loop has then read them so far, and the next token may be another operator of its level.
Any other rule is done. In either case what comes next may not bind tighter (`Stops`).

Tokens that are read at a level are read the same way at every looser level (`Reads.looser`). The
one step that looks at the tokens themselves is from an operand to the operators before it: there
the tokens must start neither with such an operator nor with a cast (`StartsOperand`).
-/

namespace JMinusMinus

/-- One more than the level at which a kind continues what stands before it, zero if it does not. -/
def Kind.tightness : Kind → Nat
  | .assign | .addAssign | .subAssign | .mulAssign | .divAssign | .modAssign | .andAssign
  | .orAssign | .xorAssign | .shiftLeftAssign | .shiftRightAssign | .shiftRightUnsignedAssign => 1
  | .question => 2
  | .pipePipe => 3
  | .ampAmp => 4
  | .pipe => 5
  | .caret => 6
  | .amp => 7
  | .equal | .notEqual => 8
  | .less | .lessEqual | .greater | .greaterEqual | .kwInstanceOf => 9
  | .shiftLeft | .shiftRight | .shiftRightUnsigned => 10
  | .plus | .minus => 11
  | .star | .slash | .percent => 12
  | .increment | .decrement => 14
  | .dot | .leftBracket => 15
  | .leftParen => 16
  | _ => 0

namespace Grammar

variable {p q line : Nat} {i j r : List Token} {e : Expr} {R : Rules}

/-- Tokens that do not continue an expression at a place of a level. -/
structure Stops (p : Nat) (r : List Token) : Prop where
  ne_nil : r ≠ []
  tightness : (ahead r).tightness ≤ p

theorem Stops.mono (h : Stops p r) (hle : p ≤ q) : Stops q r :=
  ⟨h.ne_nil, Nat.le_trans h.tightness hle⟩

theorem Stops.ne {k : Kind} (h : Stops p r) (hk : p < k.tightness) : ahead r ≠ k := by
  rintro rfl
  exact absurd h.tightness (Nat.not_le_of_gt hk)

theorem Stops.cons {t : Token} {k : Kind} (hk : t.kind = k) (hle : k.tightness ≤ p) :
    Stops p (t :: r) := ⟨List.cons_ne_nil _ _, by rw [ahead, hk]; exact hle⟩

/-- A name is not followed by a point. -/
def Clear (e : Expr) (r : List Token) : Prop :=
  ∀ n segments, e = .name n segments → ahead r ≠ .dot

theorem Stops.clear (h : Stops p r) (hp : p ≤ 14) : Clear e r := fun _ _ _ =>
  h.ne (Nat.lt_succ_of_le hp)

/-! ## The rule of a level -/

/-- The operators of a level that groups to the left. -/
def operatorsAt : Nat → List (Kind × BinaryOp)
  | 2 => [(.pipePipe, .logicalOr)]
  | 3 => [(.ampAmp, .logicalAnd)]
  | 4 => [(.pipe, .bitOr)]
  | 5 => [(.caret, .bitXor)]
  | 6 => [(.amp, .bitAnd)]
  | 7 => [(.equal, .eq), (.notEqual, .ne)]
  | 9 => [(.shiftLeft, .shl), (.shiftRight, .shr), (.shiftRightUnsigned, .ushr)]
  | 10 => [(.plus, .add), (.minus, .sub)]
  | 11 => [(.star, .mul), (.slash, .div), (.percent, .rem)]
  | _ => []

theorem tightness_of_mem_operatorsAt : ∀ x ∈ operatorsAt p, x.1.tightness = p + 1 := by
  unfold operatorsAt
  split <;> first | decide | simp

theorem Stops.lookup (h : Stops p r) : (operatorsAt p).lookup (ahead r) = none := by
  cases hop : (operatorsAt p).lookup (ahead r) with
  | none => rfl
  | some op =>
    obtain ⟨l₁, l₂, hl, -⟩ := List.lookup_eq_some_iff.1 hop
    have hmem : (ahead r, op) ∈ operatorsAt p := by simp [hl]
    have htight : (ahead r).tightness = p + 1 := tightness_of_mem_operatorsAt _ hmem
    exact absurd h.tightness (by omega)

namespace Rules

/-- The rule for a place of a level up to 13. -/
def ruleAt (R : Rules) : Nat → Parser Expr
  | 0 => R.expressionRule
  | 1 => R.conditionalRule
  | 2 => R.binaryFrom looseLevels
  | 3 => R.binaryFrom (looseLevels.drop 1)
  | 4 => R.binaryFrom (looseLevels.drop 2)
  | 5 => R.binaryFrom (looseLevels.drop 3)
  | 6 => R.binaryFrom (looseLevels.drop 4)
  | 7 => R.binaryFrom (looseLevels.drop 5)
  | 8 => R.relational
  | 9 => R.shift
  | 10 => R.additive
  | 11 => R.multiplicative
  | 12 => R.unaryRule
  | _ => R.postfixed

/-- Up to the selections of a primary. -/
def selecting (R : Rules) : Parser (Expr × Nat) :=
  R.primary >>= fun e => remaining >>= fun n => R.selections n 0 e

/-- What the rule of a level starts with, up to its loop. -/
def entry (R : Rules) (line : Nat) : Nat → Parser (Expr × Nat)
  | 13 => R.selecting >>= fun x => remaining >>= fun n => postfixSteps line n x.2 x.1
  | 14 => R.selecting
  | p => R.ruleAt (p + 1) >>= fun lhs =>
    remaining >>= fun n => chain (operatorsAt p) (R.ruleAt (p + 1)) line n 0 lhs

/-- The loop of a level. -/
def loop (R : Rules) (line : Nat) : Nat → Nat → Nat → Expr → Parser (Expr × Nat)
  | 13 => postfixSteps line
  | 14 => R.selections
  | p => chain (operatorsAt p) (R.ruleAt (p + 1)) line

end Rules

/-- The levels whose rules run in a loop. -/
def isLoop : Nat → Bool
  | 0 | 1 | 8 | 12 => false
  | _ => true

theorem ruleAt_eq_loop (hp : p ≤ 13) (hloop : isLoop p = true) :
    R.ruleAt p = currentLine >>= fun line => R.entry line p >>= fun x =>
      ascend x.2 >>= fun _ => pure x.1 := by
  interval_cases p <;> first | contradiction | skip
  all_goals simp only [Rules.entry, bind_assoc, Rules.selecting]; rfl

/-- At a place of a level, tokens are read as a tree. -/
def Reads (R : Rules) (p : Nat) (i : List Token) (e : Expr) : Prop :=
  if isLoop p then
    ∀ line r, Stops (p + 1) r → Clear e r → Enters (R.entry line p) (R.loop line p) i e r
  else ∀ r, Stops p r → Takes (R.ruleAt p) i e r

/-! ## The end of a loop -/

theorem chain_ends {ops : List (Kind × BinaryOp)} {operand : Parser Expr}
    (h : ops.lookup (ahead r) = none) : Ends (chain ops operand line) r := by
  intro bound d e
  have hoperator : Passes 0 (acceptOperator ops) r none r := by
    refine .currentKind ?_
    rw [h]
    exact .pure
  exact .bind hoperator .pure

theorem selections_ends (hdot : ahead r ≠ .dot) (hbracket : ahead r ≠ .leftBracket) :
    Ends R.selections r := by
  intro bound d e
  refine .look (fun i => ahead i == .dot) (fun _ => rfl) ?_
  refine .look (fun i => ahead i == .leftBracket) (fun _ => rfl) ?_
  rw [if_neg (by simp [hdot, hbracket])]
  exact .pure

theorem postfixSteps_ends (hdec : ahead r ≠ .decrement) (hinc : ahead r ≠ .increment) :
    Ends (Rules.postfixSteps line) r := by
  intro bound d e
  refine .look (fun i => ahead i == .decrement) (fun _ => rfl) ?_
  refine .look (fun i => ahead i == .increment) (fun _ => rfl) ?_
  rw [if_neg (by simp [hdec, hinc])]
  exact .pure

theorem loop_ends (hp : p ≤ 14) (h : Stops p r) : Ends (R.loop line p) r := by
  unfold Rules.loop
  split
  · exact postfixSteps_ends (h.ne (by decide)) (h.ne (by decide))
  · exact selections_ends (h.ne (by decide)) (h.ne (by decide))
  · exact chain_ends h.lookup

/-! ## What a level reads -/

theorem Takes.currentLine {f : Nat → Parser Expr} (h : ∀ line, Takes (f line) i e r) :
    Takes (currentLine >>= f) i e r := by
  obtain ⟨levels, e', he, h⟩ := h (firstLine (i ++ r))
  exact ⟨levels, e', he, .currentLine h⟩

theorem Takes.nested {x : Parser Expr} {fallback : Expr} (h : Takes x i e r) :
    Takes (nested fallback x) i e r := by
  obtain ⟨levels, e', he, h⟩ := h
  exact ⟨levels + 1, e', he, .nested h⟩

/-- Before a token that binds looser, the rule of a level is done. -/
theorem Reads.takes (h : Reads R p i e) (hp : p ≤ 13) (hr : Stops p r) :
    Takes (R.ruleAt p) i e r := by
  unfold Reads at h
  split at h
  · next hloop =>
    rw [ruleAt_eq_loop hp hloop]
    refine .currentLine fun line => ?_
    have hentry := h line r (hr.mono (Nat.le_succ p)) (hr.clear (Nat.le_succ_of_le hp))
    exact hentry.finish (loop_ends (Nat.le_succ_of_le hp) hr) hr.ne_nil
  · exact h r hr

/-- Kinds of operators before an operand. -/
def isSign (k : Kind) : Bool :=
  k ∈ [Kind.increment, .decrement, .minus, .plus, .tilde, .bang]

/-- Tokens that start like an operand without operators before it. -/
structure StartsOperand (i : List Token) : Prop where
  sign : ∀ r, isSign (ahead (i ++ r)) = false
  cast : ∀ r, Lookahead.startsCast (i ++ r) = false

theorem unaryRule_takes (h : Takes R.postfixed i e r) (hi : StartsOperand i) :
    Takes R.unaryRule i e r := by
  obtain ⟨levels, e', he, h⟩ := h
  have hnot {k : Kind} (hk : isSign k = true) : ahead (i ++ r) ≠ k := fun heq => by
    rw [← heq, hi.sign r] at hk
    contradiction
  refine ⟨levels + 1, e', he, .currentLine (.nested ?_)⟩
  refine .unaccepted (hnot (by decide)) (.unaccepted (hnot (by decide)) ?_)
  refine .unaccepted (hnot (by decide)) (.unaccepted (hnot (by decide)) ?_)
  refine .currentLine (.unaccepted (hnot (by decide)) (.unaccepted (hnot (by decide)) ?_))
  refine .upcoming ?_
  rw [hi.cast r]
  exact h

theorem relational_takes (h : Takes R.shift i e r) (hr : Stops 8 r) : Takes R.relational i e r := by
  obtain ⟨levels, e', he, h⟩ := h
  have hoperator : Passes levels (acceptOperator
      [(.greater, .gt), (.lessEqual, .le), (.greaterEqual, .ge), (.less, .lt)]) r none r := by
    have hne {k : Kind} (hk : 8 < k.tightness) : (ahead r == k) = false :=
      beq_eq_false_iff_ne.2 (hr.ne hk)
    refine .currentKind ?_
    simp only [List.lookup, hne (k := .greater) (by decide), hne (k := .lessEqual) (by decide),
      hne (k := .greaterEqual) (by decide), hne (k := .less) (by decide)]
    exact .pure
  refine ⟨levels, e', he, .currentLine (.bind h (.unaccepted (hr.ne (by decide)) ?_))⟩
  exact .bind hoperator .pure

theorem conditionalRule_takes (h : Takes (R.binaryFrom Rules.looseLevels) i e r) (hr : Stops 1 r) :
    Takes R.conditionalRule i e r := by
  obtain ⟨levels, e', he, h⟩ := h
  exact ⟨levels, e', he, .currentLine (.bind h (.unaccepted (hr.ne (by decide)) .pure))⟩

theorem assignOf?_of_tightness {k : Kind} (h : k.tightness = 0) : Rules.assignOf? k = none := by
  unfold Rules.assignOf?
  split <;> first | rfl | simp [Kind.tightness] at h

theorem expressionRule_takes (h : Takes R.conditionalRule i e r) (hr : Stops 0 r) :
    Takes R.expressionRule i e r := by
  refine .currentLine fun line => .nested (.currentLine fun _ => ?_)
  obtain ⟨levels, e', he, h⟩ := h
  refine ⟨levels, e', he, .bind h (.currentKind ?_)⟩
  rw [assignOf?_of_tightness (Nat.le_zero.1 hr.tightness)]
  exact .pure

/-- What is read at a level is read at the level before it. -/
theorem Reads.pred (h : Reads R (p + 1) i e) (hp : p ≤ 13) (hi : p = 12 → StartsOperand i) :
    Reads R p i e := by
  have htakes {r : List Token} (hlt : p < 13) (hr : Stops (p + 1) r) :
      Takes (R.ruleAt (p + 1)) i e r :=
    h.takes hlt hr
  interval_cases p
  case «0» => exact fun r hr => expressionRule_takes (htakes (by decide) (hr.mono (by decide))) hr
  case «1» => exact fun r hr => conditionalRule_takes (htakes (by decide) (hr.mono (by decide))) hr
  case «8» => exact fun r hr => relational_takes (htakes (by decide) (hr.mono (by decide))) hr
  case «12» => exact fun r hr => unaryRule_takes (htakes (by decide) (hr.mono (by decide))) (hi rfl)
  case «13» =>
    intro line r hr _
    exact (h line r (hr.mono (by decide)) (hr.clear (by decide))).next
      (selections_ends (hr.ne (by decide)) (hr.ne (by decide))) hr.ne_nil
  all_goals exact fun line r hr _ => .start (htakes (by decide) hr)

/-- What is read at a level is read at every looser level. -/
theorem Reads.looser (h : Reads R q i e) (hq : q ≤ 14) (hpq : p ≤ q)
    (hi : p ≤ 12 → 12 < q → StartsOperand i) : Reads R p i e := by
  induction hpq using Nat.decreasingInduction with
  | self => exact h
  | of_succ k hk ih =>
    refine (ih fun hle hlt => hi (by omega) hlt).pred (by omega) ?_
    rintro rfl
    exact hi (Nat.le_refl _) hk

end Grammar

end JMinusMinus
