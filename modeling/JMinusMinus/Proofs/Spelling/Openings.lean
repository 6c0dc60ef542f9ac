import Mathlib
import JMinusMinus.Proofs.Spelling.Levels

/-!
# How expressions start

The words of a tree start with an operator before an operand or with an *opening*: a name, a literal
or a parenthesis (`words_opening`). A tree of a level that takes no such operators starts with an
opening.

A parenthesis could also open a cast. It does not, because what it opens is never a name alone
(`nameOrUnlike`): a name needs no parentheses at any place.
-/

namespace JMinusMinus.Grammar

variable {p : Nat} {i r : List Token} {ws vs : List Lexeme} {e : Expr} {t u v w : Token}

/-- Kinds that an operand starts with. -/
def isOpening : Kind → Bool
  | .identifier | .intLiteral | .longLiteral | .doubleLiteral | .charLiteral | .stringLiteral
  | .kwTrue | .kwFalse | .kwNull | .leftParen => true
  | _ => false

theorem isSign_of_isOpening {k : Kind} (h : isOpening k = true) : isSign k = false := by
  cases k <;> first | rfl | contradiction

/-- Kinds of literals. -/
def literalKinds : List Kind :=
  [.intLiteral, .longLiteral, .doubleLiteral, .charLiteral, .stringLiteral, .kwTrue, .kwFalse,
    .kwNull]

theorem word_mem_literalKinds (value : Literal) : value.word.1 ∈ literalKinds := by
  cases value with
  | boolean b => cases b <;> decide
  | _ => simp [Literal.word, Kind.mark, literalKinds]

theorem literalKinds_open : ∀ k ∈ literalKinds, isOpening k = true ∧ k ≠ .leftParen ∧
    k ≠ .identifier ∧ k.isBasicType = false := by decide

theorem isOpening_word (value : Literal) : isOpening value.word.1 = true :=
  (literalKinds_open _ (word_mem_literalKinds value)).1

/-! ## First words -/

/-- Words that start with an opening, or with a sign if the place allows it. -/
def Opens (p : Nat) (ws : List Lexeme) : Prop :=
  ∃ w vs, ws = w :: vs ∧ (isOpening w.1 = true ∨ isSign w.1 = true ∧ p ≤ 12)

theorem Opens.left (h : Opens e.level e.words) : Opens p (e.wordsAt p ++ vs) := by
  obtain ⟨w, us, hws, hw⟩ := h
  by_cases hlt : e.level < p
  · rw [Expr.wordsAt, Expr.enclosed, if_pos hlt]
    exact ⟨_, _, rfl, .inl rfl⟩
  · rw [Expr.wordsAt, Expr.enclosed, if_neg hlt, hws]
    exact ⟨w, _, rfl, hw.imp_right fun h => ⟨h.1, by omega⟩⟩

theorem Opens.mono {q : Nat} (h : Opens p ws) (hle : q ≤ p) : Opens q ws := by
  obtain ⟨w, us, hws, hw⟩ := h
  exact ⟨w, us, hws, hw.imp_right fun h => ⟨h.1, hle.trans h.2⟩⟩

theorem words_opening (h : e.Plain) : Opens e.level e.words := by
  induction h with
  | literal => exact ⟨_, _, rfl, .inl (isOpening_word _)⟩
  | name => exact ⟨_, _, rfl, .inl rfl⟩
  | call => exact ⟨_, _, rfl, .inl rfl⟩
  | element _ _ ha _ => exact ha.left
  | callOn _ _ ht _ =>
    rw [Expr.words, Expr.targetWords, List.append_assoc]
    exact ht.left
  | binary _ _ hl _ => exact hl.left.mono (BinaryOp.level_le_leftLevel _)
  | instanceOf _ ho => exact ho.left.mono (show 8 ≤ 9 by decide)
  | unary => exact ⟨_, _, rfl, .inr ⟨by cases ‹UnaryOp› <;> rfl, Nat.le_refl _⟩⟩
  | @step _ op _ _ ho =>
    cases op with
    | preInc | preDec => exact ⟨_, _, rfl, .inr ⟨rfl, Nat.le_refl _⟩⟩
    | postInc | postDec => exact ho.left
  | assign _ _ hl _ => exact hl.left.mono (Nat.zero_le 1)
  | conditional _ _ _ hc _ _ => exact hc.left.mono (show 1 ≤ 2 by decide)

/-! ## Parentheses and casts -/

theorem startsCast_of_kind (h : t.kind ≠ .leftParen) : Lookahead.startsCast (t :: r) = false := by
  obtain ⟨kind, lexeme, location⟩ := t
  unfold Lookahead.startsCast
  split <;> first | rfl | simp_all

theorem afterSelections_of_kind (h : t.kind ≠ .dot) :
    Lookahead.afterSelections (t :: r) = some (t :: r) := by
  obtain ⟨kind, lexeme, location⟩ := t
  unfold Lookahead.afterSelections
  split <;> first | rfl | simp_all

theorem afterDims_of_kind (h : t.kind ≠ .leftBracket) :
    Lookahead.afterDims (t :: r) = some (t :: r) := by
  obtain ⟨kind, lexeme, location⟩ := t
  unfold Lookahead.afterDims
  split <;> first | rfl | simp_all

theorem afterDims_of_open (ht : t.kind = .leftBracket) (hu : u.kind ≠ .rightBracket) :
    Lookahead.afterDims (t :: u :: r) = none := by
  obtain ⟨kind, lexeme, location⟩ := t
  obtain ⟨kind', lexeme', location'⟩ := u
  unfold Lookahead.afterDims
  split <;> first | rfl | simp_all

theorem startsCast_of_name (ht : t.kind = .leftParen) (hu : u.kind = .identifier)
    (h : ∀ v l, (Lookahead.afterSelections r).bind Lookahead.afterDims = some (v :: l) →
      v.kind ≠ .rightParen) : Lookahead.startsCast (t :: u :: r) = false := by
  obtain ⟨kind, lexeme, location⟩ := t
  obtain ⟨kind', lexeme', location'⟩ := u
  obtain rfl : kind = .leftParen := ht
  obtain rfl : kind' = .identifier := hu
  rw [Lookahead.startsCast.eq_1]
  split
  · next heq => exact absurd rfl (h _ _ heq)
  · rfl

/-- Words that do not read like a type in parentheses after an opening one. -/
def UnlikeCast (ws : List Lexeme) : Prop :=
  ∀ t i r, t.kind = .leftParen → Spells i ws → Lookahead.startsCast (t :: (i ++ r)) = false

namespace UnlikeCast

theorem append (h : UnlikeCast ws) : UnlikeCast (ws ++ vs) := by
  intro t i r ht hi
  obtain ⟨j, l, rfl, hj, -⟩ := hi.append_inv
  rw [List.append_assoc]
  exact h t j _ ht hj

theorem cons {w : Lexeme} (hname : w.1 ≠ .identifier) (hbasic : w.1.isBasicType = false) :
    UnlikeCast (w :: ws) := by
  intro t i r ht hi
  obtain ⟨u, j, rfl, rfl, -⟩ := hi.cons_inv
  obtain ⟨kind, lexeme, location⟩ := t
  obtain rfl : kind = .leftParen := ht
  obtain ⟨kind, lexeme, location⟩ := u
  rw [List.cons_append, Lookahead.startsCast.eq_2]
  · exact hbasic
  · rintro lexeme location ⟨⟩
    exact hname rfl

variable {x : String} {k : Kind}

/-- A name before what neither selects from it nor closes the parentheses. -/
theorem operator (hk : k ∉ [Kind.dot, .leftBracket, .rightParen]) :
    UnlikeCast (Lexeme.ofName x :: k.mark :: ws) := by
  intro t i r ht hi
  obtain ⟨u, j, rfl, hu, hj⟩ := hi.cons_inv
  obtain ⟨v, l, rfl, hv, -⟩ := hj.cons_inv
  obtain rfl := Token.kind_of_mark hv
  simp only [List.mem_cons, not_or] at hk
  simp only [List.cons_append]
  refine startsCast_of_name ht (Token.kind_of_word hu) fun w l' heq => ?_
  rw [afterSelections_of_kind hk.1, Option.bind_some, afterDims_of_kind hk.2.1] at heq
  obtain ⟨rfl, -⟩ := heq
  exact hk.2.2.1

/-- A name before an index. -/
theorem index {w : Lexeme} (hw : w.1 ≠ .rightBracket) :
    UnlikeCast (Lexeme.ofName x :: Kind.leftBracket.mark :: w :: ws) := by
  intro t i r ht hi
  obtain ⟨u, j, rfl, hu, hj⟩ := hi.cons_inv
  obtain ⟨v, l, rfl, hv, hl⟩ := hj.cons_inv
  obtain ⟨b, l, rfl, rfl, -⟩ := hl.cons_inv
  have hbracket := Token.kind_of_mark hv
  simp only [List.cons_append]
  refine startsCast_of_name ht (Token.kind_of_word hu) fun w l' heq => ?_
  rw [afterSelections_of_kind (by simp [hbracket]), Option.bind_some,
    afterDims_of_open hbracket hw] at heq
  contradiction

/-- A name before a call of one of its members. -/
theorem member {y : String} :
    UnlikeCast (Lexeme.ofName x :: Kind.dot.mark :: Lexeme.ofName y :: Kind.leftParen.mark ::
      ws) := by
  intro t i r ht hi
  obtain ⟨u, j, rfl, hu, hj⟩ := hi.cons_inv
  obtain ⟨v, l, rfl, hv, hl⟩ := hj.cons_inv
  obtain ⟨b, l, rfl, hb, hl⟩ := hl.cons_inv
  obtain ⟨c, l, rfl, hc, -⟩ := hl.cons_inv
  have hparen := Token.kind_of_mark hc
  simp only [List.cons_append]
  refine startsCast_of_name ht (Token.kind_of_word hu) fun w l' heq => ?_
  have hpoint : Lookahead.afterSelections (v :: b :: c :: (l ++ r)) = some (c :: (l ++ r)) := by
    obtain ⟨kind, lexeme, location⟩ := v
    obtain ⟨kind', lexeme', location'⟩ := b
    obtain rfl : kind = .dot := Token.kind_of_mark hv
    obtain rfl : kind' = .identifier := Token.kind_of_word hb
    rw [Lookahead.afterSelections.eq_1]
    exact afterSelections_of_kind (by simp [hparen])
  rw [hpoint, Option.bind_some, afterDims_of_kind (by simp [hparen])] at heq
  obtain ⟨rfl, -⟩ := heq
  simp [hparen]

end UnlikeCast

/-- A name, or words that do not read like a type in parentheses. -/
def NameOrUnlike (e : Expr) : Prop := (∃ n x, e = .name n [x]) ∨ UnlikeCast e.words

theorem NameOrUnlike.left (h : NameOrUnlike e) (hname : ∀ x, UnlikeCast (Lexeme.ofName x :: vs)) :
    UnlikeCast (e.wordsAt p ++ vs) := by
  by_cases hlt : e.level < p
  · rw [Expr.wordsAt, Expr.enclosed, if_pos hlt]
    exact .cons (by decide) rfl
  · rw [Expr.wordsAt, Expr.enclosed, if_neg hlt]
    obtain ⟨n, x, rfl⟩ | h := h
    · exact hname x
    · exact h.append

theorem nameOrUnlike (h : e.Plain) : NameOrUnlike e := by
  have hoperator {k : Kind} (hk : k ∉ [Kind.dot, .leftBracket, .rightParen]) {vs : List Lexeme}
      (x : String) : UnlikeCast (Lexeme.ofName x :: k.mark :: vs) := .operator hk
  induction h with
  | name => exact .inl ⟨_, _, rfl⟩
  | @literal _ value =>
    obtain ⟨-, -, hname, hbasic⟩ := literalKinds_open _ (word_mem_literalKinds value)
    exact .inr (.cons hname hbasic)
  | call => exact .inr (.operator (by decide))
  | element _ hi ha _ =>
    obtain ⟨w, ws, hws, hw⟩ := words_opening hi
    refine .inr (ha.left fun x => ?_)
    rw [hws]
    refine .index fun heq => ?_
    rw [heq] at hw
    simp [isOpening, isSign] at hw
  | callOn _ _ ht _ =>
    refine .inr ?_
    rw [Expr.words, Expr.targetWords, List.append_assoc]
    exact ht.left fun x => .member
  | @binary _ op _ _ _ _ hl _ => exact .inr (hl.left (hoperator (by cases op <;> decide)))
  | instanceOf _ ho => exact .inr (ho.left (hoperator (by decide)))
  | @unary _ op => exact .inr (.cons (by cases op <;> decide) (by cases op <;> rfl))
  | @step _ op _ _ ho =>
    cases op with
    | preInc | preDec => exact .inr (.cons (by decide) rfl)
    | postInc | postDec => exact .inr (ho.left (hoperator (by decide)))
  | @assign _ op _ _ _ _ hl _ => exact .inr (hl.left (hoperator (by cases op <;> decide)))
  | conditional _ _ _ hc _ _ => exact .inr (hc.left (hoperator (by decide)))

/-! ## Operands -/

theorem StartsOperand.append (h : StartsOperand i) : StartsOperand (i ++ r) :=
  ⟨fun s => by rw [List.append_assoc]; exact h.sign _,
    fun s => by rw [List.append_assoc]; exact h.cast _⟩

/-- A parenthesis around what is not a name opens an operand. -/
theorem startsOperand_paren (h : e.Plain) (hlevel : e.level < 14) (hi : Spells i e.words)
    (ht : t.kind = .leftParen) : StartsOperand (t :: (i ++ r)) := by
  refine ⟨fun s => ?_, fun s => ?_⟩
  · rw [List.cons_append, ahead, ht]
    rfl
  · obtain ⟨n, x, rfl⟩ | hunlike := nameOrUnlike h
    · exact absurd hlevel (Nat.lt_irrefl _)
    · rw [List.cons_append, List.append_assoc]
      exact hunlike t i _ ht hi

theorem startsOperand_of_kind {k : Kind} (ht : t.kind = k) (hopen : isOpening k = true)
    (hparen : k ≠ .leftParen) : StartsOperand (t :: i) := by
  subst ht
  exact ⟨fun s => isSign_of_isOpening hopen, fun s => startsCast_of_kind hparen⟩

theorem startsOperand_left (h : e.Plain)
    (ih : ∀ i, 13 ≤ e.level → Spells i e.words → StartsOperand i)
    (hp : 13 ≤ p) (hp' : p ≤ 14) (hi : Spells i (e.wordsAt p ++ vs)) : StartsOperand i := by
  obtain ⟨j, l, rfl, hj, -⟩ := hi.append_inv
  by_cases hlt : e.level < p
  · rw [Expr.wordsAt, Expr.enclosed, if_pos hlt] at hj
    obtain ⟨t, j, rfl, ht, hj⟩ := hj.cons_inv
    obtain ⟨j, l', rfl, hj, -⟩ := hj.append_inv
    exact (startsOperand_paren h (by omega) hj (Token.kind_of_mark ht)).append
  · rw [Expr.wordsAt, Expr.enclosed, if_neg hlt] at hj
    exact (ih j (by omega) hj).append

/-- A tree without operators before it starts like an operand. -/
theorem startsOperand (h : e.Plain) (hlevel : 13 ≤ e.level) (hi : Spells i e.words) :
    StartsOperand i := by
  induction h generalizing i with
  | @literal _ value =>
    obtain ⟨t, j, rfl, ht, -⟩ := hi.cons_inv
    obtain ⟨hopen, hparen, -⟩ := literalKinds_open _ (word_mem_literalKinds value)
    exact startsOperand_of_kind (congrArg Prod.fst ht) hopen hparen
  | name | call =>
    obtain ⟨t, j, rfl, ht, -⟩ := hi.cons_inv
    exact startsOperand_of_kind (Token.kind_of_word ht) rfl (by decide)
  | element ha _ ih _ =>
    exact startsOperand_left ha (fun _ => ih) (by decide) (Nat.le_refl _) hi
  | callOn ht _ ih _ =>
    rw [Expr.words, Expr.targetWords, List.append_assoc] at hi
    exact startsOperand_left ht (fun _ => ih) (by decide) (Nat.le_refl _) hi
  | @binary _ op =>
    have := BinaryOp.level_le op
    exact absurd (show 13 ≤ op.level from hlevel) (by omega)
  | @step _ op _ ho ih =>
    cases op with
    | preInc | preDec => exact absurd (show 13 ≤ 12 from hlevel) (by decide)
    | postInc | postDec =>
      exact startsOperand_left ho (fun _ => ih) (Nat.le_refl _) (by decide) hi
  | instanceOf => exact absurd (show 13 ≤ 8 from hlevel) (by decide)
  | unary => exact absurd (show 13 ≤ 12 from hlevel) (by decide)
  | assign => exact absurd (show 13 ≤ 0 from hlevel) (by decide)
  | conditional => exact absurd (show 13 ≤ 1 from hlevel) (by decide)

end JMinusMinus.Grammar
