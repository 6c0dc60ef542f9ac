import Mathlib
import JMinusMinus.Grammar.Unit
import JMinusMinus.Proofs.Spelling.Openings

/-!
# Reading back what is spelled

The tokens that spell a tree of names, literals, operators, choices, array elements and calls are
read as that tree (`expression_reads`).

The proof is by induction on the tree. At the level of its outermost operator a tree is read by the
rule of that level, from what is read at the places of its parts (`Readable`). From there it is read
at every looser level, and in parentheses at every tighter one (`readable_of_level`).

Between a construct and one that contains it there is always a token, so the number of tokens is
enough for the rules to nest.
-/

namespace JMinusMinus.Grammar

variable {n p line : Nat} {i j r : List Token} {e : Expr} {t : Token}

/-! ## Places -/

/-- At every place the words of a tree are read as the tree. -/
def Readable (e : Expr) : Prop :=
  ∀ n p i, p ≤ 14 → Spells i (e.wordsAt p) → i.length ≤ n → Reads (rules n) p i e

section Parts

variable (h : Readable e) (hn : i.length < n)

include h hn

theorem Readable.expression (hi : Spells i e.words) (hr : Stops 0 r) :
    Takes (rules n).expression i e r := by
  obtain ⟨n, rfl⟩ := Nat.exists_eq_succ_of_ne_zero (Nat.ne_of_gt (Nat.zero_lt_of_lt hn))
  rw [← Expr.wordsAt_zero] at hi
  exact (h n 0 i (by decide) hi (Nat.le_of_lt_succ hn)).takes (by decide) hr

theorem Readable.conditional (hi : Spells i (e.wordsAt 1)) (hr : Stops 1 r) :
    Takes (rules n).conditional i e r := by
  obtain ⟨n, rfl⟩ := Nat.exists_eq_succ_of_ne_zero (Nat.ne_of_gt (Nat.zero_lt_of_lt hn))
  exact (h n 1 i (by decide) hi (Nat.le_of_lt_succ hn)).takes (by decide) hr

theorem Readable.unary (hi : Spells i (e.wordsAt 12)) (hr : Stops 12 r) :
    Takes (rules n).unary i e r := by
  obtain ⟨n, rfl⟩ := Nat.exists_eq_succ_of_ne_zero (Nat.ne_of_gt (Nat.zero_lt_of_lt hn))
  exact (h n 12 i (by decide) hi (Nat.le_of_lt_succ hn)).takes (by decide) hr

end Parts

/-! ## Names and literals -/

theorem points_pass {levels bound : Nat} {xs : List String} (hi : Spells i (pointWords xs))
    (hr : r ≠ []) (hdot : ahead r ≠ .dot) (hbound : xs.length < bound) :
    Passes levels (afterEach .dot identifier bound) (i ++ r) xs r := by
  induction xs generalizing i bound with
  | nil =>
    obtain rfl := hi.nil_inv
    obtain ⟨bound, rfl⟩ := Nat.exists_eq_succ_of_ne_zero (Nat.ne_of_gt hbound)
    exact .noMore hdot
  | cons x xs ih =>
    obtain ⟨point, _, rfl, hpoint, hi⟩ := hi.cons_inv
    obtain ⟨word, j, rfl, hword, hj⟩ := hi.cons_inv
    obtain ⟨bound, rfl⟩ := Nat.exists_eq_succ_of_ne_zero (Nat.ne_of_gt (Nat.zero_lt_of_lt hbound))
    obtain rfl := Token.lexeme_of_word hword rfl
    refine .acceptedOne (List.cons_ne_nil _ _) (Token.kind_of_mark hpoint) ?_
    refine .bind (.identifierOne (by simp [hr]) (Token.kind_of_word hword)) ?_
    exact .bind (ih hj (Nat.lt_of_succ_lt_succ hbound)) .pure

theorem length_pointWords (xs : List String) : xs.length ≤ (pointWords xs).length := by
  induction xs with
  | nil => exact Nat.le_refl _
  | cons x xs ih => simp only [pointWords, List.length_cons]; omega

theorem qualifiedName_words {levels : Nat} {x : String} {xs : List String}
    (ht : t.word = Lexeme.ofName x) (hi : Spells i (pointWords xs)) (hr : r ≠ [])
    (hdot : ahead r ≠ .dot) :
    Passes levels qualifiedName (t :: (i ++ r)) ⟨t.location.line, x :: xs⟩ r := by
  obtain rfl := Token.lexeme_of_word ht rfl
  have hbound : xs.length < (i ++ r).length := by
    have := length_pointWords xs
    have := List.length_pos_iff.2 hr
    rw [List.length_append, hi.length]
    omega
  refine .currentLine (.bind (.identifierOne (by simp [hr]) (Token.kind_of_word ht)) ?_)
  exact .remaining (.bind (points_pass hi hr hdot hbound) .pure)

theorem literal_passes {levels : Nat} {value : Literal} (ht : t.word = value.word) (hr : r ≠ []) :
    Passes levels literal (t :: r) (.literal (plain t.line) value) r := by
  refine .look (fun i => i.headD t) (fun _ => rfl) ?_
  rw [List.headD_cons, literalOf?_of_word ht]
  exact .bind (.advanceOne hr) .pure

section Primary

variable {R : Rules} {levels : Nat}

theorem primary_literal {value : Literal} (ht : t.word = value.word) (hr : r ≠ []) :
    Passes levels R.primary (t :: r) (.literal (plain t.line) value) r := by
  have hmem := word_mem_literalKinds value
  rw [← ht] at hmem
  have hnot {k : Kind} (hk : k ∉ literalKinds) : ahead (t :: r) ≠ k := by
    rintro rfl
    exact hk hmem
  refine .currentLine (.unseen (hnot (by decide)) (.unaccepted (hnot (by decide)) ?_))
  refine .unaccepted (hnot (by decide)) (.unaccepted (hnot (by decide)) ?_)
  exact .unseen (hnot (by decide)) (literal_passes ht hr)

theorem primary_name {a : Expr} {x : String} (ht : t.word = Lexeme.ofName x)
    (h : Passes levels (R.nameOrCall t.line) (t :: i) a r) :
    Passes levels R.primary (t :: i) a r := by
  have hk := Token.kind_of_word ht
  have hnot {k : Kind} (hne : k ≠ .identifier) : ahead (t :: i) ≠ k := fun heq =>
    hne (heq.symm.trans hk)
  refine .currentLine (.unseen (hnot (by decide)) (.unaccepted (hnot (by decide)) ?_))
  exact .unaccepted (hnot (by decide)) (.unaccepted (hnot (by decide)) (.seen hk h))

end Primary

/-! ## Arguments -/

theorem stops_more {es : List Expr} (hi : Spells i (Expr.moreWords es)) (hr : Stops 0 r) :
    Stops 0 (i ++ r) := by
  cases es with
  | nil =>
    obtain rfl := hi.nil_inv
    exact hr
  | cons e es =>
    obtain ⟨t, j, rfl, ht, -⟩ := hi.cons_inv
    exact .cons (Token.kind_of_mark ht) (Nat.le_refl _)

theorem more_pass {es : List Expr} (hes : ∀ e ∈ es, Readable e) {bound : Nat}
    (hi : Spells i (Expr.moreWords es)) (hn : i.length < n) (hr : Stops 0 r)
    (hcomma : ahead r ≠ .comma) (hbound : i.length < bound) : ∃ levels es',
      Expr.unlinedList es' = Expr.unlinedList es ∧
      Passes levels (afterEach .comma (rules n).expression bound) (i ++ r) es' r := by
  obtain ⟨bound, rfl⟩ := Nat.exists_eq_succ_of_ne_zero (Nat.ne_of_gt (Nat.zero_lt_of_lt hbound))
  induction es generalizing i bound with
  | nil =>
    obtain rfl := hi.nil_inv
    exact ⟨0, [], rfl, .noMore hcomma⟩
  | cons e es ih =>
    obtain ⟨t, _, rfl, ht, hi⟩ := hi.cons_inv
    obtain ⟨j, l, rfl, hj, hl⟩ := hi.append_inv
    rw [List.forall_mem_cons] at hes
    simp only [List.length_cons, List.length_append] at hn hbound
    obtain ⟨bound, rfl⟩ := Nat.exists_eq_succ_of_ne_zero (show bound ≠ 0 by omega)
    obtain ⟨levels, e', he, hpass⟩ :=
      hes.1.expression (show j.length < n by omega) hj (stops_more hl hr)
    obtain ⟨levels', es', hes', hmore⟩ := ih hes.2 hl (by omega) bound (by omega)
    refine ⟨levels + levels', e' :: es', by simp [he, hes'], ?_⟩
    rw [List.cons_append, List.append_assoc]
    refine .acceptedOne (by simp [hr.ne_nil]) (Token.kind_of_mark ht) ?_
    refine .bind (hpass.mono (Nat.le_add_right _ _)) ?_
    exact .bind (hmore.mono (Nat.le_add_left _ _)) .pure

theorem arguments_pass {args : List Expr} (hplain : ∀ e ∈ args, e.Plain)
    (hargs : ∀ e ∈ args, Readable e)
    (hi : Spells i (Kind.leftParen.mark :: (Expr.argumentWords args ++ [Kind.rightParen.mark])))
    (hn : i.length ≤ n) (hr : r ≠ []) : ∃ levels args',
      Expr.unlinedList args' = Expr.unlinedList args ∧
      Passes levels (rules n).arguments (i ++ r) args' r := by
  obtain ⟨t, _, rfl, ht, hi⟩ := hi.cons_inv
  obtain ⟨k, _, rfl, hk, hl⟩ := hi.append_inv
  obtain ⟨u, _, rfl, hu, hl⟩ := hl.cons_inv
  obtain rfl := hl.nil_inv
  have hclose := Token.kind_of_mark hu
  have hstop : Stops 0 (u :: r) := .cons hclose (Nat.le_refl _)
  simp only [List.length_cons, List.length_append] at hn
  simp only [List.cons_append, List.append_assoc, List.nil_append]
  cases args with
  | nil =>
    obtain rfl := hk.nil_inv
    refine ⟨0, [], rfl, .requireOne (List.cons_ne_nil _ _) (Token.kind_of_mark ht) ?_⟩
    exact .acceptedOne hr hclose .pure
  | cons e es =>
    obtain ⟨j, l, rfl, hj, hl⟩ := hk.append_inv
    rw [List.forall_mem_cons] at hargs hplain
    simp only [List.length_append] at hn
    obtain ⟨levels, e', he, hpass⟩ :=
      hargs.1.expression (show j.length < n by omega) hj (stops_more hl hstop)
    obtain ⟨levels', es', hes, hmore⟩ := more_pass hargs.2 hl (show l.length < n by omega) hstop
      (by simp [ahead, hclose]) (show l.length < (l ++ u :: r).length by simp)
    obtain ⟨w, ws, hws, hw⟩ := words_opening hplain.1
    have hparen : ahead (j ++ (l ++ u :: r)) ≠ .rightParen := by
      rw [hws] at hj
      obtain ⟨v, k, rfl, rfl, -⟩ := hj.cons_inv
      intro heq
      rw [show v.word.1 = .rightParen from heq] at hw
      simp [isOpening, isSign] at hw
    have hitems : Passes (levels + levels') (commaSeparated (rules n).expression)
        (j ++ (l ++ u :: r)) (e' :: es') (u :: r) := by
      refine .bind (hpass.mono (Nat.le_add_right _ _)) (.remaining ?_)
      exact .bind (hmore.mono (Nat.le_add_left _ _)) .pure
    refine ⟨levels + levels', e' :: es', by simp [he, hes], ?_⟩
    rw [List.append_assoc]
    refine .requireOne (by simp) (Token.kind_of_mark ht) (.unaccepted hparen ?_)
    exact .bind hitems (.requireOne hr hclose .pure)

/-! ## Names, literals, calls and array elements -/

theorem reads_primary {R : Rules} (h : ∀ r, Stops 15 r → Clear e r → Takes R.primary i e r) :
    Reads R 14 i e := fun _ r hr hclear => .start (h r hr hclear)

theorem reads_literal {R : Rules} {value : Literal}
    (hi : Spells i (Expr.literal (plain line) value).words) :
    Reads R 14 i (.literal (plain line) value) := by
  obtain ⟨t, _, rfl, ht, hi⟩ := hi.cons_inv
  obtain rfl := hi.nil_inv
  exact reads_primary fun r hr _ => ⟨0, _, by simp, primary_literal ht hr.ne_nil⟩

theorem reads_name {R : Rules} {x : String}
    (hi : Spells i (Expr.name (plain line) [x]).words) :
    Reads R 14 i (.name (plain line) [x]) := by
  obtain ⟨t, _, rfl, ht, hi⟩ := hi.cons_inv
  obtain rfl := hi.nil_inv
  refine reads_primary fun r hr hclear => ⟨0, .name (plain t.line) [x], by simp, ?_⟩
  have hnil : Spells [] (pointWords []) := rfl
  refine primary_name ht (.bind (qualifiedName_words ht hnil hr.ne_nil (hclear _ _ rfl)) ?_)
  exact .unseen (hr.ne (by decide)) .pure

/-- A call by its name, or by a name and a member of it. -/
theorem primary_call {x : String} {xs : List String} {args : List Expr}
    (hplain : ∀ e ∈ args, e.Plain) (hargs : ∀ e ∈ args, Readable e) (ht : t.word = Lexeme.ofName x)
    (hi : Spells i (pointWords xs))
    (hj : Spells j (Kind.leftParen.mark :: (Expr.argumentWords args ++ [Kind.rightParen.mark])))
    (hn : j.length ≤ n) (hr : r ≠ []) : ∃ levels args',
      Expr.unlinedList args' = Expr.unlinedList args ∧
      Passes levels (rules n).primary (t :: (i ++ (j ++ r)))
        (.send (plain t.line) (if (x :: xs).dropLast.isEmpty then none
          else some (.name (plain t.line) (x :: xs).dropLast)) ((x :: xs).getLast?.getD "") args'
          none) r := by
  obtain ⟨levels, args', hargs', hpass⟩ := arguments_pass hplain hargs hj hn hr
  obtain ⟨u, k, rfl, hu, -⟩ := hj.cons_inv
  have hparen := Token.kind_of_mark hu
  refine ⟨levels, args', hargs', primary_name ht ?_⟩
  refine .bind (qualifiedName_words ht hi (by simp) (by simp [ahead, hparen])) ?_
  exact .seen hparen (.bind hpass .pure)

theorem reads_call {x : String} {args : List Expr} (hplain : ∀ e ∈ args, e.Plain)
    (hargs : ∀ e ∈ args, Readable e)
    (hi : Spells i (Expr.send (plain line) none x args none).words) (hn : i.length ≤ n) :
    Reads (rules n) 14 i (.send (plain line) none x args none) := by
  obtain ⟨t, j, rfl, ht, hj⟩ := hi.cons_inv
  refine reads_primary fun r hr _ => ?_
  have hnil : Spells [] (pointWords []) := rfl
  obtain ⟨levels, args', hargs', hpass⟩ :=
    primary_call hplain hargs ht hnil hj (Nat.le_of_succ_le hn) hr.ne_nil
  exact ⟨levels, _, by simp [hargs'], hpass⟩

/-! ## Selections -/

theorem selections_turns {f g : Expr → Expr} {levels : Nat} {R : Rules}
    (ht : t.kind = .dot ∨ t.kind = .leftBracket)
    (h : ∀ a, Passes levels (R.selector a) (t :: (j ++ r)) (g a) r)
    (hg : ∀ a b : Expr, a.unlined = b.unlined → (g a).unlined = (f b).unlined) :
    Turns R.selections (t :: j) f r := by
  refine ⟨levels + 1, fun bound d a b hab => ⟨g b, hg _ _ hab, ?_⟩⟩
  refine .look (fun i => ahead i == .dot) (fun _ => rfl) ?_
  refine .look (fun i => ahead i == .leftBracket) (fun _ => rfl) ?_
  rw [if_pos (by simpa [ahead] using ht)]
  exact .descended (.bind (h b) .refl)

theorem reads_element {array index : Expr} (ha : Readable array) (hindex : Readable index)
    (hi : Spells i (Expr.element (plain line) array index).words) (hn : i.length ≤ n) :
    Reads (rules n) 14 i (.element (plain line) array index) := by
  obtain ⟨k, _, rfl, hk, hi⟩ := hi.append_inv
  obtain ⟨t, _, rfl, ht, hi⟩ := hi.cons_inv
  obtain ⟨j, _, rfl, hj, hi⟩ := hi.append_inv
  obtain ⟨u, _, rfl, hu, hi⟩ := hi.cons_inv
  obtain rfl := hi.nil_inv
  simp only [List.length_append, List.length_cons] at hn
  intro _ r hr _
  have hopen := Token.kind_of_mark ht
  have hclose := Token.kind_of_mark hu
  obtain ⟨levels, index', hindex', hpass⟩ := hindex.expression (show j.length < n by omega) hj
    (r := u :: r) (.cons hclose (Nat.zero_le _))
  have hselect (a : Expr) : Passes levels ((rules n).selector a) (t :: ((j ++ [u]) ++ r))
      (.element (plain t.line) a index') r := by
    simp only [List.append_assoc, List.cons_append, List.nil_append]
    refine .currentLine (.unaccepted (by simp [ahead, hopen]) ?_)
    refine .requireOne (by simp) hopen (.bind hpass ?_)
    exact .requireOne hr.ne_nil hclose .pure
  have hturn : Turns (rules n).selections (t :: (j ++ [u])) (fun a => .element (plain line) a index)
      r := selections_turns (.inr hopen) hselect fun a b hab => by simp [hab, hindex']
  refine Enters.turn (e := array) ?_ hturn (List.cons_ne_nil _ _)
  refine ha n 14 k (Nat.le_refl _) hk (by omega) line _ (.cons hopen (by decide)) ?_
  intro _ _ _
  simp [ahead, hopen]

/-- A call of a member of anything but a name. -/
theorem reads_member {target : Expr} {x : String} {args : List Expr} (htarget : Readable target)
    (hname : ∀ m segments, target ≠ .name m segments) (hplain : ∀ e ∈ args, e.Plain)
    (hargs : ∀ e ∈ args, Readable e)
    (hi : Spells i (Expr.send (plain line) (some target) x args none).words) (hn : i.length ≤ n) :
    Reads (rules n) 14 i (.send (plain line) (some target) x args none) := by
  rw [Expr.words, Expr.targetWords, List.append_assoc] at hi
  obtain ⟨k, _, rfl, hk, hi⟩ := hi.append_inv
  obtain ⟨t, _, rfl, ht, hi⟩ := hi.cons_inv
  obtain ⟨u, j, rfl, hu, hj⟩ := hi.cons_inv
  simp only [List.length_append, List.length_cons] at hn
  intro _ r hr _
  have hdot := Token.kind_of_mark ht
  obtain ⟨levels, args', hargs', hpass⟩ :=
    arguments_pass hplain hargs hj (show j.length ≤ n by omega) hr.ne_nil
  obtain ⟨v, l, rfl, hv, -⟩ := hj.cons_inv
  have hselect (a : Expr) : Passes levels ((rules n).selector a) (t :: (u :: v :: l ++ r))
      (.send (plain t.line) (some a) x args' none) r := by
    obtain rfl := Token.lexeme_of_word hu rfl
    refine .currentLine (.acceptedOne (List.cons_ne_nil _ _) hdot ?_)
    refine .bind (.identifierOne (List.cons_ne_nil _ _) (Token.kind_of_word hu)) ?_
    exact .seen (Token.kind_of_mark hv) (.bind hpass .pure)
  have hturn : Turns (rules n).selections (t :: u :: v :: l)
      (fun a => .send (plain line) (some a) x args none) r :=
    selections_turns (.inl hdot) hselect fun a b hab => by simp [hab, hargs']
  refine Enters.turn (e := target) ?_ hturn (List.cons_ne_nil _ _)
  exact htarget n 14 k (Nat.le_refl _) hk (by omega) line _ (.cons hdot (by decide)) fun _ _ h =>
    absurd h (hname _ _)

theorem reads_callOn {target : Expr} {x : String} {args : List Expr} (htarget : target.Plain)
    (hreadable : Readable target) (hplain : ∀ e ∈ args, e.Plain) (hargs : ∀ e ∈ args, Readable e)
    (hi : Spells i (Expr.send (plain line) (some target) x args none).words) (hn : i.length ≤ n) :
    Reads (rules n) 14 i (.send (plain line) (some target) x args none) := by
  by_cases hname : ∃ m segments, target = .name m segments
  · obtain ⟨m, segments, rfl⟩ := hname
    cases htarget with
    | @name line' y =>
      -- A name and its member are one dotted name.
      obtain ⟨t, _, rfl, ht, hi⟩ := hi.cons_inv
      obtain ⟨u, _, rfl, hu, hi⟩ := hi.cons_inv
      obtain ⟨v, j, rfl, hv, hj⟩ := hi.cons_inv
      simp only [List.length_cons] at hn
      refine reads_primary fun r hr _ => ?_
      have hpoint : Spells [u, v] (pointWords [x]) := by
        simp only [Spells, List.map_cons, hu, hv, List.map_nil, pointWords]
      obtain ⟨levels, args', hargs', hpass⟩ :=
        primary_call hplain hargs ht hpoint hj (show j.length ≤ n by omega) hr.ne_nil
      exact ⟨levels, _, by simp [hargs'], hpass⟩
  · exact reads_member hreadable (fun m segments h => hname ⟨m, segments, h⟩) hplain hargs hi hn

/-! ## Steps and signs -/

theorem reads_stepAfter {op : StepOp} {operand : Expr} (hop : op.isBefore = false)
    (ho : Readable operand) (hi : Spells i (Expr.step (plain line) op operand).words)
    (hn : i.length ≤ n) : Reads (rules n) 13 i (.step (plain line) op operand) := by
  rw [Expr.words, hop, if_neg Bool.false_ne_true] at hi
  obtain ⟨k, _, rfl, hk, hi⟩ := hi.append_inv
  obtain ⟨t, _, rfl, ht, hi⟩ := hi.cons_inv
  obtain rfl := hi.nil_inv
  simp only [List.length_append, List.length_cons] at hn
  have hkind := Token.kind_of_mark ht
  intro line' r hr _
  have hturn : Turns (Rules.postfixSteps line') [t] (fun a => .step (plain line) op a) r := by
    refine ⟨1, fun bound d a b hab => ⟨.step (plain line') op b, by simp [hab], ?_⟩⟩
    refine .look (fun i => ahead i == .decrement) (fun _ => rfl) ?_
    refine .look (fun i => ahead i == .increment) (fun _ => rfl) ?_
    rw [if_pos (by cases op <;> simp [ahead, hkind, StepOp.kind])]
    refine .descended (.look (fun i => ahead i == .decrement) (fun _ => rfl) ?_)
    refine .bind (.advanceOne hr.ne_nil) ?_
    have hstep : (if (ahead ([t] ++ r) == .decrement) = true then StepOp.postDec
        else StepOp.postInc) = op := by
      cases op <;> first | contradiction | simp [ahead, hkind, StepOp.kind]
    rw [hstep]
    exact .refl
  refine Enters.turn (e := operand) ?_ hturn (List.cons_ne_nil _ _)
  have hstop : Stops 14 (t :: r) := .cons hkind (by cases op <;> decide)
  exact ho n 13 k (by decide) hk (by omega) line' _ hstop (hstop.clear (Nat.le_refl _))

/-- An operator before an operand, once its token is told from those of the other operators. -/
theorem reads_before {k : Kind} {operand : Expr} {f : Nat → Expr → Expr}
    (ho : Readable operand) (hi : Spells i (k.mark :: operand.wordsAt 12)) (hn : i.length ≤ n)
    (hf : ∀ line' a, a.unlined = operand.unlined → (f line' a).unlined = (f line operand).unlined)
    (hrule : ∀ {levels : Nat} {t : Token} {j r : List Token} {a : Expr}, t.kind = k → j ≠ [] →
      Passes levels (rules n).unary j a r →
      ∃ line', Passes (levels + 1) (rules n).unaryRule (t :: j) (f line' a) r) :
    Reads (rules n) 12 i (f line operand) := by
  intro r hr
  obtain ⟨t, j, rfl, ht, hj⟩ := hi.cons_inv
  obtain ⟨levels, operand', ho', hpass⟩ := ho.unary (Nat.lt_of_succ_le hn) hj hr
  obtain ⟨line', hpass'⟩ := hrule (Token.kind_of_mark ht) (by simp [hr.ne_nil]) hpass
  exact ⟨levels + 1, f line' operand', hf _ _ ho', hpass'⟩

theorem reads_stepBefore {op : StepOp} {operand : Expr} (hop : op.isBefore = true)
    (ho : Readable operand) (hi : Spells i (Expr.step (plain line) op operand).words)
    (hn : i.length ≤ n) : Reads (rules n) 12 i (.step (plain line) op operand) := by
  rw [Expr.words, if_pos hop] at hi
  refine reads_before (f := fun line a => .step (plain line) op a) ho hi hn
    (fun _ _ h => by simp [h]) fun {levels t j r a} ht hj hpass => ⟨t.line, ?_⟩
  refine .currentLine (.nested ?_)
  cases op with
  | preInc => exact .acceptedOne hj ht (.bind hpass .pure)
  | preDec =>
    have hnot : ahead (t :: j) ≠ .increment := by simp [ahead, ht, StepOp.kind]
    exact .unaccepted hnot (.acceptedOne hj ht (.bind hpass .pure))
  | postInc | postDec => contradiction

theorem reads_unary {op : UnaryOp} {operand : Expr} (ho : Readable operand)
    (hi : Spells i (Expr.unary (plain line) op operand).words) (hn : i.length ≤ n) :
    Reads (rules n) 12 i (.unary (plain line) op operand) := by
  refine reads_before (f := fun line a => .unary (plain line) op a) ho hi hn
    (fun _ _ h => by simp [h]) fun {levels t j r a} ht hj hpass => ⟨t.line, ?_⟩
  have hnot {k : Kind} (hk : k ≠ op.kind) : ahead (t :: j) ≠ k := fun heq =>
    hk (heq.symm.trans ht)
  refine .currentLine (.nested ?_)
  refine .unaccepted (hnot (by cases op <;> decide)) ?_
  refine .unaccepted (hnot (by cases op <;> decide)) ?_
  cases op with
  | neg => exact .acceptedOne hj ht (.bind hpass .pure)
  | plus => exact .unaccepted (hnot (by decide)) (.acceptedOne hj ht (.bind hpass .pure))
  | bitNot =>
    refine .unaccepted (hnot (by decide)) (.unaccepted (hnot (by decide)) (.currentLine ?_))
    exact .acceptedOne hj ht (.bind hpass .pure)
  | not =>
    refine .unaccepted (hnot (by decide)) (.unaccepted (hnot (by decide)) (.currentLine ?_))
    exact .unaccepted (hnot (by decide)) (.acceptedOne hj ht (.bind hpass .pure))

/-! ## Binary operators -/

theorem acceptOperator_passes {levels : Nat} {ops : List (Kind × BinaryOp)} {op : BinaryOp}
    (h : ops.lookup t.kind = some op) (hr : r ≠ []) :
    Passes levels (acceptOperator ops) (t :: r) (some op) r := by
  refine .currentKind ?_
  rw [show ahead (t :: r) = t.kind from rfl, h]
  exact .bind (.advanceOne hr) .pure

theorem chain_turns {ops : List (Kind × BinaryOp)} {operand : Parser Expr} {op : BinaryOp}
    {line' : Nat} {rhs : Expr} (hop : ops.lookup t.kind = some op) (h : Takes operand j rhs r)
    (hr : r ≠ []) :
    Turns (chain ops operand line') (t :: j) (fun a => .binary (plain line) op a rhs) r := by
  obtain ⟨levels, rhs', hrhs, h⟩ := h
  refine ⟨levels + 1, fun bound d a b hab =>
    ⟨.binary (plain line') op b rhs', by simp [hab, hrhs], ?_⟩⟩
  refine .bind (acceptOperator_passes hop (by simp [hr])) ?_
  exact .descended (.bind h .refl)

theorem BinaryOp.loop_of_grouping {op : BinaryOp} (hop : op.isRelational = false) :
    isLoop op.level = true ∧ op.leftLevel = op.level ∧
      (operatorsAt op.level).lookup op.kind = some op ∧ op.kind.tightness = op.level + 1 := by
  cases op <;> first | contradiction | decide

/-- An operator that groups to the left is one more turn of the loop of its level. -/
theorem reads_binary {op : BinaryOp} {lhs rhs : Expr} (hop : op.isRelational = false)
    (hl : Readable lhs) (hrhs : Readable rhs)
    (hi : Spells i (Expr.binary (plain line) op lhs rhs).words) (hn : i.length ≤ n) :
    Reads (rules n) op.level i (.binary (plain line) op lhs rhs) := by
  obtain ⟨hloop, hleft, hlookup, htight⟩ := BinaryOp.loop_of_grouping hop
  have hle := op.level_le
  rw [Expr.words, hleft] at hi
  obtain ⟨k, _, rfl, hk, hi⟩ := hi.append_inv
  obtain ⟨t, j, rfl, ht, hj⟩ := hi.cons_inv
  simp only [List.length_append, List.length_cons] at hn
  have hkind := Token.kind_of_mark ht
  have hstart := hl n op.level k (by omega) hk (by omega)
  have hright := hrhs n (op.level + 1) j (by omega) hj (by omega)
  rw [Reads, if_pos hloop] at hstart ⊢
  intro line' r hr _
  have hstop : Stops (op.level + 1) (t :: (j ++ r)) := .cons hkind (Nat.le_of_eq htight)
  have hturn : Turns ((rules n).loop line' op.level) (t :: j)
      (fun a => .binary (plain line) op a rhs) r := by
    have hchain : (rules n).loop line' op.level =
        chain (operatorsAt op.level) ((rules n).ruleAt (op.level + 1)) line' := by
      unfold Rules.loop
      split <;> first | omega | rfl
    rw [hchain]
    rw [← hkind] at hlookup
    exact chain_turns hlookup (hright.takes (by omega) hr) hr.ne_nil
  refine Enters.turn (e := lhs) ?_ hturn (List.cons_ne_nil _ _)
  exact hstart line' _ hstop (hstop.clear (by omega))

theorem BinaryOp.kind_of_relational {op : BinaryOp} (hop : op.isRelational = true) :
    op.level = 8 ∧ op.leftLevel = 9 ∧ op.kind.tightness = 9 ∧ op.kind ≠ .kwInstanceOf ∧
      List.lookup op.kind [(.greater, .gt), (.lessEqual, .le), (.greaterEqual, .ge),
        (.less, .lt)] = some op := by
  cases op <;> first | contradiction | decide

theorem reads_comparison {op : BinaryOp} {lhs rhs : Expr} (hop : op.isRelational = true)
    (hl : Readable lhs) (hrhs : Readable rhs)
    (hi : Spells i (Expr.binary (plain line) op lhs rhs).words) (hn : i.length ≤ n) :
    Reads (rules n) 8 i (.binary (plain line) op lhs rhs) := by
  obtain ⟨hlevel, hleft, htight, hne, hlookup⟩ := BinaryOp.kind_of_relational hop
  rw [Expr.words, hleft, hlevel] at hi
  obtain ⟨k, _, rfl, hk, hi⟩ := hi.append_inv
  obtain ⟨t, j, rfl, ht, hj⟩ := hi.cons_inv
  simp only [List.length_append, List.length_cons] at hn
  have hkind := Token.kind_of_mark ht
  rw [← hkind] at hlookup
  intro r hr
  have hstop : Stops 9 (t :: (j ++ r)) := .cons hkind (Nat.le_of_eq htight)
  obtain ⟨levels, lhs', hlhs', hpass⟩ :=
    (hl n 9 k (by decide) hk (by omega)).takes (by decide) hstop
  obtain ⟨levels', rhs', hrhs', hpass'⟩ :=
    (hrhs n 9 j (by decide) hj (by omega)).takes (by decide) (hr.mono (by decide))
  refine Takes.currentLine fun line' =>
    ⟨levels + levels', .binary (plain line') op lhs' rhs', by simp [hlhs', hrhs'], ?_⟩
  rw [List.append_assoc]
  refine .bind (hpass.mono (Nat.le_add_right _ _)) ?_
  refine .unaccepted (by simpa [ahead, hkind] using hne) ?_
  refine .bind (acceptOperator_passes hlookup (by simp [hr.ne_nil])) ?_
  exact .bind (hpass'.mono (Nat.le_add_left _ _)) .pure

theorem reads_instanceOf {operand : Expr} {className : String} (ho : Readable operand)
    (hi : Spells i (Expr.instanceOf (plain line) operand (.named className)).words)
    (hn : i.length ≤ n) :
    Reads (rules n) 8 i (.instanceOf (plain line) operand (.named className)) := by
  obtain ⟨x, xs, hsegments, hwords⟩ := nameWords_eq className
  rw [Expr.words, classWords, hwords] at hi
  obtain ⟨k, _, rfl, hk, hi⟩ := hi.append_inv
  obtain ⟨t, _, rfl, ht, hi⟩ := hi.cons_inv
  obtain ⟨u, j, rfl, hu, hj⟩ := hi.cons_inv
  simp only [List.length_append, List.length_cons] at hn
  have hkind := Token.kind_of_mark ht
  intro r hr
  have hstop : Stops 9 (t :: u :: (j ++ r)) := .cons hkind (Nat.le_refl _)
  obtain ⟨levels, operand', ho', hpass⟩ :=
    (ho n 9 k (by decide) hk (by omega)).takes (by decide) hstop
  have htype : Passes levels referenceType (u :: (j ++ r)) (.named className) r := by
    have hname : Passes levels qualifiedName (u :: (j ++ r)) ⟨u.location.line, x :: xs⟩ r :=
      qualifiedName_words hu hj hr.ne_nil (hr.ne (by decide))
    have hclass : Passes levels classType (u :: (j ++ r)) (.named className) r := by
      have htext : QualifiedName.text ⟨u.location.line, x :: xs⟩ = className := by
        rw [← hsegments, text_segmentsOf]
      have hmap := hname.map (f := fun q => Ty.named q.text)
      rwa [htext] at hmap
    have hdims : Lookahead.startsDims r = false := by
      obtain ⟨v, r, rfl⟩ := List.exists_cons_of_ne_nil hr.ne_nil
      have hbracket : v.kind ≠ .leftBracket := hr.ne (k := .leftBracket) (by decide)
      unfold Lookahead.startsDims
      split <;> simp_all
    obtain ⟨bound, hbound⟩ : ∃ bound, r.length = bound + 1 :=
      Nat.exists_eq_succ_of_ne_zero (Nat.ne_of_gt (List.length_pos_iff.2 hr.ne_nil))
    refine .seen (Token.kind_of_word hu) (.bind hclass (.remaining ?_))
    rw [hbound]
    refine .upcoming ?_
    rw [hdims]
    exact .pure
  refine Takes.currentLine fun line' =>
    ⟨levels, .instanceOf (plain line') operand' (.named className), by simp [ho'], ?_⟩
  rw [List.append_assoc]
  refine .bind hpass ?_
  exact .acceptedOne (List.cons_ne_nil _ _) hkind (.bind htype .pure)

/-! ## Choices and assignments -/

theorem reads_conditional {condition thenExpr elseExpr : Expr} (hc : Readable condition)
    (hthen : Readable thenExpr) (helse : Readable elseExpr)
    (hi : Spells i (Expr.conditional (plain line) condition thenExpr elseExpr).words)
    (hn : i.length ≤ n) :
    Reads (rules n) 1 i (.conditional (plain line) condition thenExpr elseExpr) := by
  obtain ⟨k, _, rfl, hk, hi⟩ := hi.append_inv
  obtain ⟨t, _, rfl, ht, hi⟩ := hi.cons_inv
  obtain ⟨j, _, rfl, hj, hi⟩ := hi.append_inv
  obtain ⟨u, l, rfl, hu, hl⟩ := hi.cons_inv
  simp only [List.length_append, List.length_cons] at hn
  have hquestion := Token.kind_of_mark ht
  have hcolon := Token.kind_of_mark hu
  have hj : Spells j thenExpr.words := by rwa [← Expr.wordsAt_zero]
  intro r hr
  obtain ⟨levels, condition', hc', hpass⟩ := (hc n 2 k (by decide) hk (by omega)).takes (by decide)
    (r := t :: (j ++ u :: (l ++ r))) (.cons hquestion (Nat.le_refl _))
  obtain ⟨levels₁, then', hthen', hpass₁⟩ := hthen.expression (show j.length < n by omega) hj
    (r := u :: (l ++ r)) (.cons hcolon (Nat.le_refl _))
  obtain ⟨levels₂, else', helse', hpass₂⟩ := helse.conditional (show l.length < n by omega) hl hr
  refine Takes.currentLine fun line' => ⟨levels + levels₁ + (levels₂ + 1),
    .conditional (plain line') condition' then' else', by simp [hc', hthen', helse'], ?_⟩
  simp only [List.append_assoc, List.cons_append]
  refine .bind (hpass.mono (by omega)) (.acceptedOne (by simp) hquestion ?_)
  refine .bind (hpass₁.mono (by omega)) (.requireOne (by simp [hr.ne_nil]) hcolon ?_)
  exact .bind (hpass₂.nested.mono (by omega)) .pure

theorem AssignOp.kind_spec (op : AssignOp) :
    Rules.assignOf? op.kind = some op ∧ op.kind.tightness = 1 := by
  cases op <;> decide

theorem reads_assign {op : AssignOp} {lhs rhs : Expr} (hl : Readable lhs) (hrhs : Readable rhs)
    (hi : Spells i (Expr.assign (plain line) op lhs rhs).words) (hn : i.length ≤ n) :
    Reads (rules n) 0 i (.assign (plain line) op lhs rhs) := by
  obtain ⟨hop, htight⟩ := AssignOp.kind_spec op
  obtain ⟨k, _, rfl, hk, hi⟩ := hi.append_inv
  obtain ⟨t, j, rfl, ht, hj⟩ := hi.cons_inv
  simp only [List.length_append, List.length_cons] at hn
  have hkind := Token.kind_of_mark ht
  have hj : Spells j rhs.words := by rwa [← Expr.wordsAt_zero]
  intro r hr
  obtain ⟨levels, lhs', hlhs', hpass⟩ := (hl n 1 k (by decide) hk (by omega)).takes (by decide)
    (r := t :: (j ++ r)) (.cons hkind (Nat.le_of_eq htight))
  obtain ⟨levels', rhs', hrhs', hpass'⟩ := hrhs.expression (show j.length < n by omega) hj hr
  refine Takes.currentLine fun _ => .nested (.currentLine fun line' => ?_)
  refine ⟨levels + levels', .assign (plain line') op lhs' rhs', by simp [hlhs', hrhs'], ?_⟩
  rw [List.append_assoc]
  refine .bind (hpass.mono (Nat.le_add_right _ _)) (.currentKind ?_)
  rw [show ahead (t :: (j ++ r)) = op.kind from hkind, hop]
  refine .bind (.advanceOne (by simp [hr.ne_nil])) ?_
  exact .bind (hpass'.mono (Nat.le_add_left _ _)) .pure

/-! ## Parentheses -/

theorem reads_paren {u : Token} (h : Reads (rules n) 0 i e) (ht : t.kind = .leftParen)
    (hu : u.kind = .rightParen) : Reads (rules (n + 1)) 14 (t :: (i ++ [u])) e := by
  refine reads_primary fun r hr _ => ?_
  obtain ⟨levels, e', he, hpass⟩ := h.takes (by decide) (r := u :: r) (.cons hu (Nat.le_refl _))
  refine ⟨levels, e', he, ?_⟩
  simp only [List.append_assoc, List.cons_append, List.nil_append]
  refine .currentLine (.seen ht (.requireOne (by simp) ht ?_))
  exact .bind hpass (.requireOne hr.ne_nil hu .pure)

/-- A tree that is read at its own level is read at every place. -/
theorem readable_of_level (hplain : e.Plain)
    (h : ∀ n i, Spells i e.words → i.length ≤ n → Reads (rules n) e.level i e) : Readable e := by
  have hbare {n p : Nat} {i : List Token} (hp : p ≤ e.level) (hi : Spells i e.words)
      (hn : i.length ≤ n) : Reads (rules n) p i e :=
    (h n i hi hn).looser e.level_le hp fun _ hlt => startsOperand hplain hlt hi
  intro n p i hp hi hn
  by_cases hlt : e.level < p
  · rw [Expr.wordsAt, Expr.enclosed, if_pos hlt] at hi
    obtain ⟨t, _, rfl, ht, hi⟩ := hi.cons_inv
    obtain ⟨j, _, rfl, hj, hi⟩ := hi.append_inv
    obtain ⟨u, _, rfl, hu, hi⟩ := hi.cons_inv
    obtain rfl := hi.nil_inv
    simp only [List.length_cons, List.length_append] at hn
    obtain ⟨n, rfl⟩ := Nat.exists_eq_succ_of_ne_zero (show n ≠ 0 by omega)
    have hparen := reads_paren (hbare (n := n) (Nat.zero_le _) hj (by omega))
      (Token.kind_of_mark ht) (Token.kind_of_mark hu)
    exact hparen.looser (Nat.le_refl _) hp fun _ _ =>
      startsOperand_paren hplain (by omega) hj (Token.kind_of_mark ht)
  · rw [Expr.wordsAt, Expr.enclosed, if_neg hlt] at hi
    exact hbare (Nat.le_of_not_lt hlt) hi hn

/-! ## All trees -/

/-- A tree is read back from its words, at any place that is loose enough. -/
theorem Expr.Plain.readable (h : e.Plain) : Readable e := by
  induction h with
  | literal => exact readable_of_level .literal fun _ _ hi _ => reads_literal hi
  | name => exact readable_of_level .name fun _ _ hi _ => reads_name hi
  | element ha hi iha ihi =>
    exact readable_of_level (.element ha hi) fun _ _ => reads_element iha ihi
  | call hargs ih => exact readable_of_level (.call hargs) fun _ _ => reads_call hargs ih
  | callOn ht hargs iht ih =>
    exact readable_of_level (.callOn ht hargs) fun _ _ => reads_callOn ht iht hargs ih
  | @binary _ op _ _ hl hr ihl ihr =>
    refine readable_of_level (.binary hl hr) fun n i hi hn => ?_
    cases hop : op.isRelational with
    | false => exact reads_binary hop ihl ihr hi hn
    | true =>
      rw [Expr.level, (BinaryOp.kind_of_relational hop).1]
      exact reads_comparison hop ihl ihr hi hn
  | instanceOf ho ih => exact readable_of_level (.instanceOf ho) fun _ _ => reads_instanceOf ih
  | unary ho ih => exact readable_of_level (.unary ho) fun _ _ => reads_unary ih
  | @step _ op _ ho ih =>
    refine readable_of_level (.step ho) fun n i hi hn => ?_
    cases hop : op.isBefore with
    | false =>
      rw [Expr.level, hop, if_neg Bool.false_ne_true]
      exact reads_stepAfter hop ih hi hn
    | true =>
      rw [Expr.level, if_pos hop]
      exact reads_stepBefore hop ih hi hn
  | assign hl hr ihl ihr => exact readable_of_level (.assign hl hr) fun _ _ => reads_assign ihl ihr
  | conditional hc ht he ihc iht ihe =>
    exact readable_of_level (.conditional hc ht he) fun _ _ => reads_conditional ihc iht ihe

/-- The start of a parse stands on its tokens. -/
theorem start_on {log : Log Problem} {maxDepth : Nat} {stop : Token}
    (hstop : stop.kind = .endOfInput) :
    (start (i ++ [stop]) log maxDepth).On (i ++ [stop]) := by
  have hclosed : Cursor.closed (i ++ [stop]) = i ++ [stop] := by
    simp [Cursor.closed, hstop]
  obtain ⟨t, ts, hts⟩ := List.exists_cons_of_ne_nil (List.concat_ne_nil stop i)
  rw [hts] at hclosed ⊢
  refine ⟨?_, ?_, rfl⟩ <;> simp [State.upcoming, start, Cursor.ofTokens, hclosed]

/-- Tokens that spell a tree, with the end of input after them, are read as that tree up to its
lines. With enough levels allowed nothing is reported, and the end of input is left. -/
theorem expression_reads {e : Expr} (he : e.Plain) {i : List Token} {stop : Token}
    (hi : Spells i e.words) (hstop : stop.kind = .endOfInput) (log : Log Problem) :
    ∃ enough, ∀ maxDepth ≥ enough, ∃ e' s',
      expression (start (i ++ [stop]) log maxDepth) = (e', s') ∧ e'.unlined = e.unlined ∧
      s'.log = log ∧ s'.upcoming = [stop] := by
  rw [← Expr.wordsAt_zero] at hi
  have hread := Expr.Plain.readable he (i ++ [stop]).length 0 i (Nat.zero_le _) hi (by simp)
  obtain ⟨levels, e', he', hpass⟩ :=
    hread.takes (by decide) (r := [stop]) (.cons hstop (Nat.le_refl _))
  have hpass : Passes levels expression (i ++ [stop]) e' [stop] := .remaining hpass
  refine ⟨levels, fun maxDepth hle => ?_⟩
  obtain ⟨s', hrun, hon, hlike⟩ := hpass (start (i ++ [stop]) log maxDepth) (start_on hstop)
    (by simpa [start] using hle)
  exact ⟨e', s', hrun, he', hlike.log, hon.upcoming⟩

/-- `(a + b) * c[-1]` -/
def productTokens : List Token :=
  [⟨.leftParen, "(", {}⟩, ⟨.identifier, "a", {}⟩, ⟨.plus, "+", {}⟩, ⟨.identifier, "b", {}⟩,
    ⟨.rightParen, ")", {}⟩, ⟨.star, "*", {}⟩, ⟨.identifier, "c", {}⟩, ⟨.leftBracket, "[", {}⟩,
    ⟨.minus, "-", {}⟩, ⟨.intLiteral, "1", {}⟩, ⟨.rightBracket, "]", {}⟩]

/-- The tree of `(a + b) * c[-1]`. -/
def productTree : Expr :=
  .binary (plain 0) .mul
    (.binary (plain 0) .add (.name (plain 0) ["a"]) (.name (plain 0) ["b"]))
    (.element (plain 0) (.name (plain 0) ["c"])
      (.unary (plain 0) .neg (.literal (plain 0) (.int "1"))))

theorem expression_reads_product : ∃ enough, ∀ maxDepth ≥ enough, ∃ e' s',
    expression (start (productTokens ++ [⟨.endOfInput, "", {}⟩]) {} maxDepth) = (e', s') ∧
    e'.unlined = productTree ∧ s'.log = {} ∧ s'.upcoming = [⟨.endOfInput, "", {}⟩] := by
  have hplain : productTree.Plain :=
    .binary (.binary .name .name) (.element .name (.unary .literal))
  exact expression_reads hplain (show Spells productTokens productTree.words by rfl) rfl {}

end JMinusMinus.Grammar
