import JMinusMinus.Proofs.Parse.Moves

/-!
# Runs that take a dotted name

`Passes levels x i a r` says that the rule `x` takes the tokens `i` up to `r` and returns `a`, from
every state with nothing to recover from and with so many levels left. Nothing is reported.

A dotted name takes no level, however long it is. So it is an expression with two levels to spare,
one for the expression and one for the operand (`initializer_passes`).
-/

namespace JMinusMinus.Grammar

variable {kind : Kind} {bound : Nat} {rules : Rules} {s : State}

variable {α β : Type} {levels : Nat} {i j r : List Token} {t u : Token}

/-- A parse that stands on tokens and has nothing to recover from. -/
structure State.On (i : List Token) (s : State) : Prop where
  upcoming : s.upcoming = i
  size : s.cursor.position + i.length = s.size
  recovered : s.recovered = true

/-- Two states that differ in where they stand and in what went wrong before. -/
structure State.Like (s s' : State) : Prop where
  depth : s'.depth = s.depth
  maxDepth : s'.maxDepth = s.maxDepth
  size : s'.size = s.size
  log : s'.log = s.log

/-- A rule takes tokens without a report. -/
def Passes (levels : Nat) (x : Parser α) (i : List Token) (a : α) (r : List Token) : Prop :=
  ∀ s : State, s.On i → s.depth + levels ≤ s.maxDepth → ∃ s' : State, x s = (a, s') ∧ s'.On r ∧
    s.Like s'

theorem State.Like.rfl : s.Like s := ⟨Eq.refl _, Eq.refl _, Eq.refl _, Eq.refl _⟩

theorem State.Like.trans (h : s.Like s') (h' : s'.Like s'') : s.Like s'' :=
  ⟨h'.depth.trans h.depth, h'.maxDepth.trans h.maxDepth, h'.size.trans h.size, h'.log.trans h.log⟩

theorem State.On.next (h : s.On (t :: u :: r)) : s.next.On (u :: r) := by
  obtain ⟨htoken, hfollowing⟩ := List.cons.inj h.upcoming
  refine ⟨?_, ?_, h.recovered⟩
  · simp [State.upcoming, State.next, Cursor.next, hfollowing]
  · have := h.size
    simp [State.next, Cursor.next, hfollowing] at this ⊢
    omega

namespace Passes

theorem pure {a : α} : Passes levels (pure a) i a i := fun s hs _ => ⟨s, rfl, hs, .rfl⟩

theorem bind {x : Parser β} {f : β → Parser α} {a : α} {b : β} (hx : Passes levels x i b j)
    (hf : Passes levels (f b) j a r) : Passes levels (x >>= f) i a r := by
  intro s hs hd
  obtain ⟨s', hrun, hs', hlike⟩ := hx s hs hd
  obtain ⟨s'', hrun', hs'', hlike'⟩ := hf s' hs' (by rwa [hlike.depth, hlike.maxDepth])
  refine ⟨s'', ?_, hs'', hlike.trans hlike'⟩
  change f (x s).1 (x s).2 = _
  rw [hrun]
  exact hrun'

theorem map {f : β → α} (hx : Passes levels x i b r) : Passes levels (f <$> x) i (f b) r := by
  rw [map_eq_pure_bind]
  exact .bind hx .pure

/-! ## Tokens -/

theorem look {f : β → Parser α} (g : List Token → β) (hx : ∀ s, x s = (g s.upcoming, s))
    (hf : Passes levels (f (g i)) i a r) : Passes levels (x >>= f) i a r := by
  refine .bind (fun s hs _ => ⟨s, ?_, hs, .rfl⟩) hf
  rw [hx s, hs.upcoming]

theorem currentLine {f : Nat → Parser α} (hf : Passes levels (f (firstLine i)) i a r) :
    Passes levels (currentLine >>= f) i a r := .look firstLine (fun _ => rfl) hf

theorem currentKind {f : Kind → Parser α} (hf : Passes levels (f (ahead i)) i a r) :
    Passes levels (currentKind >>= f) i a r := .look ahead (fun _ => rfl) hf

theorem upcoming {f : List Token → Parser α} (hf : Passes levels (f i) i a r) :
    Passes levels (upcoming >>= f) i a r := .look id (fun _ => rfl) hf

theorem remaining {f : Nat → Parser α} (hf : Passes levels (f i.length) i a r) :
    Passes levels (remaining >>= f) i a r := by
  refine .bind (fun s hs _ => ⟨s, ?_, hs, .rfl⟩) hf
  change (s.size - s.cursor.position, s) = _
  rw [← hs.size, Nat.add_sub_cancel_left]

theorem seen (hk : ahead i = kind) (hx : Passes levels x i a r) :
    Passes levels (sees kind >>= fun b => if b = true then x else y) i a r :=
  .look (fun i => ahead i == kind) (fun _ => rfl) (by simpa [hk] using hx)

theorem unseen (hk : ahead i ≠ kind) (hy : Passes levels y i a r) :
    Passes levels (sees kind >>= fun b => if b = true then x else y) i a r :=
  .look (fun i => ahead i == kind) (fun _ => rfl) (by simpa [hk] using hy)

theorem advance {f : Unit → Parser α} (hf : Passes levels (f ()) (u :: j) a r) :
    Passes levels (advance >>= f) (t :: u :: j) a r :=
  .bind (fun s hs _ => ⟨s.next, rfl, hs.next, ⟨rfl, rfl, rfl, rfl⟩⟩) hf

theorem accepted {x y : Parser α} {a : α} (hk : t.kind = kind) (hx : Passes levels x (u :: j) a r) :
    Passes levels (accept kind >>= fun b => if b = true then x else y) (t :: u :: j) a r := by
  have htaken : Passes levels (accept kind) (t :: u :: j) true (u :: j) := .seen hk (.advance .pure)
  exact .bind htaken hx

theorem unaccepted (hk : ahead i ≠ kind) (hy : Passes levels y i a r) :
    Passes levels (accept kind >>= fun b => if b = true then x else y) i a r := by
  have hleft : Passes levels (accept kind) i false i := .unseen hk .pure
  exact .bind hleft hy

theorem required (hk : t.kind = kind) : Passes levels (require kind) (t :: u :: r) () (u :: r) := by
  intro s hs _
  refine ⟨{ s.next with recovered := true }, ?_, ⟨hs.next.upcoming, hs.next.size, rfl⟩,
    ⟨rfl, rfl, rfl, rfl⟩⟩
  have hkind : s.cursor.kind = kind := (congrArg Token.kind (List.cons.inj hs.upcoming).1).trans hk
  rw [require_eq, if_pos hkind]
  rfl

theorem require {f : Unit → Parser α} {a : α} (hk : t.kind = kind)
    (hf : Passes levels (f ()) (u :: j) a r) :
    Passes levels (require kind >>= f) (t :: u :: j) a r := .bind (.required hk) hf

theorem requiredEnd (hk : t.kind = .endOfInput) :
    Passes levels (Grammar.require .endOfInput) [t] () [t] := by
  intro s hs _
  obtain ⟨htoken, hfollowing⟩ := List.cons.inj hs.upcoming
  have hkind : s.cursor.kind = .endOfInput := (congrArg Token.kind htoken).trans hk
  refine ⟨{ s with cursor := s.cursor.next, recovered := true }, ?_, ⟨?_, ?_, rfl⟩,
    ⟨rfl, rfl, rfl, rfl⟩⟩
  · rw [require_eq, if_pos hkind]
  · simp [State.upcoming, Cursor.next, hfollowing, htoken]
  · simpa [Cursor.next, hfollowing] using hs.size

theorem identifier (hk : t.kind = .identifier) :
    Passes levels identifier (t :: u :: r) t.lexeme (u :: r) := by
  intro s hs hd
  obtain ⟨htoken, hfollowing⟩ := List.cons.inj hs.upcoming
  have hkind : s.cursor.kind = .identifier := (congrArg Token.kind htoken).trans hk
  refine ⟨{ s.next with recovered := true }, ?_, ⟨hs.next.upcoming, hs.next.size, rfl⟩,
    ⟨rfl, rfl, rfl, rfl⟩⟩
  have hrun : Grammar.identifier s =
      (if (Grammar.require .identifier s).2.cursor.previous.kind = .identifier
        then (Grammar.require .identifier s).2.cursor.previous.lexeme else "",
        (Grammar.require .identifier s).2) := rfl
  have hprevious : s.cursor.next.previous = t := by simp [Cursor.next, hfollowing, htoken]
  rw [hrun, require_eq, if_pos hkind]
  dsimp only
  rw [hprevious, if_pos hk]
  rfl

/-! ## Depth and loops -/

theorem nested {fallback a : α} {rule : Parser α} (h : Passes levels rule i a r) :
    Passes (levels + 1) (nested fallback rule) i a r := by
  intro s hs hd
  let down : State := { s with depth := s.depth + 1 }
  have hdown : Grammar.descend s = (true, down) := by
    rw [descend_eq, if_pos (by omega)]
  have hlevels : down.depth + levels ≤ down.maxDepth := by
    change s.depth + 1 + levels ≤ s.maxDepth
    omega
  obtain ⟨s', hrun, hs', hlike⟩ := h down ⟨hs.upcoming, hs.size, hs.recovered⟩ hlevels
  refine ⟨(ascend 1 s').2, ?_, ⟨hs'.upcoming, hs'.size, hs'.recovered⟩,
    ⟨?_, hlike.maxDepth, hlike.size, hlike.log⟩⟩
  · have hstart : Grammar.nested fallback rule s =
        (rule >>= fun a => ascend 1 >>= fun _ => Pure.pure a) down := by
      change (if (Grammar.descend s).1 = true then _ else _ : Parser α) (Grammar.descend s).2 = _
      rw [hdown]
      rfl
    rw [hstart]
    change (ascend 1 >>= fun _ => Pure.pure (rule down).1) (rule down).2 = _
    rw [hrun]
    rfl
  · change s'.depth - 1 = s.depth
    rw [hlike.depth]
    rfl

theorem noLevels {f : Unit → Parser α} (hf : Passes levels (f ()) i a r) :
    Passes levels (ascend 0 >>= f) i a r := by
  refine .bind (fun s hs _ => ⟨s, ?_, hs, .rfl⟩) hf
  change ((), { s with depth := s.depth - 0, stuck := s.stuck || decide (s.depth < 0) }) = _
  simp

theorem noMore (hk : ahead i ≠ separator) :
    Passes levels (afterEach separator item (bound + 1)) i [] i := .unaccepted hk .pure

theorem oneOf (h : Passes levels item i a (t :: r)) (hk : t.kind ≠ .comma) :
    Passes levels (commaSeparated item) i [a] (t :: r) :=
  .bind h (.remaining (.bind (.noMore hk) .pure))

theorem oneItem {ends : Kind → Bool} (hgo : ends (ahead i) = false) (hi : ahead i ≠ .endOfInput)
    (h : Passes levels item i a (t :: r)) (hlength : (t :: r).length < i.length)
    (hend : ends t.kind || t.kind = .endOfInput) :
    Passes levels (itemsUntil ends item) i [a] (t :: r) := by
  obtain ⟨bound, hbound⟩ : ∃ bound, i.length = bound + 2 :=
    ⟨i.length - 2, by simp at hlength; omega⟩
  have hstop : Passes levels (itemsWithin ends item (bound + 1)) (t :: r) [] (t :: r) := by
    refine .currentKind ?_
    rw [show ahead (t :: r) = t.kind from rfl, if_pos (by simpa using hend)]
    exact .pure
  refine .remaining ?_
  rw [hbound]
  refine .currentKind ?_
  rw [if_neg (by simp [hgo, hi])]
  intro s hs hd
  obtain ⟨s', hrun, hs', hlike⟩ := h s hs hd
  have hmoved : s'.cursor.position ≠ s.cursor.position := by
    have := hs.size
    have := hs'.size
    have := hlike.size
    omega
  obtain ⟨s'', hrun', hs'', hlike'⟩ := hstop s' hs' (by rwa [hlike.depth, hlike.maxDepth])
  have hprogress : ensureProgress s.cursor.position s' = ((), s') := by
    change (if s'.cursor.position = s.cursor.position ∧ s'.cursor.kind ≠ .endOfInput
      then Grammar.advance else Pure.pure () : Parser Unit) s' = _
    rw [if_neg fun h => hmoved h.1]
    rfl
  refine ⟨s'', ?_, hs'', hlike.trans hlike'⟩
  change (ensureProgress s.cursor.position >>= fun _ => itemsWithin ends item (bound + 1) >>=
    fun xs => Pure.pure ((item s).1 :: xs)) (item s).2 = _
  rw [hrun]
  change (itemsWithin ends item (bound + 1) >>= fun xs => Pure.pure (a :: xs))
    (ensureProgress s.cursor.position s').2 = _
  rw [hprogress]
  change (a :: (itemsWithin ends item (bound + 1) s').1,
    (itemsWithin ends item (bound + 1) s').2) = _
  rw [hrun']

end Passes

/-! ## Names as expressions -/

/-- Points with words after them, up to a semicolon. -/
inductive Dotted (stop : Token) (r : List Token) : List String → List Token → Prop
  | stop : Dotted stop r [] (stop :: r)
  | more {words : List String} {point word : Token} {i : List Token} (hpoint : point.kind = .dot)
      (hword : word.kind = .identifier) (h : Dotted stop r words i) :
      Dotted stop r (word.lexeme :: words) (point :: word :: i)

section Names

variable {stop word : Token} {words : List String} (hstop : stop.kind = .semicolon)
  (hword : word.kind = .identifier) (h : Dotted stop r words i)

include h in
theorem Dotted.length : words.length < i.length := by
  induction h with
  | stop => exact Nat.succ_pos _
  | more _ _ _ ih => exact Nat.lt_succ_of_lt (Nat.succ_lt_succ ih)

include h in
theorem identifier_dotted (hword : word.kind = .identifier) :
    Passes levels identifier (word :: i) word.lexeme i := by
  cases h with
  | stop => exact .identifier hword
  | more => exact .identifier hword

include hstop h in
theorem selections_passes (hbound : words.length < bound) :
    Passes levels (afterEach .dot identifier bound) i words (stop :: r) := by
  induction h generalizing bound with
  | stop =>
    obtain ⟨bound, rfl⟩ := Nat.exists_eq_succ_of_ne_zero (Nat.ne_of_gt hbound)
    exact .noMore (show stop.kind ≠ _ by simp [hstop])
  | more hpoint hword h ih =>
    obtain ⟨bound, rfl⟩ := Nat.exists_eq_succ_of_ne_zero (Nat.ne_of_gt (Nat.zero_lt_of_lt hbound))
    refine .accepted hpoint (.bind (identifier_dotted h hword) ?_)
    exact .bind (ih (Nat.lt_of_succ_lt_succ hbound)) .pure

include hstop hword h in
theorem qualifiedName_passes : Passes levels qualifiedName (word :: i)
    ⟨word.location.line, word.lexeme :: words⟩ (stop :: r) := by
  refine .currentLine (.bind (identifier_dotted h hword) (.remaining ?_))
  exact .bind (selections_passes hstop h h.length) .pure

/-- A rule that takes a name and stands before the semicolon. -/
abbrev TakesName (levels : Nat) (x : Parser Expr) (word : Token) (i : List Token)
    (words : List String) (j : List Token) : Prop :=
  Passes levels x (word :: i) (.name (plain word.location.line) (word.lexeme :: words)) j

include hstop hword h in
theorem primary_passes (rules : Rules) :
    TakesName levels rules.primary word i words (stop :: r) := by
  have hnot {kind : Kind} (hk : kind ≠ .identifier) : ahead (word :: i) ≠ kind := fun heq =>
    hk (heq.symm.trans hword)
  refine .currentLine (.unseen (hnot (by decide)) (.unaccepted (hnot (by decide)) ?_))
  refine .unaccepted (hnot (by decide)) (.unaccepted (hnot (by decide)) (.seen hword ?_))
  refine .bind (qualifiedName_passes hstop hword h) (.unseen ?_ .pure)
  exact show stop.kind ≠ _ by simp [hstop]

end Names

/-! ## Rules that find no operator -/

section Operators

variable {stop : Token} {e : Expr} (hstop : stop.kind = .semicolon)

include hstop in
theorem ahead_stop (hk : kind ≠ .semicolon) : ahead (stop :: r) ≠ kind := fun heq =>
  hk (heq.symm.trans hstop)

include hstop in
theorem postfixed_passes (h : Passes levels rules.primary i e (stop :: r)) :
    Passes levels rules.postfixed i e (stop :: r) := by
  have hdot : (ahead (stop :: r) == .dot) = false := by simp [ahead, hstop]
  have hbracket : (ahead (stop :: r) == .leftBracket) = false := by simp [ahead, hstop]
  have hselections : Passes levels (rules.selections (r.length + 1) 0 e) (stop :: r) (e, 0)
      (stop :: r) := by
    refine .look (fun i => ahead i == .dot) (fun _ => rfl) ?_
    refine .look (fun i => ahead i == .leftBracket) (fun _ => rfl) ?_
    rw [hdot, hbracket]
    exact .pure
  have hsteps (line : Nat) : Passes levels (Rules.postfixSteps line (r.length + 1) 0 e) (stop :: r)
      (e, 0) (stop :: r) := by
    refine .look (fun i => ahead i == .decrement) (fun _ => rfl) ?_
    refine .look (fun i => ahead i == .increment) (fun _ => rfl) ?_
    rw [show (ahead (stop :: r) == .decrement) = false by simp [ahead, hstop],
      show (ahead (stop :: r) == .increment) = false by simp [ahead, hstop]]
    exact .pure
  refine .currentLine (.bind h (.remaining (.bind hselections (.remaining ?_))))
  exact .bind (hsteps _) (.noLevels .pure)

theorem unaryRule_passes {word : Token} (hword : word.kind = .identifier)
    (h : Passes levels rules.postfixed (word :: i) e r) :
    Passes (levels + 1) rules.unaryRule (word :: i) e r := by
  have hnot {kind : Kind} (hk : kind ≠ .identifier) : ahead (word :: i) ≠ kind := fun heq =>
    hk (heq.symm.trans hword)
  have hcast : Lookahead.startsCast (word :: i) = false := by
    obtain ⟨kind, lexeme, location⟩ := word
    subst hword
    rfl
  refine .currentLine (.nested ?_)
  refine .unaccepted (hnot (by decide)) (.unaccepted (hnot (by decide)) ?_)
  refine .unaccepted (hnot (by decide)) (.unaccepted (hnot (by decide)) ?_)
  refine .currentLine (.unaccepted (hnot (by decide)) (.unaccepted (hnot (by decide)) ?_))
  refine .upcoming ?_
  rw [hcast]
  exact h

include hstop in
theorem leftGrouping_passes {ops : List (Kind × BinaryOp)} (hops : ops.lookup .semicolon = none)
    (h : Passes levels operand i e (stop :: r)) :
    Passes levels (leftGrouping ops operand) i e (stop :: r) := by
  have hnone (line : Nat) : Passes levels (chain ops operand line (r.length + 1) 0 e) (stop :: r)
      (e, 0) (stop :: r) := by
    have hoperator : Passes levels (acceptOperator ops) (stop :: r) none (stop :: r) := by
      refine .currentKind ?_
      rw [show ahead (stop :: r) = .semicolon from hstop, hops]
      exact .pure
    exact .bind hoperator .pure
  exact .currentLine (.bind h (.remaining (.bind (hnone _) (.noLevels .pure))))

include hstop in
theorem relational_passes (h : Passes levels rules.unaryRule i e (stop :: r)) :
    Passes levels rules.relational i e (stop :: r) := by
  have hshift : Passes levels rules.shift i e (stop :: r) :=
    leftGrouping_passes hstop rfl (leftGrouping_passes hstop rfl (leftGrouping_passes hstop rfl h))
  have hoperator : Passes levels (acceptOperator
      [(.greater, .gt), (.lessEqual, .le), (.greaterEqual, .ge), (.less, .lt)]) (stop :: r) none
      (stop :: r) := by
    refine .currentKind ?_
    rw [show ahead (stop :: r) = .semicolon from hstop]
    exact .pure
  refine .currentLine (.bind hshift (.unaccepted (ahead_stop hstop (by decide)) ?_))
  exact .bind hoperator .pure

include hstop in
theorem binaryFrom_passes (h : Passes levels rules.unaryRule i e (stop :: r)) :
    ∀ {ops}, (∀ o ∈ ops, o.lookup .semicolon = none) →
      Passes levels (rules.binaryFrom ops) i e (stop :: r)
  | [], _ => relational_passes hstop h
  | _ :: _, hops => by
    rw [List.forall_mem_cons] at hops
    exact leftGrouping_passes hstop hops.1 (binaryFrom_passes h hops.2)

include hstop in
theorem expressionRule_passes (h : Passes levels rules.unaryRule i e (stop :: r)) :
    Passes (levels + 1) rules.expressionRule i e (stop :: r) := by
  have hconditional : Passes levels rules.conditionalRule i e (stop :: r) :=
    .currentLine (.bind (binaryFrom_passes hstop h (by decide))
      (.unaccepted (ahead_stop hstop (by decide)) .pure))
  refine .currentLine (.nested (.currentLine (.bind hconditional (.currentKind ?_))))
  rw [show ahead (stop :: r) = .semicolon from hstop]
  exact .pure

end Operators

theorem initializer_passes {stop word : Token} (hstop : stop.kind = .semicolon)
    (hword : word.kind = .identifier) (h : Dotted stop r words i) :
    TakesName (levels + 2) (initializer ty) word i words (stop :: r) := by
  have hbrace : ahead (word :: i) ≠ .leftBrace := fun heq => by
    cases heq.symm.trans hword
  refine .remaining (.unseen hbrace (expressionRule_passes hstop ?_))
  exact unaryRule_passes hword (postfixed_passes hstop (primary_passes hstop hword h _))

end JMinusMinus.Grammar
