import JMinusMinus.Proofs.Parse.Rules
import JMinusMinus.Proofs.Written.Tokens

/-!
# Rules for statements and declarations

Rules for statements and declarations read phrases of their categories, like those for expressions.
A statement is one node higher than an expression with as many levels left can be, since a statement
inside another one has a level less.

Two rules could pass over wrong text in silence.

* A loop skips a token if its item took none (`ensureProgress`). The items of every loop have at
  least one token, so this never happens without a report (`Moves.turn`, `Category.least`).
* An expression without an effect is reported only if it does not stand for wrong text already. No
  phrase has such a tree (`Derives.tame`).

The labels of a switch are the exception among the loops: the first one may be missing, and from
then on the loop goes on only where a label stands (`Moves.switchLabelsSeen`).

The loop over the types of a unit stops only where the input ends. Where the list holds no other
end of input, that is its last token, so every parse ends at the end of input (`parse_ends`).
-/

namespace JMinusMinus.Grammar

open List

variable {α : Type} {ts : List Token} {P : Kind → Prop} {n d : Nat}

/-- No token but the last is an end of input. -/
def EndsOnce (tokens : List Token) : Prop := ∀ t ∈ tokens.dropLast, t.kind ≠ .endOfInput

theorem State.Sound.left_eq_zero {s : State} (h : s.Sound ts) (hts : EndsOnce ts)
    (hk : s.cursor.kind = .endOfInput) : s.left = 0 := by
  refine Nat.eq_zero_of_not_pos fun hpos => ?_
  obtain ⟨t, rest, hf⟩ := exists_cons_of_length_pos hpos
  have hlength := h.length_eq
  have hget : ts.dropLast[s.cursor.position]? = some s.cursor.token := by
    rw [getElem?_dropLast, if_pos (by omega), ← head?_drop, h.place, head?_cons]
  exact hts _ (mem_of_getElem? hget) hk

/-! ## Bounds -/

/-- A first value that is bounded by the levels left, if there is one. -/
abbrev InitLow (q : Nat) (d : Declarator) : Prop := ∀ e ∈ d.init, e.height ≤ reach q

/-- A label whose value is bounded by the levels left, if it has one. -/
abbrev LabelLow (q : Nat) (l : SwitchLabel) : Prop := ∀ e ∈ l.expr?, e.height ≤ reach q

/-- A statement that is bounded by the levels left. -/
abbrev StmtLow (q : Nat) (s : Stmt) : Prop := s.height ≤ reach q + 1

/-- A statement that is bounded by the levels left to its parts. -/
abbrev FormLow (q : Nat) (s : Stmt) : Prop := s.height ≤ reach q + 2

/-- A block whose height is bounded by the levels left. -/
abbrev BlockLow (q : Nat) (b : Block Stmt) : Prop :=
  Stmt.rankBlock (· + 1) Expr.height b ≤ reach q + 1

/-- A group of a switch whose height is bounded by the levels left. -/
abbrev GroupLow (q : Nat) (g : SwitchGroup Stmt) : Prop :=
  (∀ e ∈ g.labels.filterMap SwitchLabel.expr?, e.height ≤ reach q + 1) ∧ ∀ s ∈ g.stmts, StmtLow q s

/-- A member whose height is bounded by the levels left. -/
abbrev MemberLow (q : Nat) (m : Member) : Prop := m.rank (· + 1) Expr.height ≤ reach q + 1

namespace Moves

/-! ## Expressions as statements, variables -/

theorem statementExpression : Low ts P n reach .statementExpression statementExpression := by
  refine .bind .expression fun e => .ite (fun heffect => ?_) fun _ => .ite (fun hwild => ?_)
    fun _ => ?_
  · refine .pure (fun q he => ?_) fun r i inner => .statementExpression inner
      (asStatement_of heffect)
    rwa [Expr.asStatement, Expr.height_withNote]
  · -- No tree that was derived stands for wrong text.
    refine .pure (fun _ => id) fun r i inner => ?_
    have htame : e.isWild = false := inner.tame
    rw [hwild] at htame
    cases htame
  · exact .complain rfl (.pure (fun _ => id) fun _ => trivial)

theorem statementExpressions : Parses ts P n (fun q ss => ∀ s ∈ ss, StmtLow q s)
    (.list .expressionStatement) statementExpressions := by
  have hitem {P : Kind → Prop} {n : Nat} : Parses ts P n StmtLow .expressionStatement (do
      let line ← Grammar.currentLine
      return Stmt.exprStmt line (← Grammar.statementExpression)) := by
    refine .currentLine fun line => .bind .statementExpression fun e =>
      .pure (fun q he => Nat.succ_le_succ he) ?_
    rintro r i inner rfl
    exact .expressionStatement inner
  exact .commaSeparated hitem hitem

theorem condition : Low ts P n reach .condition condition :=
  .require (by decide) (.bind .expression fun _ => .require (by decide) (.pure (fun _ => id)
    fun _ _ closing _ inner _ opening => .condition opening inner closing))

theorem declarator (ty : Ty) : Parses ts P n InitLow (.declarator ty) (declarator ty) := by
  refine .currentLine fun line => .skip .identifier fun name => .remaining fun bound k _ hbound =>
    ?_
  refine .skip (.arrayLevels bound ty k hbound) fun ty' => .joined ?_
  refine .bind (.option (c := .initializer ty') (by decide) (.initializer ty')) fun init =>
    .pure (fun _ => id) ?_
  rintro r k value j levels i word rfl
  exact .declarator word levels value

theorem declarators (ty : Ty) : Parses ts P n (fun q ds => ∀ d ∈ ds, InitLow q d)
    (.list (.declarator ty)) (declarators ty) :=
  .commaSeparated (.declarator ty) (.declarator ty)

theorem locals : Parses ts P n StmtLow .locals locals := by
  refine .currentLine fun line => .skip .type fun ty => .bind (.declarators ty) fun vars =>
    .pure (fun q hvars => ?_) ?_
  · refine Nat.succ_le_succ (peak_le_iff.2 fun e he => ?_)
    obtain ⟨d, hd, hinit⟩ := mem_filterMap.1 he
    exact hvars d hd e hinit
  · rintro r j names i type rfl
    exact .locals type names

theorem parameter : Parses ts P n unbounded .parameter parameter := by
  refine .currentLine fun line => .skip .type fun ty => .skip .identifier fun name =>
    .pure (fun _ => trivial) ?_
  rintro r j word i type rfl
  exact .parameter type word

/-! ## Parts of statements -/

theorem jumpWords : ∀ bound k, k ≤ bound →
    Parses ts P k unbounded .jumpWords (jumpWords bound) := by
  intro bound
  induction bound generalizing P with
  | zero => exact fun k hbound => .outOfBound (by omega)
  | succ bound ih =>
    intro k hbound
    rw [Grammar.jumpWords]
    refine .accept (by decide) (.pure (fun _ => trivial) fun r i => .jumpWordsEnd) (.sees ?_ ?_)
    · exact (Moves.required (by decide)).reading fun i _ r closing _ _ => .jumpWordsEnd closing
    · refine .turn (.required (by decide)) (fun _ h => h.2) (fun i _ j word => ?_) fun _ => ?_
      · have := word.length
        omega
      · refine (ih (k - 1) (by omega)).imp (fun _ _ h _ => h) ?_
        exact fun j _ r more i word _ _ => .jumpWordsMore word more

theorem labelFrom (he : e ≤ 1) (h : Moves ts (fun j => P j ∧ j ≠ .kwCase) n e level
    unbounded (fun i _ r => Starts .kwDefault i r) (Grammar.require .kwDefault)) :
    Moves ts P n e level LabelLow (Derives .switchLabel) switchLabel := by
  refine .currentLine fun line => .accept (by decide) ?_ (.skipAfter e h fun _ => ?_)
  · rw [show e - 1 = 0 by omega]
    refine .bind .expression fun e => .require (by decide) (.pure (fun q he => ?_) ?_)
    · simpa [LabelLow, SwitchLabel.expr?] using he
    · exact fun r k colon j value i word _ => .caseLabel word value colon
  · rw [Nat.sub_self]
    refine .require (by decide) (.pure (fun _ => nofun) ?_)
    rintro r j colon i word - rfl
    exact .defaultLabel word colon

theorem labelsFrom (h : Moves ts P n e level LabelLow (Derives .switchLabel) switchLabel)
    (hrest : Parses ts (fun j => j = .kwCase ∨ j = .kwDefault) (n - e)
      (fun q ls => ∀ l ∈ ls, LabelLow q l) .switchLabels (switchLabels bound)) :
    Parses ts P n (fun q ls => ∀ l ∈ ls, LabelLow q l) .switchLabels
      (switchLabels (bound + 1)) := by
  refine .bindAfter e h fun l => ?_
  rw [Nat.zero_sub]
  refine .seesEither (.bind hrest fun ls => .pure ?_ ?_) (.pure ?_ ?_)
  · exact fun q hls hl => forall_mem_cons.2 ⟨hl, hls⟩
  · exact fun r j tail another i head => .labelsMore head another tail
  · exact fun q hl => forall_mem_cons.2 ⟨hl, nofun⟩
  · exact fun r hcase hdefault i head => .labelsLast head hcase hdefault

theorem switchLabelsSeen : ∀ bound k, k ≤ bound + 1 →
    Parses ts (fun j => j = .kwCase ∨ j = .kwDefault) k (fun q ls => ∀ l ∈ ls, LabelLow q l)
      .switchLabels (switchLabels bound) := by
  intro bound
  induction bound with
  | zero =>
    intro k hbound
    refine ⟨.outOfBound, fun s h hleft hk => ?_⟩
    have heof := h.kind_eq_of_left_eq_zero (by omega)
    rw [heof] at hk
    rcases hk with hk | hk <;> cases hk
  | succ bound ih =>
    intro k hbound
    refine .labelsFrom (.labelFrom (Nat.le_refl 1) (.requiredSeen (by decide) ?_))
      (ih (k - 1) (by omega))
    rintro j ⟨rfl | rfl, hj⟩
    · exact absurd rfl hj
    · rfl

theorem switchLabels (bound k : Nat) (hbound : k ≤ bound) :
    Parses ts P k (fun q ls => ∀ l ∈ ls, LabelLow q l) .switchLabels
      (Grammar.switchLabels bound) := by
  cases bound with
  | zero => exact .outOfBound (by omega)
  | succ bound =>
    exact .labelsFrom (.labelFrom (Nat.zero_le 1) (.required (by decide)))
      (.switchLabelsSeen bound k hbound)

theorem forInit : Parses ts P n (fun q ss => ∀ s ∈ ss, StmtLow q s) .forInit forInit := by
  refine .upcoming fun t rest => .ite (fun hlook => ?_) fun hlook => ?_
  · refine .bind .locals fun s => .pure (fun q hs => forall_mem_cons.2 ⟨hs, nofun⟩) ?_
    rintro r i declared rfl
    exact .forLocals ((Lookahead.startsLocals_iff _).1 hlook) declared
  · refine statementExpressions.reading ?_
    rintro i ss r done rfl
    exact .forExpressions (Lookahead.not_of_iff (Lookahead.startsLocals_iff _) hlook) done

/-! ## Statements -/

section Inner

variable {inner : Parser Stmt}

theorem blockStatement (h : Parses ts anywhere n StmtLow .statement inner) :
    Parses ts anywhere n StmtLow .blockStatement (blockStatement inner) := by
  refine .upcoming fun t rest => .ite (fun hlook => ?_) fun hlook => ?_
  · refine .bind .locals fun s => .require (by decide) (.pure (fun _ => id) ?_)
    rintro r j closing i declared rfl
    exact .localsStatement ((Lookahead.startsLocals_iff _).1 hlook) declared closing
  · refine (h.fewer (Nat.le_refl _)).reading ?_
    rintro i s r inner rfl
    exact .otherStatement (Lookahead.not_of_iff (Lookahead.startsLocals_iff _) hlook) inner

theorem blockFrom (h : Parses ts P n (fun q ss => ∀ s ∈ ss, StmtLow q s)
    (.braced .blockStatement) (Grammar.braced (Grammar.blockStatement inner))) :
    Parses ts P n BlockLow .block (blockOf inner) := by
  refine .currentLine fun line => .bind h fun ss => .pure
    (fun q hss => Stmt.rankBlock_le_iff.2 hss) ?_
  rintro r i inner rfl
  exact .block inner

theorem blockOf (h : Parses ts anywhere n StmtLow .statement inner) :
    Parses ts P n BlockLow .block (blockOf inner) :=
  .blockFrom (.braced (.blockStatement h) rfl)

theorem switchGroup (h : Parses ts anywhere n StmtLow .statement inner) :
    Parses ts anywhere n GroupLow .switchGroup (switchGroup inner) := by
  refine .remaining fun bound k hn hbound => .bind (.switchLabels bound k hbound) fun labels => ?_
  refine .bind (.itemsUntil (.blockStatement (h.fewer hn)) rfl) fun ss => .pure ?_ ?_
  · refine fun q hss hlabels => ⟨fun e he => ?_, hss⟩
    obtain ⟨l, hl, hexpr⟩ := mem_filterMap.1 he
    exact Nat.le_succ_of_le (hlabels l hl e hexpr)
  · exact fun r j inner i head => .switchGroup head inner

theorem catchClauses (h : Parses ts anywhere (n - 1) StmtLow .statement inner) :
    ∀ bound k, k ≤ n → k ≤ bound → Parses ts P k (fun q cs => ∀ c ∈ cs, BlockLow q c.body)
      .catchClauses (catchClauses inner bound) := by
  intro bound
  induction bound generalizing P with
  | zero => exact fun k _ hbound => .outOfBound (by omega)
  | succ bound ih =>
    intro k hn hbound
    rw [Grammar.catchClauses]
    refine .sees (.currentLine fun line => .advance (fun _ hj => hj.2 ▸ by decide)
      (.require (by decide) ?_)) (.pure (fun _ => nofun) fun i => .catchNone)
    refine .skip .parameter fun param => .require (by decide)
      (.bind (.blockOf (h.fewer (by omega))) fun body => ?_)
    refine .bind (ih (k - 1) (by omega) (by omega)) fun cs => .pure ?_ ?_
    · exact fun q hcs hbody => forall_mem_cons.2 ⟨hbody, hcs⟩
    · rintro r n more m handler l closing k caught j opening t ht rfl -
      exact .catchMore ⟨t, rfl, ht.2⟩ opening caught closing handler more

theorem forStatement (h : Parses ts anywhere n StmtLow .statement inner) (line : Nat) :
    Parses ts anywhere n FormLow (.forStatement line) (forStatement inner line) := by
  refine .require (by decide) (.joined (.bind (.upTo (fun _ => by simp) .forInit) fun init =>
    .require (by decide) (.joined ?_)))
  have htest : Parses ts anywhere n (fun q o => ∀ e ∈ o, e.height ≤ reach q) .test
      (some <$> Grammar.expression) :=
    .map .expression (fun q e he => by simpa using he) fun i e r inner => .test inner
  refine .bind (.upTo (fun _ => by simp) htest) fun test => .require (by decide) (.joined ?_)
  refine .bind (.upTo (fun _ => by simp) .statementExpressions) fun update => .require (by decide)
    (.bind h fun body => .pure ?_ ?_)
  · intro q hbody hupdate htest hinit
    refine Nat.succ_le_succ (Nat.max_le.2 ⟨Nat.max_le.2 ⟨?_, ?_⟩, Nat.max_le.2 ⟨?_, hbody⟩⟩)
    · exact Stmt.rankOf_le_iff.2 hinit
    · exact peak_le_iff.2 fun e he => Nat.le_succ_of_le (htest e (Option.mem_toList.1 he))
    · exact Stmt.rankOf_le_iff.2 hupdate
  · exact fun r q repeated n closing m third l two k second j one i first _ opening =>
      .forStatement opening first one second two third closing repeated

theorem rankBlock?_le (h : ∀ b ∈ o, BlockLow q b) :
    Stmt.rankBlock? (· + 1) Expr.height o ≤ reach q + 1 := by
  cases o with
  | none => exact Nat.zero_le _
  | some b => exact h b rfl

theorem tryStatement (h : Parses ts anywhere n StmtLow .statement inner) (line : Nat) :
    Parses ts anywhere n FormLow (.tryStatement line) (tryStatement inner line) := by
  refine .bind (.blockOf h) fun body => .remaining fun bound k hn hbound => ?_
  refine .bind (.catchClauses (h.fewer (Nat.sub_le _ _)) bound k hn hbound) fun catches =>
    .joined ?_
  refine .bind (.option (by decide) (.blockOf (h.fewer (by omega)))) fun final => ?_
  have hlow {q : Nat} (hfinal : ∀ b ∈ final, BlockLow q b)
      (hcatches : ∀ c ∈ catches, BlockLow q c.body) (hbody : BlockLow q body) :
      FormLow q (.tryStmt line body catches final) := Nat.succ_le_succ (Nat.max_le.2
    ⟨hbody, Nat.max_le.2 ⟨Stmt.rankCatches_le_iff.2 hcatches, rankBlock?_le hfinal⟩⟩)
  refine .ite (fun _ => .current fun t => .complain rfl (.pure (fun _ => hlow) fun _ => trivial))
    fun hhandled => .pure (fun _ => hlow) ?_
  exact fun r k last j handlers i tried => .tryStatement tried handlers last hhandled

theorem statementForm (h : Parses ts anywhere (n - 1) StmtLow .statement inner) (line : Nat) :
    Parses ts P n FormLow (.statementForm line) (statementForm inner line) := by
  -- A leaf, and a statement with one expression below it.
  have hleaf {s : Stmt} (hs : s.height = 1) (q : Nat) : s.height ≤ reach q + 2 := by omega
  have hone {q : Nat} {e : Expr} (he : e.height ≤ reach q) : e.height + 1 ≤ reach q + 2 := by omega
  refine .sees (.bind (.blockFrom (.bracedSeen (.blockStatement h) rfl fun _ => And.right)) fun b =>
    .pure (fun q hb => Nat.succ_le_succ hb) fun r i inner _ => .blockForm inner) ?_
  refine .accept (by decide) ?ifForm (.accept (by decide) ?whileForm ?_)
  case ifForm =>
    refine .bind .condition fun test => .bind h fun s => .joined (.bind (.option (by decide)
      (h.fewer (by omega))) fun other => .pure (fun q hother hs htest => ?_) ?_)
    · have hother : Stmt.rank? (· + 1) Expr.height other ≤ reach q + 1 := by
        cases other with
        | none => exact Nat.zero_le _
        | some s => exact hother s rfl
      exact Nat.succ_le_succ (Nat.max_le.2 ⟨Nat.le_succ_of_le htest, Nat.max_le.2 ⟨hs, hother⟩⟩)
    · exact fun r l no k yes j tested i word _ => .ifForm word tested yes no
  case whileForm =>
    refine .bind .condition fun test => .bind h fun s => .pure (fun q hs htest => ?_) ?_
    · exact Nat.succ_le_succ (Nat.max_le.2 ⟨Nat.le_succ_of_le htest, hs⟩)
    · exact fun r k repeated j tested i word _ _ => .whileForm word tested repeated
  refine .accept (by decide) ?doForm (.accept (by decide) ?forForm ?_)
  case doForm =>
    refine .bind h fun s => .require (by decide) (.bind .condition fun test => ?_)
    refine .require (by decide) (.pure (fun q htest hs => ?_) ?_)
    · exact Nat.succ_le_succ (Nat.max_le.2 ⟨Nat.le_succ_of_le htest, hs⟩)
    · exact fun r m closing l tested k again j repeated i word _ _ _ =>
        .doForm word repeated again tested closing
  case forForm =>
    exact (forStatement h line).reading fun j s r rest i word _ _ _ _ => .forForm word rest
  refine .accept (by decide) ?switchForm (.accept (by decide) ?tryForm ?_)
  case switchForm =>
    refine .bind .condition fun e => .bind (.braced (.switchGroup h) rfl) fun groups =>
      .pure (fun q hgroups he => ?_) ?_
    · exact Nat.succ_le_succ (Nat.max_le.2 ⟨Nat.le_succ_of_le he, Stmt.rankGroups_le_iff.2 hgroups⟩)
    · exact fun r k inner j selected i word _ _ _ _ _ => .switchForm word selected inner
  case tryForm =>
    exact (tryStatement h line).reading fun j s r rest i word _ _ _ _ _ _ => .tryForm word rest
  refine .accept (by decide) (.accept (by decide) ?returnForm ?returnValueForm) ?_
  case returnForm =>
    exact .pure (hleaf rfl) fun r j closing i word _ _ _ _ _ _ _ => .returnForm word closing
  case returnValueForm =>
    refine .bind .expression fun e => .require (by decide) (.pure (fun q he => ?_) ?_)
    · exact Nat.succ_le_succ (peak_le_iff.2 (by simpa using Nat.le_succ_of_le he))
    · exact fun r k closing j value given i word _ _ _ _ _ _ _ =>
        .returnValueForm word given value closing
  refine .accept (by decide) ?throwForm (.accept (by decide) ?breakForm ?_)
  case throwForm =>
    refine .bind .expression fun e => .require (by decide) (.pure (fun q => hone) ?_)
    exact fun r k closing j value i word _ _ _ _ _ _ _ _ => .throwForm word value closing
  case breakForm =>
    refine .remaining fun bound k _ hbound => .skip (.jumpWords bound k hbound) fun _ =>
      .pure (hleaf rfl) ?_
    exact fun r j rest i word _ _ _ _ _ _ _ _ _ => .breakForm word rest
  refine .accept (by decide) ?continueForm (.accept (by decide) ?emptyForm ?expressionForm)
  case continueForm =>
    refine .remaining fun bound k _ hbound => .skip (.jumpWords bound k hbound) fun _ =>
      .pure (hleaf rfl) ?_
    exact fun r j rest i word _ _ _ _ _ _ _ _ _ _ => .continueForm word rest
  case emptyForm =>
    exact .pure (hleaf rfl) fun r i word _ _ _ _ _ _ _ _ _ _ _ => .emptyForm word
  case expressionForm =>
    refine .bind .statementExpression fun e => .require (by decide) (.pure (fun q => hone) ?_)
    exact fun r j closing i inner _ _ _ _ _ _ _ _ _ _ _ _ => .expressionForm inner closing

theorem statementRule (h : Parses ts anywhere (n - 1) StmtLow .statement inner) :
    Parses ts anywhere n StmtLow .statement (statementRule inner) := by
  refine .currentLine fun line => .nested ((statementForm h line).reading ?_)
    (Nat.succ_le_succ (Nat.zero_le _)) fun q s hs => ?_
  · rintro i s r form rfl
    exact .statement form
  · rw [StmtLow, reach_succ, span]
    omega

end Inner

theorem statementWithin (bound : Nat) :
    Parses ts anywhere bound StmtLow .statement (statementWithin bound) := by
  induction bound with
  | zero => exact .currentLine fun _ => .outOfBound rfl
  | succ bound ih => exact .statementRule ih

theorem block : Parses ts P n BlockLow .block block :=
  .remaining fun bound k _ hbound =>
    .blockOf ((Moves.statementWithin (bound + 1)).fewer (by omega))

/-! ## Modifiers -/

theorem modifiersWithin : ∀ bound mods k, k ≤ bound →
      Parses ts P k unbounded (.modifiers mods) (modifiersWithin bound mods) := by
  intro bound
  induction bound generalizing P with
  | zero => exact fun _ k hbound => .outOfBound (by omega)
  | succ bound ih =>
    intro mods k hbound
    rw [Grammar.modifiersWithin]
    refine .currentKind fun j => ?_
    split
    case h_1 m hm =>
      have hrest := ih (P := anywhere) (Modifier.add mods m) (k - 1) (by omega)
      have hquiet : Keeps ts anywhere (k - 1) unbounded (fun _ _ _ => True) _ :=
        hrest.reading fun _ _ _ _ => trivial
      refine .advance ?_ (.ite (fun _ => .complain rfl ?_) fun hfresh =>
        .ite (fun _ => .complain rfl hquiet) fun hallowed => hrest.reading ?_)
      · rintro _ ⟨-, rfl⟩ rfl
        cases hm
      · exact .ite (fun _ => .complain rfl hquiet) fun _ => hquiet
      · rintro j mods' r more t ⟨-, rfl⟩ -
        rw [Modifier.add, hfresh] at more
        exact .modifiersMore ((ofKind?_eq _).symm.trans hm) (by simpa using hfresh)
          (not_conflicts hallowed hfresh) more
    case h_2 hm =>
      rw [ofKind?_eq] at hm
      exact .pure (fun _ => trivial) fun i hi => .modifiersNone (hi ▸ hm)

theorem modifiers : Parses ts P n unbounded (.modifiers []) modifiers :=
  .remaining fun bound k _ hbound => .modifiersWithin bound [] k hbound

/-! ## Members -/

theorem parameters : Parses ts P n unbounded .parameters parameters := by
  refine .require (by decide) (.accept (by decide) (.pure (fun _ => trivial) ?_) ?_)
  · exact fun r j closing i opening => .parametersNone opening closing
  · refine .bind (.commaSeparated .parameter .parameter) fun params => .require (by decide)
      (.pure (fun _ _ => trivial) ?_)
    exact fun r k closing j inner given i opening => .parametersSome opening given inner closing

theorem throwsClause : Parses ts P n unbounded (.clause .kwThrows .classType) throwsClause :=
  .clause (by decide) .classType

theorem methodRest (line : Nat) (mods : List Modifier) (result : Ty) :
    Parses ts P n MemberLow (.methodRest line mods result) (methodRest line mods result) := by
  refine .skip .identifier fun name => .skip .parameters fun params => .skip .throwsClause
    fun throws => .joined (.bind (q := Derives .methodBody) (.accept (by decide)
      (.pure (fun _ => nofun) ?_) (.map .block ?_ ?_)) fun body =>
        .pure (fun q => rankBlock?_le) ?_)
  · exact fun j i closing => .noBody closing
  · exact fun q b hb => by simpa using hb
  · exact fun i b j inner given => .body given inner
  · exact fun r l rest k faults j inputs i word => .methodRest word inputs faults rest

theorem constructor (line : Nat) (mods : List Modifier) :
    Parses ts P n MemberLow (.constructor line mods) (Grammar.constructor line mods) :=
  .skip .identifier fun _ => .skip .parameters fun _ => .skip .throwsClause fun _ =>
    .bind .block fun _ => .pure (fun _ => id) fun _ _ rest _ faults _ inputs _ word =>
      .constructor word inputs faults rest

theorem classMember : Parses ts anywhere n MemberLow .classMember classMember := by
  refine .skip .modifiers fun mods => .currentLine fun line => .upcoming fun t rest =>
    .ite (fun hlook => ?_) fun hlook => .accept (by decide) ?_ (.skip .type fun ty =>
      .upcoming fun t rest => .ite (fun hcall => ?_) fun hcall => ?_)
  · refine (constructor line mods).reading ?_
    rintro j m r rest rfl rfl i words
    exact .constructorMember words ((Lookahead.startsCall_iff _).1 hlook) rest
  · refine (methodRest line mods .void).reading ?_
    rintro k m r rest j result rfl rfl i words
    exact .voidMember words (Lookahead.not_of_iff (Lookahead.startsCall_iff _) hlook) result rest
  · refine (methodRest line mods ty).reading ?_
    rintro k m r rest rfl j result word rfl rfl i words
    exact .methodMember words (Lookahead.not_of_iff (Lookahead.startsCall_iff _) hlook) word result
      ((Lookahead.startsCall_iff _).1 hcall) rest
  · refine .bind (.declarators ty) fun vars => .require (by decide) (.pure (fun q hvars => ?_) ?_)
    · refine peak_le_iff.2 fun e he => ?_
      obtain ⟨d, hd, hinit⟩ := mem_filterMap.1 he
      exact Nat.le_succ_of_le (hvars d hd e hinit)
    · rintro r l closing k names rfl j type word rfl rfl i words
      exact .fieldMember words (Lookahead.not_of_iff (Lookahead.startsCall_iff _) hlook) word type
        (Lookahead.not_of_iff (Lookahead.startsCall_iff _) hcall) names closing

theorem interfaceMember : Parses ts anywhere n MemberLow .interfaceMember interfaceMember := by
  refine .skip .modifiers fun mods => .currentLine fun line => ?_
  refine .joined (.skip (q := Derives .resultType)
    (.accept (by decide) (.pure (fun _ => trivial) ?_)
    (type.reading ?_)) fun result => ?_)
  · exact fun j i word => .resultVoid word
  · exact fun i ty j type word => .resultType word type
  · refine .skip .identifier fun name => .skip .parameters fun params => .skip .throwsClause
      fun throws => .require (by decide) (.pure (fun _ => Nat.zero_le _) ?_)
    rintro r n closing m faults l inputs k word j type rfl i words
    rw [add_add_eq]
    exact .interfaceMember words type word inputs faults closing

/-! ## Types and units -/

theorem classRest (mods : List Modifier) : Parses ts P n
    (fun q d => ∀ m ∈ d.members, MemberLow q m) (.classRest mods) (classRest mods) := by
  refine .currentLine fun line => .require (by decide) (.skip .identifier fun name => .joined ?_)
  refine .bind (.option (by decide) .classType) fun superclass => .joined ?_
  refine .skip (.clause (by decide) .classType) fun interfaces => .bind (.braced .classMember rfl)
    fun members => .pure (fun q hmembers _ => hmembers) ?_
  rintro r m inner l parents k parent j named i word rfl
  exact .classRest word named parent parents inner

theorem interfaceRest (mods : List Modifier) : Parses ts P n
    (fun q d => ∀ m ∈ d.members, MemberLow q m) (.interfaceRest mods) (interfaceRest mods) := by
  refine .currentLine fun line => .require (by decide) (.skip .identifier fun name => .joined ?_)
  refine .skip (.clause (by decide) .classType) fun parents => .bind (.braced .interfaceMember rfl)
    fun members => .pure (fun q hmembers => hmembers) ?_
  rintro r l inner k extended j named i word rfl
  exact .interfaceRest word named extended inner

theorem typeDeclaration : Parses ts anywhere n
    (fun q o => ∀ d ∈ o, ∀ m ∈ d.members, MemberLow q m) .typeDeclaration typeDeclaration := by
  refine .skip .modifiers fun mods => .sees ?_ (.sees ?_ ?_)
  · refine .bind (.classRest mods) fun d => .pure (fun q hd => ?_) ?_
    · simpa [TypeDecl.members] using hd
    · exact fun r j rest look i words => .classDeclaration words look rest
  · refine .bind (.interfaceRest mods) fun d => .pure (fun q hd => ?_) ?_
    · simpa [TypeDecl.members] using hd
    · exact fun r j rest look _ i words => .interfaceDeclaration words look rest
  · exact .current fun t => .complain rfl (.pure (fun _ => nofun) fun _ => trivial)

theorem nameLine : Parses ts P n unbounded .nameLine nameLine :=
  .skip .qualifiedName fun _ => .require (by decide) (.pure (fun _ => trivial)
    fun _ _ closing _ name => .nameLine name closing)

end Moves

theorem itemsWithin_stops (ends : Kind → Bool) {low : Nat → α → Prop}
    (h : ∀ n, Parses ts anywhere n low c item) (bound : Nat) {s : State} (hs : s.Sound ts)
    (hleft : s.left < bound) : ends (itemsWithin ends item bound s).2.cursor.kind = true ∨
      (itemsWithin ends item bound s).2.cursor.kind = .endOfInput := by
  induction bound generalizing s with
  | zero => exact absurd hleft (Nat.not_lt_zero _)
  | succ bound ih =>
    have hrun : itemsWithin ends item (bound + 1) s =
        if (ends s.cursor.kind || decide (s.cursor.kind = .endOfInput)) = true then ([], s)
        else
          let t := item s
          let u := ensureProgress s.cursor.position t.2
          let v := itemsWithin ends item bound u.2
          (t.1 :: v.1, v.2) := by
      rw [itemsWithin]
      change (ite _ (pure []) _ : Parser (List α)) s = _
      split <;> rfl
    rw [hrun]
    by_cases hc : (ends s.cursor.kind || decide (s.cursor.kind = .endOfInput)) = true
    · rw [if_pos hc]
      simpa using hc
    · rw [if_neg hc]
      simp only [Bool.or_eq_true, decide_eq_true_eq, not_or] at hc
      have hran := (h (s.left + 1)).run s hs (Nat.lt_succ_self _) trivial
      obtain ⟨hle, hafter⟩ := hs.ensureProgress hran.sound hran.left hc.2
      refine ih ?_ (by omega)
      rcases hafter with hafter | ⟨hafter, -⟩
      · rw [hafter]
        exact hran.sound
      · rw [hafter]
        exact hran.sound.next

/-! ## Token lists and texts -/

theorem closed_getLast? (tokens : List Token) :
    (Cursor.closed tokens).getLast?.map Token.kind = some .endOfInput := by
  unfold Cursor.closed
  split
  case h_1 last hlast =>
    split
    · rename_i hkind
      rw [hlast, Option.map_some, hkind]
    · simp [Token.endOfInput]
  case h_2 => rfl

theorem closed_ne_nil (tokens : List Token) : Cursor.closed tokens ≠ [] := by
  intro hnil
  have h := closed_getLast? tokens
  rw [hnil] at h
  cases h

/-- A parse starts in a sound state. -/
theorem start_sound (tokens : List Token) (log : Log Problem) (maxDepth : Nat) :
    (start tokens log maxDepth).Sound (Cursor.closed tokens) := by
  obtain ⟨t, ts, hts⟩ := exists_cons_of_ne_nil (closed_ne_nil tokens)
  have hcursor : Cursor.ofTokens tokens = ⟨t, t, ts, 0⟩ := by simp only [Cursor.ofTokens, hts]
  refine ⟨rfl, ?_, ?_, closed_getLast? tokens⟩
  · simp only [start, hcursor, hts, drop_zero]
  · simp only [start, hcursor, hts, length_cons]

theorem EndsOnce.closed (h : EndsOnce tokens) : EndsOnce (Cursor.closed tokens) := by
  unfold Cursor.closed
  split
  case h_1 last hlast =>
    split
    · exact h
    · rename_i hkind
      intro t ht
      rw [dropLast_concat] at ht
      obtain ⟨init, rfl⟩ := getLast?_eq_some_iff.1 hlast
      rw [EndsOnce, dropLast_concat] at h
      rcases mem_append.1 ht with ht | ht
      · exact h t ht
      · rw [mem_singleton.1 ht]
        exact hkind
  case h_2 => exact nofun

theorem typesUntilEnd_moves {f : List (Option TypeDecl) → CompilationUnit}
    {low : Nat → CompilationUnit → Prop} {p : List Token → CompilationUnit → List Token → Prop}
    (hlow : ∀ q types, (∀ o ∈ types, ∀ d ∈ o, ∀ m ∈ d.members, MemberLow q m) → low q (f types))
    (hp : ∀ i types eof rest r, eof.kind = .endOfInput → eof :: rest <:+ ts →
      Derives (.items (fun _ => false) .typeDeclaration) i types (eof :: rest) → p i (f types) r) :
    Moves ts anywhere n 0 (fun _ before t => t.depth = before ∧ (EndsOnce ts → t.left = 0)) low p
      (itemsUntil (fun _ => false) typeDeclaration >>= fun types =>
        require .endOfInput >>= fun _ => pure (f types)) := by
  have hitems : Parses ts anywhere n _ _ (itemsUntil (fun _ => false) typeDeclaration) :=
    .itemsUntil .typeDeclaration rfl
  refine ⟨.bind hitems.made fun _ => .bind .require fun _ => .pure, fun s hs hleft _ => ?_⟩
  have hran := hitems.run s hs hleft trivial
  let t := (itemsUntil (fun _ => false) typeDeclaration s).2
  have hend : t.cursor.kind = .endOfInput := by
    have hlength := hs.length_eq
    have hsize := hs.size
    rcases itemsWithin_stops (fun _ => false) (fun _ => .typeDeclaration)
      (s.size - s.cursor.position) hs (by omega) with hstop | hstop
    · cases hstop
    · exact hstop
  have hrun : require .endOfInput t = ((), { t.next with recovered := true }) := by
    rw [require_eq, if_pos hend]
    rfl
  refine hran.trans (u := (require .endOfInput t).2) ?_
  rw [hrun]
  have hnext := t.left_next_le
  refine ⟨hran.sound.next.moved hran.sound.next.place true, hnext, rfl, ⟨rfl, fun hts => ?_⟩,
    hlow _ _, fun ht => ⟨ht, fun hfresh => ⟨⟨rfl, hfresh.2⟩, fun i inner => ?_⟩⟩⟩
  · exact Nat.le_zero.1 (hran.sound.left_eq_zero hts hend ▸ hnext)
  · refine hp i _ t.cursor.token t.cursor.following _ hend ?_ inner
    rw [← hran.sound.place]
    exact drop_suffix _ _

/-- The rule for units moves on to the end of input and reads a phrase of its category. -/
theorem compilationUnit_moves (file : String) :
    Moves ts anywhere n 0 (fun _ before t => t.depth = before ∧ (EndsOnce ts → t.left = 0))
      (fun q u => u.height ≤ reach q + 1)
      (fun i u _ => ∃ eof rest, eof.kind = .endOfInput ∧ eof :: rest <:+ ts ∧
        Derives (.unit file) i u (eof :: rest))
      (compilationUnit file) := by
  refine .joined (.bind (.option (by decide) .nameLine) fun package => ?_)
  refine .remaining fun bound k hn hbound => ?_
  refine .bind (.afterEach (n := k) (by decide) .nameLine bound k (Nat.le_refl _) hbound)
    fun imports => typesUntilEnd_moves (fun q types htypes _ _ => ?_) ?_
  · refine CompilationUnit.rank_le_iff.2 fun d hd => ?_
    exact htypes (some d) (by simpa using hd) d rfl
  · intro k types eof rest r hkind hplace third j second i first
    exact ⟨eof, rest, hkind, hplace, .unit first second third hkind⟩

theorem slice_ne_endOfInput (c : Char) (cs : List Char) :
    (Lexer.slice c cs).1 ≠ some .endOfInput := by
  intro h
  have hkeyword (w : List Char) : (Kind.keyword? w).getD .identifier ≠ .endOfInput := by
    cases hk : Kind.keyword? w with
    | none => decide
    | some j =>
      exact (by decide : ∀ j ∈ Kind.keywords, j ≠ Kind.endOfInput) j
        (Lexer.mem_keywords_of_keyword? hk)
  have hnumber : (Lexer.number cs).1 ≠ .endOfInput := fun heof =>
    (by decide : ∀ j ∈ [Kind.intLiteral, .longLiteral, .doubleLiteral], j ≠ Kind.endOfInput) _
      (Lexer.number_kind cs) heof
  have hsymbol : Lexer.symbol? (c :: cs) ≠ some .endOfInput := fun hsome =>
    (by decide : ∀ j ∈ Kind.symbols, j ≠ Kind.endOfInput) _ (Lexer.mem_symbols_of_symbol? hsome) rfl
  simp only [Lexer.slice] at h
  repeat' split at h
  all_goals simp_all

theorem slicesWithin_ne_endOfInput (bound : Nat) (start : Location) (cs : List Char) :
    ∀ s ∈ (Lexer.slicesWithin bound start cs).1, s.kind ≠ some .endOfInput := by
  induction bound generalizing start cs with
  | zero => simp [Lexer.slicesWithin]
  | succ bound ih =>
    cases cs with
    | nil => simp [Lexer.slicesWithin]
    | cons c cs =>
      rw [Lexer.slicesWithin]
      exact forall_mem_cons.2 ⟨slice_ne_endOfInput c cs, ih _ _⟩

/-- The tokens of a text have one end of input, at their end. -/
theorem tokenize_endsOnce (source : String) : EndsOnce (Lexer.tokenize source).1 := by
  intro t ht heof
  simp only [Lexer.tokenize, dropLast_concat, mem_filterMap] at ht
  obtain ⟨s, hs, htoken⟩ := ht
  simp only [Lexer.Slice.token?] at htoken
  split at htoken
  case h_1 kind hkind =>
    split at htoken
    · cases htoken
    · cases htoken
      exact slicesWithin_ne_endOfInput _ _ _ s hs (heof ▸ hkind)
  case h_2 => cases htoken

/-- Every parse ends. Whatever the tokens, the depth limit and the reports so far, neither a loop
nor a level runs out, the place stays inside the token list, and all levels are come up again. A
unit is parsed to the last token, if that is the only one that ends the input, as in every text. -/
theorem parse_ends (tokens : List Token) (log : Log Problem) (maxDepth : Nat) :
    (∀ file, ∃ u s, (compilationUnit file).run (start tokens log maxDepth) = (u, s) ∧
      s.Sound (Cursor.closed tokens) ∧ s.depth = 0 ∧
      (EndsOnce tokens → s.cursor.position + 1 = (Cursor.closed tokens).length ∧
        s.cursor.kind = .endOfInput)) ∧
    (∃ e s, expression.run (start tokens log maxDepth) = (e, s) ∧
      s.Sound (Cursor.closed tokens) ∧ s.depth = 0) ∧
    ∀ source, EndsOnce (readTokens source).1 := by
  have hstart := start_sound tokens log maxDepth
  refine ⟨fun file => ?_, ⟨_, (expression (start tokens log maxDepth)).2, rfl, ?_⟩,
    tokenize_endsOnce⟩
  · refine ⟨_, (compilationUnit file (start tokens log maxDepth)).2, rfl, ?_⟩
    have hran := (compilationUnit_moves file).run _ hstart (Nat.lt_succ_self _) trivial
    obtain ⟨hdepth, hend⟩ := hran.depth
    refine ⟨hran.sound, hdepth, fun htokens => ?_⟩
    have hleft := hend htokens.closed
    exact ⟨by rw [hran.sound.length_eq, hleft], hran.sound.kind_eq_of_left_eq_zero hleft⟩
  · have hran := (Moves.expression (P := anywhere)).run _ hstart (Nat.lt_succ_self _) trivial
    exact ⟨hran.sound, hran.depth⟩

/-- `class T ) void 7 { class`, which has a hole for a name, a stray parenthesis and no end. -/
def brokenTokens : List Token :=
  [⟨.kwClass, "class", {}⟩, ⟨.identifier, "T", {}⟩, ⟨.rightParen, ")", {}⟩,
    ⟨.kwVoid, "void", {}⟩, ⟨.intLiteral, "7", {}⟩, ⟨.leftBrace, "\x7b", {}⟩,
    ⟨.kwClass, "class", {}⟩]

theorem parse_ends_keyword :
    EndsOnce brokenTokens ∧ (parseUnit "T" 2 brokenTokens {}).2.failed = true ∧
      ∃ u s, (compilationUnit "T").run (start brokenTokens {} 2) = (u, s) ∧
        s.stuck = false ∧ s.depth = 0 ∧ s.cursor.position = 7 := by
  have htokens : EndsOnce brokenTokens := by simp [EndsOnce, brokenTokens]
  obtain ⟨u, s, hrun, hsound, hdepth, hend⟩ := (parse_ends brokenTokens {} 2).1 "T"
  exact ⟨htokens, by decide +kernel, u, s, hrun, hsound.free, hdepth,
    Nat.succ.inj (hend htokens).1⟩

end JMinusMinus.Grammar
