import JMinusMinus.Proofs.Height.Basic
import JMinusMinus.Proofs.Parse.Moves

/-!
# Rules for expressions

Each rule for types and expressions reads a phrase of its category, and its trees are bounded by the
levels left.

The rules inside `Rules` are *moving* up to a count if they do so where fewer tokens than that are
left. A rule made from moving rules is so one token further, since it takes a token before it uses
one of them. By induction the rules tied together with a bound are moving up to the bound
(`rules_moving`), so no run of an expression meets a bound, whatever the text.

A rule that is used only where a kind stands takes that kind first. Elements in braces are the
exception: the brace may be missing. Then the place does not stand on a brace, and the element
that is parsed there is an expression (`Moving.arrayInitRule`).

An expression with `q + 1` levels is an assignment of a choice with `q` levels. Above the prefix
operators there are nine left-grouping levels of operators, and a chain on each of them may take all
`q` levels anew, so the bound on heights grows by nine times `q` with each level (`reach`).
-/

namespace JMinusMinus.Grammar

variable {α : Type} {ts : List Token} {P : Kind → Prop} {n d : Nat}

/-! ## Heights by levels -/

/-- The height of an expression by the levels left. -/
def reach : Nat → Nat
  | 0 => 1
  | q + 1 => reach q + 9 * q + 3

/-- The height of an expression below so many levels of operators, and so many nodes more. -/
def span (operators more q : Nat) : Nat := reach q + operators * q + more

theorem reach_succ (q : Nat) : reach (q + 1) = span 9 2 q + 1 := rfl

theorem reach_pos : ∀ q, 0 < reach q
  | 0 => Nat.one_pos
  | _ + 1 => Nat.succ_pos _

theorem reach_le_succ (q : Nat) : reach q ≤ reach (q + 1) := by
  rw [reach_succ, span]
  omega

theorem span_le_succ (operators more q : Nat) :
    span operators more q ≤ span operators more (q + 1) := by
  have := reach_le_succ q
  rw [span, span, Nat.mul_succ]
  omega

theorem reach_add_le_span (h : k ≤ reach q + n) : k ≤ span m n q := by
  rw [span]
  omega

theorem span_le_span (hm : m ≤ m') (hn : n ≤ n') (q : Nat) : span m n q ≤ span m' n' q := by
  have := Nat.mul_le_mul_right q hm
  rw [span, span]
  omega

/-- A rule whose trees are bounded by the levels left. -/
abbrev Low (ts : List Token) (P : Kind → Prop) (n : Nat) (b : Nat → Nat) (c : Category Expr)
    (x : Parser Expr) : Prop :=
  Parses ts P n (fun q e => e.height ≤ b q) c x

/-! ## Lookahead -/

theorem kind_of_startsDims (h : Lookahead.startsDims (t :: rest) = true) :
    t.kind = .leftBracket := by
  unfold Lookahead.startsDims at h
  split at h
  · rename_i heq
    cases heq
    rfl
  · cases h

theorem kind_of_startsCast (h : Lookahead.startsCast (t :: rest) = true) : t.kind = .leftParen := by
  unfold Lookahead.startsCast at h
  split at h
  · rename_i heq
    cases heq
    rfl
  · rename_i heq
    cases heq
    rfl
  · cases h

namespace Moves

theorem nestedLow {b g : Nat → Nat} {fallback : Expr} {p : List Token → Expr → List Token → Prop}
    (h : Keeps ts P n (fun q e => e.height ≤ b q) p x) (hf : fallback.height = 1) (hzero : 1 ≤ g 0)
    (hsucc : ∀ q, b q ≤ g (q + 1)) :
    Keeps ts P n (fun q e => e.height ≤ g q) p (Grammar.nested fallback x) :=
  .nested h (hf ▸ hzero) fun q _ he => Nat.le_trans he (hsucc q)

/-! ## Names and types -/

theorem nameFrom (h : Moves ts P n e level unbounded (Derives .identifier) Grammar.identifier) :
    Moves ts P n e level unbounded (Derives .qualifiedName) qualifiedName := by
  refine .currentLine fun line => .skipAfter e h fun first => .remaining fun _ k _ hbound => ?_
  rw [Nat.sub_self]
  refine .bind (.afterEach (n := k) (by decide) .identifier _ k (Nat.le_refl _) hbound) fun rest =>
    .pure (fun _ _ => trivial) ?_
  rintro r j tail i head rfl
  exact .qualifiedName head tail

theorem qualifiedName : Parses ts P n unbounded .qualifiedName qualifiedName :=
  .nameFrom .identifier

theorem classType : Parses ts P n unbounded .classType classType :=
  .skip .qualifiedName fun _ => .pure (fun _ => trivial) fun _ _ name => .classType name

theorem basicType : Parses ts P n unbounded .basicType basicType := by
  refine .current fun t => ?_
  split
  case h_1 ty hty =>
    refine .advance ?_ (.pure (fun _ => trivial) ?_)
    · rintro _ rfl heof
      rw [heof] at hty
      cases hty
    · rintro r u - hu
      obtain rfl := Option.some.inj hu
      exact .basicType ((basicTypeOf?_eq _).symm.trans hty)
  case h_2 => exact .complain rfl (.pure (fun _ => trivial) fun _ => trivial)

theorem arrayLevels :
    ∀ bound ty k, k ≤ bound → Parses ts P k unbounded (.arrayLevels ty) (arrayLevels bound ty) := by
  intro bound
  induction bound generalizing P with
  | zero => exact fun _ k hbound => .outOfBound (by omega)
  | succ bound ih =>
    intro ty k hbound
    rw [Grammar.arrayLevels]
    refine .upcoming fun t rest => .ite (fun hdims => ?_) fun hdims => ?_
    · refine .requireSeen (by decide) ?_ (.require (by decide)
        ((ih _ (k - 1) (by omega)).reading ?_))
      · rintro _ rfl
        exact kind_of_startsDims hdims
      · rintro l ty' r more j closing i opening rfl
        exact .arrayLevelsMore ((Lookahead.startsDims_iff _).1 hdims) opening closing more
    · exact .pure (fun _ => trivial) fun i hi =>
        .arrayLevelsNone (Lookahead.not_of_iff (Lookahead.startsDims_iff _) (hi ▸ hdims))

theorem referenceType : Parses ts P n unbounded .referenceType referenceType := by
  refine .sees (.skip .classType fun ty => .remaining fun bound k _ hbound => ?_)
    (.skip .basicType fun basic => .require (by decide) (.require (by decide) ?_))
  · exact (arrayLevels bound ty k hbound).reading fun j ty' r levels i base word =>
      .referenceClass word base levels
  · refine .skip (q := fun i ty j => ty = .array basic ∧ i = j)
      (.pure (fun _ => trivial) fun _ => ⟨rfl, rfl⟩) fun ty => .remaining fun bound k _ hbound =>
        (arrayLevels bound ty k hbound).reading ?_
    rintro l ty' r levels _ ⟨rfl, rfl⟩ k closing j opening i base word
    exact .referenceBasic word base opening closing levels

theorem type : Parses ts P n unbounded .type type := by
  refine .upcoming fun t rest => .ite (fun hlook => ?_) fun hlook => ?_
  · exact referenceType.reading fun i ty r h hi =>
      .typeReference ((Lookahead.startsReferenceType_iff _).1 (hi ▸ hlook)) h
  · exact basicType.reading fun i ty r h hi => .typeBasic
      (Lookahead.not_of_iff (Lookahead.startsReferenceType_iff _) (hi ▸ hlook)) h

theorem literal : Low ts P n (fun _ => 1) .literal literal := by
  refine .current fun t => ?_
  split
  case h_1 l hl =>
    refine .advance ?_ (.pure (fun _ => Nat.le_refl 1) ?_)
    · rintro _ rfl heof
      simp [literalOf?, heof] at hl
    · rintro r u - hu
      obtain rfl := Option.some.inj hu
      exact .literal (literalWord_of hl)
  case h_2 => exact .complain rfl (.pure (fun _ => Nat.le_refl 1) fun _ => trivial)

theorem closedLevels : ∀ bound ty k, k ≤ bound →
      Parses ts P k unbounded (.closedLevels ty) (Rules.closedLevels bound ty) := by
  intro bound
  induction bound generalizing P with
  | zero => exact fun _ k hbound => .outOfBound (by omega)
  | succ bound ih =>
    intro ty k hbound
    rw [Rules.closedLevels]
    refine .accept (by decide) (.require (by decide) ?_)
      (.pure (fun _ => trivial) fun i => .closedLevelsNone)
    exact (ih _ (k - 1) (by omega)).reading fun k ty' r more j closing i opening =>
      .closedLevelsMore opening closing more

/-! ## Chains -/

theorem postfixSteps (line : Nat) : ∀ bound levels (e : Expr) k, k ≤ bound →
      Moves ts P k 0 (chained levels) (fun q a => a.1.height ≤ e.height + q)
        (fun i a j => Derives (.postfixSteps line e) i a.1 j)
        (Rules.postfixSteps line bound levels e) := by
  intro bound
  induction bound generalizing P with
  | zero => exact fun _ _ k hbound => .outOfBound (by omega)
  | succ bound ih =>
    intro levels e k hbound
    rw [Rules.postfixSteps]
    have hstep (op : StepOp) := ih (P := anywhere) (levels + 1) (.step (plain line) op e) (k - 1)
      (by omega)
    refine .seesEither (.descend (L := fun q a => a.1.height ≤ e.height + 1 + q)
      (.look (g := fun i => ahead i == .decrement) .sees (fun _ => rfl) fun b =>
        .advance ?_ ?_) ?_ ?_)
      (.chainStop (fun _ => Nat.le_add_right _ _) fun i => .stepsNone)
    · rintro _ (rfl | rfl) <;> decide
    · cases b with
      | true =>
        refine (hstep .postDec).reading fun j a r more t _ hb _ => ?_
        exact .stepsDec ⟨t, rfl, eq_of_beq hb⟩ more
      | false =>
        refine (hstep .postInc).reading fun j a r more t _ hb hor => ?_
        exact .stepsInc ⟨t, rfl, hor.resolve_left (ne_of_beq_false hb)⟩ more
    · exact fun _ => Nat.le_add_right _ _
    · intro q a ha
      omega

theorem acceptOperator {ops : List (Kind × BinaryOp)} {f : Option BinaryOp → Parser α}
    {K : α → Nat → State → Prop} {low : Nat → α → Prop} {p : List Token → α → List Token → Prop}
    (hops : ops.lookup .endOfInput = none)
    (hsome : ∀ op, Moves ts anywhere (n - 1) (d - 1) K low
      (fun j a r => ∀ i, Derives (.operator ops) i (some op) j → p i a r) (f (some op)))
    (hnone : Moves ts P n d K low (fun i a r => Derives (.operator ops) i none i → p i a r)
      (f none)) : Moves ts P n d K low p (acceptOperator ops >>= f) := by
  have hrun : Grammar.acceptOperator ops >>= f = (Grammar.currentKind >>= fun j =>
      (ops.lookup j).elim (f none) fun op => Grammar.advance >>= fun _ => f (some op)) := by
    simp only [Grammar.acceptOperator, bind_assoc]
    congr 1
    funext j
    cases ops.lookup j <;> simp
  rw [hrun]
  refine .currentKind fun j => ?_
  cases hop : ops.lookup j with
  | some op =>
    refine .advance ?_ ((hsome op).reading fun j a r hp t ht _ => hp _ (.operatorSome (ht.2 ▸ hop)))
    rintro _ ⟨-, rfl⟩ rfl
    rw [hops] at hop
    cases hop
  | none =>
    refine (hnone.given fun _ => And.left).reading ?_
    exact fun i a r hp hi => hp (.operatorNone (hi ▸ hop))

section Operators

variable {b : Nat → Nat} {c : Category Expr} {operand : Parser Expr}

theorem chain {ops : List (Kind × BinaryOp)} (line : Nat) (hops : ops.lookup .endOfInput = none)
    (h : Low ts anywhere (n - 1) b c operand) (hb : ∀ q, b q ≤ b (q + 1)) :
    ∀ bound levels (lhs : Expr) k, k ≤ n → k ≤ bound → Moves ts P k 0 (chained levels)
        (fun q a => ∀ m, lhs.height ≤ m → b q ≤ m → a.1.height ≤ m + q)
        (fun i a r => Derives (.chain ops c line lhs) i a.1 r)
        (chain ops operand line bound levels lhs) := by
  intro bound
  induction bound generalizing P with
  | zero => exact fun _ _ k _ hbound => .outOfBound (by omega)
  | succ bound ih =>
    intro levels lhs k hn hbound
    have hle {m q : Nat} (hm : lhs.height ≤ m) (_ : b q ≤ m) : lhs.height ≤ m + q :=
      Nat.le_add_right_of_le hm
    rw [Grammar.chain]
    refine .acceptOperator hops (fun op => ?_)
      (.chainStop (fun _ _ => hle) fun i word => .chainNone word)
    refine .descend (L := fun q a => ∀ m, lhs.height ≤ m → b q ≤ m → a.1.height ≤ m + 1 + q)
      (.bind (h.fewer (by omega)) fun rhs => (ih _ _ (k - 1) (by omega) (by omega)).imp ?_ ?_)
      (fun _ _ => hle) fun q a hstep m hm hq => ?_
    · intro q a hrest hrhs m hlhs hq
      refine hrest (m + 1) (Nat.succ_le_succ (Nat.max_le.2 ⟨hlhs, ?_⟩)) (Nat.le_succ_of_le hq)
      exact Nat.le_trans hrhs hq
    · exact fun k a r more j right i word => .chainMore word right more
    · have := hstep m hm (Nat.le_trans (hb q) hq)
      omega

theorem leftGrouping {ops : List (Kind × BinaryOp)} (hops : ops.lookup .endOfInput = none)
    (h : Low ts anywhere n (span m m') c operand) :
    Low ts anywhere n (span (m + 1) m') (.grouping ops c) (leftGrouping ops operand) := by
  refine .currentLine fun line => .bind h fun lhs => .remaining fun bound k hn hbound => ?_
  refine .chainEnd ((Moves.chain line hops (h.fewer (Nat.sub_le _ _)) (span_le_succ m m') bound 0
    lhs k hn hbound).imp ?_ ?_)
  · intro q a ha hlhs
    have := ha _ hlhs (Nat.le_refl _)
    simp only [span, Nat.succ_mul] at this ⊢
    omega
  · rintro j a r more i left rfl
    exact .grouping left more

end Operators

end Moves

/-! ## Moving rules -/

/-- Rules that read their phrases where fewer than so many tokens are left. -/
structure Rules.Moving (ts : List Token) (n : Nat) (r : Rules) : Prop where
  expression : Low ts anywhere (n - 1) reach .expression r.expression
  conditional : Low ts anywhere (n - 1) (span 9 2) .conditional r.conditional
  unary : Low ts anywhere (n - 1) reach .unary r.unary
  simpleUnary : Low ts anywhere (n - 1) (span 9 2) .simpleUnary r.simpleUnary
  arrayInit : ∀ ty, Low ts anywhere (n - 1) reach (.arrayInit ty) (r.arrayInit ty)

namespace Rules.Moving

variable {r : Rules} (hr : r.Moving ts n)

include hr

/-! ## Primaries -/

theorem parenthesized (hP : ∀ j, P j → j = .leftParen) :
    Low ts P n reach .parenthesized r.parenthesized :=
  .requireSeen (by decide) hP (.bind hr.expression fun _ => .require (by decide)
    (.pure (fun _ => id) fun _ _ closing _ inner _ opening => .parenthesized opening inner closing))

theorem arguments :
    Parses ts P (n - 1) (fun q es => ∀ e ∈ es, e.height ≤ reach q) .arguments r.arguments := by
  refine .require (by decide) (.accept (by decide) ?_ ?_)
  · exact .pure (fun _ => nofun) fun r j closing i opening => .argumentsNone opening closing
  · refine .bind (.commaSeparated (hr.expression.fewer (Nat.le_refl _))
      (hr.expression.fewer (Nat.sub_le _ _))) fun args => .require (by decide)
        (.pure (fun _ => id) ?_)
    exact fun r k closing j inner given i opening => .argumentsSome opening given inner closing

/-- The height of a node over a target and others that are no higher. -/
abbrev Over (target : Expr) (q : Nat) (e : Expr) : Prop :=
  ∀ b, target.height ≤ b → reach q ≤ b → e.height ≤ b + 1

theorem memberOf (line : Nat) (target : Expr) (name : String) :
    Parses ts P (n - 1) (Over target) (.memberOf line target name)
      (r.memberOf line target name) := by
  refine .sees (.bind hr.arguments fun args => .pure ?_ ?_) (.pure ?_ fun i => .memberField)
  · refine fun q hargs b htarget hq => Expr.height_le_succ_iff.2 fun c hc => ?_
    rcases List.mem_append.1 hc with hc | hc
    · rwa [List.mem_singleton.1 hc]
    · exact Nat.le_trans (hargs c hc) hq
  · exact fun r i passed call => .memberCall call passed
  · exact fun q b htarget _ => Nat.succ_le_succ htarget

theorem lengths : ∀ bound ty k, k ≤ n → k ≤ bound →
      Parses ts P k (fun q a => ∀ e ∈ a.2, e.height ≤ reach q) (.lengths ty)
        (r.lengths bound ty) := by
  intro bound
  induction bound generalizing P with
  | zero => exact fun _ k _ hbound => .outOfBound (by omega)
  | succ bound ih =>
    intro ty k hn hbound
    rw [Rules.lengths]
    refine .accept (by decide) (.accept (by decide) ?_ ?_)
      (.pure (fun _ => nofun) fun i => .lengthsNone)
    · refine .remaining fun bound' k' _ hbound' => .skip (.closedLevels bound' _ k' hbound')
        fun ty' => .pure (fun _ => nofun) ?_
      exact fun r k more j closing i opening => .lengthsClosed opening closing more
    · refine .bind (hr.expression.fewer (by omega)) fun dim => .require (by decide) ?_
      refine .bind (ih _ (k - 1) (by omega) (by omega)) fun ⟨ty', dims⟩ => .pure ?_ ?_
      · exact fun q hdims hdim => List.forall_mem_cons.2 ⟨hdim, hdims⟩
      · exact fun r l more k closing j first length i opening =>
          .lengthsMore opening length first closing more

theorem newArray (line : Nat) (ty : Ty) :
    Low ts P (n - 1) (fun q => reach q + 1) (.newArray line ty) (r.newArray line ty) := by
  refine .require (by decide) (.bind hr.expression fun dim => .require (by decide) ?_)
  refine .remaining fun bound k hn hbound => ?_
  refine .bind (hr.lengths bound _ k (by omega) hbound) fun ⟨ty, dims⟩ => .pure ?_ ?_
  · exact fun q hdims hdim => Expr.height_le_succ_iff.2 (List.forall_mem_cons.2 ⟨hdim, hdims⟩)
  · exact fun r l more k closing j first i opening => .newArray opening first closing more

theorem creator : Low ts P (n - 1) (fun q => reach q + 1) .creator r.creator := by
  refine .currentLine fun line => .currentKind fun kind => ?_
  refine .join (q := fun i ty j => ahead i = kind → Derives .creatorType i ty j)
    (fun hbasic => ?_) (fun hbasic => ?_) fun ty => .sees ?_ (.sees ?_ ?_)
  · rw [isBasicType_eq] at hbasic
    exact Moves.basicType.reading fun i ty j basic hi => .creatorBasic (hi ▸ hbasic) basic
  · rw [isBasicType_eq, Option.isSome_eq_false_iff, Option.isNone_iff_eq_none] at hbasic
    exact Moves.classType.reading fun i ty j name hi => .creatorClass (hi ▸ hbasic) name
  · refine .bind hr.arguments fun args => .pure ?_ ?_
    · exact fun q hargs => Expr.height_le_succ_iff.2 hargs
    · rintro k j passed call i base hi rfl
      exact .creatorObject (base hi) call passed
  · refine .upcoming fun t rest => .ite (fun hlook => ?_) fun hlook => ?_
    · refine .remaining fun bound k hn hbound => .skip (.closedLevels bound ty k hbound) fun ty' =>
        ?_
      refine ((hr.arrayInit ty').fewer hn).imp (fun q e he => Nat.le_succ_of_le he) ?_
      rintro k e l elements j whole rfl levels - i base hi -
      exact .creatorElements (base hi) levels ((Lookahead.startsDims_iff _).1 hlook) whole elements
    · refine (hr.newArray line ty).reading ?_
      rintro j e k lengths rfl levels - i base hi rfl
      exact .creatorLengths (base hi) levels
        (Lookahead.not_of_iff (Lookahead.startsDims_iff _) hlook) lengths
  · exact .current fun t => .complain rfl (.pure (fun q => Nat.succ_le_succ (Nat.zero_le _))
      fun _ => trivial)

theorem nameOrCall (line : Nat) (hP : ∀ j, P j → j = .identifier) :
    Low ts P n (fun q => reach q + 1) (.nameOrCall line) (r.nameOrCall line) := by
  have hname : Moves ts P n 1 level unbounded (Derives .qualifiedName) qualifiedName :=
    .nameFrom (.word (.requiredSeen (by decide) hP))
  refine .skipAfter 1 hname fun name => .sees (.bind hr.arguments fun args => .pure ?_ ?_)
    (.pure ?_ ?_)
  · refine fun q hargs => Expr.height_le_succ_iff.2 fun c hc => ?_
    rcases List.mem_append.1 hc with hc | hc
    · -- The target of a call is a name.
      have hheight : c.height = 1 := by
        split at hc
        · cases hc
        · rw [List.mem_singleton.1 hc]
          rfl
      exact hheight ▸ reach_pos q
    · exact hargs c hc
  · exact fun r j passed call i name => .plainCall name call passed
  · exact fun q => Nat.succ_le_succ (Nat.zero_le _)
  · exact fun r stop i name => .plainName name stop

theorem primary : Low ts P n (fun q => reach q + 1) .primary r.primary := by
  refine .currentLine fun line => .sees ?_ (.accept (by decide) (.sees ?_ ?_)
    (.accept (by decide) (.accept (by decide) ?_ ?_) (.accept (by decide) ?_ (.sees ?_ ?_))))
  · refine (hr.parenthesized fun _ => And.right).imp (fun q e he => Nat.le_succ_of_le he) ?_
    exact fun i e r inner look _ => .primaryParens look inner
  · refine .bind hr.arguments fun args => .pure (fun q hargs => Expr.height_le_succ_iff.2 hargs) ?_
    rintro r j passed call i word - rfl
    exact .primaryThisCall word call passed
  · refine .pure (fun q => Nat.succ_le_succ (Nat.zero_le _)) ?_
    rintro r stop i word - rfl
    exact .primaryThis word stop
  · refine .skip .identifier fun name => ((hr.memberOf line _ name).fewer (Nat.sub_le _ _)).imp
      (fun q e he => he _ (reach_pos q) (Nat.le_refl _)) ?_
    rintro l e r rest k member j point i word - - rfl
    exact .primarySuperMember word point member rest
  · refine .bind hr.arguments fun args => .pure (fun q hargs => Expr.height_le_succ_iff.2 hargs) ?_
    rintro r j passed call i word - - rfl
    exact .primarySuperCall word call passed
  · exact hr.creator.reading fun j e r created i word _ _ _ _ => .primaryNew word created
  · refine (hr.nameOrCall line fun _ => And.right).reading ?_
    rintro i e r named look - - - - rfl
    exact .primaryName look named
  · refine Moves.literal.imp (fun q e he => Nat.le_succ_of_le (Nat.le_trans he (reach_pos q))) ?_
    exact fun i e r value _ _ _ _ _ _ => .primaryLiteral value

/-! ## Selections and steps -/

theorem selector (target : Expr) :
    Moves ts (fun j => j = .dot ∨ j = .leftBracket) n 1 level (Over target)
      (Derives (.selector target)) (r.selector target) := by
  refine .currentLine fun line => .accept (by decide) ?_ (.requireSeen (by decide) ?_ ?_)
  · refine .skip .identifier fun name => (hr.memberOf line target name).reading ?_
    rintro k e r rest j member i point rfl
    exact .selectorMember point member rest
  · rintro j ⟨rfl | rfl, hj⟩
    · exact absurd rfl hj
    · rfl
  · refine .bind hr.expression fun index => .require (by decide) (.pure ?_ ?_)
    · exact fun q hindex b htarget hq =>
        Nat.succ_le_succ (Nat.max_le.2 ⟨htarget, Nat.le_trans hindex hq⟩)
    · rintro r k closing j inner i opening - rfl
      exact .selectorElement opening inner closing

theorem selections :
    ∀ bound levels (e : Expr) k, k ≤ n → k ≤ bound → Moves ts P k 0 (chained levels)
        (fun q a => ∀ b, e.height ≤ b → reach q ≤ b → a.1.height ≤ b + q)
        (fun i a j => Derives (.selections e) i a.1 j) (r.selections bound levels e) := by
  intro bound
  induction bound generalizing P with
  | zero => exact fun _ _ k _ hbound => .outOfBound (by omega)
  | succ bound ih =>
    intro levels e k hn hbound
    have hle {b q : Nat} (he : e.height ≤ b) (_ : reach q ≤ b) : e.height ≤ b + q :=
      Nat.le_add_right_of_le he
    rw [Rules.selections]
    refine .seesEither (.descend (L := fun q a => ∀ b, e.height ≤ b → reach q ≤ b →
      a.1.height ≤ b + 1 + q) (.bindAfter 1 ((hr.selector e).within hn fun _ => id) fun e' =>
        (ih _ _ (k - 1) (by omega) (by omega)).imp ?_ ?_) (fun _ _ => hle) ?_)
      (.chainStop (fun _ _ => hle) fun i => .selectionsNone)
    · exact fun q a hrest hone b he hq => hrest _ (hone b he hq) (Nat.le_succ_of_le hq)
    · exact fun j a r more i one another => .selectionsMore another one more
    · intro q a hstep b he hq
      have := hstep b he (Nat.le_trans (reach_le_succ q) hq)
      omega

theorem postfixed : Low ts P n (span 2 1) .postfixed r.postfixed := by
  refine .currentLine fun line => .bind hr.primary fun e => .remaining fun bound k hn hbound => ?_
  have hchain : Moves ts anywhere k 0 (chained 0)
      (fun q a => e.height ≤ reach q + 1 → a.1.height ≤ span 2 1 q)
      (fun j a r => ∀ i, Derives .primary i e j → firstLine i = line → Derives .postfixed i a.1 r)
      (r.selections bound 0 e >>= fun res =>
        remaining >>= fun bound => postfixSteps line bound res.2 res.1) := by
    refine .chainBind (hr.selections bound 0 e k hn hbound) fun res => ?_
    refine .remaining fun bound' k' _ hbound' =>
      (Moves.postfixSteps line bound' res.2 res.1 k' hbound').imp ?_ ?_
    · intro q a hsteps l hl hselections he
      have := hselections (reach l + 1) he (Nat.le_succ _)
      rw [span]
      omega
    · rintro k a r stepped j selected i base rfl
      exact .postfixed base selected stepped
  exact hchain.chainEnd

/-! ## Prefix operators and casts -/

theorem castOf (line : Nat) (hP : ∀ j, P j → j = .leftParen) :
    Low ts P n (fun q => reach q + 1) (.castOf line) (r.castOf line) := by
  refine .requireSeen (by decide) hP (.currentKind fun kind => .skip .type fun target =>
    .require (by decide) (.ite (fun hbasic => ?_) fun hbasic => ?_))
  · refine .bind hr.unary fun e => .pure (fun q he => Nat.succ_le_succ he) ?_
    rintro r l operand k closing j type rfl i opening
    exact .castBasic opening type closing (castsBasic_of hbasic).1 (castsBasic_of hbasic).2 operand
  · refine .bind (.nestedLow (g := reach) hr.simpleUnary rfl (Nat.le_refl _) fun q =>
      Nat.le_succ _) fun e => .pure (fun q he => Nat.succ_le_succ he) ?_
    rintro r l operand k closing j type rfl i opening
    exact .castReference opening type closing (castsReference_of hbasic) operand

theorem simpleUnaryRule : Low ts P n (span 2 1) .simpleUnary r.simpleUnaryRule := by
  have hone {q : Nat} {e : Expr} (he : e.height ≤ reach q) : e.height + 1 ≤ span 2 1 q :=
    reach_add_le_span (Nat.succ_le_succ he)
  refine .currentLine fun line => .accept (by decide) (.bind hr.unary fun e => .pure ?_ ?_)
    (.accept (by decide) (.bind hr.unary fun e => .pure ?_ ?_) (.upcoming fun t rest =>
      .ite (fun hcast => ?_) fun hcast => ?_))
  · exact fun q => hone
  · rintro r j operand i word rfl
    exact .complement word operand
  · exact fun q => hone
  · rintro r j operand i word - rfl
    exact .negation word operand
  · refine (hr.castOf line ?_).imp (fun q e => reach_add_le_span) ?_
    · rintro _ rfl
      exact kind_of_startsCast hcast
    · rintro i e r cast rfl - - rfl
      exact .cast ((Lookahead.startsCast_iff _).1 hcast) cast
  · refine hr.postfixed.reading ?_
    rintro i e r inner rfl - - -
    exact .simplePostfixed (Lookahead.not_of_iff (Lookahead.startsCast_iff _) hcast) inner

theorem unaryRule : Low ts P n reach .unary r.unaryRule := by
  have hone {q : Nat} {e : Expr} (he : e.height ≤ reach q) : e.height + 1 ≤ span 2 1 q :=
    reach_add_le_span (Nat.succ_le_succ he)
  refine .currentLine fun line => .nestedLow (b := span 2 1) (.accept (by decide) ?_
    (.accept (by decide) ?_ (.accept (by decide) ?_ (.accept (by decide) ?_ ?_)))) rfl
      (Nat.le_refl _) fun q => Nat.le_succ_of_le (span_le_span (by decide) (by decide) q)
  · refine .bind hr.unary fun e => .pure (fun q => hone) ?_
    rintro r j operand i word rfl
    exact .preInc word operand
  · refine .bind hr.unary fun e => .pure (fun q => hone) ?_
    rintro r j operand i word - rfl
    exact .preDec word operand
  · refine .bind hr.unary fun e => .pure (fun q => hone) ?_
    rintro r j operand i word - - rfl
    exact .minus word operand
  · refine .bind hr.unary fun e => .pure (fun q => hone) ?_
    rintro r j operand i word - - - rfl
    exact .plus word operand
  · exact hr.simpleUnaryRule.reading fun i e r inner _ _ _ _ _ => .unarySimple inner

/-! ## Binary levels -/

theorem multiplicative : Low ts anywhere n (span 1 0) .multiplicative r.multiplicative :=
  .leftGrouping (by decide)
    (hr.unaryRule.imp (fun q e he => by simpa [span] using he) fun _ _ _ => id)

theorem additive : Low ts anywhere n (span 2 0) .additive r.additive :=
  .leftGrouping (by decide) hr.multiplicative

theorem shift : Low ts anywhere n (span 3 0) .shift r.shift :=
  .leftGrouping (by decide) hr.additive

theorem relational : Low ts anywhere n (span 3 1) .relational r.relational := by
  refine .currentLine fun line => .bind hr.shift fun lhs => .accept (by decide) ?_ ?_
  · refine .skip .referenceType fun ty => .pure (fun q hlhs => Nat.succ_le_succ hlhs) ?_
    rintro r k type j word i left rfl
    exact .instanceOf left word type
  · refine .acceptOperator (by decide) (fun op => ?_) (.pure ?_ ?_)
    · refine .bind (hr.shift.fewer (Nat.sub_le _ _)) fun rhs => .pure ?_ ?_
      · exact fun q hrhs hlhs => Nat.succ_le_succ (Nat.max_le.2 ⟨hlhs, hrhs⟩)
      · rintro r k right j word stop i left rfl
        exact .comparison left stop word right
    · exact fun q hlhs => Nat.le_succ_of_le hlhs
    · exact fun r word stop i left _ => .noComparison left stop word

theorem binaryFrom : ∀ levels : List (List (Kind × BinaryOp)),
    (∀ ops ∈ levels, ops.lookup .endOfInput = none) →
      Low ts anywhere n (span (3 + levels.length) 1) (.binaryFrom levels) (r.binaryFrom levels)
  | [], _ => hr.relational
  | ops :: levels, hlevels => by
    rw [List.forall_mem_cons] at hlevels
    exact .leftGrouping hlevels.1 (binaryFrom levels hlevels.2)

/-! ## Choices and assignments -/

theorem conditionalRule : Low ts anywhere n (span 9 2) .conditional r.conditionalRule := by
  have htest : Low ts anywhere n (span 9 1) (.binaryFrom looseLevels) (r.binaryFrom looseLevels) :=
    hr.binaryFrom looseLevels (by decide)
  refine .currentLine fun line => .bind htest fun test => .accept (by decide)
    (.bind hr.expression fun e => .require (by decide) (.bind (.nestedLow (g := reach)
      hr.conditional rfl (Nat.le_refl _) fun q => Nat.le_succ _) fun e' => .pure ?_ ?_))
        (.pure ?_ ?_)
  · intro q he' he htest
    refine Nat.succ_le_succ (Nat.max_le.2 ⟨htest, Nat.max_le.2 ⟨?_, ?_⟩⟩)
    · exact reach_add_le_span (Nat.le_succ_of_le he)
    · exact reach_add_le_span (Nat.le_succ_of_le he')
  · rintro r m no l colon k yes j question i condition rfl
    exact .choice condition question yes colon no
  · exact fun q htest => Nat.le_succ_of_le htest
  · exact fun r stop i inner _ => .noChoice inner stop

theorem assignment : Low ts anywhere n (fun q => span 9 2 q + 1) .assignment r.assignment := by
  refine .currentLine fun line => .bind hr.conditionalRule fun lhs => .currentKind fun kind => ?_
  split
  case h_1 op hop =>
    refine .advance ?_ (.bind hr.expression fun rhs => .pure ?_ ?_)
    · rintro _ ⟨-, rfl⟩ rfl
      cases hop
    · exact fun q hrhs hlhs => Nat.succ_le_succ
        (Nat.max_le.2 ⟨hlhs, reach_add_le_span (Nat.le_add_right_of_le hrhs)⟩)
    · rintro r k right t ⟨-, rfl⟩ - i left rfl
      exact .assign left ((assignOf?_eq _).symm.trans hop) right
  case h_2 hop =>
    refine .pure (fun q hlhs => Nat.le_succ_of_le hlhs) ?_
    rintro r rfl i inner -
    exact .noAssign inner ((assignOf?_eq _).symm.trans hop)

theorem expressionRule : Low ts P n reach .expression r.expressionRule :=
  .currentLine fun _ => .nestedLow ((hr.assignment.fewer (Nat.le_refl _)).reading
    fun _ _ _ inner _ => .expression inner) rfl (Nat.le_refl _) fun _ => Nat.le_refl _

/-! ## Array elements -/

theorem initializerFrom (ty : Ty) (hm : m ≤ n)
    (h : Low ts (fun j => P j ∧ j = .leftBrace) m reach (.arrayInit ty) (r.arrayInit ty)) :
    Low ts P m reach (.initializer ty) (r.initializer ty) := by
  refine .sees (h.reading ?_) ((hr.expressionRule.within hm fun _ => id).reading ?_)
  · exact fun i e r elements look => .initializerBraces look elements
  · exact fun i e r value look => .initializerPlain look value

theorem initializer (ty : Ty) : Low ts P (n - 1) reach (.initializer ty) (r.initializer ty) :=
  hr.initializerFrom ty (Nat.sub_le _ _) ((hr.arrayInit ty).fewer (Nat.le_refl _))

theorem initializerPlain (ty : Ty) (hP : ∀ j, P j → j ≠ .leftBrace) :
    Low ts P n reach (.initializer ty) (r.initializer ty) :=
  hr.initializerFrom ty (Nat.le_refl _)
    ⟨(hr.arrayInit ty).made, fun _ _ _ hk => absurd hk.2 (hP _ hk.1)⟩

theorem moreElements (ty : Ty) :
    ∀ bound k, k ≤ n → k ≤ bound → Parses ts P k (fun q es => ∀ e ∈ es, e.height ≤ reach q)
      (.moreElements ty) (r.moreElements ty bound) := by
  intro bound
  induction bound generalizing P with
  | zero => exact fun k _ hbound => .outOfBound (by omega)
  | succ bound ih =>
    intro k hn hbound
    rw [Rules.moreElements]
    refine .accept (by decide) (.sees ?_ ?_) (.pure (fun _ => nofun) fun i => .elementsEnd)
    · exact .pure (fun _ => nofun) fun r stop i comma => .elementsTrailing comma stop
    · refine .bind ((hr.initializer ty).within (by omega) fun _ => id) fun x => ?_
      refine .bind (ih (k - 1) (by omega) (by omega)) fun xs => .pure ?_ ?_
      · exact fun q hxs hx => List.forall_mem_cons.2 ⟨hx, hxs⟩
      · exact fun r k tail j head another i comma => .elementsMore comma another head tail

theorem elements (hk : k ≤ n)
    (h : Low ts P k reach (.initializer ty) (r.initializer ty)) :
    Parses ts P k (fun q es => ∀ e ∈ es, e.height ≤ reach q) (.elements ty) (r.elements ty) := by
  refine .accept (by decide) (.pure (fun _ => nofun) fun r i => .elementsNone)
    (.bind (h.given fun _ => And.left) fun x => .remaining fun bound k' hk' hbound => ?_)
  refine .bind (hr.moreElements ty bound k' (by omega) hbound) fun xs => .require (by decide)
    (.pure ?_ ?_)
  · exact fun q hxs hx => List.forall_mem_cons.2 ⟨hx, hxs⟩
  · exact fun r k closing j tail i head given => .elementsSome given head tail closing

theorem arrayInitRule (ty : Ty) : Low ts anywhere n reach (.arrayInit ty) (r.arrayInitRule ty) := by
  have hnode {P : Kind → Prop} {line k : Nat} (hk : k ≤ n)
      (h : ∀ ty, Low ts P k reach (.initializer ty) (r.initializer ty)) :
      Keeps ts P k (fun q e => e.height ≤ reach q)
        (fun j e r => ∀ i, Starts .leftBrace i j → firstLine i = line →
          Derives (.arrayInit ty) i e r)
        (nested (.wild (plain line)) do
          return .arrayInit (plain line) ty (← r.elements (ty.component?.getD .any))) := by
    refine .nestedLow (b := fun q => reach q + 1) (.bind (hr.elements hk (h _)) fun es =>
      .pure (fun q hes => Expr.height_le_succ_iff.2 hes) ?_) rfl (Nat.le_refl _) fun q => ?_
    · rintro r j inner i opening rfl
      exact .arrayInit opening inner
    · exact Nat.succ_le_succ (reach_add_le_span (Nat.le_add_right _ _))
  exact .currentLine fun line => .requireOr (by decide) (hnode (Nat.sub_le _ _) hr.initializer)
    (hnode (Nat.le_refl _) fun ty => hr.initializerPlain ty fun _ => id)

end Rules.Moving

/-! ## Tying the rules together -/

theorem rules_moving (n : Nat) : (rules n).Moving ts n := by
  induction n with
  | zero =>
    have hwild {b : Nat → Nat} {c : Category Expr} : Low ts anywhere (0 - 1) b c wildHere :=
      .currentLine fun _ => .outOfBound rfl
    exact ⟨hwild, hwild, hwild, hwild, fun _ => hwild⟩
  | succ n ih =>
    refine ⟨ih.expressionRule, ih.conditionalRule, ih.unaryRule, ?_, ih.arrayInitRule⟩
    exact ih.simpleUnaryRule.imp (fun q e he =>
      Nat.le_trans he (span_le_span (by decide) (by decide) q)) fun _ _ _ => id

namespace Moves

theorem expression : Low ts P n reach .expression expression :=
  .remaining fun bound _ _ hbound => (rules_moving bound).expressionRule.within hbound fun _ => id

theorem initializer (ty : Ty) : Low ts P n reach (.initializer ty) (initializer ty) :=
  .remaining fun bound _ _ hbound =>
    ((rules_moving (bound + 1)).initializer ty).within hbound fun _ => id

end Moves

end JMinusMinus.Grammar
