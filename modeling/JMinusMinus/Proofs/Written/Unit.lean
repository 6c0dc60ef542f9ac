import JMinusMinus.Proofs.Derivation.Unit

/-!
# Texts have written trees

The tree of a phrase is written, whatever its category (`Derives.written`). A parse that reports
nothing is a derivation, so a text about which nothing is reported has a written tree
(`parseSource_written`).
-/

namespace JMinusMinus.Grammar

/-! ## Tokens -/

/-- Tokens that were read from a text. -/
def Lexicals (i : List Token) : Prop := ∀ t ∈ i, t.Lexical

theorem lexicals_cons : Lexicals (t :: r) ↔ t.Lexical ∧ Lexicals r := List.forall_mem_cons

theorem Starts.lexicals (h : Starts kind i r) (hi : Lexicals i) : Lexicals r := by
  obtain ⟨t, rfl, -⟩ := h
  exact (lexicals_cons.1 hi).2

/-- A literal of a text can be read. -/
theorem LiteralWord.isReadable {t : Token} (ht : t.Lexical) (h : LiteralWord t l) :
    l.IsReadable := by
  cases h with
  | char word => exact ht.quoted (.inl word)
  | string word => exact ht.quoted (.inr word)
  | _ => trivial

theorem isStorable_of_basicWords (h : basicWords.lookup k = some ty) : ty.isStorable := by
  cases k <;> cases h <;> rfl

/-! ## Categories -/

/-- A dotted name of at least one word. -/
structure QualifiedName.Written (q : QualifiedName) : Prop where
  nonempty : q.segments ≠ []
  words : ∀ s ∈ q.segments, IsWord s

/-- What holds of the trees of a category. Where a category has a type or an expression as an
argument, its trees are as good as the argument. -/
def Category.Holds : {α : Type} → Category α → α → Prop
  | _, .identifier, word => IsWord word
  | _, .each _ item, xs | _, .list item, xs | _, .items _ item, xs | _, .braced item, xs
  | _, .clause _ item, xs => ∀ x ∈ xs, item.Holds x
  | _, .option _ item, x => ∀ y ∈ x, item.Holds y
  | _, .qualifiedName, q | _, .nameLine, q => QualifiedName.Written q
  | _, .classType, t | _, .basicType, t | _, .referenceType, t | _, .type, t | _, .creatorType, t =>
    t.isStorable
  | _, .arrayLevels ty, t | _, .closedLevels ty, t =>
    (ty.isStorable → t.isStorable) ∧ ty.dims ≤ t.dims
  | _, .literal, e | _, .parenthesized, e | _, .creator, e | _, .nameOrCall _, e
  | _, .primary, e | _, .postfixed, e | _, .castOf _, e | _, .simpleUnary, e | _, .unary, e
  | _, .relational, e | _, .conditional, e | _, .assignment, e | _, .expression, e
  | _, .statementExpression, e | _, .condition, e => e.Written false
  | _, .arguments, es => AllWritten false es
  | _, .lengths ty, p =>
    (ty.isStorable → p.1.isStorable) ∧ ty.dims + p.2.length ≤ p.1.dims ∧ AllWritten false p.2
  | _, .newArray _ element, e => element.isStorable → e.Written false
  | _, .memberOf _ e _, e' | _, .selector e, e' | _, .selections e, e'
  | _, .postfixSteps _ e, e' => e.Written false → e'.Written false
  | _, .chain _ operand _ e, e' => (∀ x, operand.Holds x → x.Written false) → e.Written false →
    e'.Written false
  | _, .grouping _ operand, e => (∀ x, operand.Holds x → x.Written false) → e.Written false
  | _, .initializer _, e => e.Written true
  | _, .arrayInit ty, e => e.Written true ∧ (ty.isStorable → e.Written false)
  | _, .moreElements _, es | _, .elements _, es => AllWritten true es
  | _, .declarator ty, d => ty.isStorable → d.Written
  | _, .parameter, p => p.ty.isStorable
  | _, .switchLabel, l => l.Written
  | _, .switchLabels, ls => ∀ l ∈ ls, l.Written
  | _, .expressionStatement, s | _, .locals, s => s.Written ∧ s.isSimple
  | _, .forInit, ss => ∀ s ∈ ss, s.Written ∧ s.isSimple
  | _, .blockStatement, s | _, .forStatement _, s | _, .tryStatement _, s | _, .statementForm _, s
  | _, .statement, s => s.Written
  | _, .block, b => BlockWritten b
  | _, .switchGroup, g => GroupWritten g
  | _, .catchClauses, cs => CatchesWritten cs
  | _, .upTo _ absent part, x => x = absent ∨ part.Holds x
  | _, .test, e => TargetWritten e
  | _, .parameters, ps => ParamsWritten ps
  | _, .methodBody, b => FinalWritten b
  | _, .methodRest _ _ result, m => result.isResult → m.Written
  | _, .constructor _ _, m | _, .classMember, m => m.Written
  | _, .resultType, t => t.isResult
  | _, .interfaceMember, m => m.WrittenHeader
  | _, .classRest _, d => IsWord d.name ∧ ∀ m ∈ d.members, m.Written
  | _, .interfaceRest _, d => IsWord d.name ∧ ∀ m ∈ d.members, m.WrittenHeader
  | _, .typeDeclaration, d => ∀ t ∈ d, t.Written
  | _, .unit _, u => u.Written
  | _, .jumpWords, _ | _, .operator _, _ | _, .modifiers _, _ => True

theorem Category.Holds.shift (h : Category.shift.Holds e) : e.Written false :=
  h fun _ h => h fun _ h => h fun _ h => h

theorem Category.Holds.binary (h : Category.binary.Holds e) : e.Written false :=
  h fun _ h => h fun _ h => h fun _ h => h fun _ h => h fun _ h => h fun _ h => h

/-! ## Phrases -/

theorem initWritten_of_forall (h : ∀ e ∈ init, e.Written true) : InitWritten init := by
  cases init with
  | none => trivial
  | some e => exact h e rfl

attribute [local grind =] Expr.Written AllWritten TargetWritten Stmt.Written Stmt.isSimple
  BlockWritten GroupWritten CatchesWritten CatchWritten FinalWritten ElseWritten ParamsWritten
  Member.Written Member.WrittenHeader TypeDecl.Written SwitchLabel.Written Ty.isStorable Ty.dims
  Ty.isResult allWritten_iff stmtsWritten_iff groupsWritten_iff lexicals_cons

attribute [local grind →] Starts.lexicals Category.Holds.shift Category.Holds.binary
  Expr.Written.placed

/-- The tree of a phrase is as parsed. -/
theorem Derives.written {α : Type} {c : Category α} {i r : List Token} {a : α}
    (h : Derives c i a r) (hi : Lexicals i) : c.Holds a ∧ Lexicals r := by
  induction h
  case identifier word => exact ⟨(lexicals_cons.1 hi).1.word word, (lexicals_cons.1 hi).2⟩
  case basicType word => exact ⟨isStorable_of_basicWords word, (lexicals_cons.1 hi).2⟩
  case literal word =>
    exact ⟨word.isReadable (lexicals_cons.1 hi).1, (lexicals_cons.1 hi).2⟩
  case statementExpression effect ih =>
    rw [effect.eq]
    exact ⟨(ih hi).1.withNote, (ih hi).2⟩
  case operatorSome => exact ⟨trivial, (lexicals_cons.1 hi).2⟩
  case modifiersMore ih => exact ih (lexicals_cons.1 hi).2
  case declarator word levels value =>
    obtain ⟨-, hj⟩ := word hi
    obtain ⟨hty, hk⟩ := levels hj
    obtain ⟨hinit, hr⟩ := value hk
    exact ⟨fun hstorable => ⟨hty.1 hstorable, initWritten_of_forall hinit⟩, hr⟩
  case unit first second third =>
    obtain ⟨hpackage, hj⟩ := first hi
    obtain ⟨-, hk⟩ := second hj
    obtain ⟨htypes, hr⟩ := third hk
    refine ⟨⟨fun q hq => (hpackage q hq).words, fun d hd => ?_⟩, hr⟩
    obtain ⟨t, ht, rfl⟩ := List.mem_filterMap.1 hd
    exact htypes _ ht d rfl
  -- The parts stand one after another, and the tree is made of their trees.
  all_goals
    dsimp only [Category.Holds] at *
    grind [QualifiedName.Written, cases Option]

/-! ## Texts -/

theorem lexicals_closed (h : Lexicals tokens) : Lexicals (Cursor.closed tokens) := by
  have hend : ∀ l, (Token.endOfInput l).Lexical := fun l =>
    ⟨nofun, fun h => by rcases h with h | h <;> cases h⟩
  unfold Cursor.closed
  split
  · split
    · exact h
    · exact List.forall_mem_append.2 ⟨h, List.forall_mem_singleton.2 (hend _)⟩
  · exact List.forall_mem_singleton.2 (hend _)

theorem parseSource_written (h : (parseSource file maxDepth source).2.failed = false) :
    (parseSource file maxDepth source).1.Written := by
  have hsilent : (parseSource file maxDepth source).2.latest = [] := by
    simpa [Log.failed] using h
  obtain ⟨_, _, -, -, hderives⟩ := parseUnit_derives hsilent
  exact (hderives.written (lexicals_closed (Lexer.tokenize_lexical source))).1

end JMinusMinus.Grammar
