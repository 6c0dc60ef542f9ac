import JMinusMinus.Grammar.Unit
import JMinusMinus.Proofs.Parse.Lookahead
import Mathlib

/-!
# The grammar as a relation

A *category* of the grammar is what a rule parses, with the type of the trees it has.
`Derives c i a r` says that the tokens `i` start with a phrase of the category `c`, that `a` is the
tree of the phrase and that `r` are the tokens after it. Each production takes the tokens of its
parts one after another, so nothing lies between them.

There is no state, no limit and no recovery here. Where a phrase ends, and which of two productions
applies, depends on the tokens only.

* A list of items, a chain of operators or an optional part ends before a token that would continue
  it, so a phrase is as long as it can be. An `else` belongs to the nearest `if`.
* Casts, declarations of variables, reference types, calls and array levels are told from other
  phrases by the kinds of the tokens ahead, and a production that needs one of these languages
  names it.
* Which word stands for which type, literal, modifier or operator is said here, and so is which
  expressions are statements.
* The line of a tree is the line of a token: of the first one of its phrase, or of the one that
  the category has as an argument.
-/

namespace JMinusMinus.Grammar

/-! ## Tokens -/

/-- The kind of the next token. -/
def ahead : List Token → Kind
  | t :: _ => t.kind
  | [] => .endOfInput

/-- The line of the next token. -/
def firstLine : List Token → Nat
  | t :: _ => t.line
  | [] => 0

/-- The next token has a kind, and `r` are the tokens after it. -/
def Starts (kind : Kind) (i r : List Token) : Prop := ∃ t, i = t :: r ∧ t.kind = kind

/-! ## Words -/

/-- The words for basic types. -/
def basicWords : List (Kind × Ty) :=
  [(.kwBoolean, .boolean), (.kwChar, .char), (.kwInt, .int), (.kwLong, .long), (.kwDouble, .double)]

/-- The words for modifiers. -/
def modifierWords : List (Kind × Modifier) :=
  [(.kwPublic, .publicAccess), (.kwProtected, .protectedAccess), (.kwPrivate, .privateAccess),
    (.kwStatic, .static), (.kwAbstract, .abstract)]

/-- The signs of assignments. -/
def assignWords : List (Kind × AssignOp) :=
  [(.assign, .assign), (.addAssign, .add), (.subAssign, .sub), (.mulAssign, .mul),
    (.divAssign, .div), (.modAssign, .rem), (.shiftLeftAssign, .shl), (.shiftRightAssign, .shr),
    (.shiftRightUnsignedAssign, .ushr), (.andAssign, .and), (.orAssign, .or), (.xorAssign, .xor)]

/-- The modifiers of which a declaration has at most one. -/
def accessModifiers : List Modifier := [.publicAccess, .protectedAccess, .privateAccess]

/-- A token that is a literal. -/
inductive LiteralWord (t : Token) : Literal → Prop
  | int (word : t.kind = .intLiteral) : LiteralWord t (.int t.lexeme)
  | long (word : t.kind = .longLiteral) : LiteralWord t (.long t.lexeme)
  | double (word : t.kind = .doubleLiteral) : LiteralWord t (.double t.lexeme)
  | char (word : t.kind = .charLiteral) : LiteralWord t (.char t.lexeme)
  | string (word : t.kind = .stringLiteral) : LiteralWord t (.string t.lexeme)
  | true (word : t.kind = .kwTrue) : LiteralWord t (.boolean true)
  | false (word : t.kind = .kwFalse) : LiteralWord t (.boolean false)
  | null (word : t.kind = .kwNull) : LiteralWord t .null

/-- An expression that may stand as a statement, with the note that it does. -/
inductive AsStatement : Expr → Expr → Prop
  | assign : AsStatement (.assign n op lhs rhs) (.assign { n with isStatement := true } op lhs rhs)
  | step : AsStatement (.step n op e) (.step { n with isStatement := true } op e)
  | send : AsStatement (.send n target name args found)
      (.send { n with isStatement := true } target name args found)
  | delegate : AsStatement (.delegate n target args found)
      (.delegate { n with isStatement := true } target args found)
  | newObject : AsStatement (.newObject n ty args found)
      (.newObject { n with isStatement := true } ty args found)
  | newArray : AsStatement (.newArray n ty dims) (.newArray { n with isStatement := true } ty dims)

theorem basicTypeOf?_eq (k : Kind) : basicTypeOf? k = basicWords.lookup k := by cases k <;> rfl

theorem isBasicType_eq (k : Kind) : k.isBasicType = (basicWords.lookup k).isSome := by
  cases k <;> rfl

theorem castsBasic_of {target : Ty} (h : (k.isBasicType && !target.isArray) = true) :
    (basicWords.lookup k).isSome ∧ ∀ ty, target ≠ .array ty := by
  rw [isBasicType_eq, Bool.and_eq_true] at h
  refine ⟨h.1, ?_⟩
  rintro ty rfl
  exact Bool.false_ne_true h.2

theorem castsReference_of {target : Ty} (h : (k.isBasicType && !target.isArray) = false) :
    basicWords.lookup k = none ∨ ∃ ty, target = .array ty := by
  rw [isBasicType_eq, Bool.and_eq_false_iff] at h
  refine h.imp (fun h => ?_) fun h => ?_
  · simpa using h
  · cases target <;> first | exact ⟨_, rfl⟩ | cases h

theorem ofKind?_eq (k : Kind) : Modifier.ofKind? k = modifierWords.lookup k := by cases k <;> rfl

theorem assignOf?_eq (k : Kind) : Rules.assignOf? k = assignWords.lookup k := by cases k <;> rfl

/-- The tokens that the parser takes as literals are literals. -/
theorem literalWord_of (h : literalOf? t = some l) : LiteralWord t l := by
  unfold literalOf? at h
  split at h <;> cases h <;> constructor <;> assumption

theorem asStatement_of (h : e.hasEffect = true) : AsStatement e e.asStatement := by
  cases e <;> first | constructor | cases h

theorem AsStatement.eq (h : AsStatement e e') : e' = e.asStatement := by
  cases h <;> rfl

theorem isAccess_iff (m : Modifier) : m.isAccess = true ↔ m ∈ accessModifiers := by
  cases m <;> decide

/-- A modifier that the parser lets pass sets no second access. -/
theorem not_conflicts (h : conflicts mods m = false) (hfresh : mods.contains m = false)
    (hm : m ∈ accessModifiers) : ∀ n ∈ mods, n ∉ accessModifiers := by
  intro n hn haccess
  have hne : n ≠ m := by
    rintro rfl
    simp [hn] at hfresh
  simp only [conflicts, (isAccess_iff m).2 hm, Bool.true_and, List.any_eq_false,
    Bool.and_eq_true, decide_eq_true_eq] at h
  exact h n hn ⟨(isAccess_iff n).2 haccess, hne⟩

/-- Modifiers with the two that every method of an interface has. -/
def interfaceModifiers (mods : List Modifier) : List Modifier :=
  mods ++ [.publicAccess, .abstract].filter fun m => m ∉ mods

theorem add_add_eq (mods : List Modifier) :
    Modifier.add (Modifier.add mods .publicAccess) .abstract = interfaceModifiers mods := by
  by_cases hp : Modifier.publicAccess ∈ mods <;> by_cases ha : Modifier.abstract ∈ mods <;>
    simp [Modifier.add, interfaceModifiers, hp, ha]

/-! ## Categories -/

/-- What a rule parses. -/
inductive Category : Type → Type 1 where
  /- Words and sequences. -/
  | identifier : Category String
  | each {α : Type} (separator : Kind) (item : Category α) : Category (List α)
  | list {α : Type} (item : Category α) : Category (List α)
  | items {α : Type} (ends : Kind → Bool) (item : Category α) : Category (List α)
  | braced {α : Type} (item : Category α) : Category (List α)
  | option {α : Type} (opening : Kind) (item : Category α) : Category (Option α)
  | clause {α : Type} (opening : Kind) (item : Category α) : Category (List α)
  /- Names and types. -/
  | qualifiedName : Category QualifiedName
  | classType : Category Ty
  | basicType : Category Ty
  | arrayLevels (ty : Ty) : Category Ty
  | referenceType : Category Ty
  | type : Category Ty
  /- Primaries. -/
  | literal : Category Expr
  | parenthesized : Category Expr
  | arguments : Category (List Expr)
  | memberOf (line : Nat) (target : Expr) (name : String) : Category Expr
  | closedLevels (ty : Ty) : Category Ty
  | lengths (ty : Ty) : Category (Ty × List Expr)
  | newArray (line : Nat) (element : Ty) : Category Expr
  | creatorType : Category Ty
  | creator : Category Expr
  | nameOrCall (line : Nat) : Category Expr
  | primary : Category Expr
  /- Operators. -/
  | selector (target : Expr) : Category Expr
  | selections (target : Expr) : Category Expr
  | postfixSteps (line : Nat) (operand : Expr) : Category Expr
  | postfixed : Category Expr
  | castOf (line : Nat) : Category Expr
  | simpleUnary : Category Expr
  | unary : Category Expr
  | operator (ops : List (Kind × BinaryOp)) : Category (Option BinaryOp)
  | chain (ops : List (Kind × BinaryOp)) (operand : Category Expr) (line : Nat) (lhs : Expr) :
      Category Expr
  | grouping (ops : List (Kind × BinaryOp)) (operand : Category Expr) : Category Expr
  | relational : Category Expr
  | conditional : Category Expr
  | assignment : Category Expr
  | expression : Category Expr
  /- Array elements. -/
  | initializer (ty : Ty) : Category Expr
  | moreElements (ty : Ty) : Category (List Expr)
  | elements (ty : Ty) : Category (List Expr)
  | arrayInit (ty : Ty) : Category Expr
  /- Parts of statements. -/
  | statementExpression : Category Expr
  | expressionStatement : Category Stmt
  | condition : Category Expr
  | declarator (ty : Ty) : Category Declarator
  | locals : Category Stmt
  | parameter : Category Param
  | jumpWords : Category Unit
  | switchLabel : Category SwitchLabel
  | switchLabels : Category (List SwitchLabel)
  | forInit : Category (List Stmt)
  /- Statements. -/
  | blockStatement : Category Stmt
  | block : Category (Block Stmt)
  | switchGroup : Category (SwitchGroup Stmt)
  | catchClauses : Category (List (CatchClause Stmt))
  | upTo {α : Type} (closing : Kind) (absent : α) (part : Category α) : Category α
  | test : Category (Option Expr)
  | forStatement (line : Nat) : Category Stmt
  | tryStatement (line : Nat) : Category Stmt
  | statementForm (line : Nat) : Category Stmt
  | statement : Category Stmt
  /- Declarations. -/
  | modifiers (before : List Modifier) : Category (List Modifier)
  | parameters : Category (List Param)
  | methodBody : Category (Option (Block Stmt))
  | methodRest (line : Nat) (mods : List Modifier) (result : Ty) : Category Member
  | constructor (line : Nat) (mods : List Modifier) : Category Member
  | classMember : Category Member
  | resultType : Category Ty
  | interfaceMember : Category Member
  | classRest (mods : List Modifier) : Category ClassDecl
  | interfaceRest (mods : List Modifier) : Category InterfaceDecl
  | typeDeclaration : Category (Option TypeDecl)
  | nameLine : Category QualifiedName
  | unit (file : String) : Category CompilationUnit

namespace Category

/-- Products. -/
def multiplicative : Category Expr :=
  .grouping [(.star, .mul), (.slash, .div), (.percent, .rem)] .unary

/-- Sums. -/
def additive : Category Expr := .grouping [(.plus, .add), (.minus, .sub)] multiplicative

/-- Shifts. -/
def shift : Category Expr :=
  .grouping [(.shiftLeft, .shl), (.shiftRight, .shr), (.shiftRightUnsigned, .ushr)] additive

/-- Binary expressions from a list of left-grouping levels down, loosest first. -/
def binaryFrom : List (List (Kind × BinaryOp)) → Category Expr
  | [] => .relational
  | ops :: levels => .grouping ops (binaryFrom levels)

/-- Everything that binds tighter than a choice. -/
def binary : Category Expr :=
  binaryFrom [[(.pipePipe, .logicalOr)], [(.ampAmp, .logicalAnd)], [(.pipe, .bitOr)],
    [(.caret, .bitXor)], [(.amp, .bitAnd)], [(.equal, .eq), (.notEqual, .ne)]]

end Category

/-! ## Productions -/

/-- The tokens `i` start with a phrase of a category, whose tree is `a` and after which `r` come. -/
inductive Derives : {α : Type} → Category α → List Token → α → List Token → Prop where
  /- Words and sequences. -/
  | identifier (word : t.kind = .identifier) : Derives .identifier (t :: r) t.lexeme r
  | eachNone {item : Category α} (stop : ahead i ≠ separator) :
      Derives (.each separator item) i [] i
  | eachMore {item : Category α} (another : Starts separator i j) (head : Derives item j x k)
      (tail : Derives (.each separator item) k xs r) : Derives (.each separator item) i (x :: xs) r
  | list {item : Category α} (head : Derives item i x j)
      (tail : Derives (.each .comma item) j xs r) : Derives (.list item) i (x :: xs) r
  | itemsNone {item : Category α} (stop : ends (ahead i) = true ∨ ahead i = .endOfInput) :
      Derives (.items ends item) i [] i
  | itemsMore {item : Category α} (another : ends (ahead i) = false)
      (inside : ahead i ≠ .endOfInput) (head : Derives item i x j)
      (tail : Derives (.items ends item) j xs r) : Derives (.items ends item) i (x :: xs) r
  | braced {item : Category α} (opening : Starts .leftBrace i j)
      (inner : Derives (.items (· = .rightBrace) item) j xs k) (closing : Starts .rightBrace k r) :
      Derives (.braced item) i xs r
  | optionNone {item : Category α} (stop : ahead i ≠ opening) :
      Derives (.option opening item) i none i
  | optionSome {item : Category α} (start : Starts opening i j) (part : Derives item j x r) :
      Derives (.option opening item) i (some x) r
  | clauseNone {item : Category α} (stop : ahead i ≠ opening) :
      Derives (.clause opening item) i [] i
  | clauseSome {item : Category α} (start : Starts opening i j)
      (parts : Derives (.list item) j xs r) : Derives (.clause opening item) i xs r
  /- Names and types. -/
  | qualifiedName (head : Derives .identifier i first j)
      (tail : Derives (.each .dot .identifier) j rest r) :
      Derives .qualifiedName i ⟨firstLine i, first :: rest⟩ r
  | classType (name : Derives .qualifiedName i q r) : Derives .classType i (.named q.text) r
  | basicType (word : basicWords.lookup t.kind = some ty) : Derives .basicType (t :: r) ty r
  | arrayLevelsNone (stop : ¬ Lookahead.DimsAhead i) : Derives (.arrayLevels ty) i ty i
  | arrayLevelsMore (another : Lookahead.DimsAhead i) (opening : Starts .leftBracket i j)
      (closing : Starts .rightBracket j k) (more : Derives (.arrayLevels (.array ty)) k ty' r) :
      Derives (.arrayLevels ty) i ty' r
  | referenceClass (word : ahead i = .identifier) (base : Derives .classType i ty j)
      (levels : Derives (.arrayLevels ty) j ty' r) : Derives .referenceType i ty' r
  | referenceBasic (word : ahead i ≠ .identifier) (base : Derives .basicType i ty j)
      (opening : Starts .leftBracket j k) (closing : Starts .rightBracket k l)
      (levels : Derives (.arrayLevels (.array ty)) l ty' r) : Derives .referenceType i ty' r
  | typeReference (look : Lookahead.ReferenceTypeAhead i)
      (reference : Derives .referenceType i ty r) : Derives .type i ty r
  | typeBasic (look : ¬ Lookahead.ReferenceTypeAhead i) (basic : Derives .basicType i ty r) :
      Derives .type i ty r
  /- Primaries. -/
  | literal (word : LiteralWord t value) :
      Derives .literal (t :: r) (.literal (plain t.line) value) r
  | parenthesized (opening : Starts .leftParen i j) (inner : Derives .expression j e k)
      (closing : Starts .rightParen k r) : Derives .parenthesized i e r
  | argumentsNone (opening : Starts .leftParen i j) (closing : Starts .rightParen j r) :
      Derives .arguments i [] r
  | argumentsSome (opening : Starts .leftParen i j) (given : ahead j ≠ .rightParen)
      (inner : Derives (.list .expression) j args k) (closing : Starts .rightParen k r) :
      Derives .arguments i args r
  | memberCall (call : ahead i = .leftParen) (passed : Derives .arguments i args r) :
      Derives (.memberOf line target name) i (.send (plain line) (some target) name args none) r
  | memberField (field : ahead i ≠ .leftParen) :
      Derives (.memberOf line target name) i (.field (plain line) target name none) i
  | closedLevelsNone (stop : ahead i ≠ .leftBracket) : Derives (.closedLevels ty) i ty i
  | closedLevelsMore (opening : Starts .leftBracket i j) (closing : Starts .rightBracket j k)
      (more : Derives (.closedLevels (.array ty)) k ty' r) : Derives (.closedLevels ty) i ty' r
  | lengthsNone (stop : ahead i ≠ .leftBracket) : Derives (.lengths ty) i (ty, []) i
  | lengthsClosed (opening : Starts .leftBracket i j) (closing : Starts .rightBracket j k)
      (more : Derives (.closedLevels (.array ty)) k ty' r) : Derives (.lengths ty) i (ty', []) r
  | lengthsMore (opening : Starts .leftBracket i j) (length : ahead j ≠ .rightBracket)
      (first : Derives .expression j dim k) (closing : Starts .rightBracket k l)
      (more : Derives (.lengths (.array ty)) l (ty', dims) r) :
      Derives (.lengths ty) i (ty', dim :: dims) r
  | newArray (opening : Starts .leftBracket i j) (first : Derives .expression j dim k)
      (closing : Starts .rightBracket k l)
      (more : Derives (.lengths (.array element)) l (ty, dims) r) :
      Derives (.newArray line element) i (.newArray (plain line) ty (dim :: dims)) r
  | creatorBasic (word : (basicWords.lookup (ahead i)).isSome) (basic : Derives .basicType i ty r) :
      Derives .creatorType i ty r
  | creatorClass (word : basicWords.lookup (ahead i) = none) (name : Derives .classType i ty r) :
      Derives .creatorType i ty r
  | creatorObject (base : Derives .creatorType i ty j) (call : ahead j = .leftParen)
      (passed : Derives .arguments j args r) :
      Derives .creator i (.newObject (plain (firstLine i)) ty args none) r
  | creatorElements (base : Derives .creatorType i ty j) (levels : ahead j = .leftBracket)
      (look : Lookahead.DimsAhead j) (whole : Derives (.closedLevels ty) j ty' k)
      (elements : Derives (.arrayInit ty') k e r) : Derives .creator i e r
  | creatorLengths (base : Derives .creatorType i ty j) (levels : ahead j = .leftBracket)
      (look : ¬ Lookahead.DimsAhead j)
      (lengths : Derives (.newArray (firstLine i) ty) j e r) : Derives .creator i e r
  | plainCall (name : Derives .qualifiedName i q j)
      (call : ahead j = .leftParen) (passed : Derives .arguments j args r) :
      Derives (.nameOrCall line) i (.send (plain line)
        (if q.segments.dropLast.isEmpty then none else some
          (.name (plain line) q.segments.dropLast))
        (q.segments.getLast?.getD "") args none) r
  | plainName (name : Derives .qualifiedName i q r) (stop : ahead r ≠ .leftParen) :
      Derives (.nameOrCall line) i (.name (plain line) q.segments) r
  | primaryParens (look : ahead i = .leftParen) (inner : Derives .parenthesized i e r) :
      Derives .primary i e r
  | primaryThisCall (word : Starts .kwThis i j) (call : ahead j = .leftParen)
      (passed : Derives .arguments j args r) :
      Derives .primary i (.delegate (plain (firstLine i)) .toThis args none) r
  | primaryThis (word : Starts .kwThis i r) (stop : ahead r ≠ .leftParen) :
      Derives .primary i (.thisRef (plain (firstLine i))) r
  | primarySuperMember (word : Starts .kwSuper i j) (point : Starts .dot j k)
      (member : Derives .identifier k name l)
      (rest : Derives (.memberOf (firstLine i) (.superRef (plain (firstLine i))) name) l e r) :
      Derives .primary i e r
  | primarySuperCall (word : Starts .kwSuper i j) (call : ahead j ≠ .dot)
      (passed : Derives .arguments j args r) :
      Derives .primary i (.delegate (plain (firstLine i)) .toSuper args none) r
  | primaryNew (word : Starts .kwNew i j) (created : Derives .creator j e r) :
      Derives .primary i e r
  | primaryName (look : ahead i = .identifier) (named : Derives (.nameOrCall (firstLine i)) i e r) :
      Derives .primary i e r
  | primaryLiteral (value : Derives .literal i e r) : Derives .primary i e r
  /- Selections and steps. -/
  | selectorMember (point : Starts .dot i j) (member : Derives .identifier j name k)
      (rest : Derives (.memberOf (firstLine i) target name) k e r) :
      Derives (.selector target) i e r
  | selectorElement (opening : Starts .leftBracket i j) (inner : Derives .expression j index k)
      (closing : Starts .rightBracket k r) :
      Derives (.selector target) i (.element (plain (firstLine i)) target index) r
  | selectionsNone (dot : ahead i ≠ .dot) (bracket : ahead i ≠ .leftBracket) :
      Derives (.selections e) i e i
  | selectionsMore (another : ahead i = .dot ∨ ahead i = .leftBracket)
      (one : Derives (.selector e) i e' j) (more : Derives (.selections e') j e'' r) :
      Derives (.selections e) i e'' r
  | stepsNone (dec : ahead i ≠ .decrement) (inc : ahead i ≠ .increment) :
      Derives (.postfixSteps line e) i e i
  | stepsDec (word : Starts .decrement i j)
      (more : Derives (.postfixSteps line (.step (plain line) .postDec e)) j e' r) :
      Derives (.postfixSteps line e) i e' r
  | stepsInc (word : Starts .increment i j)
      (more : Derives (.postfixSteps line (.step (plain line) .postInc e)) j e' r) :
      Derives (.postfixSteps line e) i e' r
  | postfixed (base : Derives .primary i e j) (selected : Derives (.selections e) j e' k)
      (stepped : Derives (.postfixSteps (firstLine i) e') k e'' r) : Derives .postfixed i e'' r
  /- Prefix operators and casts. -/
  | castBasic (opening : Starts .leftParen i j) (type : Derives .type j target k)
      (closing : Starts .rightParen k l) (basic : (basicWords.lookup (ahead j)).isSome)
      (scalar : ∀ ty, target ≠ .array ty)
      (operand : Derives .unary l e r) : Derives (.castOf line) i (.cast (plain line) target e) r
  | castReference (opening : Starts .leftParen i j) (type : Derives .type j target k)
      (closing : Starts .rightParen k l)
      (reference : basicWords.lookup (ahead j) = none ∨ ∃ ty, target = .array ty)
      (operand : Derives .simpleUnary l e r) :
      Derives (.castOf line) i (.cast (plain line) target e) r
  | complement (word : Starts .tilde i j) (operand : Derives .unary j e r) :
      Derives .simpleUnary i (.unary (plain (firstLine i)) .bitNot e) r
  | negation (word : Starts .bang i j) (operand : Derives .unary j e r) :
      Derives .simpleUnary i (.unary (plain (firstLine i)) .not e) r
  | cast (look : Lookahead.CastAhead i) (cast : Derives (.castOf (firstLine i)) i e r) :
      Derives .simpleUnary i e r
  | simplePostfixed (look : ¬ Lookahead.CastAhead i) (inner : Derives .postfixed i e r) :
      Derives .simpleUnary i e r
  | preInc (word : Starts .increment i j) (operand : Derives .unary j e r) :
      Derives .unary i (.step (plain (firstLine i)) .preInc e) r
  | preDec (word : Starts .decrement i j) (operand : Derives .unary j e r) :
      Derives .unary i (.step (plain (firstLine i)) .preDec e) r
  | minus (word : Starts .minus i j) (operand : Derives .unary j e r) :
      Derives .unary i (.unary (plain (firstLine i)) .neg e) r
  | plus (word : Starts .plus i j) (operand : Derives .unary j e r) :
      Derives .unary i (.unary (plain (firstLine i)) .plus e) r
  | unarySimple (inner : Derives .simpleUnary i e r) : Derives .unary i e r
  /- Binary operators. -/
  | operatorSome (word : ops.lookup t.kind = some op) : Derives (.operator ops) (t :: r) (some op) r
  | operatorNone (word : ops.lookup (ahead i) = none) : Derives (.operator ops) i none i
  | chainNone (stop : Derives (.operator ops) i none r) :
      Derives (.chain ops operand line lhs) i lhs r
  | chainMore (word : Derives (.operator ops) i (some op) j) (right : Derives operand j rhs k)
      (more : Derives (.chain ops operand line (.binary (plain line) op lhs rhs)) k e r) :
      Derives (.chain ops operand line lhs) i e r
  | grouping (left : Derives operand i lhs j)
      (more : Derives (.chain ops operand (firstLine i) lhs) j e r) :
      Derives (.grouping ops operand) i e r
  | instanceOf (left : Derives .shift i lhs j) (word : Starts .kwInstanceOf j k)
      (type : Derives .referenceType k ty r) :
      Derives .relational i (.instanceOf (plain (firstLine i)) lhs ty) r
  | comparison (left : Derives .shift i lhs j) (stop : ahead j ≠ .kwInstanceOf)
      (word : Derives (.operator
        [(.greater, .gt), (.lessEqual, .le), (.greaterEqual, .ge), (.less, .lt)]) j (some op) k)
      (right : Derives .shift k rhs r) :
      Derives .relational i (.binary (plain (firstLine i)) op lhs rhs) r
  | noComparison (left : Derives .shift i e j) (stop : ahead j ≠ .kwInstanceOf)
      (word : Derives (.operator
        [(.greater, .gt), (.lessEqual, .le), (.greaterEqual, .ge), (.less, .lt)]) j none r) :
      Derives .relational i e r
  /- Choices and assignments. -/
  | choice (condition : Derives .binary i test j) (question : Starts .question j k)
      (yes : Derives .expression k e l) (colon : Starts .colon l m)
      (no : Derives .conditional m e' r) :
      Derives .conditional i (.conditional (plain (firstLine i)) test e e') r
  | noChoice (inner : Derives .binary i e r) (stop : ahead r ≠ .question) :
      Derives .conditional i e r
  | assign (left : Derives .conditional i lhs (t :: k)) (word : assignWords.lookup t.kind = some op)
      (right : Derives .expression k rhs r) :
      Derives .assignment i (.assign (plain (firstLine i)) op lhs rhs) r
  | noAssign (inner : Derives .conditional i e r) (stop : assignWords.lookup (ahead r) = none) :
      Derives .assignment i e r
  | expression (inner : Derives .assignment i e r) : Derives .expression i e r
  /- Array elements. -/
  | initializerBraces (look : ahead i = .leftBrace) (elements : Derives (.arrayInit ty) i e r) :
      Derives (.initializer ty) i e r
  | initializerPlain (look : ahead i ≠ .leftBrace) (value : Derives .expression i e r) :
      Derives (.initializer ty) i e r
  | elementsEnd (stop : ahead i ≠ .comma) : Derives (.moreElements ty) i [] i
  | elementsTrailing (comma : Starts .comma i r) (stop : ahead r = .rightBrace) :
      Derives (.moreElements ty) i [] r
  | elementsMore (comma : Starts .comma i j) (another : ahead j ≠ .rightBrace)
      (head : Derives (.initializer ty) j x k) (tail : Derives (.moreElements ty) k xs r) :
      Derives (.moreElements ty) i (x :: xs) r
  | elementsNone (closing : Starts .rightBrace i r) : Derives (.elements ty) i [] r
  | elementsSome (given : ahead i ≠ .rightBrace) (head : Derives (.initializer ty) i x j)
      (tail : Derives (.moreElements ty) j xs k) (closing : Starts .rightBrace k r) :
      Derives (.elements ty) i (x :: xs) r
  | arrayInit (opening : Starts .leftBrace i j)
      (inner : Derives (.elements (ty.component?.getD .any)) j xs r) :
      Derives (.arrayInit ty) i (.arrayInit (plain (firstLine i)) ty xs) r
  /- Parts of statements. -/
  | statementExpression (inner : Derives .expression i e r) (effect : AsStatement e e') :
      Derives .statementExpression i e' r
  | expressionStatement (inner : Derives .statementExpression i e r) :
      Derives .expressionStatement i (.exprStmt (firstLine i) e) r
  | condition (opening : Starts .leftParen i j) (inner : Derives .expression j e k)
      (closing : Starts .rightParen k r) : Derives .condition i e r
  | declarator (word : Derives .identifier i name j) (levels : Derives (.arrayLevels ty) j ty' k)
      (value : Derives (.option .assign (.initializer ty')) k init r) :
      Derives (.declarator ty) i { line := firstLine i, name, ty := ty', init } r
  | locals (type : Derives .type i ty j) (names : Derives (.list (.declarator ty)) j vars r) :
      Derives .locals i (.localsStmt (firstLine i) vars) r
  | parameter (type : Derives .type i ty j) (word : Derives .identifier j name r) :
      Derives .parameter i { line := firstLine i, name, ty } r
  | jumpWordsEnd (closing : Starts .semicolon i r) : Derives .jumpWords i () r
  | jumpWordsMore (word : Starts .identifier i j) (more : Derives .jumpWords j () r) :
      Derives .jumpWords i () r
  | caseLabel (word : Starts .kwCase i j) (value : Derives .expression j e k)
      (colon : Starts .colon k r) : Derives .switchLabel i (.case e) r
  | defaultLabel (word : Starts .kwDefault i j) (colon : Starts .colon j r) :
      Derives .switchLabel i (.otherwise (firstLine i)) r
  | labelsLast (head : Derives .switchLabel i l r) (case : ahead r ≠ .kwCase)
      (default : ahead r ≠ .kwDefault) : Derives .switchLabels i [l] r
  | labelsMore (head : Derives .switchLabel i l j)
      (another : ahead j = .kwCase ∨ ahead j = .kwDefault) (tail : Derives .switchLabels j ls r) :
      Derives .switchLabels i (l :: ls) r
  | forLocals (look : Lookahead.LocalsAhead i) (declared : Derives .locals i s r) :
      Derives .forInit i [s] r
  | forExpressions (look : ¬ Lookahead.LocalsAhead i)
      (done : Derives (.list .expressionStatement) i ss r) : Derives .forInit i ss r
  /- Statements. -/
  | localsStatement (look : Lookahead.LocalsAhead i) (declared : Derives .locals i s j)
      (closing : Starts .semicolon j r) : Derives .blockStatement i s r
  | otherStatement (look : ¬ Lookahead.LocalsAhead i) (inner : Derives .statement i s r) :
      Derives .blockStatement i s r
  | block (inner : Derives (.braced .blockStatement) i ss r) : Derives .block i ⟨firstLine i, ss⟩ r
  | switchGroup (head : Derives .switchLabels i labels j)
      (inner : Derives (.items (fun k => k = .kwCase || k = .kwDefault || k = .rightBrace)
        .blockStatement) j ss r) :
      Derives .switchGroup i ⟨labels, ss⟩ r
  | catchNone (stop : ahead i ≠ .kwCatch) : Derives .catchClauses i [] i
  | catchMore (word : Starts .kwCatch i j) (opening : Starts .leftParen j k)
      (caught : Derives .parameter k param l) (closing : Starts .rightParen l m)
      (handler : Derives .block m body n) (more : Derives .catchClauses n cs r) :
      Derives .catchClauses i (⟨firstLine i, param, body⟩ :: cs) r
  | upToAbsent {part : Category α} (stop : ahead i = closing) :
      Derives (.upTo closing absent part) i absent i
  | upToPresent {part : Category α} (go : ahead i ≠ closing) (inner : Derives part i x r) :
      Derives (.upTo closing absent part) i x r
  | test (inner : Derives .expression i e r) : Derives .test i (some e) r
  | forStatement (opening : Starts .leftParen i j)
      (first : Derives (.upTo .semicolon [] .forInit) j init k) (one : Starts .semicolon k l)
      (second : Derives (.upTo .semicolon none .test) l test m) (two : Starts .semicolon m n)
      (third : Derives (.upTo .rightParen [] (.list .expressionStatement)) n update p)
      {q : List Token} (closing : Starts .rightParen p q) (repeated : Derives .statement q body r) :
      Derives (.forStatement line) i (.forStmt line init test update body) r
  | tryStatement (tried : Derives .block i body j) (handlers : Derives .catchClauses j catches k)
      (last : Derives (.option .kwFinally .block) k final r)
      (handled : (catches.isEmpty && final.isNone) = false) :
      Derives (.tryStatement line) i (.tryStmt line body catches final) r
  | blockForm (inner : Derives .block i b r) : Derives (.statementForm line) i (.blockStmt b) r
  | ifForm (word : Starts .kwIf i j) (tested : Derives .condition j test k)
      (yes : Derives .statement k s l) (no : Derives (.option .kwElse .statement) l alternative r) :
      Derives (.statementForm line) i (.ifStmt line test s alternative) r
  | whileForm (word : Starts .kwWhile i j) (tested : Derives .condition j test k)
      (repeated : Derives .statement k s r) :
      Derives (.statementForm line) i (.whileStmt line test s) r
  | doForm (word : Starts .kwDo i j) (repeated : Derives .statement j s k)
      (again : Starts .kwWhile k l) (tested : Derives .condition l test m)
      (closing : Starts .semicolon m r) : Derives (.statementForm line) i (.doStmt line s test) r
  | forForm (word : Starts .kwFor i j) (rest : Derives (.forStatement line) j s r) :
      Derives (.statementForm line) i s r
  | switchForm (word : Starts .kwSwitch i j) (selected : Derives .condition j e k)
      (inner : Derives (.braced .switchGroup) k groups r) :
      Derives (.statementForm line) i (.switchStmt line e groups) r
  | tryForm (word : Starts .kwTry i j) (rest : Derives (.tryStatement line) j s r) :
      Derives (.statementForm line) i s r
  | returnForm (word : Starts .kwReturn i j) (closing : Starts .semicolon j r) :
      Derives (.statementForm line) i (.returnStmt line none) r
  | returnValueForm (word : Starts .kwReturn i j) (given : ahead j ≠ .semicolon)
      (value : Derives .expression j e k) (closing : Starts .semicolon k r) :
      Derives (.statementForm line) i (.returnStmt line (some e)) r
  | throwForm (word : Starts .kwThrow i j) (value : Derives .expression j e k)
      (closing : Starts .semicolon k r) : Derives (.statementForm line) i (.throwStmt line e) r
  | breakForm (word : Starts .kwBreak i j) (rest : Derives .jumpWords j () r) :
      Derives (.statementForm line) i (.breakStmt line) r
  | continueForm (word : Starts .kwContinue i j) (rest : Derives .jumpWords j () r) :
      Derives (.statementForm line) i (.continueStmt line) r
  | emptyForm (word : Starts .semicolon i r) : Derives (.statementForm line) i (.emptyStmt line) r
  | expressionForm (inner : Derives .statementExpression i e j) (closing : Starts .semicolon j r) :
      Derives (.statementForm line) i (.exprStmt line e) r
  | statement (form : Derives (.statementForm (firstLine i)) i s r) : Derives .statement i s r
  /- Declarations. -/
  | modifiersNone (stop : modifierWords.lookup (ahead i) = none) :
      Derives (.modifiers mods) i mods i
  | modifiersMore (word : modifierWords.lookup t.kind = some m) (fresh : m ∉ mods)
      (alone : m ∈ accessModifiers → ∀ n ∈ mods, n ∉ accessModifiers)
      (more : Derives (.modifiers (mods ++ [m])) j mods' r) :
      Derives (.modifiers mods) (t :: j) mods' r
  | parametersNone (opening : Starts .leftParen i j) (closing : Starts .rightParen j r) :
      Derives .parameters i [] r
  | parametersSome (opening : Starts .leftParen i j) (given : ahead j ≠ .rightParen)
      (inner : Derives (.list .parameter) j params k) (closing : Starts .rightParen k r) :
      Derives .parameters i params r
  | noBody (closing : Starts .semicolon i r) : Derives .methodBody i none r
  | body (given : ahead i ≠ .semicolon) (inner : Derives .block i b r) :
      Derives .methodBody i (some b) r
  | methodRest (word : Derives .identifier i name j) (inputs : Derives .parameters j params k)
      (faults : Derives (.clause .kwThrows .classType) k throws l)
      (rest : Derives .methodBody l body r) : Derives (.methodRest line mods result) i
      (.method { line, modifiers := mods, result, name, params, throws, body }) r
  | constructor (word : Derives .identifier i name j) (inputs : Derives .parameters j params k)
      (faults : Derives (.clause .kwThrows .classType) k throws l)
      (rest : Derives .block l body r) : Derives (.constructor line mods) i
      (.ctor { line, modifiers := mods, name, params, throws, body }) r
  | constructorMember (words : Derives (.modifiers []) i mods j)
      (look : Lookahead.CallAhead j)
      (rest : Derives (.constructor (firstLine j) mods) j m r) : Derives .classMember i m r
  | voidMember (words : Derives (.modifiers []) i mods j) (look : ¬ Lookahead.CallAhead j)
      (result : Starts .kwVoid j k) (rest : Derives (.methodRest (firstLine j) mods .void) k m r) :
      Derives .classMember i m r
  | methodMember (words : Derives (.modifiers []) i mods j) (look : ¬ Lookahead.CallAhead j)
      (word : ahead j ≠ .kwVoid) (result : Derives .type j ty k)
      (call : Lookahead.CallAhead k)
      (rest : Derives (.methodRest (firstLine j) mods ty) k m r) : Derives .classMember i m r
  | fieldMember (words : Derives (.modifiers []) i mods j) (look : ¬ Lookahead.CallAhead j)
      (word : ahead j ≠ .kwVoid) (type : Derives .type j ty k)
      (field : ¬ Lookahead.CallAhead k) (names : Derives (.list (.declarator ty)) k vars l)
      (closing : Starts .semicolon l r) :
      Derives .classMember i (.field { line := firstLine j, modifiers := mods, vars }) r
  | resultVoid (word : Starts .kwVoid i r) : Derives .resultType i .void r
  | resultType (word : ahead i ≠ .kwVoid) (type : Derives .type i ty r) : Derives .resultType i ty r
  | interfaceMember
      (words : Derives (.modifiers []) i mods j) (type : Derives .resultType j result k)
      (word : Derives .identifier k name l) (inputs : Derives .parameters l params m)
      (faults : Derives (.clause .kwThrows .classType) m throws n)
      (closing : Starts .semicolon n r) :
      Derives .interfaceMember i (.method {
        line := firstLine j, modifiers := interfaceModifiers mods, result, name, params, throws,
        body := none }) r
  | classRest (word : Starts .kwClass i j) (named : Derives .identifier j name k)
      (parent : Derives (.option .kwExtends .classType) k superclass l)
      (parents : Derives (.clause .kwImplements .classType) l interfaces m)
      (inner : Derives (.braced .classMember) m members r) : Derives (.classRest mods) i
      { line := firstLine i, modifiers := mods, name, superclass, interfaces, members } r
  | interfaceRest (word : Starts .kwInterface i j) (named : Derives .identifier j name k)
      (extended : Derives (.clause .kwExtends .classType) k parents l)
      (inner : Derives (.braced .interfaceMember) l members r) : Derives (.interfaceRest mods) i
      { line := firstLine i, modifiers := mods, name, parents, members } r
  | classDeclaration (words : Derives (.modifiers []) i mods j) (look : ahead j = .kwClass)
      (rest : Derives (.classRest mods) j d r) : Derives .typeDeclaration i (some (.classDecl d)) r
  | interfaceDeclaration (words : Derives (.modifiers []) i mods j) (look : ahead j = .kwInterface)
      (rest : Derives (.interfaceRest mods) j d r) :
      Derives .typeDeclaration i (some (.interfaceDecl d)) r
  | nameLine (name : Derives .qualifiedName i q j) (closing : Starts .semicolon j r) :
      Derives .nameLine i q r
  | unit (first : Derives (.option .kwPackage .nameLine) i package j)
      (second : Derives (.each .kwImport .nameLine) j imports k)
      (third : Derives (.items (fun _ => false) .typeDeclaration) k types r)
      (stop : ahead r = .endOfInput) :
      Derives (.unit file) i { file, package, imports, types := types.filterMap id } r

/-! ## The size of a phrase -/

theorem Starts.length (h : Starts kind i r) : r.length + 1 = i.length := by
  obtain ⟨t, rfl, -⟩ := h
  rfl

/-- How many tokens a phrase of a category has at least. -/
def Category.least {α : Type} : Category α → Nat
  | .each .. | .items .. | .option .. | .clause .. | .arrayLevels _ | .memberOf .. | .closedLevels _
  | .lengths _ | .selections _ | .postfixSteps .. | .operator _ | .chain .. | .moreElements _
  | .catchClauses | .upTo .. | .modifiers _ | .unit _ => 0
  | .list item => item.least
  | .grouping _ operand => operand.least
  | _ => 1

/-- A phrase has as many tokens as its category asks for. -/
theorem Derives.length {α : Type} {c : Category α} {i r : List Token} {a : α}
    (h : Derives c i a r) : r.length + c.least ≤ i.length := by
  induction h
  all_goals
    dsimp only [Category.least, Category.shift, Category.additive, Category.multiplicative,
      Category.binary, Category.binaryFrom, List.length_cons] at *
    grind [Starts.length]

/-! ## Trees of phrases -/

/-- What holds of the trees of a category because none of them stands for wrong text. A chain may
leave the expression it starts from as it is. -/
def Category.Tame : {α : Type} → Category α → α → Prop
  | _, .literal, e | _, .parenthesized, e | _, .memberOf .., e | _, .newArray .., e
  | _, .creator, e | _, .nameOrCall _, e | _, .primary, e | _, .selector _, e | _, .postfixed, e
  | _, .castOf _, e | _, .simpleUnary, e | _, .unary, e | _, .relational, e | _, .conditional, e
  | _, .assignment, e | _, .expression, e | _, .arrayInit _, e => e.isWild = false
  | _, .selections e, e' | _, .postfixSteps _ e, e' | _, .chain _ _ _ e, e' =>
    e' = e ∨ e'.isWild = false
  | _, .grouping _ operand, e => operand.Tame e ∨ e.isWild = false
  | _, _, _ => True

theorem Category.Tame.shift (h : Category.shift.Tame e) : e.isWild = false := by
  rcases h with ((h | h) | h) | h <;> exact h

theorem Category.Tame.binary (h : Category.binary.Tame e) : e.isWild = false := by
  rcases h with (((((h | h) | h) | h) | h) | h) | h <;> exact h

/-- No tree of a phrase stands for wrong text. -/
theorem Derives.tame {α : Type} {c : Category α} {i r : List Token} {a : α}
    (h : Derives c i a r) : c.Tame a := by
  induction h
  case selectionsMore one more => exact .inr (more.elim (fun h => h ▸ one) id)
  case stepsDec more | stepsInc more | chainMore more =>
    exact .inr (more.elim (fun h => h ▸ rfl) id)
  case grouping left more => exact more.elim (fun h => .inl (h ▸ left)) .inr
  case postfixed base selected stepped =>
    rcases stepped with rfl | stepped
    · rcases selected with rfl | selected
      · exact base
      · exact selected
    · exact stepped
  case noComparison left _ => exact left.shift
  case noChoice inner => exact inner.binary
  -- Elsewhere the tree has a node of its own, is that of a part, or is no expression.
  all_goals first | exact True.intro | assumption | exact Eq.refl false | exact .inl (Eq.refl _)

end JMinusMinus.Grammar
