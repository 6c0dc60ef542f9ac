import JMinusMinus.Proofs.Faults.Expr
import JMinusMinus.Proofs.Height.Basic
import JMinusMinus.Proofs.Height.Passes

/-!
# A text with a long name

`chainSource n` is a class with one field, `class T{T a=a.a.a;}`, in which `.a` stands `n` times.
It is parsed without a report at any depth limit from two on (`chainSource_parsed`). Its name is one
node for the grammar, and analysis makes a selection of each word without a report either
(`analyze_chain`).
-/

namespace JMinusMinus

open Lexer

/-! ## The text and its tokens -/

/-- The characters of `.a` so many times and of what closes the class. -/
def chainRest : Nat → List Char
  | 0 => [';', '\x7d']
  | n + 1 => '.' :: 'a' :: chainRest n

/-- The characters of the class up to the first word of the name. -/
def chainFront : List Char := ['c', 'l', 'a', 's', 's', ' ', 'T', '\x7b', 'T', ' ', 'a', '=', 'a']

/-- A class whose field is the field of a field, so many times. -/
def chainSource (n : Nat) : String := String.ofList (chainFront ++ chainRest n)

/-- The tokens of slices up to a place, and what is no token among them. -/
def readSlices (pieces : List Slice × Location) : List Token × List Unidentified :=
  (pieces.1.filterMap Slice.token? ++ [Token.endOfInput pieces.2],
    pieces.1.filterMap Slice.unidentified?)

theorem slice_word (n : Nat) : slice 'a' (chainRest n) = (some .identifier, 0) := by
  cases n <;> rfl

theorem slice_dot (n : Nat) : slice '.' ('a' :: chainRest n) = (some .dot, 0) := rfl

theorem readSlices_cons (hslice : slice c cs = (some kind, 0)) (hkind : kind.isTrivia = false) :
    readSlices (slicesWithin (bound + 1) l (c :: cs)) =
      (⟨kind, String.ofList [c], l⟩ :: (readSlices (slicesWithin bound (l.advance c) cs)).1,
        (readSlices (slicesWithin bound (l.advance c) cs)).2) := by
  simp [readSlices, slicesWithin, hslice, List.filterMap_cons, Slice.token?, Slice.unidentified?,
    hkind, Location.advanceAll]

theorem chainRest_read (n : Nat) : ∀ (l : Location) (bound : Nat), (chainRest n).length ≤ bound →
    ∃ semicolon brace stop i, semicolon.kind = .semicolon ∧ brace.kind = .rightBrace ∧
      stop.kind = .endOfInput ∧
      Grammar.Dotted semicolon [brace, stop] (List.replicate n "a") i ∧
      readSlices (slicesWithin bound l (chainRest n)) = (i, []) := by
  induction n with
  | zero =>
    intro l bound hbound
    obtain ⟨bound, rfl⟩ : ∃ k, bound = k + 1 + 1 := Nat.exists_eq_add_of_le' hbound
    have hsemicolon : slice ';' ['\x7d'] = (some .semicolon, 0) := rfl
    have hbrace : slice '\x7d' [] = (some .rightBrace, 0) := rfl
    have hread : readSlices (slicesWithin (bound + 1 + 1) l (chainRest 0)) =
        ([⟨.semicolon, ";", l⟩, ⟨.rightBrace, "\x7d", l.advance ';'⟩,
          Token.endOfInput ((l.advance ';').advance '\x7d')], []) := by
      rw [chainRest, readSlices_cons hsemicolon rfl, readSlices_cons hbrace rfl]
      cases bound <;> rfl
    exact ⟨_, _, _, _, rfl, rfl, rfl, .stop, hread⟩
  | succ n ih =>
    intro l bound hbound
    obtain ⟨k, rfl⟩ : ∃ k, bound = k + ((chainRest n).length + 1 + 1) :=
      Nat.exists_eq_add_of_le' hbound
    obtain ⟨semicolon, brace, stop, i, hsemicolon, hbrace, hstop, hdotted, hread⟩ :=
      ih ((l.advance '.').advance 'a') (k + (chainRest n).length) (Nat.le_add_left _ _)
    have hread' : readSlices (slicesWithin (k + ((chainRest n).length + 1 + 1)) l
        (chainRest (n + 1))) =
        (⟨.dot, ".", l⟩ :: ⟨.identifier, "a", l.advance '.'⟩ :: i, []) := by
      rw [chainRest, ← Nat.add_assoc, ← Nat.add_assoc, readSlices_cons (slice_dot n) rfl,
        readSlices_cons (slice_word n) rfl, hread]
    refine ⟨semicolon, brace, stop, _, hsemicolon, hbrace, hstop, ?_, hread'⟩
    have hword : (⟨.identifier, "a", l.advance '.'⟩ : Token).kind = .identifier := rfl
    exact .more rfl hword hdotted

/-- The tokens of the class up to the first word of the name. -/
def chainTokens : List Token :=
  [⟨.kwClass, "class", ⟨1, 1, 0⟩⟩, ⟨.identifier, "T", ⟨1, 7, 6⟩⟩, ⟨.leftBrace, "\x7b", ⟨1, 8, 7⟩⟩,
    ⟨.identifier, "T", ⟨1, 9, 8⟩⟩, ⟨.identifier, "a", ⟨1, 11, 10⟩⟩, ⟨.assign, "=", ⟨1, 12, 11⟩⟩,
    ⟨.identifier, "a", ⟨1, 13, 12⟩⟩]

theorem chainFront_read (n k : Nat) :
    readSlices (slicesWithin (k + 13) {} (chainFront ++ chainRest n)) =
      (chainTokens ++ (readSlices (slicesWithin (k + 4) ⟨1, 14, 13⟩ (chainRest n))).1,
        (readSlices (slicesWithin (k + 4) ⟨1, 14, 13⟩ (chainRest n))).2) := by
  cases n <;> rfl

theorem chainSource_tokens (n : Nat) : ∃ semicolon brace stop i, semicolon.kind = .semicolon ∧
    brace.kind = .rightBrace ∧ stop.kind = .endOfInput ∧
      Grammar.Dotted semicolon [brace, stop] (List.replicate n "a") i ∧
      Grammar.readTokens (chainSource n) = (chainTokens ++ i, {}) := by
  obtain ⟨semicolon, brace, stop, i, hsemicolon, hbrace, hstop, hdotted, hread⟩ :=
    chainRest_read n ⟨1, 14, 13⟩ ((chainRest n).length + 4) (Nat.le_add_right _ _)
  refine ⟨semicolon, brace, stop, i, hsemicolon, hbrace, hstop, hdotted, ?_⟩
  have htokens : tokenize (chainSource n) = (chainTokens ++ i, []) := by
    change readSlices (slices (chainSource n).toList) = _
    rw [chainSource, String.toList_ofList, slices, List.length_append, Nat.add_comm]
    exact (chainFront_read n (chainRest n).length).trans (by rw [hread])
  rw [Grammar.readTokens, htokens]
  rfl

/-! ## The parse -/

namespace Grammar

/-- A field whose first value is a long dotted name. -/
def chainField (e : Expr) : Member :=
  .field ⟨1, [], [{ line := 1, name := "a", ty := .named "T", init := some e }]⟩

/-- The class of that field. -/
def chainClass (e : Expr) : ClassDecl := ⟨1, [], "T", none, [], [chainField e]⟩

/-- The unit of that class, as it is parsed. -/
def chainUnit (file : String) (e : Expr) : CompilationUnit :=
  ⟨file, none, [], [.classDecl (chainClass e)]⟩

variable {levels : Nat} {r i : List Token} {stop : Token} {words : List String}

theorem modifiers_none (hk : Modifier.ofKind? (ahead i) = none) (hi : i ≠ []) :
    Passes levels modifiers i [] i := by
  obtain ⟨t, ts, rfl⟩ := List.exists_cons_of_ne_nil hi
  refine .remaining (.currentKind ?_)
  rw [hk]
  exact .pure

theorem classMember_passes (hstop : stop.kind = .semicolon) {brace : Token}
    (h : Dotted stop (brace :: r) words i) :
    Passes (levels + 2) classMember (chainTokens.drop 3 ++ i)
      (chainField (.name (plain 1) ("a" :: words))) (brace :: r) := by
  have hname : Passes (levels + 2) qualifiedName (chainTokens.drop 3 ++ i) ⟨1, ["T"]⟩
      (chainTokens.drop 4 ++ i) := by
    refine .currentLine (.bind (.identifier rfl) (.remaining ?_))
    exact .bind (.noMore (show Kind.identifier ≠ .dot by decide)) .pure
  have htype : Passes (levels + 2) type (chainTokens.drop 3 ++ i) (.named "T")
      (chainTokens.drop 4 ++ i) := by
    refine .upcoming (.seen rfl (.bind (b := .named "T") (.bind hname .pure) (.remaining ?_)))
    exact .upcoming .pure
  have hvar : Passes (levels + 2) (declarator (.named "T")) (chainTokens.drop 4 ++ i)
      { line := 1, name := "a", ty := .named "T", init := some (.name (plain 1) ("a" :: words)) }
      (stop :: brace :: r) := by
    refine .currentLine (.bind (.identifier rfl) (.remaining ?_))
    refine .bind (b := .named "T") (.upcoming .pure) (.accepted rfl ?_)
    exact .bind (.map (initializer_passes hstop rfl h)) .pure
  refine .bind (modifiers_none rfl (by simp [chainTokens])) (.currentLine (.upcoming ?_))
  refine .unaccepted (show Kind.identifier ≠ .kwVoid by decide) (.bind htype (.upcoming ?_))
  refine .bind (.oneOf hvar (by simp [hstop])) (.require hstop .pure)

theorem compilationUnit_passes (file : String) (hstop : stop.kind = .semicolon) {brace eof : Token}
    (hbrace : brace.kind = .rightBrace) (heof : eof.kind = .endOfInput)
    (h : Dotted stop [brace, eof] words i) :
    Passes 2 (compilationUnit file) (chainTokens ++ i)
      (chainUnit file (.name (plain 1) ("a" :: words))) [eof] := by
  have hmembers : Passes 2 (braced classMember) (chainTokens.drop 2 ++ i)
      [chainField (.name (plain 1) ("a" :: words))] [eof] := by
    refine .require rfl (.bind (.oneItem rfl (show Kind.identifier ≠ .endOfInput by decide)
      (classMember_passes hstop h) ?_ ?_) (.require hbrace .pure))
    · simp
    · simp [hbrace]
  have hclass : Passes 2 (classRest []) (chainTokens ++ i)
      (chainClass (.name (plain 1) ("a" :: words))) [eof] := by
    refine .currentLine (.require rfl (.bind (.identifier rfl) ?_))
    refine .unaccepted (show Kind.leftBrace ≠ .kwExtends by decide) (.bind .pure ?_)
    refine .unaccepted (show Kind.leftBrace ≠ .kwImplements by decide) (.bind .pure ?_)
    exact .bind hmembers .pure
  have htype : Passes 2 typeDeclaration (chainTokens ++ i)
      (some (.classDecl (chainClass (.name (plain 1) ("a" :: words))))) [eof] := by
    refine .bind (modifiers_none rfl (by simp [chainTokens])) (.seen rfl ?_)
    exact .bind hclass .pure
  refine .unaccepted (show Kind.kwClass ≠ .kwPackage by decide) (.bind .pure (.remaining ?_))
  refine .bind (.noMore (show Kind.kwClass ≠ .kwImport by decide)) ?_
  refine .bind (.oneItem rfl (show Kind.kwClass ≠ .endOfInput by decide) htype ?_ ?_) ?_
  · simp [chainTokens]
  · simp [heof]
  · exact .bind (.requiredEnd heof) .pure

theorem Dotted.getLast? (h : Dotted stop r words i) :
    (before ++ i).getLast? = (stop :: r).getLast? := by
  induction h generalizing before with
  | stop => rw [List.getLast?_append, Option.or_of_isSome (by simp)]
  | @more _ point word _ _ _ _ ih =>
    have hlast := @ih (before ++ [point, word])
    simpa using hlast

/-- The source of a long dotted name is parsed without a report. -/
theorem chainSource_parsed (file : String) {maxDepth : Nat} (hdepth : 2 ≤ maxDepth) (n : Nat) :
    parseSource file maxDepth (chainSource n) =
      (chainUnit file (.name (plain 1) (List.replicate (n + 1) "a")), {}) := by
  obtain ⟨semicolon, brace, stop, i, hsemicolon, hbrace, hstop, hdotted, htokens⟩ :=
    chainSource_tokens n
  have hclosed : Cursor.closed (chainTokens ++ i) = chainTokens ++ i := by
    have hlast : (chainTokens ++ i).getLast? = some stop := hdotted.getLast?
    rw [Cursor.closed, hlast]
    exact if_pos hstop
  have hon : (start (chainTokens ++ i) {} maxDepth).On (chainTokens ++ i) := by
    have hcursor : Cursor.ofTokens (chainTokens ++ i) =
        ⟨chainTokens.head (by decide), chainTokens.head (by decide), chainTokens.tail ++ i, 0⟩ := by
      rw [Cursor.ofTokens, hclosed]
      rfl
    rw [start, hcursor]
    exact ⟨rfl, Nat.zero_add _, rfl⟩
  obtain ⟨s, hrun, -, hlike⟩ := compilationUnit_passes file hsemicolon hbrace hstop hdotted _ hon
    (by simpa [start] using hdepth)
  rw [parseSource, htokens]
  change ((compilationUnit file (start (chainTokens ++ i) {} maxDepth)).1,
    (compilationUnit file (start (chainTokens ++ i) {} maxDepth)).2.log) = _
  rw [hrun, hlike.log]
  rfl

end Grammar

/-! ## The analysis -/

namespace Analysis

open Grammar

theorem selectFields_chain {c : Context} (hf : c.hierarchy.findField owner name = some (owner, f))
    (hty : f.ty = .named owner) (n : Nat) :
    ∀ {e : Expr}, e.ty = .named owner → e.isTypeName = false →
      ∃ e', selectFields line (List.replicate n name) e c = .ok (e', c) ∧
        e'.ty = .named owner ∧ e'.height = e.height + n := by
  induction n with
  | zero => exact fun {e} he _ => ⟨e, rfl, he, rfl⟩
  | succ n ih =>
    intro e he hvalue
    let selected : Expr := .field (typed line f.ty) e name (some { fieldRef owner f with name })
    have hselect : selectField line e name c = .ok (selected, c) := by
      simp [selectField, he, Ty.isAny, Ty.isArray, memberClass?, hvalue, hf, bind, StateT.bind,
        get, getThe, MonadStateOf.get, StateT.get, Except.bind, pure, StateT.pure, Except.pure,
        selected]
    obtain ⟨e', hrun, hty', hheight⟩ := ih (e := selected) hty rfl
    refine ⟨e', (bind_run hselect).trans hrun, hty', ?_⟩
    rw [hheight, show selected.height = e.height + 1 from rfl]
    omega

/-- The header of the class. -/
def chainHeader : ClassHeader :=
  { name := "T", superclass := some objectClass, fields := [⟨"a", .named "T", false⟩]
    ctors := [[]] }

/-- The context in which its body is analyzed. -/
def chainContext : Context := { hierarchy := ⟨[chainHeader]⟩, names := [("T", "T")] }

/-- The same inside the class. -/
def chainInside : Context := { chainContext with className := some "T" }

/-- The context in which the first value of the field is analyzed. -/
def chainBody : Context :=
  { chainInside with method := some ⟨false, false, .void, 1⟩, scopes := [[]] }

theorem expr_chain (n : Nat) :
    ∃ e', expr (.initial (.named "T")) (.name (plain 1) (List.replicate (n + 1) "a")) chainBody =
        .ok (e', chainBody) ∧ e'.height = n + 2 := by
  have hfield : chainBody.hierarchy.findField "T" "a" = some ("T", ⟨"a", .named "T", false⟩) := by
    decide +kernel
  let first : Expr := .field (typed 1 (.named "T")) (.thisRef (typed 1 (.named "T"))) "a"
    (some ⟨"T", "a", "LT;", false⟩)
  obtain ⟨e', hrun, hty, hheight⟩ := selectFields_chain hfield rfl n (e := first) rfl rfl
  have hclassify : classify 1 (List.replicate (n + 1) "a") false chainBody = .ok (e', chainBody) :=
    hrun
  have hsettle : Role.settle (.initial (.named "T")) e' chainBody = .ok (e', chainBody) := by
    simp [Role.settle, coerce, hty, pure, StateT.pure, Except.pure]
  refine ⟨e', (bind_run hclassify).trans hsettle, ?_⟩
  rw [hheight, Nat.add_comm]
  rfl

/-- The constructor that the class is given. -/
def chainCtor : ConstructorDecl :=
  { implicitCtor 1 "T" with
    body := ⟨1, [.exprStmt 1 (.delegate ⟨1, some .void, true⟩ .toSuper []
      (some ⟨objectClass, ctorName, "()V", .special⟩))]⟩
    locals := 1 }

/-- The class after analysis, with the constructor that it gets. -/
def chainAnalyzed (e : Expr) : ClassDecl := ⟨1, [], "T", none, [], [chainField e, .ctor chainCtor]⟩

variable {e e' : Expr}

theorem member_chain (h : expr (.initial (.named "T")) e chainBody = .ok (e', chainBody)) :
    member "T" (chainField e) chainInside = .ok (chainField e', chainInside) := by
  let var (e : Expr) : Declarator := { line := 1, name := "a", ty := .named "T", init := some e }
  have hvar : fieldVar false (var e) chainInside = .ok (var e', chainInside) :=
    (bind_run h (f := fun e => do discard leaveMethod; return var e)).trans rfl
  have hvars : [var e].mapM (fieldVar false) chainInside = .ok ([var e'], chainInside) := by
    rw [List.mapM_cons]
    exact bind_run hvar
  exact bind_run hvars

theorem classBody_chain (h : expr (.initial (.named "T")) e chainBody = .ok (e', chainBody)) :
    classBody (chainClass e) chainContext = .ok (chainAnalyzed e', chainContext) := by
  have hmembers : [chainField e, .ctor (implicitCtor 1 "T")].mapM (member "T") chainInside =
      .ok ([chainField e', .ctor chainCtor], chainInside) := by
    rw [List.mapM_cons]
    exact (bind_run (member_chain h)).trans rfl
  exact (bind_run hmembers (f := fun members => do
    leaveClass
    return { chainClass e with members })).trans rfl

theorem analyze_chain {file : String}
    (h : expr (.initial (.named "T")) e chainBody = .ok (e', chainBody)) :
    analyze (chainUnit file e) {} =
      .ok ⟨⟨file, none, [], [.classDecl (chainAnalyzed e')]⟩, chainContext.hierarchy, {}⟩ := by
  have hheaders : unitHeaders (chainUnit file e) {} = .ok (chainUnit file e, chainContext) := rfl
  have htypes : [TypeDecl.classDecl (chainClass e)].mapM typeBody chainContext =
      .ok ([.classDecl (chainAnalyzed e')], chainContext) := by
    rw [List.mapM_cons]
    exact (bind_run (bind_run (classBody_chain h))).trans rfl
  have hunit : unit (chainUnit file e) {} =
      .ok (⟨file, none, [], [.classDecl (chainAnalyzed e')]⟩, chainContext) :=
    (bind_run hheaders).trans (bind_run htypes)
  simp only [analyze, StateT.run, hunit]
  rfl

end Analysis

end JMinusMinus
