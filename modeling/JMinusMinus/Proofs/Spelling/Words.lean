import Mathlib
import JMinusMinus.Grammar.Expr

/-!
# The words of an expression

`Expr.words` spells a tree with as few parentheses as its operators allow. Operators bind on
fifteen levels, loosest first.

* 0, assignments; 1, choices;
* 2 to 7, the binary levels from `||` to `==`; 8, comparisons and class tests;
* 9 to 11, shifts, sums and products;
* 12, operators before an operand; 13, steps after it;
* 14, names, literals, calls and array elements.

A part stands at a *place* of a level, and is put in parentheses if its own operator binds looser
(`enclosed`). An operator that groups to the left has its own level on its left side and the next
one on its right side. A comparison has the next level on both sides.

Only the kind of a token matters, and its text if the kind does not tell it (`Token.word`). Where
the tokens stand is left open, so a tree is read back up to its lines (`Expr.unlined`).
-/

namespace JMinusMinus

/-! ## Words -/

/-- A kind, with the text of a token if tokens of the kind differ in it. -/
abbrev Lexeme := Kind × String

/-- Kinds whose tokens differ in their text. -/
def Kind.isNamed : Kind → Bool
  | .identifier | .intLiteral | .longLiteral | .doubleLiteral | .charLiteral
  | .stringLiteral => true
  | _ => false

/-- What matters of a token. -/
def Token.word (t : Token) : Lexeme := (t.kind, if t.kind.isNamed then t.lexeme else "")

/-- A word whose kind says all. -/
def Kind.mark (k : Kind) : Lexeme := (k, "")

/-- A name. -/
def Lexeme.ofName (x : String) : Lexeme := (.identifier, x)

/-- A literal as it is written. -/
def Literal.word : Literal → Lexeme
  | .int x => (.intLiteral, x)
  | .long x => (.longLiteral, x)
  | .double x => (.doubleLiteral, x)
  | .char x => (.charLiteral, x)
  | .string x => (.stringLiteral, x)
  | .boolean true => Kind.kwTrue.mark
  | .boolean false => Kind.kwFalse.mark
  | .null => Kind.kwNull.mark

/-- Points with names after them. -/
def pointWords : List String → List Lexeme
  | [] => []
  | x :: xs => Kind.dot.mark :: Lexeme.ofName x :: pointWords xs

/-- The names between the points of a dotted name. -/
def segmentsOf (text : String) : List String := (text.toList.splitOn '.').map String.ofList

/-- A dotted name with its points. -/
def nameWords (text : String) : List Lexeme :=
  match segmentsOf text with
  | x :: xs => Lexeme.ofName x :: pointWords xs
  | [] => []

/-- The name of a class as it was written. -/
def classWords : Ty → List Lexeme
  | .named text => nameWords text
  | _ => []

/-! ## Operators -/

/-- The sign of a binary operator. -/
def BinaryOp.kind : BinaryOp → Kind
  | .add => .plus
  | .sub => .minus
  | .mul => .star
  | .div => .slash
  | .rem => .percent
  | .shl => .shiftLeft
  | .shr => .shiftRight
  | .ushr => .shiftRightUnsigned
  | .bitAnd => .amp
  | .bitOr => .pipe
  | .bitXor => .caret
  | .logicalAnd => .ampAmp
  | .logicalOr => .pipePipe
  | .eq => .equal
  | .ne => .notEqual
  | .lt => .less
  | .le => .lessEqual
  | .gt => .greater
  | .ge => .greaterEqual

/-- The sign of an operator before its operand. -/
def UnaryOp.kind : UnaryOp → Kind
  | .neg => .minus
  | .plus => .plus
  | .not => .bang
  | .bitNot => .tilde

/-- The sign of a step. -/
def StepOp.kind : StepOp → Kind
  | .preInc | .postInc => .increment
  | .preDec | .postDec => .decrement

/-- The sign of an assignment. -/
def AssignOp.kind : AssignOp → Kind
  | .assign => .assign
  | .add => .addAssign
  | .sub => .subAssign
  | .mul => .mulAssign
  | .div => .divAssign
  | .rem => .modAssign
  | .shl => .shiftLeftAssign
  | .shr => .shiftRightAssign
  | .ushr => .shiftRightUnsignedAssign
  | .and => .andAssign
  | .or => .orAssign
  | .xor => .xorAssign

/-- How tightly a binary operator binds. -/
def BinaryOp.level : BinaryOp → Nat
  | .logicalOr => 2
  | .logicalAnd => 3
  | .bitOr => 4
  | .bitXor => 5
  | .bitAnd => 6
  | .eq | .ne => 7
  | .lt | .le | .gt | .ge => 8
  | .shl | .shr | .ushr => 9
  | .add | .sub => 10
  | .mul | .div | .rem => 11

/-- The level of the place on the left side. Comparisons do not group. -/
def BinaryOp.leftLevel (op : BinaryOp) : Nat := if op.isRelational then op.level + 1 else op.level

theorem BinaryOp.level_le (op : BinaryOp) : op.level ≤ 11 := by cases op <;> decide

theorem BinaryOp.level_le_leftLevel (op : BinaryOp) : op.level ≤ op.leftLevel := by
  cases op <;> decide

/-! ## Trees -/

namespace Expr

/-- The level of the outermost operator. -/
def level : Expr → Nat
  | assign .. => 0
  | conditional .. => 1
  | binary _ op _ _ => op.level
  | instanceOf .. => 8
  | unary .. => 12
  | step _ op _ => if op.isBefore then 12 else 13
  | _ => 14

theorem level_le (e : Expr) : e.level ≤ 14 := by
  cases e with
  | binary _ op => exact (BinaryOp.level_le op).trans (by decide)
  | step _ op =>
    rw [level]
    split <;> decide
  | _ => simp [level]

/-- Words at a place, in parentheses if their level is lower than that of the place. -/
def enclosed (place level : Nat) (ws : List Lexeme) : List Lexeme :=
  if level < place then Kind.leftParen.mark :: (ws ++ [Kind.rightParen.mark]) else ws

mutual

/-- The words of a tree, without parentheses around it. -/
def words : Expr → List Lexeme
  | literal _ value => [value.word]
  | name _ segments => segments.map Lexeme.ofName
  | element _ array index =>
    enclosed 14 array.level array.words ++
      Kind.leftBracket.mark :: (index.words ++ [Kind.rightBracket.mark])
  | send _ target x args _ =>
    targetWords target ++
      Lexeme.ofName x :: Kind.leftParen.mark :: (argumentWords args ++ [Kind.rightParen.mark])
  | binary _ op lhs rhs =>
    enclosed op.leftLevel lhs.level lhs.words ++
      op.kind.mark :: enclosed (op.level + 1) rhs.level rhs.words
  | instanceOf _ operand target =>
    enclosed 9 operand.level operand.words ++ Kind.kwInstanceOf.mark :: classWords target
  | unary _ op operand => op.kind.mark :: enclosed 12 operand.level operand.words
  | step _ op operand =>
    if op.isBefore then op.kind.mark :: enclosed 12 operand.level operand.words
    else enclosed 13 operand.level operand.words ++ [op.kind.mark]
  | assign _ op lhs rhs =>
    enclosed 1 lhs.level lhs.words ++ op.kind.mark :: enclosed 0 rhs.level rhs.words
  | conditional _ condition thenExpr elseExpr =>
    enclosed 2 condition.level condition.words ++
      Kind.question.mark :: (enclosed 0 thenExpr.level thenExpr.words ++
        Kind.colon.mark :: enclosed 1 elseExpr.level elseExpr.words)
  | _ => []

/-- The target of a call with the point after it. -/
def targetWords : Option Expr → List Lexeme
  | none => []
  | some target => enclosed 14 target.level target.words ++ [Kind.dot.mark]

/-- Arguments with commas between them. -/
def argumentWords : List Expr → List Lexeme
  | [] => []
  | e :: es => e.words ++ moreWords es

/-- A comma before each argument. -/
def moreWords : List Expr → List Lexeme
  | [] => []
  | e :: es => Kind.comma.mark :: (e.words ++ moreWords es)

end

/-- The words of a tree at a place. -/
abbrev wordsAt (place : Nat) (e : Expr) : List Lexeme := enclosed place e.level e.words

theorem wordsAt_zero (e : Expr) : e.wordsAt 0 = e.words := if_neg (Nat.not_lt_zero _)

/-- Trees of single names, literals, operators, choices, array elements and calls, as the grammar
leaves them. -/
inductive Plain : Expr → Prop
  | literal {line : Nat} {value : Literal} : Plain (literal (Grammar.plain line) value)
  | name {line : Nat} {x : String} : Plain (name (Grammar.plain line) [x])
  | element {line : Nat} {array index : Expr} (ha : Plain array) (hi : Plain index) :
      Plain (element (Grammar.plain line) array index)
  | call {line : Nat} {x : String} {args : List Expr} (hargs : ∀ a ∈ args, Plain a) :
      Plain (send (Grammar.plain line) none x args none)
  | callOn {line : Nat} {target : Expr} {x : String} {args : List Expr} (ht : Plain target)
      (hargs : ∀ a ∈ args, Plain a) : Plain (send (Grammar.plain line) (some target) x args none)
  | binary {line : Nat} {op : BinaryOp} {lhs rhs : Expr} (hl : Plain lhs) (hr : Plain rhs) :
      Plain (binary (Grammar.plain line) op lhs rhs)
  | instanceOf {line : Nat} {operand : Expr} {className : String} (ho : Plain operand) :
      Plain (instanceOf (Grammar.plain line) operand (.named className))
  | unary {line : Nat} {op : UnaryOp} {operand : Expr} (ho : Plain operand) :
      Plain (unary (Grammar.plain line) op operand)
  | step {line : Nat} {op : StepOp} {operand : Expr} (ho : Plain operand) :
      Plain (step (Grammar.plain line) op operand)
  | assign {line : Nat} {op : AssignOp} {lhs rhs : Expr} (hl : Plain lhs) (hr : Plain rhs) :
      Plain (assign (Grammar.plain line) op lhs rhs)
  | conditional {line : Nat} {condition thenExpr elseExpr : Expr} (hc : Plain condition)
      (ht : Plain thenExpr) (he : Plain elseExpr) :
      Plain (conditional (Grammar.plain line) condition thenExpr elseExpr)

end Expr

/-! ## Trees without their lines -/

/-- A note without its line. -/
def Note.unlined (n : Note) : Note := { n with line := 0 }

namespace Expr

mutual

/-- The same tree with every line set to zero. -/
def unlined : Expr → Expr
  | literal n value => literal n.unlined value
  | name n segments => name n.unlined segments
  | localVar n x slot => localVar n.unlined x slot
  | thisRef n => thisRef n.unlined
  | superRef n => superRef n.unlined
  | typeName n type => typeName n.unlined type
  | field n target x ref => field n.unlined target.unlined x ref
  | arrayLength n array => arrayLength n.unlined array.unlined
  | element n array index => element n.unlined array.unlined index.unlined
  | send n target x args method => send n.unlined (unlinedTarget target) x (unlinedList args) method
  | delegate n target args ctor => delegate n.unlined target (unlinedList args) ctor
  | newObject n type args ctor => newObject n.unlined type (unlinedList args) ctor
  | newArray n type dims => newArray n.unlined type (unlinedList dims)
  | arrayInit n type elements => arrayInit n.unlined type (unlinedList elements)
  | binary n op lhs rhs => binary n.unlined op lhs.unlined rhs.unlined
  | concat n lhs rhs => concat n.unlined lhs.unlined rhs.unlined
  | instanceOf n operand target => instanceOf n.unlined operand.unlined target
  | unary n op operand => unary n.unlined op operand.unlined
  | step n op operand => step n.unlined op operand.unlined
  | cast n target operand => cast n.unlined target operand.unlined
  | assign n op lhs rhs => assign n.unlined op lhs.unlined rhs.unlined
  | conditional n condition thenExpr elseExpr =>
    conditional n.unlined condition.unlined thenExpr.unlined elseExpr.unlined
  | wild n => wild n.unlined

def unlinedTarget : Option Expr → Option Expr
  | none => none
  | some e => some e.unlined

def unlinedList : List Expr → List Expr
  | [] => []
  | e :: es => e.unlined :: unlinedList es

end

end Expr

@[simp] theorem Note.unlined_plain {line : Nat} :
    (Grammar.plain line).unlined = Grammar.plain 0 := rfl

attribute [simp] Expr.unlined Expr.unlinedTarget Expr.unlinedList

/-! ## Reading words off tokens -/

section Tokens

variable {t : Token} {i : List Token} {k : Kind} {x : String} {ws vs : List Lexeme}

theorem Token.kind_of_word (h : t.word = (k, x)) : t.kind = k := congrArg Prod.fst h

/-- A word whose kind says all tells the kind of its token. -/
theorem Token.kind_of_mark (h : t.word = k.mark) : t.kind = k := congrArg Prod.fst h

theorem Token.lexeme_of_word (h : t.word = (k, x)) (hk : k.isNamed = true) : t.lexeme = x := by
  have htext : (if t.kind.isNamed = true then t.lexeme else "") = x := congrArg Prod.snd h
  rwa [t.kind_of_word h, if_pos hk] at htext

/-- Tokens that spell some words. -/
def Spells (i : List Token) (ws : List Lexeme) : Prop := i.map Token.word = ws

theorem Spells.length (h : Spells i ws) : i.length = ws.length := by
  rw [← h, List.length_map]

theorem Spells.append_inv (h : Spells i (ws ++ vs)) :
    ∃ j l, i = j ++ l ∧ Spells j ws ∧ Spells l vs := List.map_eq_append_iff.1 h

theorem Spells.cons_inv {w : Lexeme} (h : Spells i (w :: ws)) :
    ∃ t j, i = t :: j ∧ t.word = w ∧ Spells j ws := List.map_eq_cons_iff.1 h

theorem Spells.nil_inv (h : Spells i []) : i = [] := List.map_eq_nil_iff.1 h

/-- A literal is read off the token that spells it. -/
theorem literalOf?_of_word {value : Literal} (h : t.word = value.word) :
    Grammar.literalOf? t = some value := by
  cases value with
  | boolean b =>
    cases b <;> simp only [Grammar.literalOf?, Token.kind_of_mark h]
  | null => simp only [Grammar.literalOf?, Token.kind_of_mark h]
  | _ => simp only [Grammar.literalOf?, Token.kind_of_word h, Token.lexeme_of_word h rfl]

end Tokens

/-! ## Dotted names -/

theorem intercalate_map_ofList (ls : List (List Char)) :
    (".".intercalate (ls.map String.ofList)).toList = List.intercalate ['.'] ls := by
  rw [String.toList_intercalate, List.map_map]
  simp [Function.comp_def]

/-- The names of a dotted name make it up. -/
theorem text_segmentsOf {line : Nat} {text : String} :
    QualifiedName.text ⟨line, segmentsOf text⟩ = text := by
  apply String.toList_inj.1
  rw [QualifiedName.text, segmentsOf, intercalate_map_ofList, List.intercalate_splitOn]

theorem nameWords_eq (text : String) : ∃ x xs, segmentsOf text = x :: xs ∧
    nameWords text = Lexeme.ofName x :: pointWords xs := by
  obtain ⟨c, cs, hcs⟩ := List.exists_cons_of_ne_nil (List.splitOn_ne_nil '.' text.toList)
  have hsegments : segmentsOf text = String.ofList c :: cs.map String.ofList := by
    rw [segmentsOf, hcs, List.map_cons]
  exact ⟨_, _, hsegments, by rw [nameWords, hsegments]⟩

end JMinusMinus
