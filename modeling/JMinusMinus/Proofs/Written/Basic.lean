import JMinusMinus.Tree.Decl
import JMinusMinus.Token.Lexer
import Mathlib

/-!
# Written trees

What holds of a tree that the grammar builds from a text without reporting anything, before
analysis has seen it.

* There is no placeholder and no node of the kinds that only analysis makes.
* A dotted name has a first word.
* A written type is one a variable can have: `void` stands as the result of a method only, and
  `null` and `any` cannot be written.
* Elements in braces may lack a type when they stand inside other elements or behind the `=` of
  a declaration. There the variable or the outer array gives them one. So `Expr.Written` has a
  flag for those two places.
* Names of classes, methods and packages are words.
* The quotes of a literal can be taken off.
-/

namespace JMinusMinus

/-! ## Types and names -/

/-- The types that a variable can have. -/
def Ty.isStorable : Ty → Bool
  | .void | .null | .any => false
  | .array c => c.isStorable
  | _ => true

/-- The types that a method can return. -/
def Ty.isResult (t : Ty) : Bool := t = .void || t.isStorable

/-- A run of letters, digits, `_` and `$`. -/
def IsWord (name : String) : Prop := ∀ c ∈ name.toList, Lexer.isWordRest c

/-- A literal whose quotes can be taken off, if it has any. -/
def Literal.IsReadable : Literal → Prop
  | .char image | .string image => ∃ text, Literal.unquoted image = .ok text
  | _ => True

/-- A token that was read from a text. -/
structure Token.Lexical (t : Token) : Prop where
  word : t.kind = .identifier → IsWord t.lexeme
  quoted : t.kind = .charLiteral ∨ t.kind = .stringLiteral →
    ∃ text, Literal.unquoted t.lexeme = .ok text

/-! ## Expressions -/

mutual

/-- A tree that the grammar builds. The flag says that the place gives elements in braces their
type. -/
def Expr.Written : Bool → Expr → Prop
  | _, .literal _ l => l.IsReadable
  | _, .thisRef _ | _, .superRef _ => True
  | _, .name _ segments => segments ≠ []
  | _, .localVar .. | _, .typeName .. | _, .arrayLength .. | _, .concat .. | _, .wild _ => False
  | _, .field _ target _ _ => target.Written false
  | _, .element _ array index => array.Written false ∧ index.Written false
  | _, .send _ target _ args _ => TargetWritten target ∧ AllWritten false args
  | _, .delegate _ _ args _ => AllWritten false args
  | _, .newObject _ type args _ => type.isStorable ∧ AllWritten false args
  | _, .newArray _ type dims =>
    type.isStorable ∧ dims ≠ [] ∧ dims.length ≤ type.dims ∧ AllWritten false dims
  | placed, .arrayInit _ type elements =>
    (placed = false → type.isStorable) ∧ AllWritten true elements
  | _, .binary _ _ lhs rhs => lhs.Written false ∧ rhs.Written false
  | _, .instanceOf _ operand target => operand.Written false ∧ target.isStorable
  | _, .unary _ _ operand => operand.Written false
  | _, .step _ _ operand => operand.Written false
  | _, .cast _ target operand => target.isStorable ∧ operand.Written false
  | _, .assign _ _ lhs rhs => lhs.Written false ∧ rhs.Written false
  | _, .conditional _ test thenExpr elseExpr =>
    test.Written false ∧ thenExpr.Written false ∧ elseExpr.Written false
termination_by structural _ e => e

def TargetWritten : Option Expr → Prop
  | some e => e.Written false
  | none => True
termination_by structural e => e

def AllWritten : Bool → List Expr → Prop
  | placed, e :: es => e.Written placed ∧ AllWritten placed es
  | _, [] => True
termination_by structural _ es => es

end

theorem allWritten_iff {placed : Bool} : ∀ {es}, AllWritten placed es ↔ ∀ e ∈ es, e.Written placed
  | [] => by simp [AllWritten]
  | e :: es => by simp [AllWritten, allWritten_iff]

theorem Expr.Written.placed {e : Expr} (h : e.Written false) : e.Written true := by
  cases e <;> simp_all [Expr.Written]

theorem Expr.Written.withNote {placed : Bool} {e : Expr} {n : Note} (h : e.Written placed) :
    (e.withNote n).Written placed := by
  cases e <;> simp_all [Expr.Written, Expr.withNote]

/-! ## Statements -/

/-- The first value, if there is one, is as parsed. -/
def InitWritten : Option Expr → Prop
  | some e => e.Written true
  | none => True

/-- A variable of a type it can have, with a written initial value. -/
structure Declarator.Written (d : Declarator) : Prop where
  storable : d.ty.isStorable
  init : InitWritten d.init

/-- The expression of a case is as parsed. -/
def SwitchLabel.Written : SwitchLabel → Prop
  | .case e => e.Written false
  | .otherwise _ => True

/-- Whether a statement can stand in the head of a `for`. -/
def Stmt.isSimple : Stmt → Bool
  | .exprStmt .. | .localsStmt .. => true
  | _ => false

mutual

/-- A statement that the grammar builds. -/
def Stmt.Written : Stmt → Prop
  | .blockStmt body => BlockWritten body
  | .ifStmt _ test thenBranch elseBranch =>
    test.Written false ∧ thenBranch.Written ∧ ElseWritten elseBranch
  | .whileStmt _ test body => test.Written false ∧ body.Written
  | .doStmt _ body test => body.Written ∧ test.Written false
  | .forStmt _ init test update body =>
    StmtsWritten init ∧ TargetWritten test ∧ StmtsWritten update ∧ body.Written ∧
      ∀ s ∈ init ++ update, s.isSimple
  | .switchStmt _ selector groups => selector.Written false ∧ GroupsWritten groups
  | .tryStmt _ body catches final =>
    BlockWritten body ∧ CatchesWritten catches ∧ FinalWritten final
  | .throwStmt _ e => e.Written false
  | .returnStmt _ value => TargetWritten value
  | .breakStmt _ | .continueStmt _ | .emptyStmt _ => True
  | .exprStmt _ e => e.Written false
  | .localsStmt _ vars => ∀ d ∈ vars, d.Written
termination_by structural s => s

def ElseWritten : Option Stmt → Prop
  | some s => s.Written
  | none => True
termination_by structural s => s

def StmtsWritten : List Stmt → Prop
  | s :: ss => s.Written ∧ StmtsWritten ss
  | [] => True
termination_by structural ss => ss

def BlockWritten : Block Stmt → Prop
  | ⟨_, stmts⟩ => StmtsWritten stmts
termination_by structural b => b

def FinalWritten : Option (Block Stmt) → Prop
  | some body => BlockWritten body
  | none => True
termination_by structural b => b

/-- A handler whose variable has a type it can have. -/
def CatchWritten : CatchClause Stmt → Prop
  | ⟨_, param, body⟩ => param.ty.isStorable ∧ BlockWritten body
termination_by structural c => c

def CatchesWritten : List (CatchClause Stmt) → Prop
  | c :: cs => CatchWritten c ∧ CatchesWritten cs
  | [] => True
termination_by structural cs => cs

def GroupWritten : SwitchGroup Stmt → Prop
  | ⟨labels, stmts⟩ => (∀ l ∈ labels, l.Written) ∧ StmtsWritten stmts
termination_by structural g => g

def GroupsWritten : List (SwitchGroup Stmt) → Prop
  | g :: gs => GroupWritten g ∧ GroupsWritten gs
  | [] => True
termination_by structural gs => gs

end

theorem stmtsWritten_iff : ∀ {ss}, StmtsWritten ss ↔ ∀ s ∈ ss, s.Written
  | [] => by simp [StmtsWritten]
  | s :: ss => by simp [StmtsWritten, stmtsWritten_iff]

theorem groupsWritten_iff : ∀ {gs}, GroupsWritten gs ↔ ∀ g ∈ gs, GroupWritten g
  | [] => by simp [GroupsWritten]
  | g :: gs => by simp [GroupsWritten, groupsWritten_iff]

/-! ## Declarations -/

/-- Parameters of types that variables can have. -/
def ParamsWritten (params : List Param) : Prop := ∀ p ∈ params, p.ty.isStorable

/-- A member as it is parsed. -/
def Member.Written : Member → Prop
  | .ctor c => ParamsWritten c.params ∧ BlockWritten c.body
  | .method m => m.result.isResult ∧ ParamsWritten m.params ∧ FinalWritten m.body ∧ IsWord m.name
  | .field f => ∀ d ∈ f.vars, d.Written

/-- A method without a body, as an interface declares it. -/
def Member.WrittenHeader : Member → Prop
  | .method m => m.result.isResult ∧ ParamsWritten m.params ∧ m.body = none ∧ IsWord m.name
  | _ => False

/-- A written class or interface. -/
def TypeDecl.Written : TypeDecl → Prop
  | .classDecl d => IsWord d.name ∧ ∀ m ∈ d.members, m.Written
  | .interfaceDecl d => IsWord d.name ∧ ∀ m ∈ d.members, m.WrittenHeader

/-- The members of a type. -/
def TypeDecl.members : TypeDecl → List Member
  | .classDecl d => d.members
  | .interfaceDecl d => d.members

/-- A unit as it is parsed. -/
structure CompilationUnit.Written (u : CompilationUnit) : Prop where
  package : ∀ q ∈ u.package, ∀ s ∈ q.segments, IsWord s
  types : ∀ d ∈ u.types, d.Written

end JMinusMinus
