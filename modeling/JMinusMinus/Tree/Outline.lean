import JMinusMinus.Tree.Decl

/-!
# Outlines

An outline shows a tree with all its parts, one part a line, indented by four spaces a level.

* A record is its name with its fields in braces.
* A wrapped part is the name of its case with the part in parentheses.
* A list is its items in brackets. An empty list stays on its line.

Every field and item ends with a comma.
-/

namespace JMinusMinus

structure Named (α : Type) where
  name : String
  part : α

inductive Outline where
  /-- Something that is a word. -/
  | word (text : String)
  /-- A part inside a case. -/
  | wrapped (name : String) (content : Outline)
  /-- Named parts. -/
  | record (name : String) (fields : List (Named Outline))
  | list (items : List Outline)

namespace Outline

/-! ## Text -/

def deeper (indent : String) : String := indent ++ "    "

mutual

def textAt (indent : String) : Outline → String
  | word text => text
  | wrapped name content =>
    name ++ "(\n" ++ deeper indent ++ textAt (deeper indent) content ++ ",\n" ++ indent ++ ")"
  | record name fields => name ++ " \x7b\n" ++ fieldsAt (deeper indent) fields ++ indent ++ "\x7d"
  | list items =>
    if items.isEmpty then "[]" else "[\n" ++ itemsAt (deeper indent) items ++ indent ++ "]"
termination_by structural o => o

def itemsAt (indent : String) : List Outline → String
  | o :: os => indent ++ textAt indent o ++ ",\n" ++ itemsAt indent os
  | [] => ""
termination_by structural os => os

def fieldAt (indent : String) : Named Outline → String
  | ⟨name, part⟩ => indent ++ name ++ ": " ++ textAt indent part ++ ",\n"
termination_by structural f => f

def fieldsAt (indent : String) : List (Named Outline) → String
  | f :: fs => fieldAt indent f ++ fieldsAt indent fs
  | [] => ""
termination_by structural fs => fs

end

def text (o : Outline) : String := textAt "" o

/-! ## Plain parts -/

def num (n : Nat) : Outline := .word (toString n)

def bool (b : Bool) : Outline := .word (if b then "true" else "false")

def quoted (s : String) : Outline := .word (Escape.shown s)

def optional {α : Type} (f : α → Outline) : Option α → Outline
  | some x => .wrapped "Some" (f x)
  | none => .word "None"

def listOf {α : Type} (f : α → Outline) (xs : List α) : Outline := .list (xs.map f)

def ofTy : Ty → Outline
  | .int => .word "Int"
  | .long => .word "Long"
  | .double => .word "Double"
  | .boolean => .word "Boolean"
  | .char => .word "Char"
  | .string => .word "String"
  | .void => .word "Void"
  | .null => .word "Null"
  | .any => .word "Any"
  | .named name => .wrapped "Class" (quoted name)
  | .array component => .wrapped "Array" (ofTy component)

def ofLiteral : Literal → Outline
  | .int image => .wrapped "Int" (quoted image)
  | .long image => .wrapped "Long" (quoted image)
  | .double image => .wrapped "Double" (quoted image)
  | .char image => .wrapped "Char" (quoted image)
  | .string image => .wrapped "String" (quoted image)
  | .boolean value => .wrapped "Boolean" (bool value)
  | .null => .word "Null"

def ofFieldRef (r : FieldRef) : Outline :=
  .record "FieldRef" [⟨"owner", quoted r.owner⟩, ⟨"name", quoted r.name⟩,
    ⟨"descriptor", quoted r.descriptor⟩, ⟨"is_static", bool r.isStatic⟩]

def ofMethodRef (r : MethodRef) : Outline :=
  .record "MethodRef" [⟨"owner", quoted r.owner⟩, ⟨"name", quoted r.name⟩,
    ⟨"descriptor", quoted r.descriptor⟩, ⟨"kind", .word r.kind.label⟩]

/-! ## Expressions -/

def node (n : Note) (kind : Outline) : Outline :=
  .record "Expr" [⟨"line", num n.line⟩, ⟨"kind", kind⟩, ⟨"ty", optional ofTy n.ty⟩,
    ⟨"is_statement_expression", bool n.isStatement⟩]

def delegationName : Delegation → String
  | .toSuper => "SuperConstruction"
  | .toThis => "ThisConstruction"

mutual

def ofExpr : Expr → Outline
  | .literal n l => node n (.wrapped "Literal" (ofLiteral l))
  | .name n segments => node n (.wrapped "Name" (listOf quoted segments))
  | .localVar n x slot => node n (.record "Local" [⟨"name", quoted x⟩, ⟨"slot", num slot⟩])
  | .thisRef n => node n (.word "This")
  | .superRef n => node n (.word "Super")
  | .typeName n type => node n (.wrapped "TypeName" (ofTy type))
  | .field n target x ref => node n (.record "FieldSelection"
      [⟨"target", ofExpr target⟩, ⟨"name", quoted x⟩, ⟨"field", optional ofFieldRef ref⟩])
  | .arrayLength n array => node n (.wrapped "ArrayLength" (ofExpr array))
  | .element n array index => node n (.record "ArrayAccess"
      [⟨"array", ofExpr array⟩, ⟨"index", ofExpr index⟩])
  | .send n target x args method => node n (.record "MessageSend"
      [⟨"target", ofTarget target⟩, ⟨"name", quoted x⟩, ⟨"args", .list (ofExprs args)⟩,
        ⟨"method", optional ofMethodRef method⟩])
  | .delegate n target args ctor => node n (.record (delegationName target)
      [⟨"args", .list (ofExprs args)⟩, ⟨"ctor", optional ofMethodRef ctor⟩])
  | .newObject n type args ctor => node n (.record "New"
      [⟨"class", ofTy type⟩, ⟨"args", .list (ofExprs args)⟩, ⟨"ctor", optional ofMethodRef ctor⟩])
  | .newArray n type dims => node n (.record "NewArray"
      [⟨"array_type", ofTy type⟩, ⟨"dims", .list (ofExprs dims)⟩])
  | .arrayInit n type elements => node n (.record "ArrayInitializer"
      [⟨"array_type", ofTy type⟩, ⟨"elements", .list (ofExprs elements)⟩])
  | .binary n op lhs rhs => node n (.record "Binary"
      [⟨"op", .word op.label⟩, ⟨"lhs", ofExpr lhs⟩, ⟨"rhs", ofExpr rhs⟩])
  | .concat n lhs rhs => node n (.record "StringConcat"
      [⟨"lhs", ofExpr lhs⟩, ⟨"rhs", ofExpr rhs⟩])
  | .instanceOf n operand target => node n (.record "InstanceOf"
      [⟨"expr", ofExpr operand⟩, ⟨"target", ofTy target⟩])
  | .unary n op operand => node n (.record "Unary"
      [⟨"op", .word op.label⟩, ⟨"operand", ofExpr operand⟩])
  | .step n op operand => node n (.record "IncDec"
      [⟨"op", .word op.label⟩, ⟨"operand", ofExpr operand⟩])
  | .cast n target operand => node n (.record "Cast"
      [⟨"target", ofTy target⟩, ⟨"expr", ofExpr operand⟩])
  | .assign n op lhs rhs => node n (.record "Assign"
      [⟨"op", .word op.label⟩, ⟨"lhs", ofExpr lhs⟩, ⟨"rhs", ofExpr rhs⟩])
  | .conditional n test thenExpr elseExpr => node n (.record "Conditional"
      [⟨"condition", ofExpr test⟩, ⟨"then_expr", ofExpr thenExpr⟩,
        ⟨"else_expr", ofExpr elseExpr⟩])
  | .wild n => node n (.word "Wild")
termination_by structural e => e

def ofTarget : Option Expr → Outline
  | some e => .wrapped "Some" (ofExpr e)
  | none => .word "None"
termination_by structural e => e

def ofExprs : List Expr → List Outline
  | e :: es => ofExpr e :: ofExprs es
  | [] => []
termination_by structural es => es

end

/-! ## Statements -/

def ofParam (p : Param) : Outline :=
  .record "FormalParameter" [⟨"line", num p.line⟩, ⟨"name", quoted p.name⟩, ⟨"ty", ofTy p.ty⟩,
    ⟨"slot", optional num p.slot⟩]

def ofDeclarator (d : Declarator) : Outline :=
  .record "VariableDeclarator" [⟨"line", num d.line⟩, ⟨"name", quoted d.name⟩, ⟨"ty", ofTy d.ty⟩,
    ⟨"initializer", optional ofExpr d.init⟩, ⟨"slot", optional num d.slot⟩]

def ofSwitchLabel : SwitchLabel → Outline
  | .case e => .wrapped "Case" (ofExpr e)
  | .otherwise line => .wrapped "Default" (num line)

def stmtNode (line : Nat) (kind : Outline) : Outline :=
  .record "Stmt" [⟨"line", num line⟩, ⟨"kind", kind⟩]

mutual

def ofStmt : Stmt → Outline
  | .blockStmt body => stmtNode body.line (.wrapped "Block" (ofBlock body))
  | .ifStmt line test thenBranch elseBranch => stmtNode line (.record "If"
      [⟨"condition", ofExpr test⟩, ⟨"then_branch", ofStmt thenBranch⟩,
        ⟨"else_branch", ofElse elseBranch⟩])
  | .whileStmt line test body => stmtNode line (.record "While"
      [⟨"condition", ofExpr test⟩, ⟨"body", ofStmt body⟩])
  | .doStmt line body test => stmtNode line (.record "DoWhile"
      [⟨"body", ofStmt body⟩, ⟨"condition", ofExpr test⟩])
  | .forStmt line init test update body => stmtNode line (.record "For"
      [⟨"init", .list (ofStmts init)⟩, ⟨"condition", optional ofExpr test⟩,
        ⟨"update", .list (ofStmts update)⟩, ⟨"body", ofStmt body⟩])
  | .switchStmt line value groups => stmtNode line (.record "Switch"
      [⟨"selector", ofExpr value⟩, ⟨"groups", .list (ofGroups groups)⟩])
  | .tryStmt line body catches final => stmtNode line (.record "Try"
      [⟨"block", ofBlock body⟩, ⟨"catches", .list (ofCatches catches)⟩,
        ⟨"finally", ofFinal final⟩])
  | .throwStmt line e => stmtNode line (.wrapped "Throw" (ofExpr e))
  | .returnStmt line value => stmtNode line (.wrapped "Return" (optional ofExpr value))
  | .breakStmt line => stmtNode line (.word "Break")
  | .continueStmt line => stmtNode line (.word "Continue")
  | .emptyStmt line => stmtNode line (.word "Empty")
  | .exprStmt line e => stmtNode line (.wrapped "Expression" (ofExpr e))
  | .localsStmt line vars => stmtNode line (.wrapped "LocalVariables" (listOf ofDeclarator vars))
termination_by structural s => s

def ofElse : Option Stmt → Outline
  | some s => .wrapped "Some" (ofStmt s)
  | none => .word "None"
termination_by structural s => s

def ofStmts : List Stmt → List Outline
  | s :: ss => ofStmt s :: ofStmts ss
  | [] => []
termination_by structural ss => ss

def ofBlock : Block Stmt → Outline
  | ⟨line, body⟩ => .record "Block" [⟨"line", num line⟩, ⟨"statements", .list (ofStmts body)⟩]
termination_by structural b => b

def ofFinal : Option (Block Stmt) → Outline
  | some body => .wrapped "Some" (ofBlock body)
  | none => .word "None"
termination_by structural b => b

def ofGroup : SwitchGroup Stmt → Outline
  | ⟨labels, body⟩ => .record "SwitchGroup"
      [⟨"labels", listOf ofSwitchLabel labels⟩, ⟨"statements", .list (ofStmts body)⟩]
termination_by structural g => g

def ofGroups : List (SwitchGroup Stmt) → List Outline
  | g :: gs => ofGroup g :: ofGroups gs
  | [] => []
termination_by structural gs => gs

def ofCatch : CatchClause Stmt → Outline
  | ⟨line, param, body⟩ => .record "CatchClause"
      [⟨"line", num line⟩, ⟨"param", ofParam param⟩, ⟨"block", ofBlock body⟩]
termination_by structural c => c

def ofCatches : List (CatchClause Stmt) → List Outline
  | c :: cs => ofCatch c :: ofCatches cs
  | [] => []
termination_by structural cs => cs

end

/-! ## Declarations -/

def ofModifiers (mods : List Modifier) : Outline :=
  .record "Modifiers" [⟨"list", listOf (fun m => .word m.label) mods⟩]

def ofMember : Member → Outline
  | .ctor c => .wrapped "Constructor" (.record "ConstructorDecl"
      [⟨"line", num c.line⟩, ⟨"modifiers", ofModifiers c.modifiers⟩, ⟨"name", quoted c.name⟩,
        ⟨"params", listOf ofParam c.params⟩, ⟨"throws", listOf ofTy c.throws⟩,
        ⟨"body", ofBlock c.body⟩, ⟨"locals", num c.locals⟩])
  | .method m => .wrapped "Method" (.record "MethodDecl"
      [⟨"line", num m.line⟩, ⟨"modifiers", ofModifiers m.modifiers⟩,
        ⟨"return_type", ofTy m.result⟩, ⟨"name", quoted m.name⟩,
        ⟨"params", listOf ofParam m.params⟩, ⟨"throws", listOf ofTy m.throws⟩,
        ⟨"body", optional ofBlock m.body⟩, ⟨"locals", num m.locals⟩])
  | .field f => .wrapped "Field" (.record "FieldDecl"
      [⟨"line", num f.line⟩, ⟨"modifiers", ofModifiers f.modifiers⟩,
        ⟨"declarators", listOf ofDeclarator f.vars⟩])

def ofTypeDecl : TypeDecl → Outline
  | .classDecl d => .wrapped "Class" (.record "ClassDecl"
      [⟨"line", num d.line⟩, ⟨"modifiers", ofModifiers d.modifiers⟩, ⟨"name", quoted d.name⟩,
        ⟨"super_class", optional ofTy d.superclass⟩, ⟨"interfaces", listOf ofTy d.interfaces⟩,
        ⟨"members", listOf ofMember d.members⟩])
  | .interfaceDecl d => .wrapped "Interface" (.record "InterfaceDecl"
      [⟨"line", num d.line⟩, ⟨"modifiers", ofModifiers d.modifiers⟩, ⟨"name", quoted d.name⟩,
        ⟨"extends", listOf ofTy d.parents⟩, ⟨"members", listOf ofMember d.members⟩])

def ofQualifiedName (q : QualifiedName) : Outline :=
  .record "QualifiedName" [⟨"line", num q.line⟩, ⟨"segments", listOf quoted q.segments⟩]

def ofUnit (u : CompilationUnit) : Outline :=
  .record "CompilationUnit" [⟨"file_name", quoted u.file⟩,
    ⟨"package", optional ofQualifiedName u.package⟩, ⟨"imports", listOf ofQualifiedName u.imports⟩,
    ⟨"type_decls", listOf ofTypeDecl u.types⟩]

end Outline

end JMinusMinus
