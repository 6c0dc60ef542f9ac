import JMinusMinus.Literal
import JMinusMinus.Operator

/-!
# Expressions

One type of tree serves before and after analysis. Every node carries a *note*: the line it
starts on, the type that analysis gave it, and whether it stands as a statement.

Some nodes come from the grammar only and some from analysis only.

* `name` is a dotted name that is not classified yet. Analysis makes it a local variable, a
  field, an array length or a type name with selections after it.
* `localVar`, `typeName`, `arrayLength` and `concat` are made by analysis.
* `wild` stands where the text was wrong.

A member reference is missing until analysis resolves it.
-/

namespace JMinusMinus

inductive InvokeKind where
  | static | virtual | interface | special
deriving DecidableEq

/-- The name of an invocation in listings of references. -/
def InvokeKind.label : InvokeKind → String
  | .static => "Static"
  | .virtual => "Virtual"
  | .interface => "Interface"
  | .special => "Special"

structure MethodRef where
  /-- The internal name of the class that declares it. -/
  owner : String
  name : String
  descriptor : String
  kind : InvokeKind
deriving DecidableEq

structure FieldRef where
  owner : String
  name : String
  descriptor : String
  isStatic : Bool
deriving DecidableEq

/-- What is known about a node besides its form. -/
structure Note where
  line : Nat
  /-- The type, once analysis has found it. -/
  ty : Option Ty := none
  isStatement : Bool := false
deriving DecidableEq

inductive Delegation where
  | toSuper
  | toThis
deriving DecidableEq

inductive Expr where
  | literal (note : Note) (value : Literal)
  | name (note : Note) (segments : List String)
  | localVar (note : Note) (name : String) (slot : Nat)
  | thisRef (note : Note)
  /-- The current object as an instance of the superclass, a target only. -/
  | superRef (note : Note)
  /-- A type as the target of a static member. -/
  | typeName (note : Note) (type : Ty)
  | field (note : Note) (target : Expr) (name : String) (ref : Option FieldRef)
  | arrayLength (note : Note) (array : Expr)
  | element (note : Note) (array index : Expr)
  /-- A call, without a target for a method of the current class. -/
  | send (note : Note) (target : Option Expr) (name : String) (args : List Expr)
      (method : Option MethodRef)
  /-- A call of another constructor by a constructor. -/
  | delegate (note : Note) (target : Delegation) (args : List Expr) (ctor : Option MethodRef)
  | newObject (note : Note) (type : Ty) (args : List Expr) (ctor : Option MethodRef)
  /-- A new array of the given type with the given lengths. -/
  | newArray (note : Note) (type : Ty) (dims : List Expr)
  /-- An array of the given type by its elements. -/
  | arrayInit (note : Note) (type : Ty) (elements : List Expr)
  | binary (note : Note) (op : BinaryOp) (lhs rhs : Expr)
  /-- A sum with a string among its operands. -/
  | concat (note : Note) (lhs rhs : Expr)
  | instanceOf (note : Note) (operand : Expr) (target : Ty)
  | unary (note : Note) (op : UnaryOp) (operand : Expr)
  | step (note : Note) (op : StepOp) (operand : Expr)
  | cast (note : Note) (target : Ty) (operand : Expr)
  | assign (note : Note) (op : AssignOp) (lhs rhs : Expr)
  | conditional (note : Note) (condition thenExpr elseExpr : Expr)
  /-- What stands in place of wrong text. -/
  | wild (note : Note)

namespace Expr

def note : Expr → Note
  | literal n _ | name n _ | localVar n _ _ | thisRef n | superRef n | typeName n _
  | field n _ _ _ | arrayLength n _ | element n _ _ | send n _ _ _ _ | delegate n _ _ _
  | newObject n _ _ _ | newArray n _ _ | arrayInit n _ _ | binary n _ _ _ | concat n _ _
  | instanceOf n _ _ | unary n _ _ | step n _ _ | cast n _ _ | assign n _ _ _
  | conditional n _ _ _ | wild n => n

/-- The same node under another note. -/
def withNote (n : Note) : Expr → Expr
  | literal _ value => literal n value
  | name _ segments => name n segments
  | localVar _ x slot => localVar n x slot
  | thisRef _ => thisRef n
  | superRef _ => superRef n
  | typeName _ type => typeName n type
  | field _ target x ref => field n target x ref
  | arrayLength _ array => arrayLength n array
  | element _ array index => element n array index
  | send _ target x args method => send n target x args method
  | delegate _ target args ctor => delegate n target args ctor
  | newObject _ type args ctor => newObject n type args ctor
  | newArray _ type dims => newArray n type dims
  | arrayInit _ type elements => arrayInit n type elements
  | binary _ op lhs rhs => binary n op lhs rhs
  | concat _ lhs rhs => concat n lhs rhs
  | instanceOf _ operand target => instanceOf n operand target
  | unary _ op operand => unary n op operand
  | step _ op operand => step n op operand
  | cast _ target operand => cast n target operand
  | assign _ op lhs rhs => assign n op lhs rhs
  | conditional _ condition thenExpr elseExpr => conditional n condition thenExpr elseExpr
  | wild _ => wild n

def line (e : Expr) : Nat := e.note.line

/-- The type of a node, `any` while it is not known. -/
def ty (e : Expr) : Ty := e.note.ty.getD .any

/-- The same node as a statement. -/
def asStatement (e : Expr) : Expr := e.withNote { e.note with isStatement := true }

/-- Whether a node may stand as a statement. -/
def hasEffect : Expr → Bool
  | assign .. | step .. | send .. | delegate .. | newObject .. | newArray .. => true
  | _ => false

def isWild : Expr → Bool
  | wild _ => true
  | _ => false

def isTypeName : Expr → Bool
  | typeName .. => true
  | _ => false

def isSuperRef : Expr → Bool
  | superRef _ => true
  | _ => false

def isDelegation : Expr → Bool
  | delegate .. => true
  | _ => false

def isTrue : Expr → Bool
  | literal _ (.boolean true) => true
  | _ => false

def isNull : Expr → Bool
  | literal _ .null => true
  | _ => false

/-- Whether a node names something that can be stored to. An unresolved field counts when the
error about it was reported before. -/
def isVariable : Expr → Bool
  | localVar .. | element .. | wild _ => true
  | e@(field _ _ _ ref) => ref.isSome || e.ty.isAny
  | _ => false

end Expr

end JMinusMinus
