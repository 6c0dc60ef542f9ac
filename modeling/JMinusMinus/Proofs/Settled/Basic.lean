import JMinusMinus.Analysis.Unit
import JMinusMinus.Proofs.Written.Basic

/-!
# Settled trees

What holds of a tree that analysis returns without a report. An expression is *settled* if each
of its nodes is. A node is settled in a *frame*, which says what the body around it is analyzed
in: the headers, the class, whether there is a current object, what is returned, and the
variables with their slots.

* Every node has a type, which is not `any` nor an array of something that cannot be stored
  (`Ty.isKnown`). No name is left unclassified.
* A type stands only where a static member is selected from it (`IsTarget`).
* Calls and selections carry the member they mean. The descriptor of the member is that of its
  parameter types and of the type of the node, and arguments fit the parameters.
* A value *fits* an expected type if it has this very type, or both are reference types and it is
  assignable (`Expr.Fits`). So no conversion between primitive types is left to be done.
* Operands have the types that the operation is done in, up to the promotion of `char` to `int`
  (`BinaryOp.Typed`).
-/

namespace JMinusMinus

/-! ## Nodes -/

namespace Expr

/-- The expressions right below a node. -/
def children : Expr → List Expr
  | literal .. | name .. | localVar .. | thisRef _ | superRef _ | typeName .. | wild _ => []
  | field _ target _ _ => [target]
  | arrayLength _ array => [array]
  | element _ array index => [array, index]
  | send _ target _ args _ => target.toList ++ args
  | delegate _ _ args _ | newObject _ _ args _ => args
  | newArray _ _ dims => dims
  | arrayInit _ _ elements => elements
  | binary _ _ lhs rhs | concat _ lhs rhs | assign _ _ lhs rhs => [lhs, rhs]
  | instanceOf _ operand _ | unary _ _ operand | step _ _ operand | cast _ _ operand => [operand]
  | conditional _ condition thenExpr elseExpr => [condition, thenExpr, elseExpr]

mutual

/-- The nodes below a node, each before those below it. -/
def descendants : Expr → List Expr
  | literal .. | name .. | localVar .. | thisRef _ | superRef _ | typeName .. | wild _ => []
  | field _ target _ _ => target :: target.descendants
  | arrayLength _ array => array :: array.descendants
  | element _ array index => array :: array.descendants ++ index :: index.descendants
  | send _ target _ args _ => nodesOfTarget target ++ nodesOf args
  | delegate _ _ args _ | newObject _ _ args _ => nodesOf args
  | newArray _ _ dims => nodesOf dims
  | arrayInit _ _ elements => nodesOf elements
  | binary _ _ lhs rhs | concat _ lhs rhs | assign _ _ lhs rhs =>
    lhs :: lhs.descendants ++ rhs :: rhs.descendants
  | instanceOf _ operand _ | unary _ _ operand | step _ _ operand | cast _ _ operand =>
    operand :: operand.descendants
  | conditional _ condition thenExpr elseExpr =>
    condition :: condition.descendants ++ thenExpr :: thenExpr.descendants ++ elseExpr ::
      elseExpr.descendants
termination_by structural e => e

def nodesOfTarget : Option Expr → List Expr
  | some e => e :: e.descendants
  | none => []
termination_by structural e => e

def nodesOf : List Expr → List Expr
  | e :: es => e :: e.descendants ++ nodesOf es
  | [] => []
termination_by structural es => es

end

/-- A node and those below it. -/
def nodes (e : Expr) : List Expr := e :: e.descendants

theorem mem_nodes_self (e : Expr) : e ∈ e.nodes := List.mem_cons_self

theorem nodesOfTarget_eq (e : Option Expr) : nodesOfTarget e = e.toList.flatMap nodes := by
  cases e <;> simp [nodesOfTarget, nodes]

theorem nodesOf_eq : ∀ es : List Expr, nodesOf es = es.flatMap nodes
  | [] => rfl
  | e :: es => by simp [nodesOf, nodesOf_eq es, nodes]

/-- The nodes below an expression are those of its children. -/
theorem descendants_eq (e : Expr) : e.descendants = e.children.flatMap nodes := by
  cases e <;> simp [descendants, children, nodesOf_eq, nodesOfTarget_eq, nodes]

theorem sizeOf_child {e : Expr} (hc : c ∈ e.children) : sizeOf c < sizeOf e := by
  have hlist : ∀ {es : List Expr}, c ∈ es → sizeOf c < sizeOf es := List.sizeOf_lt_of_mem
  cases e with
  | send n target x args method =>
    rcases List.mem_append.1 hc with hc | hc
    · obtain rfl := Option.mem_toList.1 hc
      simp only [send.sizeOf_spec, Option.some.sizeOf_spec]
      omega
    · have := hlist hc
      simp only [send.sizeOf_spec]
      omega
  | delegate n target args ctor =>
    have : sizeOf c < sizeOf args := hlist hc
    simp only [delegate.sizeOf_spec]
    omega
  | newObject n type args ctor =>
    have : sizeOf c < sizeOf args := hlist hc
    simp only [newObject.sizeOf_spec]
    omega
  | newArray n type dims =>
    have : sizeOf c < sizeOf dims := hlist hc
    simp only [newArray.sizeOf_spec]
    omega
  | arrayInit n type elements =>
    have : sizeOf c < sizeOf elements := hlist hc
    simp only [arrayInit.sizeOf_spec]
    omega
  | _ => grind [children]

theorem childrenInduction {p : Expr → Prop} (step : ∀ e, (∀ c ∈ e.children, p c) → p e)
    (e : Expr) : p e :=
  step e fun c hc =>
    have := sizeOf_child hc
    childrenInduction step c
termination_by sizeOf e

end Expr

/-! ## Types -/

/-- The types that can be written in a descriptor and read back: storable ones whose class names
do not contain the character that closes a name. -/
def Ty.isProper : Ty → Bool
  | .void | .null | .any => false
  | .named name => !name.toList.contains ';'
  | .array c => c.isProper
  | _ => true

/-- The types that a checked expression can have: arrays only of proper types. -/
def Ty.isKnown : Ty → Bool
  | .any => false
  | .array c => c.isProper
  | _ => true

/-- The types that a member can have as its result. -/
def Ty.isProperResult (t : Ty) : Bool := t = .void || t.isProper

/-! ## Frames -/

/-- Variables by slot. -/
abbrev Vars := List (Nat × Ty)

/-- What a body is analyzed in. -/
structure Frame where
  hierarchy : Hierarchy
  package : Option String
  className : String
  /-- Whether there is no current object. -/
  isStatic : Bool
  result : Ty
  vars : Vars

/-- A frame with other variables. -/
def Frame.over (fr : Frame) (vars : Vars) : Frame := { fr with vars }

/-- Variables whose slots do not overlap. -/
def Vars.Apart (v : Vars) : Prop :=
  v.Pairwise fun a b => a.1 + a.2.slots ≤ b.1 ∨ b.1 + b.2.slots ≤ a.1

/-- The first slot for variables. The current object is in slot 0. -/
def Frame.firstSlot (fr : Frame) : Nat := if fr.isStatic then 0 else 1

/-- Variables of a frame whose slots are below a bound. -/
structure Vars.Within (v : Vars) (fr : Frame) (bound : Nat) : Prop where
  first : fr.firstSlot ≤ bound
  proper : ∀ x ∈ v, x.2.isProper
  lower : ∀ x ∈ v, fr.firstSlot ≤ x.1
  upper : ∀ x ∈ v, x.1 + x.2.slots ≤ bound
  apart : v.Apart

theorem Vars.Within.over {v : Vars} (h : v.Within fr bound) (vars : Vars) :
    v.Within (fr.over vars) bound :=
  ⟨h.first, h.proper, h.lower, h.upper, h.apart⟩

/-! ## Nodes in their places -/

/-- An expression that has the type that is expected, or one that needs no conversion to it. -/
def Expr.Fits (h : Hierarchy) (e : Expr) (t : Ty) : Prop :=
  e.ty = t ∨ e.ty.isReference ∧ t.isReference ∧ h.isAssignable e.ty t

/-- Arguments that fit parameters one by one. -/
def ArgsFit (h : Hierarchy) : List Expr → List Ty → Prop
  | e :: es, t :: ts => e.isTypeName = false ∧ e.Fits h t ∧ ArgsFit h es ts
  | [], [] => True
  | _, _ => False

/-- A value, or a type if the member selected from it is static. -/
def Expr.IsTarget (isStatic : Bool) (e : Expr) : Prop :=
  e.ty.isReference ∧ (isStatic = false → e.isTypeName = false)

/-- The type of an operation and of its operands. -/
def BinaryOp.Typed (op : BinaryOp) (lt rt t : Ty) : Prop :=
  if op.isArithmetic then lt.promoted = t ∧ rt.promoted = t ∧ t.isNumeric
  else if op.isShift then lt.promoted = t ∧ t.isIntegral ∧ rt.promoted = .int
  else if op.isBitwise then lt.promoted = t ∧ rt.promoted = t ∧ t.isIntegral
  else if op.isLogical then lt = .boolean ∧ rt = .boolean ∧ t = .boolean
  else if op.isRelational then lt.promoted = rt.promoted ∧ lt.promoted.isNumeric ∧ t = .boolean
  else t = .boolean ∧
    (lt.promoted = rt.promoted ∧ (lt.promoted.isNumeric ∨ lt = .boolean) ∨
      lt.isReference ∧ rt.isReference)

/-- The types of the two sides of a compound assignment. -/
def BinaryOp.CompoundTyped (op : BinaryOp) (lt rt : Ty) : Prop :=
  if op = .add ∧ lt = .string then rt ≠ .void
  else if op.isShift then lt.isIntegral ∧ lt ≠ .char ∧ rt.promoted = .int
  else (if op.isArithmetic then lt.isNumeric else lt.isIntegral) ∧ lt ≠ .char ∧ rt = lt

namespace Expr

/-- The condition on a node of each form. -/
def FormSettled (fr : Frame) : Expr → Prop
  | literal n l => n.ty = some l.ty ∧ l.isValid = .ok true
  | name .. | wild _ => False
  | localVar n _ slot => ∃ t, n.ty = some t ∧ (slot, t) ∈ fr.vars
  | thisRef n => fr.isStatic = false ∧ n.ty = some (.ofClass fr.className)
  | superRef n => fr.isStatic = false ∧ ∃ c, n.ty = some (.ofClass c)
  | typeName n t => n.ty = some t ∧ ∃ c, t = .ofClass c
  | field n target x ref => ∃ r t, ref = some r ∧ n.ty = some t ∧ t.isProper ∧ r.name = x ∧
      r.descriptor = t.descriptor ∧ target.IsTarget r.isStatic
  | arrayLength n array =>
    n.ty = some .int ∧ array.isTypeName = false ∧ array.ty.isArray
  | element n array index => ∃ t, n.ty = some t ∧ array.isTypeName = false ∧
      array.ty = .array t ∧ index.isTypeName = false ∧ index.ty = .int
  | send n target x args method => ∃ r params t, method = some r ∧ n.ty = some t ∧
      t.isProperResult ∧ (∀ p ∈ params, p.isProper) ∧ r.name = x ∧
      r.descriptor = Ty.methodDescriptor params t ∧
      (∀ e ∈ target, e.IsTarget (r.kind = .static)) ∧
      (target = none → r.kind = .static) ∧ ArgsFit fr.hierarchy args params
  | delegate n _ args ctor => ∃ r params, ctor = some r ∧ n.ty = some .void ∧
      fr.isStatic = false ∧ (∀ p ∈ params, p.isProper) ∧
      r.descriptor = Ty.methodDescriptor params .void ∧ ArgsFit fr.hierarchy args params
  | newObject n type args ctor => ∃ r params, ctor = some r ∧ n.ty = some type ∧
      type.isReference ∧ type.isArray = false ∧ (∀ p ∈ params, p.isProper) ∧
      r.descriptor = Ty.methodDescriptor params .void ∧ ArgsFit fr.hierarchy args params
  | newArray n type dims => n.ty = some type ∧ type.isProper ∧ dims ≠ [] ∧
      dims.length ≤ type.dims ∧ ∀ d ∈ dims, d.isTypeName = false ∧ d.ty = .int
  | arrayInit n type elements => ∃ c, n.ty = some type ∧ type = .array c ∧ c.isProper ∧
      ∀ e ∈ elements, e.isTypeName = false ∧ e.Fits fr.hierarchy c
  | binary n op lhs rhs => lhs.isTypeName = false ∧ rhs.isTypeName = false ∧
      ∃ t, n.ty = some t ∧ op.Typed lhs.ty rhs.ty t
  | concat n lhs rhs => n.ty = some .string ∧ lhs.isTypeName = false ∧ rhs.isTypeName = false ∧
      lhs.ty ≠ .void ∧ rhs.ty ≠ .void ∧ (lhs.ty = .string ∨ rhs.ty = .string)
  | instanceOf n operand target => n.ty = some .boolean ∧ operand.isTypeName = false ∧
      operand.ty.isReference ∧ target.isReference ∧ target.isProper
  | unary n op operand => operand.isTypeName = false ∧
      ∃ t, n.ty = some t ∧ Analysis.unaryType? op operand.ty = some t
  | step n _ operand => n.ty = some operand.ty ∧ operand.isVariable ∧
      (operand.ty = .int ∨ operand.ty = .long ∨ operand.ty = .double)
  | cast n target operand => n.ty = some target ∧ target.isProper ∧
      operand.isTypeName = false ∧ Analysis.castable fr.hierarchy operand.ty target
  | assign n op lhs rhs => n.ty = some lhs.ty ∧ lhs.isVariable ∧ rhs.isTypeName = false ∧
      match op.binary? with
      | none => rhs.Fits fr.hierarchy lhs.ty
      | some b => b.CompoundTyped lhs.ty rhs.ty
  | conditional n test thenExpr elseExpr => test.isTypeName = false ∧ test.ty = .boolean ∧
      ∃ t, n.ty = some t ∧ thenExpr.isTypeName = false ∧ thenExpr.Fits fr.hierarchy t ∧
        elseExpr.isTypeName = false ∧ elseExpr.Fits fr.hierarchy t

/-- A node with a type that meets the condition of its form. -/
structure NodeSettled (fr : Frame) (e : Expr) : Prop where
  typed : ∃ t, e.note.ty = some t ∧ t.isKnown
  form : e.FormSettled fr

/-- Every node of the expression is settled. -/
def Settled (fr : Frame) (e : Expr) : Prop := ∀ x ∈ e.nodes, x.NodeSettled fr

/-- An expression is settled if its node is and its children are. -/
theorem settled_iff {e : Expr} :
    e.Settled fr ↔ e.NodeSettled fr ∧ ∀ c ∈ e.children, c.Settled fr := by
  constructor
  · intro h
    refine ⟨h e (mem_nodes_self e), fun c hc x hx => h x ?_⟩
    rw [nodes, descendants_eq]
    exact List.mem_cons_of_mem _ (List.mem_flatMap.2 ⟨c, hc, hx⟩)
  · rintro ⟨he, hchildren⟩ x hx
    rcases List.mem_cons.1 hx with rfl | hx
    · exact he
    · rw [descendants_eq] at hx
      obtain ⟨c, hc, hx⟩ := List.mem_flatMap.1 hx
      exact hchildren c hc x hx

/-- A settled expression that is a value. -/
structure SettledValue (fr : Frame) (e : Expr) : Prop where
  settled : e.Settled fr
  value : e.isTypeName = false

end Expr

/-! ## Statements -/

/-- A settled value that is true or false. -/
structure Expr.SettledTest (fr : Frame) (e : Expr) : Prop extends e.SettledValue fr where
  boolean : e.ty = .boolean

/-- A settled value that fits a type. -/
structure Expr.SettledAs (fr : Frame) (t : Ty) (e : Expr) : Prop extends e.SettledValue fr where
  fits : e.Fits fr.hierarchy t

/-- A variable with a slot of the frame, and a first value that fits it. -/
structure Declarator.Settled (fr : Frame) (d : Declarator) : Prop where
  placed : ∃ slot, d.slot = some slot ∧ (slot, d.ty) ∈ fr.vars
  init : ∀ e ∈ d.init, e.SettledAs fr d.ty

/-- A parameter with a slot of the frame. -/
def Param.Placed (fr : Frame) (p : Param) : Prop :=
  ∃ slot, p.slot = some slot ∧ (slot, p.ty) ∈ fr.vars

/-- The number that a label has. -/
def SwitchLabel.value? : SwitchLabel → Option Int
  | .case (.literal _ l) =>
    match l.intValue with
    | .ok value => value
    | .error _ => none
  | _ => none

/-- A label that is a constant, or takes everything else. -/
def SwitchLabel.Settled (fr : Frame) : SwitchLabel → Prop
  | l@(.case e) => e.Settled fr ∧ l.value?.isSome
  | .otherwise _ => True

/-- Labels of a switch: different constants, and at most one for everything else. -/
structure LabelsSettled (fr : Frame) (labels : List SwitchLabel) : Prop where
  each : ∀ l ∈ labels, l.Settled fr
  distinct : (labels.filterMap SwitchLabel.value?).Nodup
  otherwise : (labels.filter SwitchLabel.isOtherwise).length ≤ 1

mutual

/-- A settled statement inside loops and switches. -/
def Stmt.Settled (fr : Frame) (jumps : List JumpTarget) : Stmt → Prop
  | .blockStmt body => BlockSettled fr jumps body
  | .ifStmt _ test thenBranch elseBranch => test.SettledTest fr ∧
      thenBranch.Settled fr jumps ∧ ElseSettled fr jumps elseBranch
  | .whileStmt _ test body => test.SettledTest fr ∧ body.Settled fr (.loop :: jumps)
  | .doStmt _ body test => body.Settled fr (.loop :: jumps) ∧ test.SettledTest fr
  | .forStmt _ init test update body => StmtsSettled fr jumps init ∧
      (∀ e ∈ test, e.SettledTest fr) ∧ StmtsSettled fr jumps update ∧
      body.Settled fr (.loop :: jumps)
  | .switchStmt _ value groups => value.SettledValue fr ∧ value.ty.promoted = .int ∧
      LabelsSettled fr (groups.flatMap SwitchGroup.labels) ∧
      GroupsSettled fr (.switch :: jumps) groups
  | .tryStmt _ body catches final => BlockSettled fr jumps body ∧
      CatchesSettled fr jumps catches ∧ FinalSettled fr jumps final
  | .throwStmt _ e => e.SettledValue fr ∧ e.ty.isReference
  | .returnStmt _ none => fr.result = .void
  | .returnStmt _ (some e) => fr.result ≠ .void ∧ e.SettledAs fr fr.result
  | .breakStmt _ => jumps ≠ []
  | .continueStmt _ => .loop ∈ jumps
  | .emptyStmt _ => True
  | .exprStmt _ e => e.SettledValue fr
  | .localsStmt _ vars => ∀ d ∈ vars, d.Settled fr
termination_by structural s => s

def ElseSettled (fr : Frame) (jumps : List JumpTarget) : Option Stmt → Prop
  | some s => s.Settled fr jumps
  | none => True
termination_by structural s => s

def StmtsSettled (fr : Frame) (jumps : List JumpTarget) : List Stmt → Prop
  | s :: ss => s.Settled fr jumps ∧ StmtsSettled fr jumps ss
  | [] => True
termination_by structural ss => ss

def BlockSettled (fr : Frame) (jumps : List JumpTarget) : Block Stmt → Prop
  | ⟨_, stmts⟩ => StmtsSettled fr jumps stmts
termination_by structural b => b

def FinalSettled (fr : Frame) (jumps : List JumpTarget) : Option (Block Stmt) → Prop
  | some body => BlockSettled fr jumps body
  | none => True
termination_by structural b => b

def CatchSettled (fr : Frame) (jumps : List JumpTarget) : CatchClause Stmt → Prop
  | ⟨_, param, body⟩ => param.Placed fr ∧ BlockSettled fr jumps body
termination_by structural c => c

def CatchesSettled (fr : Frame) (jumps : List JumpTarget) : List (CatchClause Stmt) → Prop
  | c :: cs => CatchSettled fr jumps c ∧ CatchesSettled fr jumps cs
  | [] => True
termination_by structural cs => cs

def GroupSettled (fr : Frame) (jumps : List JumpTarget) : SwitchGroup Stmt → Prop
  | ⟨_, stmts⟩ => StmtsSettled fr jumps stmts
termination_by structural g => g

def GroupsSettled (fr : Frame) (jumps : List JumpTarget) : List (SwitchGroup Stmt) → Prop
  | g :: gs => GroupSettled fr jumps g ∧ GroupsSettled fr jumps gs
  | [] => True
termination_by structural gs => gs

end

/-! ## Declarations -/

/-- A settled body whose variables are in slots that do not overlap. -/
structure BodySettled (fr : Frame) (params : List Param) (locals : Nat)
    (body : Option (Block Stmt)) : Prop where
  within : fr.vars.Within fr locals
  params : ∀ p ∈ params, p.Placed fr
  body : FinalSettled fr [] body

/-- The frame of a member of a type of the unit. -/
def CompilationUnit.frame (u : CompilationUnit) (h : Hierarchy) (name : String) (isStatic : Bool)
    (result : Ty) (vars : Vars) : Frame :=
  ⟨h, u.package.map QualifiedName.text, u.internalName name, isStatic, result, vars⟩

/-- A member whose parameters have slots, whose body is settled, and whose first values fit. A
method that has a result cannot complete without one. -/
def Member.Settled (h : Hierarchy) (u : CompilationUnit) (name : String) : Member → Prop
  | .ctor c => ∃ vars,
      BodySettled (u.frame h name false .void vars) c.params c.locals (some c.body)
  | .method m => m.result.isProperResult ∧
      (∃ vars, BodySettled (u.frame h name (Analysis.isStatic m.modifiers) m.result vars) m.params
        m.locals m.body) ∧
      (m.result ≠ .void → ∀ b ∈ m.body, Stmt.blockCanComplete b = false)
  | .field f => ∀ d ∈ f.vars, d.ty.isProper ∧ ∀ e ∈ d.init, ∃ vars bound,
      let fr := u.frame h name (Analysis.isStatic f.modifiers) .void vars
      vars.Within fr bound ∧ e.SettledAs fr d.ty

/-- A class with settled members, or an interface whose members are settled methods without
bodies. -/
def TypeDecl.Settled (h : Hierarchy) (u : CompilationUnit) : TypeDecl → Prop
  | .classDecl d => ∀ m ∈ d.members, m.Settled h u d.name
  | .interfaceDecl d => ∀ m ∈ d.members,
      m.Settled h u d.name ∧ ∃ decl, m = .method decl ∧ decl.body = none

/-- Every type of the analyzed unit is settled. -/
def Analyzed.Settled (a : Analyzed) : Prop := ∀ d ∈ a.unit.types, d.Settled a.hierarchy a.unit

end JMinusMinus
