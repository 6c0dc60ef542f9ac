import JMinusMinus.Hierarchy.Overload
import JMinusMinus.Lowering.Selection

/-!
# Code of expressions

Code is made for a *use* of an expression.

* `value` leaves the value on the stack.
* `effect` leaves nothing. Assignments and steps then do without their value.
* `discarded` evaluates the target of a static member and drops it. A type needs no code.
* `branch target sense` jumps to a label when the value is `sense` and goes on otherwise.
  Comparisons and logical operators jump without making a boolean.
* `append` appends the value to the string builder on the stack. The parts of a concatenation
  are appended one by one.
* `address` leaves what a store to the variable needs below the value.

For each form of expression there is the code of its value, and what a use makes of the value
follows by `Use.finish`, except where a use has code of its own.
-/

namespace JMinusMinus.Lowering

/-! ## Constants and conversions -/

/-- Pushes a number. -/
def pushInt (value : Int) : Lowering Unit := instr (intLoad value)

/-- Pushes a literal. -/
def literal (line : Nat) (l : Literal) : Lowering Unit := do
  let invalid : Lowering Unit := fail (.literal line l.text)
  match l with
  | .int _ | .char _ =>
    match ← ofExcept l.intValue with
    | some value => pushInt value
    | none => invalid
  | .long _ =>
    match l.longValue? with
    | some value => instr (longLoad value)
    | none => invalid
  | .double _ =>
    match l.doubleValue? with
    | some value => instr (doubleLoad value)
    | none => invalid
  | .string _ =>
    match ← ofExcept l.stringValue with
    | some value => instr (.load (.string value))
    | none => invalid
  | .boolean value => op (if value then .iconst_1 else .iconst_0)
  | .null => op .aconst_null

/-- Converts the top of the stack. -/
def conversion (h : Hierarchy) (source target : Ty) : Lowering Unit := do
  if source ≠ target then
    if target.isReference then
      unless h.isAssignable source target do reference .checkcast target.internalName
    else (conversionOps source target).forM op

/-- The load of an integer literal that is converted to a wider type. -/
def widened? (target : Ty) : Expr → Except Fault (Option Instruction)
  | .literal _ l@(.int _) | .literal _ l@(.char _) => do
    match target, ← l.intValue with
    | .long, some value => return some (longLoad value)
    | .double, some value => return some (doubleLoad (Binary64.ofInt value))
    | _, _ => return none
  | _ => return none

/-- A reference that analysis has found. -/
def resolved {α : Type} (line : Nat) : Option α → Lowering α
  | some ref => pure ref
  | none => fail (.unresolved line)

/-- Creates an array of the length on the stack. -/
def newArray (line : Nat) (type : Ty) : Lowering Unit :=
  match type.component? with
  | none => fail (.notArray line type)
  | some component =>
    match arrayCode? component with
    | some code => instr (.operand .newarray code)
    | none => reference .anewarray component.internalName

/-! ## String builders -/

def appendType : Ty → Ty
  | .int => .int
  | .long => .long
  | .double => .double
  | .char => .char
  | .boolean => .boolean
  | .string => .string
  | _ => .object

/-- Appends the value on the stack to the builder below it. -/
def appendValue (ty : Ty) : Lowering Unit :=
  member .invokevirtual builderClass "append"
    (Ty.methodDescriptor [appendType ty] (.named builderClass))

def newBuilder : Lowering Unit := do
  reference .new builderClass
  op .dup
  member .invokespecial builderClass ctorName (Ty.methodDescriptor [] .void)

def builderOfString : Lowering Unit := do
  member .invokestatic stringClass "valueOf" (Ty.methodDescriptor [.object] .string)
  reference .new builderClass
  op .dup_x1
  op .swap
  member .invokespecial builderClass ctorName (Ty.methodDescriptor [.string] .void)

def builderText : Lowering Unit :=
  member .invokevirtual builderClass "toString" (Ty.methodDescriptor [] .string)

/-! ## Uses -/

/-- What becomes of the value of an expression. -/
inductive Use where
  | value
  | effect
  | discarded
  | branch (target : Label) (sense : Bool)
  | append
  | address

/-- Does what is asked of a value on the stack. -/
def Use.finish (use : Use) (note : Note) (value : Lowering Unit) : Lowering Unit :=
  let ty := note.ty.getD .any
  match use with
  | .value => value
  | .effect => do
    value
    (dropOps ty.words).forM op
  | .discarded => do
    value
    op .pop
  | .branch target sense => do
    value
    Lowering.branch (if sense then .ifne else .ifeq) target
  | .append => do
    value
    appendValue ty
  | .address => fail (.notAssignable note.line)

/-- The boolean of a condition that jumps. -/
def booleanValue (test : Label → Bool → Lowering Unit) : Lowering Unit := do
  let otherwise ← newLabel
  let stop ← newLabel
  test otherwise false
  op .iconst_1
  branch .goto stop
  mark otherwise
  op .iconst_0
  mark stop

/-- What a use makes of a condition that jumps. -/
def Use.decide (use : Use) (note : Note) (test : Label → Bool → Lowering Unit) : Lowering Unit :=
  match use with
  | .branch target sense => test target sense
  | use => use.finish note (booleanValue test)

def truth? : Literal → Option Bool
  | .boolean value => some value
  | _ => none

/-- What a use makes of a literal. A branch on a truth value needs no value. -/
def useLiteral (use : Use) (note : Note) (l : Literal) : Lowering Unit :=
  match use, truth? l with
  | .branch target sense, some value =>
    if value = sense then branch .goto target else pure ()
  | use, _ => use.finish note (literal note.line l)

/-! ## Conditions -/

def isZero : Expr → Except Fault Bool
  | .literal _ l@(.int _) | .literal _ l@(.char _) => do return (← l.intValue) = some 0
  | _ => return false

/-- Jumps on both operands of `&&`. -/
def bothBranch (lhs rhs : Label → Bool → Lowering Unit) (target : Label) (sense : Bool) :
    Lowering Unit := do
  if sense then
    let skip ← newLabel
    lhs skip false
    rhs target true
    mark skip
  else
    lhs target false
    rhs target false

/-- Jumps on one of the operands of `||`. -/
def eitherBranch (lhs rhs : Label → Bool → Lowering Unit) (target : Label) (sense : Bool) :
    Lowering Unit := do
  if sense then
    lhs target true
    rhs target true
  else
    let skip ← newLabel
    lhs skip true
    rhs target false
    mark skip

/-- The type that a comparison is done in: that of the left operand unless it is `null`. -/
def comparisonType (lhs rhs : Expr) : Ty :=
  (if lhs.ty = .null then rhs.ty else lhs.ty).promoted

/-- Jumps on a comparison of operands with their code. -/
def compareBranch (op : BinaryOp) (lhs rhs : Expr) (lhsCode rhsCode : Lowering Unit)
    (target : Label) (sense : Bool) : Lowering Unit := do
  let holds := outcome op sense
  match comparisonType lhs rhs with
  | .long =>
    lhsCode
    rhsCode
    Lowering.op .lcmp
    branch (zeroBranch holds) target
  | .double =>
    lhsCode
    rhsCode
    Lowering.op (doubleCompare op)
    branch (zeroBranch holds) target
  | ty =>
    if ty.isReference then
      if rhs.isNull || lhs.isNull then
        if rhs.isNull then lhsCode else rhsCode
        branch (if holds = .eq then .ifnull else .ifnonnull) target
      else
        lhsCode
        rhsCode
        branch (if holds = .eq then .if_acmpeq else .if_acmpne) target
    else
      lhsCode
      if ← ofExcept (isZero rhs) then branch (zeroBranch holds) target
      else
        rhsCode
        branch (intBranch holds) target

/-! ## Variables -/

/-- What a store writes to. -/
inductive Place where
  | localVar (slot : Nat) (ty : Ty)
  | staticField (ref : FieldRef)
  | field (ref : FieldRef)
  /-- An element of the array on the stack, below its index. -/
  | element (ty : Ty)

namespace Place

def of : Expr → Lowering Place
  | .localVar n _ slot => pure (.localVar slot (n.ty.getD .any))
  | .field n _ _ ref => do
    let ref ← resolved n.line ref
    return if ref.isStatic then .staticField ref else .field ref
  | .element n _ _ => pure (.element (n.ty.getD .any))
  | e => fail (.notAssignable e.line)

def words : Place → Nat
  | localVar .. | staticField _ => 0
  | field _ => 1
  | element _ => 2

def copyAddress (p : Place) : Lowering Unit :=
  match p.words with
  | 1 => op .dup
  | 2 => op .dup2
  | _ => pure ()

def load : Place → Lowering Unit
  | localVar slot ty => access (loadOp ty) slot
  | staticField ref => member .getstatic ref.owner ref.name ref.descriptor
  | field ref => member .getfield ref.owner ref.name ref.descriptor
  | element ty => op (elementLoadOp ty)

def store : Place → Lowering Unit
  | localVar slot ty => access (storeOp ty) slot
  | staticField ref => member .putstatic ref.owner ref.name ref.descriptor
  | field ref => member .putfield ref.owner ref.name ref.descriptor
  | element ty => op (elementStoreOp ty)

def storeKeeping (p : Place) (ty : Ty) (wanted : Bool) : Lowering Unit := do
  if wanted then op (copyUnder p.words ty)
  p.store

def intSlot? : Place → Option Nat
  | localVar slot .int => some slot
  | _ => none

end Place

/-- The change that a compound assignment of a literal makes, if a step can make it. -/
def stepDelta? (op : BinaryOp) : Expr → Option Int
  | .literal _ (.int image) => do
    let value ← Numeral.word? 32 image.toList
    let delta ← match op with
      | .add => some value
      | .sub => some (-value)
      | _ => none
    if isSignedShort delta then some delta else none
  | _ => none

def assignValue (p : Place) (ty : Ty) (address value : Lowering Unit) (wanted : Bool) :
    Lowering Unit := do
  address
  value
  p.storeKeeping ty wanted

/-- A step of a local `int` by any change, with its value if it is wanted. -/
def stepInt (slot : Nat) (delta : Int) (wanted : Bool) : Lowering Unit := do
  stepLocal slot delta
  if wanted then access .iload slot

/-- An assignment of a value after an operator. `appended` appends the operand to a builder. -/
def assignCompound (b : BinaryOp) (p : Place) (ty : Ty)
    (address operand appended : Lowering Unit) (wanted : Bool) : Lowering Unit := do
  address
  p.copyAddress
  p.load
  if b = .add && ty = .string then
    builderOfString
    appended
    builderText
  else
    operand
    op (binaryOp b ty)
  p.storeKeeping ty wanted

def assign (op : AssignOp) (lhs rhs : Expr) (address operand appended : Lowering Unit)
    (wanted : Bool) : Lowering Unit := do
  let p ← Place.of lhs
  match op.binary? with
  | none => assignValue p lhs.ty address operand wanted
  | some b =>
    match p.intSlot?, stepDelta? b rhs with
    | some slot, some delta => stepInt slot delta wanted
    | _, _ => assignCompound b p lhs.ty address operand appended wanted

def oneOp : Ty → Opcode := byType .iconst_1 .lconst_1 .dconst_1

/-- A step of a variable of a type, from the code of its address. -/
def step (o : StepOp) (operand : Expr) (ty : Ty) (address : Lowering Unit) (wanted : Bool) :
    Lowering Unit := do
  let p ← Place.of operand
  match p.intSlot? with
  | some slot =>
    if wanted && !o.isBefore then access .iload slot
    stepInt slot o.delta (wanted && o.isBefore)
  | none =>
    address
    p.copyAddress
    p.load
    if wanted && !o.isBefore then op (copyUnder p.words ty)
    op (oneOp ty)
    op (binaryOp (if 0 < o.delta then .add else .sub) ty)
    p.storeKeeping ty (wanted && o.isBefore)

/-- What a use makes of code that can do without its value. -/
def Use.store (use : Use) (note : Note) (code : Bool → Lowering Unit) : Lowering Unit :=
  match use with
  | .effect => code false
  | use => use.finish note (code true)

/-! ## Expressions -/

/-- The object that instance methods have in their first slot. -/
def currentObject : Lowering Unit := access .aload 0

def invert (ty : Ty) : Lowering Unit := do
  if ty = .long then
    instr (.load (.long (-1)))
    op .lxor
  else
    op .iconst_m1
    op .ixor

/-- The creation of an array whose lengths are on the stack. -/
def newArrays (line : Nat) (type : Ty) (dims : Nat) : Lowering Unit :=
  if dims ≤ 1 then newArray line type
  else if dims ≤ 255 then instr (.multiArray type.descriptor dims)
  else fail (.dimensions line)

mutual

/-- The code of an expression in a use. -/
def expr (h : Hierarchy) (use : Use) : Expr → Lowering Unit
  | .literal n l => useLiteral use n l
  | .name n _ | .wild n => use.finish n (fail (.noValue n.line))
  | .localVar n _ slot =>
    match use with
    | .address => pure ()
    | use => use.finish n (access (loadOp (n.ty.getD .any)) slot)
  | .thisRef n | .superRef n => use.finish n currentObject
  | .typeName n _ =>
    match use with
    | .discarded => pure ()
    | use => use.finish n (fail (.noValue n.line))
  | .field n target _ ref =>
    let address : Lowering FieldRef := do
      let ref ← resolved n.line ref
      expr h (if ref.isStatic then .discarded else .value) target
      return ref
    match use with
    | .address => discard address
    | use => use.finish n do
      let ref ← address
      member (if ref.isStatic then .getstatic else .getfield) ref.owner ref.name ref.descriptor
  | .arrayLength n array => use.finish n do
    expr h .value array
    op .arraylength
  | .element n array index =>
    let address : Lowering Unit := do
      expr h .value array
      expr h .value index
    match use with
    | .address => address
    | use => use.finish n do
      address
      op (elementLoadOp (n.ty.getD .any))
  | .send n target _ args method => use.finish n do
    let ref ← resolved n.line method
    receiver h (ref.kind = .static) target
    exprs h args
    member (invokeOp ref.kind) ref.owner ref.name ref.descriptor
  | .delegate n _ args ctor => use.finish n do
    let ref ← resolved n.line ctor
    currentObject
    exprs h args
    member .invokespecial ref.owner ctorName ref.descriptor
  | .newObject n type args ctor => use.finish n do
    let ref ← resolved n.line ctor
    reference .new type.internalName
    op .dup
    exprs h args
    member .invokespecial ref.owner ctorName ref.descriptor
  | .newArray n type dims => use.finish n do
    exprs h dims
    newArrays n.line type dims.length
  | .arrayInit n type items => use.finish n do
    match type.component? with
    | none => fail (.initializer n.line)
    | some component =>
      pushInt items.length
      newArray n.line type
      elements h (elementStoreOp component) 0 items
  | .binary n o lhs rhs =>
    if o = .logicalAnd then
      use.decide n (bothBranch (fun t s => expr h (.branch t s) lhs)
        (fun t s => expr h (.branch t s) rhs))
    else if o = .logicalOr then
      use.decide n (eitherBranch (fun t s => expr h (.branch t s) lhs)
        (fun t s => expr h (.branch t s) rhs))
    else if o.isCondition then
      use.decide n (compareBranch o lhs rhs (expr h .value lhs) (expr h .value rhs))
    else use.finish n do
      expr h .value lhs
      expr h .value rhs
      op (binaryOp o (n.ty.getD .any))
  | .concat n lhs rhs =>
    let appends : Lowering Unit := do
      expr h .append lhs
      expr h .append rhs
    match use with
    | .append => appends
    | use => use.finish n do
      newBuilder
      appends
      builderText
  | .instanceOf n operand target => use.finish n do
    expr h .value operand
    reference .instanceof target.internalName
  | .unary n o operand =>
    match o with
    | .not => use.decide n fun t s => expr h (.branch t (!s)) operand
    | .plus => use.finish n (expr h .value operand)
    | .neg => use.finish n do
      expr h .value operand
      op (byType .ineg .lneg .dneg (n.ty.getD .any))
    | .bitNot => use.finish n do
      expr h .value operand
      invert (n.ty.getD .any)
  | .step n o operand =>
    use.store n (step o operand (n.ty.getD .any) (expr h .address operand))
  | .cast n target operand => use.finish n do
    match ← ofExcept (widened? target operand) with
    | some load => instr load
    | none =>
      expr h .value operand
      conversion h operand.ty target
  | .assign n o lhs rhs =>
    use.store n (assign o lhs rhs (expr h .address lhs) (expr h .value rhs) (expr h .append rhs))
  | .conditional n test thenExpr elseExpr => use.finish n do
    let otherwise ← newLabel
    let stop ← newLabel
    expr h (.branch otherwise false) test
    expr h .value thenExpr
    branch .goto stop
    mark otherwise
    expr h .value elseExpr
    mark stop
termination_by structural e => e

/-- The code of values in order. -/
def exprs (h : Hierarchy) : List Expr → Lowering Unit
  | e :: es => do
    expr h .value e
    exprs h es
  | [] => pure ()
termination_by structural es => es

/-- The code of the target of a call, the current object if there is none. -/
def receiver (h : Hierarchy) (isStatic : Bool) : Option Expr → Lowering Unit
  | some e => expr h (if isStatic then .discarded else .value) e
  | none => if isStatic then pure () else currentObject
termination_by structural e => e

def elements (h : Hierarchy) (store : Opcode) (index : Nat) : List Expr → Lowering Unit
  | e :: es => do
    op .dup
    pushInt index
    expr h .value e
    op store
    elements h store (index + 1) es
  | [] => pure ()
termination_by structural es => es

end

end JMinusMinus.Lowering
