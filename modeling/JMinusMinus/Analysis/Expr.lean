import JMinusMinus.Analysis.Context

/-!
# Analysis of expressions

Analysis of an expression returns the expression with its type. Names become local variables,
fields or type names, a sum with a string becomes a concatenation, calls carry the member they
mean, and every conversion between primitive types is written out as a cast.

An expression stands in a *role*, which says what else holds of it.

* `value`: nothing else;
* `selected`: the target of a selection, where a type may stand;
* `condition`: it is a boolean;
* `index`: it is an `int`, a `char` converted to one;
* `initial ty`: it initializes a variable of type `ty`. Elements in braces take their array type
  from the variable, and the value is converted to `ty`.

An expression that fails a check has type `any`, and no check objects to `any`. An analyzed tree
can be analyzed again.
-/

namespace JMinusMinus.Analysis

/-! ## Nodes -/

/-- A note with a line and a type. -/
def typed (line : Nat) (ty : Ty) : Note := { line, ty := some ty }

/-- What stands for an expression that means nothing. -/
def unknown (line : Nat) : Expr := .wild (typed line .any)

/-- A cast that analysis puts in. -/
def convert (target : Ty) (e : Expr) : Expr := .cast (typed e.line target) target e

/-- The class whose members values of a type have. -/
def memberClass? : Ty → Option String
  | .string => some stringClass
  | .named name => some name
  | .array _ => some objectClass
  | _ => none

/-! ## Conversions -/

/-- Checks that a value may be stored as a type, and writes out a primitive conversion. -/
def coerce (target : Ty) (e : Expr) : Analysis Expr := do
  let source := e.ty
  if source = target || source.isAny || target.isAny then return e
  if !(← get).hierarchy.isAssignable source target then
    report e.line (.mismatch source target)
    return e
  if source.isPrimitive && target.isPrimitive then return convert target e
  return e

/-- Converts arguments to the types of parameters. -/
def coerceArgs : List Expr → List Ty → Analysis (List Expr)
  | e :: es, ty :: tys => do
    let e ← coerce ty e
    let es ← coerceArgs es tys
    return e :: es
  | _, _ => return []

/-- What the place of an expression asks of it. -/
inductive Role where
  | value
  | selected
  | condition
  | index
  | initial (ty : Ty)

/-- The check that a role makes of an analyzed expression. -/
def Role.settle : Role → Expr → Analysis Expr
  | .value, e | .selected, e => return e
  | .condition, e => do
    unless e.ty = .boolean || e.ty.isAny do report e.line (.mismatch e.ty .boolean)
    return e
  | .index, e => do
    match e.ty with
    | .int | .any => return e
    | .char => coerce .int e
    | ty =>
      report e.line (.mismatch ty .int)
      return e
  | .initial ty, e => coerce ty e

/-- The array type of elements in braces: that of the variable, else the one written. -/
def Role.arrayType (written : Ty) : Role → Ty
  | .initial ty => ty
  | _ => written

/-! ## Literals and names -/

/-- A literal, which must have a value. -/
def literal (line : Nat) (l : Literal) : Analysis Expr := do
  unless ← l.isValid do report line (.literalInvalid l.ty l.text)
  return .literal (typed line l.ty) l

/-- The current object. -/
def thisRef (line : Nat) : Analysis Expr := do
  return .thisRef (typed line (← get).classType)

/-- A field of a class as code refers to it. -/
def fieldRef (owner : String) (f : FieldHeader) : FieldRef :=
  ⟨owner, f.name, f.ty.descriptor, f.isStatic⟩

/-- A field of a target, or the length of an array. -/
def selectField (line : Nat) (target : Expr) (name : String) : Analysis Expr := do
  let ty := target.ty
  let unresolved := Expr.field (typed line .any) target name none
  if ty.isAny then return unresolved
  if ty.isArray && name = "length" && !target.isTypeName then
    return .arrayLength (typed line .int) target
  match memberClass? ty with
  | none =>
    report line (.cannotSelect name ty)
    return unresolved
  | some owner =>
    match (← get).hierarchy.findField owner name with
    | none =>
      report line (.fieldUnknown name ty)
      return unresolved
    | some (owner, f) =>
      if target.isTypeName && !f.isStatic then report line (.fieldThroughType name ty)
      return .field (typed line f.ty) target name (some { fieldRef owner f with name })

/-- The fields of a dotted name, from its first value on. -/
def selectFields (line : Nat) : List String → Expr → Analysis Expr
  | [], e => return e
  | name :: names, e => do selectFields line names (← selectField line e name)

/-- A field of the current class, named without a target. -/
def implicitField (line : Nat) (name owner : String) (f : FieldHeader) : Analysis Expr := do
  let target ←
    if f.isStatic then pure (.typeName (typed line (Ty.ofClass owner)) (Ty.ofClass owner))
    else do
      if (← get).isStatic then report line (.fieldInStatic name)
      thisRef line
  return .field (typed line f.ty) target name (some { fieldRef owner f with name })

/-- The longest leading run of at most so many words that names a type, and its length. -/
def typePart? (c : Context) (segments : List String) : Nat → Option (Ty × Nat)
  | 0 => none
  | n + 1 =>
    match c.resolveClass? (".".intercalate (segments.take (n + 1))) with
    | some internal => some (Ty.ofClass internal, n + 1)
    | none => typePart? c segments n

/-- A dotted name. Its first word is a local variable, else a field of the current class. If it
is neither, the longest leading part that names a type is one. The words after are fields. -/
def classify (line : Nat) (segments : List String) (typeAllowed : Bool) : Analysis Expr := do
  match segments with
  | [] => return unknown line
  | first :: rest =>
    let c ← get
    match c.local? first with
    | some v => selectFields line rest (.localVar (typed line v.ty) v.name v.slot)
    | none =>
      match c.className.bind fun name => c.hierarchy.findField name first with
      | some (owner, f) => selectFields line rest (← implicitField line first owner f)
      | none =>
        match typePart? c segments segments.length with
        | some (ty, n) =>
          if n = segments.length && !typeAllowed then
            report line (.typeAsValue ty)
            return unknown line
          selectFields line (segments.drop n) (.typeName (typed line ty) ty)
        | none =>
          report line (.nameUnknown (".".intercalate segments))
          return unknown line

/-- The superclass part of the current object. -/
def superRef (line : Nat) : Analysis Expr := do
  if (← get).isStatic then report line .superInStatic
  return .superRef (typed line (((← get).superclass?.map Ty.ofClass).getD .any))

/-! ## Calls -/

/-- How a method is called. -/
def invocation (h : Hierarchy) (owner : String) (m : MethodHeader) (isSuper : Bool) : InvokeKind :=
  if m.isStatic then .static
  else if isSuper || m.isPrivate then .special
  else if h.isInterface owner then .interface
  else .virtual

/-- A call of a method that was found. -/
def resolvedSend (line : Nat) (target : Option Expr) (name : String) (args : List Expr)
    (owner : String) (m : MethodHeader) : Analysis Expr := do
  let isSuper := target.any Expr.isSuperRef
  if target.any Expr.isTypeName && !m.isStatic then report line (.methodThroughType m.signature)
  if isSuper && m.isAbstract then report line (.abstractSuperCall m.signature)
  let target ←
    if target.isNone && !m.isStatic then do
      if (← get).isStatic then report line (.methodInStatic m.signature)
      pure (some (← thisRef line))
    else pure target
  let kind := invocation (← get).hierarchy owner m isSuper
  let args ← coerceArgs args m.params
  return .send (typed line m.result) target name args (some ⟨owner, name, m.descriptor, kind⟩)

/-- A call, with the method found by its name and the types of its arguments. -/
def send (line : Nat) (target : Option Expr) (name : String) (args : List Expr) :
    Analysis Expr := do
  let types := args.map Expr.ty
  let unresolved := Expr.send (typed line .any) target name args none
  if target.any (·.ty.isAny) then return unresolved
  let c ← get
  let owner := match target with
    | none => c.className
    | some t => memberClass? t.ty
  match owner with
  | none =>
    report line (.cannotInvoke name ((target.map (·.ty.text)).getD ""))
    return unresolved
  | some owner =>
    if types.any Ty.isAny then return unresolved
    match c.hierarchy.selectMethod owner name types with
    | .found (owner, m) => resolvedSend line target name args owner m
    | .notFound =>
      report line (.methodUnknown (signatureText name types))
      return unresolved
    | .ambiguous =>
      report line (.callAmbiguous (signatureText name types))
      return unresolved

/-- The constructor that arguments select, with the arguments converted. -/
def constructWith (line : Nat) (owner : String) (args : List Expr) :
    Analysis (List Expr × Option MethodRef) := do
  let types := args.map Expr.ty
  match (← get).hierarchy.selectCtor owner types with
  | .found (ctor, params) => return (← coerceArgs args params, some ctor)
  | .notFound =>
    report line (.constructorUnknown (signatureText (dotted owner) types))
    return (args, none)
  | .ambiguous =>
    report line (.constructorAmbiguous (signatureText (dotted owner) types))
    return (args, none)

/-- Whether some argument failed a check. -/
def erroneous (args : List Expr) : Bool := args.any (·.ty.isAny)

/-- Checks that a constructor may call another one here, and that no second one may. -/
def delegationAllowed (line : Nat) (target : Delegation) : Analysis Unit := do
  let c ← get
  set { c with mayDelegate := false }
  unless c.mayDelegate && (c.method.map MethodScope.isCtor).getD false do
    report line (.delegationNotFirst target)

/-- A call of another constructor. -/
def delegate (line : Nat) (target : Delegation) (args : List Expr) : Analysis Expr := do
  let c ← get
  let owner := match target with
    | .toSuper => c.superclass?
    | .toThis => c.className
  let (args, ctor) ← match owner with
    | some owner => if erroneous args then pure (args, none) else constructWith line owner args
    | none => pure (args, none)
  return .delegate (typed line .void) target args ctor

/-- A new object, with the constructor found by the types of its arguments. -/
def newObject (line : Nat) (type : Ty) (args : List Expr) : Analysis Expr := do
  let unresolved := (args, none)
  let (args, ctor) ← match type with
    | .any => pure unresolved
    | .array _ => do
      report line (.cannotInstantiate type)
      pure unresolved
    | _ =>
      match memberClass? type with
      | none => do
        report line (.cannotInstantiate type)
        pure unresolved
      | some name => do
        if (((← get).hierarchy.lookup name).map ClassHeader.isAbstract).getD false then
          report line (.cannotInstantiateAbstract type)
          pure unresolved
        else if erroneous args then pure unresolved
        else constructWith line name args
  return .newObject (typed line (if ctor.isSome then type else .any)) type args ctor

/-! ## Operators -/

/-- The type of an operation on operands that are not `any`, if they have the right types. -/
def operationType? (op : BinaryOp) (lt rt : Ty) : Option Ty :=
  let lp := lt.promoted
  let rp := rt.promoted
  if op.isArithmetic then if lp = rp && lp.isNumeric then some lp else none
  else if op.isShift then if lp.isIntegral && rp.isIntegral then some lp else none
  else if op.isBitwise then if lp = rp && lp.isIntegral then some lp else none
  else if op.isLogical then if lt = .boolean && rt = .boolean then some .boolean else none
  else if op.isRelational then if lp = rp && lp.isNumeric then some .boolean else none
  else if (lp = rp && (lp.isNumeric || lp = .boolean)) || (lt.isReference && rt.isReference) then
    some .boolean
  else none

/-- The type of an operation whose operands are wrong. -/
def failedType (op : BinaryOp) : Ty := if op.isCondition then .boolean else .any

/-- The number of bits of a shift as code takes it. -/
def shiftDistance (op : BinaryOp) (e : Expr) : Expr :=
  if op.isShift && e.ty = .long then convert .int e else e

/-- A binary operation on analyzed operands. -/
def binary (line : Nat) (op : BinaryOp) (lhs rhs : Expr) : Analysis Expr := do
  let lt := lhs.ty
  let rt := rhs.ty
  if op = .add && (lt = .string || rt = .string) then
    if lt = .void || rt = .void then report line (.operandTypes op.text lt rt)
    return .concat (typed line .string) lhs rhs
  if lt.isAny || rt.isAny then return .binary (typed line (failedType op)) op lhs rhs
  match operationType? op lt rt with
  | some ty => return .binary (typed line ty) op lhs (shiftDistance op rhs)
  | none =>
    report line (.operandTypes op.text lt rt)
    return .binary (typed line (failedType op)) op lhs rhs

/-- The type of an operation on one operand. -/
def unaryType? (op : UnaryOp) (ty : Ty) : Option Ty :=
  if ty.isAny then some .any
  else
    match op with
    | .neg | .plus => if ty.promoted.isNumeric then some ty.promoted else none
    | .bitNot => if ty.promoted.isIntegral then some ty.promoted else none
    | .not => if ty = .boolean then some .boolean else none

/-- An operation on one analyzed operand. -/
def unary (line : Nat) (op : UnaryOp) (operand : Expr) : Analysis Expr := do
  match unaryType? op operand.ty with
  | some ty => return .unary (typed line ty) op operand
  | none =>
    report line (.operandType op.text operand.ty)
    return .unary (typed line .any) op operand

/-- The literal that a minus before a numeral makes. -/
def negatedLiteral? : UnaryOp → Expr → Option Literal
  | .neg, .literal _ l => l.negated?
  | _, _ => none

/-- A step of an analyzed variable. -/
def step (line : Nat) (op : StepOp) (operand : Expr) : Analysis Expr := do
  let ty := operand.ty
  if !operand.isVariable then report line (.stepOperand op.text)
  else if !(ty = .int || ty = .long || ty = .double || ty.isAny) then
    report line (.operandType op.text ty)
  return .step (typed line ty) op operand

/-- A test of the class of a value. -/
def instanceOf (line : Nat) (operand : Expr) (target : Ty) : Analysis Expr := do
  let valid (ty : Ty) : Bool := ty.isReference || ty.isAny
  if !valid operand.ty || !valid target || operand.ty = .null then
    report line (.instanceOfOperands operand.ty target)
  return .instanceOf (typed line .boolean) operand target

/-- Whether a cast may succeed. -/
def castable (h : Hierarchy) (source target : Ty) : Bool :=
  source = target || source.isAny || target.isAny ||
  (source.isNumeric && target.isNumeric) ||
  (source.isReference && target.isReference &&
    (h.isAssignable source target || h.isAssignable target source ||
      h.isInterfaceType source || h.isInterfaceType target))

/-- A cast of an analyzed operand. -/
def castTo (line : Nat) (target : Ty) (operand : Expr) : Analysis Expr := do
  unless castable (← get).hierarchy operand.ty target do
    report line (.invalidCast operand.ty target)
  return convert target operand

/-- Whether a compound assignment fits its operands. The result is stored as it is, so the
variable is not a `char`. -/
def compoundFits (h : Hierarchy) (op : BinaryOp) (lt rt : Ty) : Bool :=
  if op = .add && lt = .string then rt ≠ .void
  else if lt = .char then false
  else if op.isArithmetic then lt.isNumeric && h.isAssignable rt lt
  else if op.isShift then lt.isIntegral && rt.promoted.isIntegral
  else lt.isIntegral && h.isAssignable rt lt

/-- An assignment to an analyzed variable. -/
def assign (line : Nat) (op : AssignOp) (lhs rhs : Expr) : Analysis Expr := do
  let lt := lhs.ty
  let rt := rhs.ty
  if !lhs.isVariable then
    unless lt.isAny do report line .illegalTarget
    return .assign (typed line .any) op lhs rhs
  if lt.isAny || rt.isAny then return .assign (typed line lt) op lhs rhs
  match op.binary? with
  | none => return .assign (typed line lt) op lhs (← coerce lt rhs)
  | some b =>
    if !compoundFits (← get).hierarchy b lt rt then
      report line (.operandTypes op.text lt rt)
      return .assign (typed line .any) op lhs rhs
    let rhs ←
      if b = .add && lt = .string then pure rhs
      else if b.isShift then pure (shiftDistance b rhs)
      else coerce lt rhs
    return .assign (typed line lt) op lhs rhs

/-- The type of a choice between two types that are not `any`. -/
def choiceType? (h : Hierarchy) (tt et : Ty) : Option Ty :=
  if tt = et then some tt
  else if tt.isPrimitive && tt.promoted = et.promoted then some tt.promoted
  else if h.isAssignable tt et then some et
  else if h.isAssignable et tt then some tt
  else none

/-- A choice between analyzed values. -/
def conditional (line : Nat) (test thenExpr elseExpr : Expr) : Analysis Expr := do
  let tt := thenExpr.ty
  let et := elseExpr.ty
  let failed := Expr.conditional (typed line .any) test thenExpr elseExpr
  if tt.isAny || et.isAny then return failed
  match choiceType? (← get).hierarchy tt et with
  | some ty =>
    let thenExpr ← coerce ty thenExpr
    let elseExpr ← coerce ty elseExpr
    return .conditional (typed line ty) test thenExpr elseExpr
  | none =>
    report line (.branchTypes tt et)
    return failed

/-! ## Arrays -/

/-- An element of an analyzed array. -/
def element (line : Nat) (array index : Expr) : Analysis Expr := do
  let ty ← match array.ty with
    | .array component => pure component
    | .any => pure .any
    | ty => do
      report line (.arrayRequired ty)
      pure .any
  return .element (typed line ty) array index

/-- The type of the elements of an array. Any other type is reported. -/
def componentType (line : Nat) : Ty → Analysis Ty
  | .array component => return component
  | .any => return .any
  | ty => do
    report line (.cannotInitialize ty)
    return .any

/-! ## Expressions -/

mutual

/-- Analyzes an expression in a role. -/
def expr (role : Role) : Expr → Analysis Expr
  | .literal n l => do role.settle (← literal n.line l)
  | .name n segments => do
    role.settle (← classify n.line segments (role matches .selected))
  | e@(.localVar ..) | e@(.typeName ..) | e@(.concat ..) => role.settle e
  | .thisRef n => do
    if (← get).isStatic then report n.line .thisInStatic
    role.settle (← thisRef n.line)
  | .superRef n => do role.settle (← superRef n.line)
  | .field n target name _ => do
    let target ← expr .selected target
    role.settle (← selectField n.line target name)
  | .arrayLength n array => do
    let array ← expr .value array
    role.settle (.arrayLength (typed n.line .int) array)
  | .element n array index => do
    let array ← expr .value array
    let index ← expr .index index
    role.settle (← element n.line array index)
  | .send n target name args _ => do
    let target ← optional target
    let args ← exprs .value args
    role.settle (← send n.line target name args)
  | .delegate n target args _ => do
    delegationAllowed n.line target
    let args ← exprs .value args
    role.settle (← delegate n.line target args)
  | .newObject n type args _ => do
    let type ← resolveType n.line type
    let args ← exprs .value args
    role.settle (← newObject n.line type args)
  | .newArray n type dims => do
    let type ← resolveType n.line type
    let dims ← exprs .index dims
    role.settle (.newArray (typed n.line type) type dims)
  | .arrayInit n type elements => do
    let type ← resolveType n.line (role.arrayType type)
    let component ← componentType n.line type
    let elements ← exprs (.initial component) elements
    role.settle (.arrayInit (typed n.line type) type elements)
  | .binary n op lhs rhs => do
    let lhs ← expr .value lhs
    let rhs ← expr .value rhs
    role.settle (← binary n.line op lhs rhs)
  | .instanceOf n operand target => do
    let operand ← expr .value operand
    let target ← resolveType n.line target
    role.settle (← instanceOf n.line operand target)
  | .unary n op operand => do
    match negatedLiteral? op operand with
    | some l => role.settle (← literal n.line l)
    | none =>
      let operand ← expr .value operand
      role.settle (← unary n.line op operand)
  | .step n op operand => do
    let operand ← expr .value operand
    role.settle (← step n.line op operand)
  | .cast n target operand => do
    let target ← resolveType n.line target
    let operand ← expr .value operand
    role.settle (← castTo n.line target operand)
  | .assign n op lhs rhs => do
    let lhs ← expr .value lhs
    let rhs ← expr .value rhs
    role.settle (← assign n.line op lhs rhs)
  | .conditional n test thenExpr elseExpr => do
    let test ← expr .condition test
    let thenExpr ← expr .value thenExpr
    let elseExpr ← expr .value elseExpr
    role.settle (← conditional n.line test thenExpr elseExpr)
  | .wild n => role.settle (unknown n.line)
termination_by structural e => e

/-- Analyzes a target, if there is one. -/
def optional : Option Expr → Analysis (Option Expr)
  | some e => do return some (← expr .selected e)
  | none => return none
termination_by structural e => e

/-- Analyzes expressions in order. -/
def exprs (role : Role) : List Expr → Analysis (List Expr)
  | e :: es => do
    let e ← expr role e
    let es ← exprs role es
    return e :: es
  | [] => return []
termination_by structural es => es

end

end JMinusMinus.Analysis
