import JMinusMinus.Hierarchy.Overload

/-!
# The context of analysis

What analysis knows at a point of a unit: the hierarchy, the names that are bound, the class and
the method around the point, and the scopes of local variables, innermost first.

* A simple name means the type of the unit or of an import that is bound to it, else the class
  of `java.lang` of that name.
* Slots are given in the order of declaration and never given back inside a method. An instance
  method keeps slot zero for its object.
* A local variable may not have the name of another one in scope, whatever the scope.

Analysis never stops at a problem. It stops only where slots can no longer be counted.
-/

namespace JMinusMinus

/-- A variable in scope. -/
structure LocalVar where
  name : String
  ty : Ty
  slot : Nat
deriving DecidableEq

/-- The latest variable of a name. -/
def LocalVar.find? (name : String) : List LocalVar → Option LocalVar
  | [] => none
  | v :: vs => if v.name = name then some v else find? name vs

/-- What is known of the method around. -/
structure MethodScope where
  isStatic : Bool
  isCtor : Bool
  result : Ty
  /-- The first slot that is not given yet. -/
  nextSlot : Nat
deriving DecidableEq

/-- A statement that `break` may leave. `continue` needs a loop. -/
inductive JumpTarget where
  | loop | switch
deriving DecidableEq

/-- What analysis knows at a point of the unit. -/
structure Context where
  hierarchy : Hierarchy := {}
  log : Log Problem := {}
  package : Option String := none
  /-- Simple names with the internal names they are bound to. -/
  names : List (String × String) := []
  className : Option String := none
  method : Option MethodScope := none
  /-- Variables by scope, innermost scope and latest variable first. -/
  scopes : List (List LocalVar) := []
  /-- Loops and switches around the point, innermost first. -/
  jumps : List JumpTarget := []
  /-- Whether a constructor may call another one here. -/
  mayDelegate : Bool := false

namespace Context

/-- The internal name that a type declared in the unit gets. -/
def qualify (c : Context) (simple : String) : String :=
  match c.package with
  | some package => slashed package ++ "/" ++ simple
  | none => simple

/-- The class that a simple name is bound to. -/
def known? (c : Context) (name : String) : Option String :=
  if c.hierarchy.contains name then some name else none

/-- The class that a written name stands for. -/
def resolveClass? (c : Context) (name : String) : Option String :=
  if name.toList.contains '/' then c.known? name
  else if name.toList.contains '.' then c.known? (slashed name)
  else (c.names.lookup name).or (c.known? ("java/lang/" ++ name))

/-- The type of the current object. -/
def classType (c : Context) : Ty := (c.className.map Ty.ofClass).getD .any

/-- The superclass of the class around. -/
def superclass? (c : Context) : Option String := c.className.bind c.hierarchy.superclass?

/-- Whether there is no current object. -/
def isStatic (c : Context) : Bool := (c.method.map MethodScope.isStatic).getD false

/-- The variable that a name stands for, innermost scope first. -/
def local? (c : Context) (name : String) : Option LocalVar :=
  c.scopes.findSome? (LocalVar.find? name)

/-- Whether something around can be left. -/
def canBreak (c : Context) : Bool := !c.jumps.isEmpty

/-- Whether a loop around can be continued. -/
def canContinue (c : Context) : Bool := c.jumps.contains .loop

end Context

/-- A step of analysis: it changes the context, or stops with a fault. -/
abbrev Analysis := StateT Context (Except Fault)

namespace Analysis

/-- Adds a problem to the log. -/
def report (line : Nat) (problem : SemanticProblem) : Analysis Unit :=
  modify fun c => { c with log := c.log.add line (.semantic problem) }

/-! ## Names and types -/

/-- Binds a simple name. The answer is `false` if it is bound to something else. -/
def bindName (simple internal : String) : Analysis Bool := do
  match (← get).names.lookup simple with
  | some bound => return bound == internal
  | none =>
    modify fun c => { c with names := (simple, internal) :: c.names }
    return true

/-- A written type with its names resolved. An unknown name is reported and makes it `any`. -/
def resolveType (line : Nat) : Ty → Analysis Ty
  | .named name => do
    match (← get).resolveClass? name with
    | some internal => return Ty.ofClass internal
    | none =>
      report line (.typeUnknown name)
      return .any
  | .array component => do
    match ← resolveType line component with
    | .any => return .any
    | resolved => return .array resolved
  | ty => return ty

/-! ## Classes and methods -/

/-- Goes into a class. -/
def enterClass (internal : String) : Analysis Unit :=
  modify fun c => { c with className := some internal }

/-- Comes out of a class. -/
def leaveClass : Analysis Unit := modify fun c => { c with className := none }

/-- Goes into a method, with one empty scope. -/
def enterMethod (isStatic isCtor : Bool) (result : Ty) : Analysis Unit :=
  modify fun c => { c with
    method := some ⟨isStatic, isCtor, result, if isStatic then 0 else 1⟩
    scopes := [[]]
    jumps := [] }

/-- Leaves the method; the answer is the number of slots it uses. -/
def leaveMethod : Analysis Nat := do
  let slots := ((← get).method.map MethodScope.nextSlot).getD 0
  modify fun c => { c with method := none, scopes := [] }
  return slots

/-! ## Scopes -/

/-- Opens a scope. -/
def pushScope : Analysis Unit := modify fun c => { c with scopes := [] :: c.scopes }

/-- Closes the innermost scope. -/
def popScope : Analysis Unit := modify fun c => { c with scopes := c.scopes.tail }

/-- A variable added to the innermost scope, if there is one. -/
def addLocal (v : LocalVar) : List (List LocalVar) → List (List LocalVar)
  | scope :: scopes => (v :: scope) :: scopes
  | [] => []

/-- Declares a variable in the innermost scope; the answer is its slot. -/
def declareLocal (line : Nat) (name : String) (ty : Ty) : Analysis Nat := do
  if ((← get).local? name).isSome then report line (.redefined name)
  let c ← get
  match c.method with
  | some m =>
    let nextSlot ← addSlots m.nextSlot ty.slots
    set { c with
      method := some { m with nextSlot }
      scopes := addLocal ⟨name, ty, m.nextSlot⟩ c.scopes }
    return m.nextSlot
  | none => return 0

/-! ## Jumps -/

/-- Goes into a loop or switch. -/
def enterJump (target : JumpTarget) : Analysis Unit :=
  modify fun c => { c with jumps := target :: c.jumps }

/-- Comes out of a loop or switch. -/
def leaveJump : Analysis Unit := modify fun c => { c with jumps := c.jumps.tail }

end Analysis

end JMinusMinus
