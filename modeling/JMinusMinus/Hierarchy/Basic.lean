import JMinusMinus.Hierarchy.Builtin

/-!
# The class hierarchy

A hierarchy holds the headers that a unit declares, on top of the built-in classes. A declared
header hides a built-in one of the same name. Parents may be unknown names and inheritance may
be cyclic, as long as the unit is not checked.

* `ancestors` lists a class and everything it inherits from, breadth first: a class before its
  superclass, that before the interfaces, and nearer ones before farther ones. The root class
  ends the list unless it came earlier.
* `isAssignable` says which values may be stored where.
* Members are looked up along the ancestors. The first field of a name wins, and the first
  method of a name and a parameter list.

Searches are structural in a bound. A search takes a name off its queue at most once for every
parent that some header lists, and once for its start.
-/

namespace JMinusMinus

/-- The headers a unit declares, each name once. -/
structure Hierarchy where
  declared : List ClassHeader := []

namespace Hierarchy

/-! ## Headers -/

/-- Adds a header, in place of one of the same name. -/
def declare (h : Hierarchy) (c : ClassHeader) : Hierarchy :=
  if h.declared.any (·.name = c.name) then
    ⟨h.declared.map fun d => if d.name = c.name then c else d⟩
  else ⟨h.declared ++ [c]⟩

def declared? (h : Hierarchy) (name : String) : Option ClassHeader :=
  h.declared.find? (·.name = name)

def lookup (h : Hierarchy) (name : String) : Option ClassHeader :=
  (h.declared? name).or (Builtin.classes.find? (·.name = name))

def contains (h : Hierarchy) (name : String) : Bool := (h.lookup name).isSome

def isDeclared (h : Hierarchy) (name : String) : Bool := (h.declared? name).isSome

def setSuperclass (h : Hierarchy) (name : String) (superclass : Option String) : Hierarchy :=
  ⟨h.declared.map fun c => if c.name = name then { c with superclass } else c⟩

def isInterface (h : Hierarchy) (name : String) : Bool :=
  ((h.lookup name).map ClassHeader.isInterface).getD false

def superclass? (h : Hierarchy) (name : String) : Option String :=
  (h.lookup name).bind ClassHeader.superclass

def parents (h : Hierarchy) (name : String) : List String :=
  ((h.lookup name).map ClassHeader.parents).getD []

/-! ## Ancestors -/

def searchBound (h : Hierarchy) : Nat :=
  (h.declared ++ Builtin.classes).foldr (fun c n => c.parents.length + 1 + n) 1

/-- The names a breadth-first search meets, in the order it meets them. -/
def visit (h : Hierarchy) : Nat → List String → List String → List String
  | bound + 1, seen, name :: queue =>
    if seen.contains name then h.visit bound seen queue
    else h.visit bound (seen ++ [name]) (queue ++ h.parents name)
  | _, seen, _ => seen

/-- A name and everything it inherits from, each once, the root class at the latest at the end. -/
def ancestors (h : Hierarchy) (name : String) : List String :=
  let order := h.visit h.searchBound [] [name]
  if order.contains objectClass then order else order ++ [objectClass]

/-- Whether a superclass chain meets a name before it ends or repeats itself. -/
def chainMeets (h : Hierarchy) (name : String) : Nat → List String → Option String → Bool
  | bound + 1, seen, some next =>
    if next = name then true
    else if seen.contains next then false
    else h.chainMeets name bound (next :: seen) (h.superclass? next)
  | _, _, _ => false

def isCyclic (h : Hierarchy) (name : String) : Bool :=
  h.chainMeets name h.searchBound [] (h.superclass? name)

/-- Whether one class is another or inherits from it. -/
def isSubclass (h : Hierarchy) (sub sup : String) : Bool :=
  sub = sup || (h.ancestors sub).contains sup

/-! ## Assignability -/

/-- Conversions between different types that are not both arrays. -/
def widens (h : Hierarchy) : Ty → Ty → Bool
  | .char, .int | .char, .long | .char, .double => true
  | .int, .long | .int, .double => true
  | .long, .double => true
  | .null, target => target.isReference
  | source, .named name =>
    if name = objectClass then source.isReference
    else
      match source with
      | .string => h.isSubclass stringClass name
      | .named sub => h.isSubclass sub name
      | _ => false
  | _, _ => false

/-- Whether a value of one type may be stored where another is expected. -/
def isAssignable (h : Hierarchy) : Ty → Ty → Bool
  | .array a, .array b =>
    if a.isPrimitive || b.isPrimitive then a = b else h.isAssignable a b
  | source, target => source = target || source.isAny || target.isAny || h.widens source target

def isInterfaceType (h : Hierarchy) : Ty → Bool
  | .named name => h.isInterface name
  | _ => false

/-! ## Members -/

/-- The first field of a name along the ancestors, with the class that declares it. -/
def findField (h : Hierarchy) (name field : String) : Option (String × FieldHeader) :=
  (h.ancestors name).findSome? fun owner => do
    let f ← (← h.lookup owner).field? field
    return (owner, f)

/-- Every method along the ancestors, with the class that declares it. -/
def inheritedMethods (h : Hierarchy) (name : String) : List (String × MethodHeader) :=
  (h.ancestors name).flatMap fun owner =>
    (((h.lookup owner).map ClassHeader.methods).getD []).map fun m => (owner, m)

/-- Items whose key did not come earlier. -/
def firstByKey {α κ : Type} [DecidableEq κ] (key : α → κ) (items : List α) : List α :=
  items.foldl (fun found x => if found.any (key · = key x) then found else found ++ [x]) []

/-- The visible methods of a name: of those with the same parameters, the first. -/
def findMethods (h : Hierarchy) (name method : String) : List (String × MethodHeader) :=
  firstByKey (·.2.params) ((h.inheritedMethods name).filter (·.2.name = method))

/-- The abstract methods along the ancestors that no method there implements. -/
def unimplemented (h : Hierarchy) (name : String) : List (String × MethodHeader) :=
  let methods := h.inheritedMethods name
  let concrete := (methods.filter fun m => !m.2.isAbstract).map (·.2.key)
  firstByKey (·.2.key) (methods.filter fun m => m.2.isAbstract && !concrete.contains m.2.key)

end Hierarchy

end JMinusMinus
