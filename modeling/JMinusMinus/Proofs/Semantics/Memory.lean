import JMinusMinus.Proofs.Semantics.Value
import JMinusMinus.Tree.Expr

/-!
# Memory and run time

What a program shares with the rest of the world. The *memory* has the static fields, the fields
of objects and the elements of arrays, all as values, and a part that is left open. Fields are
named the way instructions name them.

The *run time* does what no code of the method does: it runs other methods, creates objects, and
decides which class an object has. Nothing is assumed of it. A call may change the memory in any
way, throw, or not return.

Instructions act on the memory by the operations here.
-/

namespace JMinusMinus

/-- A field, by the class that declares it, its name and its descriptor. -/
structure FieldKey where
  owner : String
  name : String
  descriptor : String
deriving DecidableEq

/-- The memory, with an open part. -/
structure Memory (W : Type) where
  statics : FieldKey → Option Value
  /-- The fields of objects. -/
  fields : Ref → FieldKey → Option Value
  arrays : Ref → Option (List Value)
  world : W

/-- What an action on the memory comes to: it may not end, and it may throw. -/
abbrev MemoryResult (W α : Type) : Type := Option (Except Ref α × Memory W)

/-- What stands on the stack or in a slot. -/
inductive Word where
  | int (value : BitVec 32)
  | long (value : BitVec 64)
  | double (value : Binary64)
  | ref (value : Option Ref)
deriving DecidableEq

/-- A value as it stands on the stack. -/
def Value.words : Value → List Word
  | int v => [.int v]
  | long v => [.long v]
  | double v => [.double v]
  | char v => [.int (v.setWidth 32)]
  | boolean v => [.int (if v then 1 else 0)]
  | ref v => [.ref v]
  | nothing => []

/-- The value of a kind that a word is. -/
def Value.ofWord? : ValueKind → Word → Option Value
  | .int, .int v => some (.int v)
  | .long, .long v => some (.long v)
  | .double, .double v => some (.double v)
  | .char, .int v => some (.char (v.setWidth 16))
  | .boolean, .int v => some (.boolean (v.getLsbD 0))
  | .ref, .ref v => some (.ref v)
  | _, _ => none

/-- What an array holds. -/
inductive ArrayKind where
  /-- Of a primitive type, by its code. -/
  | primitive (code : Int)
  /-- Of references, by the name of their type. -/
  | references (component : String)
  /-- Of arrays, by its descriptor. -/
  | nested (descriptor : String)
deriving DecidableEq

/-- What the code of a method runs on. -/
structure Runtime (W : Type) where
  doubles : Doubles
  /-- What a trap throws. -/
  trap : Trap → Memory W → Ref × Memory W
  /-- The object of a string literal. -/
  string : String → Ref
  /-- Whether an object is an instance of a class. -/
  isInstance : Memory W → Ref → String → Bool
  /-- Whether an array can hold an object. -/
  canHold : Memory W → Ref → Ref → Bool
  /-- Runs a method by its owner, name and descriptor, on a receiver if it has one and
  arguments. -/
  invoke : InvokeKind → String → String → String → List Word → Memory W →
    MemoryResult W (Option Word)
  allocate : String → Memory W → MemoryResult W Ref
  newArray : ArrayKind → List (BitVec 32) → Memory W → MemoryResult W Ref

namespace Runtime

variable {W : Type} (rt : Runtime W)

/-- An action that leaves the memory as it is, or runs into a trap. -/
def orTrap {α : Type} (m : Memory W) : Except Trap α → Except Ref α × Memory W
  | .ok a => (.ok a, m)
  | .error t => (.error (rt.trap t m).1, (rt.trap t m).2)

/-- Reads a static field. -/
def getStatic (k : FieldKey) (m : Memory W) : MemoryResult W Value :=
  (m.statics k).map fun v => (.ok v, m)

/-- Writes a static field. -/
def setStatic (k : FieldKey) (v : Value) (m : Memory W) : MemoryResult W Unit :=
  some (.ok (), { m with statics := fun k' => if k' = k then some v else m.statics k' })

/-- Reads a field of an object, which must be there. -/
def getField (k : FieldKey) (o : Option Ref) (m : Memory W) : MemoryResult W Value :=
  match o with
  | some r => (m.fields r k).map fun v => (.ok v, m)
  | none => some (rt.orTrap m (.error .nullReference))

/-- Writes a field of an object, which must be there. -/
def setField (k : FieldKey) (o : Option Ref) (v : Value) (m : Memory W) : MemoryResult W Unit :=
  match o with
  | some r =>
    let fields r' k' := if r' = r ∧ k' = k then some v else m.fields r' k'
    some (.ok (), { m with fields })
  | none => some (rt.orTrap m (.error .nullReference))

/-- An action on the elements of an array. -/
def withArray {α : Type} (o : Option Ref) (m : Memory W)
    (f : Ref → List Value → MemoryResult W α) : MemoryResult W α :=
  match o with
  | some r => (m.arrays r).bind (f r)
  | none => some (rt.orTrap m (.error .nullReference))

/-- The length of an array, which must be there. -/
def arrayLength (o : Option Ref) (m : Memory W) : MemoryResult W (BitVec 32) :=
  rt.withArray o m fun _ vs => some (.ok (BitVec.ofNat 32 vs.length), m)

/-- Whether an index is in bounds. -/
def hasIndex (vs : List Value) (i : BitVec 32) : Bool := 0 ≤ i.toInt && i.toInt < vs.length

/-- Reads an element at an index in bounds. -/
def getElement (o : Option Ref) (i : BitVec 32) (m : Memory W) : MemoryResult W Value :=
  rt.withArray o m fun _ vs =>
    if hasIndex vs i then (vs[i.toNat]?).map fun v => (.ok v, m)
    else some (rt.orTrap m (.error .indexBounds))

/-- Whether an array may hold a value. -/
def holds (m : Memory W) (array : Ref) : Value → Bool
  | .ref (some r) => rt.canHold m array r
  | _ => true

/-- Writes an element that the array may hold at an index in bounds. -/
def setElement (o : Option Ref) (i : BitVec 32) (v : Value) (m : Memory W) : MemoryResult W Unit :=
  rt.withArray o m fun r vs =>
    if hasIndex vs i then
      if rt.holds m r v then
        let arrays r' := if r' = r then some (vs.set i.toNat v) else m.arrays r'
        some (.ok (), { m with arrays })
      else some (rt.orTrap m (.error .arrayStore))
    else some (rt.orTrap m (.error .indexBounds))

/-- Demands that an object, if there is one, is an instance of a class. -/
def checkCast (type : String) (o : Option Ref) (m : Memory W) : MemoryResult W Unit :=
  match o with
  | some r =>
    if rt.isInstance m r type then some (.ok (), m)
    else some (rt.orTrap m (.error .classCast))
  | none => some (.ok (), m)

/-- Whether there is an object that is an instance of a class. -/
def instanceTest (type : String) (o : Option Ref) (m : Memory W) : Bool :=
  match o with
  | some r => rt.isInstance m r type
  | none => false

/-- The object that is thrown for a reference. -/
def thrown (o : Option Ref) (m : Memory W) : Ref × Memory W :=
  match o with
  | some r => (r, m)
  | none => rt.trap .nullReference m

end Runtime

end JMinusMinus
