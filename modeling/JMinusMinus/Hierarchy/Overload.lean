import JMinusMinus.Hierarchy.Basic

/-!
# Overload selection

A call selects among parameter lists. An exact match wins. Otherwise the applicable lists are
those of the right length to which every argument is assignable, and the call is to the only one
of them whose parameters are assignable to those of all the others.
-/

namespace JMinusMinus

inductive Selection (α : Type) where
  | found (x : α)
  | notFound
  /-- Several candidates and no best one. -/
  | ambiguous
deriving DecidableEq

def Selection.map {α β : Type} (f : α → β) : Selection α → Selection β
  | .found x => .found (f x)
  | .notFound => .notFound
  | .ambiguous => .ambiguous

def ctorName : String := "<init>"

namespace Hierarchy

/-- Whether types are assignable one by one, as far as both lists go. -/
def allAssignable (h : Hierarchy) (sources targets : List Ty) : Bool :=
  (sources.zip targets).all fun p => h.isAssignable p.1 p.2

def isApplicable (h : Hierarchy) (args params : List Ty) : Bool :=
  params.length = args.length && h.allAssignable args params

def select (h : Hierarchy) (candidates : List (List Ty)) (args : List Ty) : Selection (List Ty) :=
  if candidates.contains args then .found args
  else
    let applicable := candidates.filter (h.isApplicable args)
    match applicable with
    | [] => .notFound
    | [params] => .found params
    | _ =>
      match applicable.filter fun m => applicable.all fun n => h.allAssignable m n with
      | [params] => .found params
      | _ => .ambiguous

/-- The method that a call on a class selects, with the class that declares it. -/
def selectMethod (h : Hierarchy) (name method : String) (args : List Ty) :
    Selection (String × MethodHeader) :=
  let methods := h.findMethods name method
  match h.select (methods.map (·.2.params)) args with
  | .found params =>
    match methods.find? (·.2.params = params) with
    | some m => .found m
    | none => .notFound
  | .notFound => .notFound
  | .ambiguous => .ambiguous

/-- The constructor that a call selects, with its parameter types. -/
def selectCtor (h : Hierarchy) (name : String) (args : List Ty) :
    Selection (MethodRef × List Ty) :=
  match h.lookup name with
  | none => .notFound
  | some c => (h.select c.ctors args).map fun params =>
    (⟨name, ctorName, Ty.methodDescriptor params .void, .special⟩, params)

end Hierarchy

end JMinusMinus
