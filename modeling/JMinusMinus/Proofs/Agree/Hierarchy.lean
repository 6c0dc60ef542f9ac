import JMinusMinus.Analysis.Expr
import Mathlib

/-!
# Alike hierarchies

Two hierarchies are *alike* if they have the same header for every name and bound searches alike.
The order in which headers are declared is all that may differ. Whatever analysis and lowering
ask of a hierarchy has the same answer in one that is alike.
-/

namespace JMinusMinus

namespace Hierarchy

/-- Hierarchies with the same headers. -/
structure Alike (h k : Hierarchy) : Prop where
  lookup : k.lookup = h.lookup
  bound : k.searchBound = h.searchBound

theorem Alike.refl (h : Hierarchy) : h.Alike h := ⟨rfl, rfl⟩

theorem Alike.symm {h k : Hierarchy} (hk : h.Alike k) : k.Alike h := ⟨hk.lookup.symm, hk.bound.symm⟩

theorem Alike.trans {h k l : Hierarchy} (hk : h.Alike k) (hl : k.Alike l) : h.Alike l :=
  ⟨hl.lookup.trans hk.lookup, hl.bound.trans hk.bound⟩

namespace Alike

variable {h k : Hierarchy} (hk : h.Alike k)

include hk

/-! ## Classes -/

theorem contains : k.contains = h.contains := by
  funext name
  simp only [Hierarchy.contains, hk.lookup]

theorem isInterface : k.isInterface = h.isInterface := by
  funext name
  simp only [Hierarchy.isInterface, hk.lookup]

theorem isInterfaceType : k.isInterfaceType = h.isInterfaceType := by
  funext t
  cases t <;> simp only [Hierarchy.isInterfaceType, hk.isInterface]

theorem superclass? : k.superclass? = h.superclass? := by
  funext name
  simp only [Hierarchy.superclass?, hk.lookup]

theorem parents : k.parents = h.parents := by
  funext name
  simp only [Hierarchy.parents, hk.lookup]

theorem visit (n : Nat) : k.visit n = h.visit n := by
  induction n with
  | zero =>
    funext seen queue
    cases queue <;> rfl
  | succ n ih =>
    funext seen queue
    cases queue <;> simp only [Hierarchy.visit, ih, hk.parents]

theorem ancestors : k.ancestors = h.ancestors := by
  funext name
  simp only [Hierarchy.ancestors, hk.visit, hk.bound]

theorem chainMeets (name : String) (n : Nat) : k.chainMeets name n = h.chainMeets name n := by
  induction n with
  | zero => rfl
  | succ n ih =>
    funext seen next
    cases next <;> simp only [Hierarchy.chainMeets, ih, hk.superclass?]

theorem isCyclic : k.isCyclic = h.isCyclic := by
  funext name
  simp only [Hierarchy.isCyclic, hk.chainMeets, hk.superclass?, hk.bound]

/-! ## Assignability -/

theorem isSubclass : k.isSubclass = h.isSubclass := by
  funext sub sup
  simp only [Hierarchy.isSubclass, hk.ancestors]

theorem widens : k.widens = h.widens := by
  funext s t
  simp only [Hierarchy.widens, hk.isSubclass]

theorem isAssignable : k.isAssignable = h.isAssignable := by
  funext s t
  induction s generalizing t with
  | array a ih => cases t <;> simp only [Hierarchy.isAssignable, hk.widens, ih]
  | _ => simp only [Hierarchy.isAssignable, hk.widens]

theorem castable : Analysis.castable k = Analysis.castable h := by
  funext s t
  simp only [Analysis.castable, hk.isAssignable, hk.isInterfaceType]

theorem compoundFits : Analysis.compoundFits k = Analysis.compoundFits h := by
  funext op lt rt
  simp only [Analysis.compoundFits, hk.isAssignable]

theorem choiceType? : Analysis.choiceType? k = Analysis.choiceType? h := by
  funext tt et
  simp only [Analysis.choiceType?, hk.isAssignable]

/-! ## Members -/

theorem findField : k.findField = h.findField := by
  funext name field
  simp only [Hierarchy.findField, hk.ancestors, hk.lookup]

theorem inheritedMethods : k.inheritedMethods = h.inheritedMethods := by
  funext name
  simp only [Hierarchy.inheritedMethods, hk.ancestors, hk.lookup]

theorem findMethods : k.findMethods = h.findMethods := by
  funext name method
  simp only [Hierarchy.findMethods, hk.inheritedMethods]

theorem unimplemented : k.unimplemented = h.unimplemented := by
  funext name
  simp only [Hierarchy.unimplemented, hk.inheritedMethods]

theorem allAssignable : k.allAssignable = h.allAssignable := by
  funext sources targets
  simp only [Hierarchy.allAssignable, hk.isAssignable]

theorem isApplicable : k.isApplicable = h.isApplicable := by
  funext args params
  simp only [Hierarchy.isApplicable, hk.allAssignable]

theorem select : k.select = h.select := by
  funext candidates args
  simp only [Hierarchy.select, hk.isApplicable, hk.allAssignable]

theorem selectMethod : k.selectMethod = h.selectMethod := by
  funext name method args
  simp only [Hierarchy.selectMethod, hk.findMethods, hk.select]

theorem selectCtor : k.selectCtor = h.selectCtor := by
  funext name args
  simp only [Hierarchy.selectCtor, hk.lookup, hk.select]

theorem invocation : Analysis.invocation k = Analysis.invocation h := by
  funext owner m isSuper
  simp only [Analysis.invocation, hk.isInterface]

end Alike

end Hierarchy

end JMinusMinus
