import JMinusMinus.Proofs.Scope.Expr

/-!
# Clean expressions

A local variable in what analysis makes of a written expression is one of those in scope, and its
literals can be read as before (`Expr.Clean`).
-/

namespace JMinusMinus

variable {name : String}

/-! ## Clean trees -/

namespace Expr

/-- A node that is no local variable out of scope and no literal that cannot be read. -/
def NodeClean (scopes : List (List LocalVar)) : Expr → Prop
  | .localVar _ _ slot => ∃ scope ∈ scopes, ∃ v ∈ scope, v.slot = slot
  | .literal _ l => l.IsReadable
  | _ => True

/-- The variables of the expression are in scope and its literals can be read. -/
def Clean (scopes : List (List LocalVar)) (e : Expr) : Prop := ∀ x ∈ e.nodes, x.NodeClean scopes

variable {scopes : List (List LocalVar)}

theorem clean_iff {e : Expr} :
    e.Clean scopes ↔ e.NodeClean scopes ∧ ∀ c ∈ e.children, c.Clean scopes :=
  forall_nodes_iff

theorem Clean.node {e : Expr} (hnode : e.NodeClean scopes)
    (hchildren : ∀ c ∈ e.children, c.Clean scopes) : e.Clean scopes :=
  clean_iff.2 ⟨hnode, hchildren⟩

end Expr

namespace Analysis

variable {scopes : List (List LocalVar)}

/-! ## Expressions -/

theorem mem_of_find? : ∀ {vs}, LocalVar.find? name vs = some v → v ∈ vs
  | u :: vs, h => by
    unfold LocalVar.find? at h
    split at h
    · cases h
      exact List.mem_cons_self
    · exact List.mem_cons_of_mem _ (mem_of_find? h)

theorem Selected.clean {base e : Expr} {k : Nat} (h : Selected base k e)
    (hbase : base.Clean scopes) : e.Clean scopes := by
  induction h with
  | base => exact hbase
  | field | arrayLength => exact .node trivial (by simpa [Expr.children])

theorem Converts.clean (h : Converts e e') (he : e.Clean scopes) : e'.Clean scopes := by
  rcases h with rfl | ⟨t, rfl⟩
  · exact he
  · exact .node trivial (by simpa [convert, Expr.children] using he)

theorem isOuter_clean (h : isOuter e) : e.Clean scopes := by
  cases e with
  | thisRef | typeName | wild => exact .node trivial nofun
  | _ => cases h

theorem Made.clean {look : String → Option LocalVar}
    (hlook : ∀ x v, look x = some v → ∃ scope ∈ scopes, v ∈ scope) {placed : Bool}
    (h : Made look e m) (hwritten : e.Written placed) : m.Clean scopes := by
  induction e using Expr.childrenInduction generalizing m placed with
  | step e ih =>
    cases h with
    | name hnamed =>
      cases hnamed with
      | declared hv he =>
        obtain ⟨scope, hscope, hmem⟩ := hlook _ _ hv
        exact he.clean (.node ⟨scope, hscope, _, hmem, rfl⟩ nofun)
      | other _ hbase _ he => exact he.clean (isOuter_clean hbase)
    | literal => exact .node hwritten nofun
    | negated hneg => exact .node (Literal.isReadable_of_negated? hneg) nofun
    | thisRef | superRef | wild => exact .node trivial nofun
    | raw hraw =>
      cases e with
      | localVar | typeName | concat => cases hwritten
      | _ => cases hraw
    | node hinner hmade hparts hfront hchildren =>
      have hnode : m.NodeClean scopes := by cases m <;> trivial
      refine .node hnode fun c hc => ?_
      rw [hchildren] at hc
      rcases List.mem_append.1 hc with hc | hc
      · rcases hfront with rfl | ⟨n, rfl⟩
        · cases hc
        · obtain rfl := List.mem_singleton.1 hc
          exact .node trivial nofun
      · obtain ⟨mid, hmid, hconverts⟩ := exists_of_mem_forall₂ hparts hc
        obtain ⟨w, hw, hmade⟩ := exists_of_mem_forall₂ hmade hmid
        obtain ⟨_, hwritten⟩ := hwritten.child hw
        exact hconverts.clean (ih w hw hmade hwritten)

theorem expr_clean {e : Expr} {placed : Bool} (h : e.Written placed)
    (hrun : expr role e c = .ok (e', c')) : e'.Clean c.scopes := by
  obtain ⟨-, m, hm, hsettles⟩ := (expr_elabs role e placed).of_run hrun
  refine hsettles.converts.clean (hm.1.clean (fun x v hv => ?_) h)
  obtain ⟨scope, hscope, hfind⟩ := List.exists_of_findSome?_eq_some hv
  exact ⟨scope, hscope, mem_of_find? hfind⟩

end Analysis

end JMinusMinus
