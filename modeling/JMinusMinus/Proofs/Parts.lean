import JMinusMinus.Proofs.Settled.Unit

/-!
# Parts of a unit

Which statements and which expressions stand in a unit, at any depth. The constant of a label of a
switch is not among the expressions, since no code computes it.

In a settled unit every part is settled in the frame of the member around it
(`Analyzed.Settled.stmt`, `Analyzed.Settled.expr`).
-/

namespace JMinusMinus

/-! ## Statements -/

namespace Stmt

/-- The statements right below a statement. -/
def children : Stmt → List Stmt
  | blockStmt body => body.stmts
  | ifStmt _ _ thenBranch elseBranch => thenBranch :: elseBranch.toList
  | whileStmt _ _ body | doStmt _ body _ => [body]
  | forStmt _ init _ update body => init ++ update ++ [body]
  | switchStmt _ _ groups => groups.flatMap SwitchGroup.stmts
  | tryStmt _ body catches final =>
    body.stmts ++ catches.flatMap (·.body.stmts) ++ final.toList.flatMap Block.stmts
  | _ => []

/-- The expressions right below a statement. -/
def exprs : Stmt → List Expr
  | ifStmt _ test _ _ | whileStmt _ test _ | doStmt _ _ test => [test]
  | forStmt _ _ test _ _ => test.toList
  | switchStmt _ value _ => [value]
  | throwStmt _ e | exprStmt _ e => [e]
  | returnStmt _ value => value.toList
  | localsStmt _ vars => vars.filterMap Declarator.init
  | _ => []

/-- The labels of a switch. -/
def labels : Stmt → List SwitchLabel
  | switchStmt _ _ groups => groups.flatMap SwitchGroup.labels
  | _ => []

/-- A statement and those below it at any depth. -/
inductive Part (s : Stmt) : Stmt → Prop
  | self : Part s s
  | child {t c : Stmt} : Part s t → c ∈ t.children → Part s c

/-! ## Heads of loops -/

/-- A statement whose loops have only expressions and declarations in their heads. -/
def Plain (s : Stmt) : Prop :=
  ∀ line init test update body, s.Part (.forStmt line init test update body) →
    ∀ t ∈ init ++ update, t.isSimple

theorem Part.of_child {s : Stmt} (hc : c ∈ s.children) (h : c.Part t) : s.Part t := by
  induction h with
  | self => exact .child .self hc
  | child _ ht ih => exact .child ih ht

theorem Part.eq_or_child {s : Stmt} (h : s.Part t) : t = s ∨ ∃ c ∈ s.children, c.Part t := by
  induction h with
  | self => exact .inl rfl
  | child _ hc ih =>
    rcases ih with rfl | ⟨d, hd, hpart⟩
    · exact .inr ⟨_, hc, .self⟩
    · exact .inr ⟨d, hd, .child hpart hc⟩

theorem Plain.child {s c : Stmt} (h : s.Plain) (hc : c ∈ s.children) : c.Plain :=
  fun line init test update body hpart => h line init test update body (hpart.of_child hc)

theorem Plain.of_children {s : Stmt} (hchildren : ∀ c ∈ s.children, c.Plain)
    (hhead : ∀ line init test update body, s = .forStmt line init test update body →
      ∀ t ∈ init ++ update, t.isSimple) : s.Plain := by
  intro line init test update body hpart
  rcases hpart.eq_or_child with heq | ⟨c, hc, hpart⟩
  · exact hhead line init test update body heq.symm
  · exact hchildren c hc line init test update body hpart

end Stmt

/-- Statements with plain loops. -/
def StmtsPlain (ss : List Stmt) : Prop := ∀ s ∈ ss, s.Plain

/-! ## Units -/

/-- What a member returns and its statements, if it has any. -/
def Member.body? : Member → Option (Ty × Block Stmt)
  | .ctor c => some (.void, c.body)
  | .method m => m.body.map fun body => (m.result, body)
  | .field _ => none

/-- The first values of a member. -/
def Member.inits : Member → List Expr
  | .field f => f.vars.filterMap Declarator.init
  | _ => []

/-- Whether a member belongs to its class as such. -/
def Member.isStatic : Member → Bool
  | .ctor _ => false
  | .method m => Analysis.isStatic m.modifiers
  | .field f => Analysis.isStatic f.modifiers

/-- A statement in the body of a member, at any depth, with the result type of the member. -/
def Member.HasStmt (m : Member) (result : Ty) (s : Stmt) : Prop :=
  ∃ body, m.body? = some (result, body) ∧ ∃ root ∈ body.stmts, root.Part s

/-- An expression of a member, also one of a label. -/
def Member.Holds (m : Member) (e : Expr) : Prop :=
  (∃ result s, m.HasStmt result s ∧
    ((∃ root ∈ s.exprs, e ∈ root.nodes) ∨ ∃ root, .case root ∈ s.labels ∧ e ∈ root.nodes)) ∨
    ∃ root ∈ m.inits, e ∈ root.nodes

/-- The members of all classes. -/
def CompilationUnit.members (u : CompilationUnit) : List Member :=
  u.types.flatMap fun
    | .classDecl d => d.members
    | .interfaceDecl _ => []

/-- A statement in a body of the unit, at any depth. -/
def CompilationUnit.HasStmt (u : CompilationUnit) (result : Ty) (s : Stmt) : Prop :=
  ∃ m ∈ u.members, ∃ body, m.body? = some (result, body) ∧ ∃ root ∈ body.stmts, root.Part s

/-- An expression of the unit: part of a statement or of the first value of a field. -/
def CompilationUnit.HasExpr (u : CompilationUnit) (e : Expr) : Prop :=
  (∃ result s, u.HasStmt result s ∧ ∃ root ∈ s.exprs, e ∈ root.nodes) ∨
    ∃ m ∈ u.members, ∃ root ∈ m.inits, e ∈ root.nodes

/-! ## Parts of settled trees -/

variable {fr : Frame} {jumps : List JumpTarget}

theorem Expr.Settled.of_mem_nodes {e : Expr} (h : e.Settled fr) (hx : x ∈ e.nodes) :
    x.Settled fr := by
  induction e using Expr.childrenInduction with
  | step e ih =>
    rcases List.mem_cons.1 hx with rfl | hx
    · exact h
    · rw [Expr.descendants_eq] at hx
      obtain ⟨c, hc, hx⟩ := List.mem_flatMap.1 hx
      exact ih c hc ((Expr.settled_iff.1 h).2 c hc) hx

theorem StmtsSettled.mem : ∀ {ss}, StmtsSettled fr jumps ss → ∀ s ∈ ss, s.Settled fr jumps
  | _ :: _, h, s, hs => by
    rcases List.mem_cons.1 hs with rfl | hs
    · exact h.1
    · exact StmtsSettled.mem h.2 s hs

theorem BlockSettled.stmts : ∀ {b}, BlockSettled fr jumps b → StmtsSettled fr jumps b.stmts
  | ⟨_, _⟩, h => h

theorem BlockSettled.mem (h : BlockSettled fr jumps b) : ∀ s ∈ b.stmts, s.Settled fr jumps :=
  h.stmts.mem

theorem GroupsSettled.mem :
    ∀ {gs}, GroupsSettled fr jumps gs → ∀ g ∈ gs, ∀ s ∈ g.stmts, s.Settled fr jumps
  | ⟨_, _⟩ :: _, h, g, hg => by
    rcases List.mem_cons.1 hg with rfl | hg
    · exact StmtsSettled.mem h.1
    · exact GroupsSettled.mem h.2 g hg

theorem CatchesSettled.mem :
    ∀ {cs}, CatchesSettled fr jumps cs → ∀ c ∈ cs, ∀ s ∈ c.body.stmts, s.Settled fr jumps
  | ⟨_, _, _⟩ :: _, h, c, hc => by
    rcases List.mem_cons.1 hc with rfl | hc
    · exact BlockSettled.mem h.1.2
    · exact CatchesSettled.mem h.2 c hc

theorem Stmt.Settled.child {s c : Stmt} (h : s.Settled fr jumps) (hc : c ∈ s.children) :
    ∃ jumps, c.Settled fr jumps := by
  cases s with
  | blockStmt body => exact ⟨_, BlockSettled.mem h c hc⟩
  | ifStmt line test thenBranch elseBranch =>
    obtain ⟨-, hthen, helse⟩ := h
    rcases List.mem_cons.1 hc with rfl | hc
    · exact ⟨_, hthen⟩
    · obtain rfl := Option.mem_toList.1 hc
      exact ⟨_, helse⟩
  | whileStmt line test body =>
    obtain rfl := List.mem_singleton.1 hc
    exact ⟨_, h.2⟩
  | doStmt line body test =>
    obtain rfl := List.mem_singleton.1 hc
    exact ⟨_, h.1⟩
  | forStmt line init test update body =>
    obtain ⟨hinit, -, hupdate, hbody⟩ := h
    simp only [Stmt.children, List.mem_append, List.mem_singleton] at hc
    rcases hc with (hc | hc) | rfl
    · exact ⟨_, hinit.mem c hc⟩
    · exact ⟨_, hupdate.mem c hc⟩
    · exact ⟨_, hbody⟩
  | switchStmt line value groups =>
    obtain ⟨g, hg, hc⟩ := List.mem_flatMap.1 hc
    exact ⟨_, GroupsSettled.mem h.2.2.2 g hg c hc⟩
  | tryStmt line body catches final =>
    obtain ⟨hbody, hcatches, hfinal⟩ := h
    simp only [Stmt.children, List.mem_append, List.mem_flatMap] at hc
    rcases hc with (hc | ⟨clause, hclause, hc⟩) | ⟨b, hb, hc⟩
    · exact ⟨_, BlockSettled.mem hbody c hc⟩
    · exact ⟨_, CatchesSettled.mem hcatches clause hclause c hc⟩
    · obtain rfl := Option.mem_toList.1 hb
      exact ⟨_, BlockSettled.mem hfinal c hc⟩
  | _ => cases hc

theorem Stmt.Settled.part {s : Stmt} (h : s.Settled fr jumps) (hpart : s.Part t) :
    ∃ jumps, t.Settled fr jumps := by
  induction hpart with
  | self => exact ⟨_, h⟩
  | child _ hc ih =>
    obtain ⟨_, ht⟩ := ih
    exact ht.child hc

/-- The expressions of a settled statement are settled. -/
theorem Stmt.Settled.expr {s : Stmt} (h : s.Settled fr jumps) (he : e ∈ s.exprs) :
    e.SettledValue fr := by
  cases s with
  | ifStmt line test thenBranch elseBranch =>
    obtain rfl := List.mem_singleton.1 he
    exact h.1.toSettledValue
  | whileStmt line test body =>
    obtain rfl := List.mem_singleton.1 he
    exact h.1.toSettledValue
  | doStmt line body test =>
    obtain rfl := List.mem_singleton.1 he
    exact h.2.toSettledValue
  | forStmt line init test update body =>
    exact (h.2.1 e (Option.mem_toList.1 he)).toSettledValue
  | switchStmt line value groups =>
    obtain rfl := List.mem_singleton.1 he
    exact h.1
  | throwStmt line value =>
    obtain rfl := List.mem_singleton.1 he
    exact h.1
  | exprStmt line value =>
    obtain rfl := List.mem_singleton.1 he
    exact h
  | returnStmt line value =>
    obtain rfl := Option.mem_toList.1 he
    exact h.2.toSettledValue
  | localsStmt line vars =>
    obtain ⟨d, hd, hinit⟩ := List.mem_filterMap.1 he
    exact ((h d hd).init e hinit).toSettledValue
  | _ => cases he

/-! ## Parts of settled units -/

/-- A frame whose variables do not overlap. -/
def Frame.Laid (fr : Frame) : Prop := ∃ bound, fr.vars.Within fr bound

variable {a : Analyzed}

/-- The members of a settled unit are settled. -/
theorem Analyzed.Settled.member (h : a.Settled) (hm : m ∈ a.unit.members) :
    ∃ name, m.Settled a.hierarchy a.unit name := by
  obtain ⟨d, hd, hm⟩ := List.mem_flatMap.1 hm
  have hsettled := h d hd
  cases d with
  | classDecl d => exact ⟨d.name, hsettled m hm⟩
  | interfaceDecl d => cases hm

theorem Analyzed.Settled.memberStmt (h : a.Settled) (hm : m ∈ a.unit.members)
    (hs : m.HasStmt result s) :
    ∃ fr jumps, fr.hierarchy = a.hierarchy ∧ fr.result = result ∧ fr.isStatic = m.isStatic ∧
      fr.Laid ∧ s.Settled fr jumps := by
  obtain ⟨body, hbody, root, hroot, hpart⟩ := hs
  obtain ⟨name, hmember⟩ := h.member hm
  cases m with
  | ctor c =>
    cases hbody
    obtain ⟨vars, hsettled⟩ := hmember
    obtain ⟨jumps, ht⟩ := (BlockSettled.mem hsettled.body root hroot).part hpart
    exact ⟨_, jumps, rfl, rfl, rfl, ⟨_, hsettled.within⟩, ht⟩
  | method decl =>
    obtain ⟨b, hb, heq⟩ := Option.map_eq_some_iff.1 hbody
    cases heq
    obtain ⟨-, ⟨vars, hsettled⟩, -⟩ := hmember
    have hblock := hsettled.body
    rw [hb] at hblock
    obtain ⟨jumps, ht⟩ := (BlockSettled.mem hblock root hroot).part hpart
    exact ⟨_, jumps, rfl, rfl, rfl, ⟨_, hsettled.within⟩, ht⟩
  | field f => cases hbody

theorem Analyzed.Settled.stmt (h : a.Settled) (hs : a.unit.HasStmt result s) :
    ∃ fr jumps, fr.hierarchy = a.hierarchy ∧ fr.result = result ∧ fr.Laid ∧ s.Settled fr jumps := by
  obtain ⟨m, hm, hs⟩ := hs
  obtain ⟨fr, jumps, hh, hresult, -, hrest⟩ := h.memberStmt hm hs
  exact ⟨fr, jumps, hh, hresult, hrest⟩

theorem Analyzed.Settled.holds (h : a.Settled) (hm : m ∈ a.unit.members) (he : m.Holds e) :
    ∃ fr, fr.hierarchy = a.hierarchy ∧ fr.isStatic = m.isStatic ∧ fr.Laid ∧ e.Settled fr := by
  rcases he with ⟨result, s, hs, he⟩ | ⟨root, hroot, he⟩
  · obtain ⟨fr, jumps, hh, -, hstatic, hlaid, hsettled⟩ := h.memberStmt hm hs
    refine ⟨fr, hh, hstatic, hlaid, ?_⟩
    rcases he with ⟨root, hroot, he⟩ | ⟨root, hroot, he⟩
    · exact (hsettled.expr hroot).settled.of_mem_nodes he
    · cases s with
      | switchStmt line value groups =>
        exact (hsettled.2.2.1.each _ hroot).1.of_mem_nodes he
      | _ => cases hroot
  · obtain ⟨name, hmember⟩ := h.member hm
    cases m with
    | field f =>
      obtain ⟨d, hd, hinit⟩ := List.mem_filterMap.1 hroot
      obtain ⟨-, hvalue⟩ := hmember d hd
      obtain ⟨vars, bound, hwithin, hsettled⟩ := hvalue root hinit
      let fr := a.unit.frame a.hierarchy name (Analysis.isStatic f.modifiers) .void vars
      exact ⟨fr, rfl, rfl, ⟨bound, hwithin⟩, hsettled.settled.of_mem_nodes he⟩
    | _ => cases hroot

/-- The expressions of a settled unit are settled. -/
theorem Analyzed.Settled.expr (h : a.Settled) (he : a.unit.HasExpr e) :
    ∃ fr, fr.hierarchy = a.hierarchy ∧ fr.Laid ∧ e.Settled fr := by
  have hholds : ∃ m ∈ a.unit.members, m.Holds e := by
    rcases he with ⟨result, s, ⟨m, hm, hs⟩, he⟩ | ⟨m, hm, he⟩
    · exact ⟨m, hm, .inl ⟨result, s, hs, .inl he⟩⟩
    · exact ⟨m, hm, .inr he⟩
  obtain ⟨m, hm, he⟩ := hholds
  obtain ⟨fr, hh, -, hrest⟩ := h.holds hm he
  exact ⟨fr, hh, hrest⟩

end JMinusMinus
