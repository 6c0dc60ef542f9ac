import JMinusMinus.Proofs.Height.Stmt
import JMinusMinus.Proofs.Slots.Variables

/-!
# Slots of statements

Analysis of a statement gives every variable slots of its own, so that the slots it takes can be
counted on the tree (`Stmt.slots`). If the statement is written, then the one fault is a count that
grows too large, and it comes exactly then (`stmt_takes`).

In the result the variables stand in a row, the tree is hardly higher, and the heads of loops are as
plain as the grammar builds them (`Stmt.Kept`). Where no constructor call is allowed and nothing is
reported it has none.

What is only known of written trees depends on a premise `S`, in which case they are written, and
what is only known where no constructor call is allowed on a premise `q`.
-/

namespace JMinusMinus

variable {q S : Prop} {first line : Nat} {b : Prop} {problem : SemanticProblem} {s s' : Stmt}

/-! ## Counting -/

mutual

/-- The slots that the variables of a statement take. -/
def Stmt.slots : Stmt → Nat
  | .blockStmt body => blockSlots body
  | .ifStmt _ _ thenBranch elseBranch => thenBranch.slots + elseSlots elseBranch
  | .whileStmt _ _ body | .doStmt _ body _ => body.slots
  | .forStmt _ init _ update body => stmtsSlots init + (stmtsSlots update + body.slots)
  | .switchStmt _ _ groups => groupsSlots groups
  | .tryStmt _ body catches final => blockSlots body + (catchesSlots catches + finalSlots final)
  | .localsStmt _ vars => (vars.map (·.ty.slots)).sum
  | _ => 0
termination_by structural s => s

def elseSlots : Option Stmt → Nat
  | some s => s.slots
  | none => 0
termination_by structural s => s

def stmtsSlots : List Stmt → Nat
  | s :: ss => s.slots + stmtsSlots ss
  | [] => 0
termination_by structural ss => ss

def blockSlots : Block Stmt → Nat
  | ⟨_, body⟩ => stmtsSlots body
termination_by structural b => b

def finalSlots : Option (Block Stmt) → Nat
  | some body => blockSlots body
  | none => 0
termination_by structural b => b

/-- The slots of a handler, with its variable. -/
def catchSlots : CatchClause Stmt → Nat
  | ⟨_, param, body⟩ => param.ty.slots + blockSlots body
termination_by structural c => c

def catchesSlots : List (CatchClause Stmt) → Nat
  | c :: cs => catchSlots c + catchesSlots cs
  | [] => 0
termination_by structural cs => cs

def groupSlots : SwitchGroup Stmt → Nat
  | ⟨_, body⟩ => stmtsSlots body
termination_by structural g => g

def groupsSlots : List (SwitchGroup Stmt) → Nat
  | g :: gs => groupSlots g + groupsSlots gs
  | [] => 0
termination_by structural gs => gs

end

/-! ## Shapes -/

namespace Stmt

/-- A statement without a call of another constructor at any depth. -/
def Barred (s : Stmt) : Prop :=
  ∀ t, s.Part t → (∀ e ∈ t.exprs, e.Barred) ∧ ∀ e, .case e ∈ t.labels → e.Barred

/-- A statement that has plain loops, and no call of another constructor. -/
def Tidy (q S : Prop) (s : Stmt) : Prop := (S → s.Plain) ∧ (q → s.Barred)

theorem Tidy.of_children (hchildren : ∀ c ∈ s.children, c.Tidy q S)
    (hhead : S → ∀ line init test update body, s = .forStmt line init test update body →
      ∀ t ∈ init ++ update, t.isSimple) (hexprs : q → ∀ e ∈ s.exprs, e.Barred)
    (hlabels : q → ∀ e, .case e ∈ s.labels → e.Barred := by exact fun _ _ => nofun) :
    s.Tidy q S := by
  refine ⟨fun hS => .of_children (fun c hc => (hchildren c hc).1 hS) (hhead hS), fun hq t ht => ?_⟩
  rcases ht.eq_or_child with rfl | ⟨c, hc, ht⟩
  · exact ⟨hexprs hq, hlabels hq⟩
  · exact (hchildren c hc).2 hq t ht

/-- What analysis makes of a statement whose variables get the slots from a first one on. -/
structure Kept (q S : Prop) (first : Nat) (s s' : Stmt) : Prop where
  tidy : s'.Tidy q S
  simple : s.isSimple → s'.isSimple
  row : Row first s'.variables (first + s.slots)
  low : Analysis.Lows rank s s'

theorem kept_leaf (hexprs : q → ∀ e ∈ s'.exprs, e.Barred) (hsimple : s.isSimple → s'.isSimple)
    (hrow : Row first s'.variables (first + s.slots)) (hlow : Analysis.Lows rank s s')
    (hchildren : s'.children = [] := by rfl)
    (hhead : ∀ line init test update body, s' ≠ .forStmt line init test update body := by
      exact nofun) (hlabels : s'.labels = [] := by rfl) : s.Kept q S first s' where
  tidy := .of_children (by simp [hchildren]) (fun _ line init test update body h =>
    absurd h (hhead line init test update body)) hexprs fun _ e => by simp [hlabels]
  simple := hsimple
  row := hrow
  low := hlow

end Stmt

/-- What analysis keeps of a list of statements, and the slots it gives their variables. -/
structure StmtsKept (q S : Prop) (first : Nat) (ss ss' : List Stmt) : Prop where
  tidy : ∀ s ∈ ss', s.Tidy q S
  simple : (∀ s ∈ ss, s.isSimple) → ∀ s ∈ ss', s.isSimple
  row : Row first (stmtsVariables ss') (first + stmtsSlots ss)
  low : Analysis.Lows Stmt.rankOf ss ss'

namespace Analysis

/-! ## Steps that take slots -/

variable {α β : Type}

/-- A context some slots further on in a method, where no report is taken back. In case `q` no
constructor call is allowed. -/
structure Moved (q : Prop) (n : Nat) (m : MethodScope) (c c' : Context) : Prop where
  method : c'.method = some { m with nextSlot := m.nextSlot + n }
  fits : m.nextSlot ≤ maxSlots → m.nextSlot + n ≤ maxSlots
  mayDelegate : q → c'.mayDelegate = false
  log : c.log.latest <:+ c'.log.latest

/-- A step that takes so many slots of the method, or finds that there are too few. In case `q` the
result is only spoken of if nothing is reported. -/
def Takes (q S : Prop) (first n : Nat) (x : Analysis α) (p : α → Prop) : Prop :=
  ∀ c m, c.method = some m → m.nextSlot = first → (q → c.mayDelegate = false) →
    (∀ f, x c = .error f → S → f = .slotOverflow ∧ maxSlots < first + n) ∧
    ∀ a c', x c = .ok (a, c') → Moved q n m c c' ∧ ((q → S ∧ c'.log.latest = []) → p a)

namespace Takes

variable {x : Analysis α} {p p' : α → Prop} {r : β → Prop} {n k : Nat} {f : α → Analysis β}

theorem imp (h : Takes q S first n x p) (hp : ∀ a, p a → p' a) : Takes q S first n x p' := by
  intro c m hm hfirst hmay
  obtain ⟨herror, hok⟩ := h c m hm hfirst hmay
  refine ⟨herror, fun a c' hrun => ?_⟩
  obtain ⟨hmoved, ha⟩ := hok a c' hrun
  exact ⟨hmoved, fun hquiet => hp a (ha hquiet)⟩

theorem bind (hx : Takes q S first n x p)
    (hf : ∀ a, Takes q S (first + n) k (f a) fun b => p a → r b) :
    Takes q S first (n + k) (x >>= f) r := by
  intro c m hm hfirst hmay
  obtain ⟨herror, hok⟩ := hx c m hm hfirst hmay
  rcases bind_cases x f c with ⟨e, hrun, hbind⟩ | ⟨a, c', hrun, hbind⟩
  · rw [hbind]
    refine ⟨fun e' heq hS => ?_, nofun⟩
    cases heq
    obtain ⟨rfl, hover⟩ := herror _ hrun hS
    exact ⟨rfl, by omega⟩
  · obtain ⟨hmoved, ha⟩ := hok a c' hrun
    subst hfirst
    obtain ⟨herror', hok'⟩ := hf a c' _ hmoved.method rfl hmoved.mayDelegate
    rw [Nat.add_assoc] at herror'
    rw [hbind]
    refine ⟨herror', fun b c'' hrun' => ?_⟩
    obtain ⟨hmoved', hb⟩ := hok' b c'' hrun'
    refine ⟨⟨by rw [hmoved'.method, Nat.add_assoc], fun h => ?_, hmoved'.mayDelegate,
      hmoved.log.trans hmoved'.log⟩, fun hquiet => hb hquiet (ha fun hq => ?_)⟩
    · rw [← Nat.add_assoc]
      exact hmoved'.fits (hmoved.fits h)
    · exact ⟨(hquiet hq).1, eq_nil_of_suffix hmoved'.log (hquiet hq).2⟩

theorem after (hx : Takes q S first 0 x p) (hf : ∀ a, Takes q S first n (f a) fun b => p a → r b) :
    Takes q S first n (x >>= f) r := by
  have h := hx.bind hf
  rwa [Nat.zero_add] at h

theorem before (hx : Takes q S first n x p)
    (hf : ∀ a, Takes q S (first + n) 0 (f a) fun b => p a → r b) : Takes q S first n (x >>= f) r :=
  hx.bind hf

theorem ite [Decidable b] (hx : Takes q S first n x p) (hy : Takes q S first n y p) :
    Takes q S first n (if b then x else y) p := by
  split
  · exact hx
  · exact hy

theorem get_bind {f : Context → Analysis α} (h : ∀ c, Takes q S first n (f c) p) :
    Takes q S first n (get >>= f) p :=
  fun c => h c c

theorem modify {f : Context → Context} (h : ∀ c, (f c).method = c.method ∧
    ((f c).mayDelegate = true → c.mayDelegate = true) ∧ (f c).log = c.log) :
    Takes q S first 0 (modify f : Analysis PUnit) fun _ => True := by
  intro c m hm hfirst hmay
  refine ⟨nofun, fun a c' heq => ?_⟩
  cases heq
  obtain ⟨hmethod, hdelegate, hlog⟩ := h c
  exact ⟨⟨hmethod.trans hm, id, fun hq => Bool.eq_false_iff.2 fun h => by
    simpa [hmay hq] using hdelegate h, hlog ▸ List.suffix_refl _⟩, fun _ => trivial⟩

end Takes

variable {x : Analysis α} {p : α → Prop} {n : Nat}

theorem Elabs.takes {S' : Prop} {p : (String → Option LocalVar) → α → Prop}
    (h : ∀ look, Elabs look q S' x (p look)) (hS : S → S') :
    Takes q S first 0 x fun a => ∃ look, p look a := by
  intro c m hm _ hmay
  rcases h c.local? c rfl hmay with ⟨hnot, f, herror⟩ | ⟨a, c', hrun, hstays, hlog, ha⟩
  · rw [herror]
    exact ⟨fun _ _ h => absurd (hS h) hnot, nofun⟩
  · rw [hrun]
    refine ⟨nofun, fun a' c'' heq => ?_⟩
    cases heq
    exact ⟨⟨hstays.method.trans hm, id, hstays.barred hmay, hlog⟩,
      fun hquiet => ⟨_, ha fun hq => ⟨hS (hquiet hq).1, (hquiet hq).2⟩⟩⟩

theorem Reads.takes (h : Reads Context.Similar x x p) : Takes q S first 0 x p := by
  refine (Elabs.takes (fun _ => h.elabs) id).imp ?_
  rintro _ ⟨_, ha⟩
  exact ha

namespace Takes

theorem pure {a : α} (h : p a) : Takes q S first 0 (pure a) p := Reads.takes (.ret h)

/-- What follows a step that only reads may use what is known of its result. -/
theorem read {x : Analysis β} {r : β → Prop} {f : β → Analysis α}
    (hx : Reads Context.Similar x x r) (hf : ∀ b, r b → Takes q S first n (f b) p) :
    Takes q S first n (x >>= f) p := by
  intro c m hm hfirst hmay
  obtain ⟨b, new, -, hrun, -, hb⟩ := hx c c (.refl c)
  obtain ⟨herror, hok⟩ := hf b hb (c.logged new) m hm hfirst hmay
  rw [bind_run hrun]
  refine ⟨herror, fun a c' hrun' => ?_⟩
  obtain ⟨hmoved, ha⟩ := hok a c' hrun'
  exact ⟨⟨hmoved.method, hmoved.fits, hmoved.mayDelegate,
    (List.suffix_append new _).trans hmoved.log⟩, ha⟩

theorem reportIf [Decidable b] {f : Unit → Analysis α}
    (hr : (Problem.semantic problem).isCycle = false) (h : Takes q S first n (f ()) p) :
    Takes q S first n (if b then report line problem >>= f else f ()) p :=
  .ite (.read (.report hr) fun _ _ => h) h

theorem reportUnless [Decidable b] {f : Unit → Analysis α}
    (hr : (Problem.semantic problem).isCycle = false) (h : Takes q S first n (f ()) p) :
    Takes q S first n (if b then f () else report line problem >>= f) p :=
  .ite h (.read (.report hr) fun _ _ => h)

/-- Steps that give a variable each. -/
theorem mapM {f : β → Analysis α} {cost : β → Nat} {var : α → Variable} {p : β → α → Prop} :
    ∀ {bs : List β} {first : Nat}, (∀ b ∈ bs, ∀ first, Takes q S first (cost b) (f b) fun a =>
      Row first [var a] (first + cost b) ∧ p b a) →
    Takes q S first (bs.map cost).sum (bs.mapM f) fun as =>
      Row first (as.map var) (first + (bs.map cost).sum) ∧ ∀ a ∈ as, ∃ b ∈ bs, p b a
  | [], _, _ => .pure ⟨rfl, nofun⟩
  | b :: bs, first, h => by
    rw [List.mapM_cons, List.map_cons, List.sum_cons]
    refine .bind (h b (by simp) first) fun a => ?_
    refine .before (mapM fun b' hb' => h b' (List.mem_cons_of_mem b hb')) fun as => .pure ?_
    refine fun has ha => ⟨ha.1.append has.1, List.forall_mem_cons.2 ⟨⟨b, by simp, ha.2⟩, ?_⟩⟩
    intro a' ha'
    obtain ⟨b', hb', h'⟩ := has.2 a' ha'
    exact ⟨b', List.mem_cons_of_mem b hb', h'⟩

end Takes

/-! ## Variables and values -/

theorem modify_takes {f : Context → Context} (h : ∀ c, (f c).method = c.method ∧
    (f c).mayDelegate = c.mayDelegate ∧ (f c).log = c.log := by exact fun _ => ⟨rfl, rfl, rfl⟩) :
    Takes q S first 0 (modify f : Analysis PUnit) fun _ => True :=
  .modify fun c => ⟨(h c).1, fun hc => (h c).2.1 ▸ hc, (h c).2.2⟩

theorem Turns.barred {look : String → Option LocalVar} (h : Turns look q e e') (hq : q) :
    e'.Barred := by
  obtain ⟨m, hm, hconverts⟩ := h
  exact hconverts.barred (hm.2 hq)

theorem turns_barred {look : String → Option LocalVar} (h : List.Forall₂ (Turns look q) es es')
    (hq : q) : ∀ e ∈ es', e.Barred := by
  intro e' he'
  obtain ⟨e, -, he⟩ := exists_of_mem_forall₂ h he'
  exact he.barred hq

theorem expr_takes (role : Role) (e : Expr) {placed : Bool} (h : S → e.Written placed) :
    Takes q S first 0 (expr role e) fun e' => ∃ look, Turns look q e e' :=
  Elabs.takes (fun _ => expr_turns role e placed) h

theorem declareLocal_takes (line : Nat) (name : String) (ty : Ty) :
    Takes q S first ty.slots (declareLocal line name ty) fun slot => slot = first := by
  refine .get_bind fun _ => .reportIf rfl ?_
  intro c m hm hfirst hmay
  subst hfirst
  simp only [Bind.bind, StateT.bind, get, getThe, MonadStateOf.get, StateT.get, Except.bind,
    Pure.pure, Except.pure, hm, addSlots]
  by_cases hfits : m.nextSlot + ty.slots ≤ maxSlots
  · rw [if_pos hfits]
    refine ⟨fun f hf => (by cases hf), fun a c' hrun => ?_⟩
    cases hrun
    exact ⟨⟨rfl, fun _ => hfits, hmay, List.suffix_refl _⟩, fun _ => rfl⟩
  · rw [if_neg hfits]
    refine ⟨fun f hf _ => ?_, fun a c' hrun => (by cases hrun)⟩
    cases hf
    exact ⟨rfl, by omega⟩

theorem localVar_takes (d : Declarator) (hd : S → d.Written) :
    Takes q S first d.ty.slots (localVar d) fun d' =>
      Row first [d'.variable] (first + d.ty.slots) ∧
        ∃ look, List.Forall₂ (Turns look q) d.init.toList d'.init.toList := by
  refine .read (resolveType_similar d.line d.ty) fun ty hty => .reportIf rfl ?_
  have hslot (init : Option Expr) : Takes q S first d.ty.slots
      (declareLocal d.line d.name ty >>= fun slot =>
        pure { d with ty := ty, init := init, slot := some slot }) fun d' =>
      d'.init = init ∧ Row first [d'.variable] (first + d.ty.slots) := by
    rw [← hty]
    refine .before (declareLocal_takes d.line d.name ty) fun slot => .pure ?_
    rintro rfl
    exact ⟨rfl, rfl, rfl⟩
  cases hinit : d.init with
  | none =>
    refine (hslot none).imp fun d' h => ⟨h.2, fun _ => none, ?_⟩
    rw [h.1]
    exact .nil
  | some e =>
    have he (hS : S) : e.Written true := by simpa [InitWritten, hinit] using (hd hS).init
    refine .after (expr_takes _ e he) fun e' => (hslot (some e')).imp ?_
    rintro d' ⟨hd', hrow⟩ ⟨look, he'⟩
    exact ⟨hrow, look, hd' ▸ .cons he' .nil⟩

/-! ## Statements -/

mutual

theorem stmt_takes : ∀ s : Stmt, (S → s.Written) → ∀ {first : Nat},
    Takes q S first s.slots (stmt s) (s.Kept q S first)
  | .blockStmt body, h, _ => by
    refine .before (block_takes body h) fun body' => .pure ?_
    rintro ⟨hbody, hrow, hlow⟩
    refine ⟨.of_children hbody (fun _ => nofun) fun _ => nofun, nofun, hrow, lows_node ?_⟩
    intro words n hwords hh hw
    simp only [Stmt.rank, Nat.add_le_add_iff_right, id] at hh hw ⊢
    exact hlow words n hwords hh hw
  | .ifStmt line test thenBranch elseBranch, h, _ => by
    refine .after (expr_takes .condition test fun hS => (h hS).1) fun test' => ?_
    refine .bind (stmt_takes thenBranch fun hS => (h hS).2.1) fun then' => ?_
    refine .before (stmt?_takes elseBranch fun hS => (h hS).2.2) fun else' => .pure ?_
    rintro ⟨helse, hrow, hlow⟩ hthen ⟨_, htest⟩
    refine ⟨.of_children (fun c hc => ?_) (fun _ => nofun) ?_, nofun, hthen.row.append hrow,
      lows_node ?_⟩
    · rcases List.mem_cons.1 hc with rfl | hc
      · exact hthen.tidy
      · exact helse c (Option.mem_toList.1 hc)
    · exact fun hq => List.forall_mem_singleton.2 (htest.barred hq)
    · intro words n hwords hh hw
      simp only [Stmt.rank, Nat.add_le_add_iff_right, id, Nat.max_le] at hh hw ⊢
      exact ⟨htest.height hwords ⟨hh.1, hw.1⟩, hthen.low words n hwords hh.2.1 hw.2.1,
        hlow words n hwords hh.2.2 hw.2.2⟩
  | .whileStmt line test body, h, _ => by
    refine .after (expr_takes .condition test fun hS => (h hS).1) fun test' => ?_
    refine .after modify_takes fun _ => .before (stmt_takes body fun hS => (h hS).2) fun body' => ?_
    refine .after modify_takes fun _ => .pure ?_
    rintro _ hbody _ ⟨_, htest⟩
    refine ⟨.of_children (List.forall_mem_singleton.2 hbody.tidy) (fun _ => nofun) ?_, nofun,
      hbody.row, lows_node ?_⟩
    · exact fun hq => List.forall_mem_singleton.2 (htest.barred hq)
    · intro words n hwords hh hw
      simp only [Stmt.rank, Nat.add_le_add_iff_right, id, Nat.max_le] at hh hw ⊢
      exact ⟨htest.height hwords ⟨hh.1, hw.1⟩, hbody.low words n hwords hh.2 hw.2⟩
  | .doStmt line body test, h, _ => by
    refine .after modify_takes fun _ => .before (stmt_takes body fun hS => (h hS).1) fun body' => ?_
    refine .after modify_takes fun _ => ?_
    refine .after (expr_takes .condition test fun hS => (h hS).2) fun test' => .pure ?_
    rintro ⟨_, htest⟩ _ hbody _
    refine ⟨.of_children (List.forall_mem_singleton.2 hbody.tidy) (fun _ => nofun) ?_, nofun,
      hbody.row, lows_node ?_⟩
    · exact fun hq => List.forall_mem_singleton.2 (htest.barred hq)
    · intro words n hwords hh hw
      simp only [Stmt.rank, Nat.add_le_add_iff_right, id, Nat.max_le] at hh hw ⊢
      exact ⟨htest.height hwords ⟨hh.1, hw.1⟩, hbody.low words n hwords hh.2 hw.2⟩
  | .forStmt line init test update body, h, _ => by
    refine .after modify_takes fun _ => .bind (stmts_takes init fun hS => (h hS).1) fun init' => ?_
    refine .after (Elabs.takes (fun _ => condition?_elabs test) fun hS => (h hS).2.1) fun test' =>
      ?_
    refine .bind (stmts_takes update fun hS => (h hS).2.2.1) fun update' => ?_
    refine .after modify_takes fun _ => ?_
    refine .before (stmt_takes body fun hS => (h hS).2.2.2.1) fun body' => ?_
    refine .after modify_takes fun _ => .after modify_takes fun _ => .pure ?_
    rintro _ _ hbody _ hupdate ⟨_, htest⟩ hinit _
    refine ⟨.of_children (fun c hc => ?_) (fun hS => ?_) (turns_barred htest), nofun, ?_,
      lows_node ?_⟩
    · simp only [Stmt.children, List.mem_append, List.mem_singleton] at hc
      rcases hc with (hc | hc) | rfl
      · exact hinit.tidy c hc
      · exact hupdate.tidy c hc
      · exact hbody.tidy
    · rintro _ _ _ _ _ ⟨⟩ s hs
      have hsimple := (h hS).2.2.2.2
      simp only [List.mem_append] at hsimple hs
      rcases hs with hs | hs
      · exact hinit.simple (fun t ht => hsimple t (.inl ht)) s hs
      · exact hupdate.simple (fun t ht => hsimple t (.inr ht)) s hs
    · rw [Stmt.variables, List.append_assoc]
      exact hinit.row.append (hupdate.row.append hbody.row)
    · intro words n hwords hh hw
      simp only [Stmt.rank, Nat.add_le_add_iff_right, id, Nat.max_le] at hh hw ⊢
      exact ⟨⟨hinit.low words n hwords hh.1.1 hw.1.1, turns_lows htest words n hwords hh.1.2
        hw.1.2⟩,
        hupdate.low words n hwords hh.2.1 hw.2.1, hbody.low words n hwords hh.2.2 hw.2.2⟩
  | .switchStmt line value groups, h, _ => by
    refine .after (Elabs.takes (fun _ => selector_elabs value) fun hS => (h hS).1) fun value' => ?_
    refine .after modify_takes fun _ => .after modify_takes fun _ => ?_
    refine .before (switchGroups_takes groups (fun hS => (h hS).2) {}) fun groups' => ?_
    refine .after modify_takes fun _ => .after modify_takes fun _ => .pure ?_
    rintro _ _ ⟨hgroups, hrow, hlow⟩ _ _ ⟨_, hvalue⟩
    refine ⟨.of_children (fun c hc => ?_) (fun _ => nofun) ?_ fun hq e he => ?_, nofun, hrow,
      lows_node ?_⟩
    · obtain ⟨g, hg, hc⟩ := List.mem_flatMap.1 hc
      exact (hgroups g hg).1 c hc
    · exact fun hq => List.forall_mem_singleton.2 (hvalue.barred hq)
    · obtain ⟨g, hg, he⟩ := List.mem_flatMap.1 he
      exact (hgroups g hg).2 hq e he
    · intro words n hwords hh hw
      simp only [Stmt.rank, Nat.add_le_add_iff_right, id, Nat.max_le] at hh hw ⊢
      exact ⟨hvalue.height hwords ⟨hh.1, hw.1⟩, hlow words n hwords hh.2 hw.2⟩
  | .tryStmt line body catches final, h, _ => by
    refine .bind (block_takes body fun hS => (h hS).1) fun body' => ?_
    refine .bind (catchClauses_takes catches fun hS => (h hS).2.1) fun catches' => ?_
    refine .before (block?_takes final fun hS => (h hS).2.2) fun final' => .pure ?_
    rintro ⟨hfinal, hfrow, hflow⟩ ⟨hcatches, hcrow, hclow⟩ ⟨hbody, hbrow, hblow⟩
    refine ⟨.of_children (fun c hc => ?_) (fun _ => nofun) fun _ => nofun, nofun, ?_, lows_node ?_⟩
    · simp only [Stmt.children, List.mem_append, List.mem_flatMap] at hc
      rcases hc with (hc | ⟨clause, hclause, hc⟩) | ⟨b, hb, hc⟩
      · exact hbody c hc
      · exact hcatches clause hclause c hc
      · exact hfinal b (Option.mem_toList.1 hb) c hc
    · rw [Stmt.variables, List.append_assoc]
      exact hbrow.append (hcrow.append hfrow)
    · intro words n hwords hh hw
      simp only [Stmt.rank, Nat.add_le_add_iff_right, id, Nat.max_le] at hh hw ⊢
      exact ⟨hblow words n hwords hh.1 hw.1, hclow words n hwords hh.2.1 hw.2.1,
        hflow words n hwords hh.2.2 hw.2.2⟩
  | .throwStmt line e, h, _ => by
    refine .after (expr_takes .value e h) fun e' => .reportUnless rfl (.pure ?_)
    rintro ⟨_, he⟩
    refine Stmt.kept_leaf (fun hq => List.forall_mem_singleton.2 (he.barred hq)) nofun rfl
      (lows_node fun words n hwords hh hw => ?_)
    exact Nat.succ_le_succ (he.height hwords ⟨Nat.le_of_succ_le_succ hh, hw⟩)
  | .returnStmt line value, h, _ => by
    refine .after (Elabs.takes (fun _ => returnValue_elabs line value) h) fun value' => .pure ?_
    rintro ⟨_, hvalue⟩
    refine Stmt.kept_leaf (turns_barred hvalue) nofun rfl (lows_node fun words n hwords hh hw => ?_)
    exact Nat.succ_le_succ (turns_lows hvalue words n hwords (Nat.le_of_succ_le_succ hh) hw)
  | .breakStmt line, _, _ =>
    .get_bind fun _ => .reportUnless rfl
      (.pure (Stmt.kept_leaf (fun _ => nofun) nofun rfl bare_lows))
  | .continueStmt line, _, _ =>
    .get_bind fun _ => .reportUnless rfl
      (.pure (Stmt.kept_leaf (fun _ => nofun) nofun rfl bare_lows))
  | .emptyStmt line, _, _ => .pure (Stmt.kept_leaf (fun _ => nofun) nofun rfl bare_lows)
  | .exprStmt line e, h, _ => by
    refine .after (expr_takes .value e h) fun e' => .pure ?_
    rintro ⟨_, he⟩
    refine Stmt.kept_leaf (fun hq => List.forall_mem_singleton.2 ?_) (fun _ => rfl) rfl
      (lows_node fun words n hwords hh hw => ?_)
    · exact (he.barred hq).withNote
    · rw [Stmt.rank, Expr.asStatement, Expr.height_withNote]
      exact Nat.succ_le_succ (he.height hwords ⟨Nat.le_of_succ_le_succ hh, hw⟩)
  | .localsStmt line vars, h, _ => by
    refine .before (.mapM fun d hd _ => localVar_takes d fun hS => h hS d hd) fun vars' => .pure ?_
    rintro ⟨hrow, hvars⟩
    refine Stmt.kept_leaf (fun hq e he => ?_) (fun _ => rfl) hrow
      (lows_node fun words n hwords hh hw => ?_)
    · obtain ⟨d, hd, he⟩ := List.mem_filterMap.1 he
      obtain ⟨_, _, _, hd⟩ := hvars d hd
      exact turns_barred hd hq e (Option.mem_toList.2 he)
    · exact Nat.succ_le_succ (inits_lows hvars words n hwords (Nat.le_of_succ_le_succ hh) hw)

theorem stmt?_takes : ∀ s : Option Stmt, (S → ElseWritten s) → ∀ {first},
    Takes q S first (elseSlots s) (stmt? s) fun s' => (∀ t ∈ s', t.Tidy q S) ∧
      Row first (elseVariables s') (first + elseSlots s) ∧ Lows Stmt.rank? s s'
  | some s, h, _ =>
    .before (stmt_takes s h) fun _ => .pure fun hs => ⟨by simpa using hs.tidy, hs.row, hs.low⟩
  | none, _, _ => .pure ⟨nofun, rfl, fun _ _ _ _ _ => Nat.zero_le _⟩

theorem stmts_takes : ∀ ss : List Stmt, (S → StmtsWritten ss) → ∀ {first},
    Takes q S first (stmtsSlots ss) (stmts ss) (StmtsKept q S first ss)
  | s :: ss, h, _ => by
    refine .bind (stmt_takes s fun hS => (h hS).1) fun s' => ?_
    refine .before (stmts_takes ss fun hS => (h hS).2) fun ss' => .pure fun hss hs => ?_
    refine ⟨List.forall_mem_cons.2 ⟨hs.tidy, hss.tidy⟩, ?_, hs.row.append hss.row,
      fun words n hwords hh hw => ?_⟩
    · simp only [List.forall_mem_cons]
      exact fun h => ⟨hs.simple h.1, hss.simple h.2⟩
    · simp only [Stmt.rankOf, Nat.max_le] at hh hw ⊢
      exact ⟨hs.low words n hwords hh.1 hw.1, hss.low words n hwords hh.2 hw.2⟩
  | [], _, _ => .pure ⟨nofun, fun _ => nofun, rfl, fun _ _ _ _ _ => Nat.zero_le _⟩

theorem block_takes : ∀ b : Block Stmt, (S → BlockWritten b) → ∀ {first},
    Takes q S first (blockSlots b) (block b) fun b' => (∀ s ∈ b'.stmts, s.Tidy q S) ∧
      Row first (blockVariables b') (first + blockSlots b) ∧ Lows Stmt.rankBlock b b'
  | ⟨_, body⟩, h, _ => by
    refine .after modify_takes fun _ => .before (stmts_takes body h) fun body' => ?_
    exact .after modify_takes fun _ => .pure fun _ hbody _ => ⟨hbody.tidy, hbody.row, hbody.low⟩

theorem block?_takes : ∀ b : Option (Block Stmt), (S → FinalWritten b) → ∀ {first},
    Takes q S first (finalSlots b) (block? b) fun b' => (∀ x ∈ b', ∀ s ∈ x.stmts, s.Tidy q S) ∧
      Row first (finalVariables b') (first + finalSlots b) ∧ Lows Stmt.rankBlock? b b'
  | some body, h, _ =>
    .before (block_takes body h) fun _ => .pure fun hbody => ⟨by simpa using hbody.1, hbody.2⟩
  | none, _, _ => .pure ⟨nofun, rfl, fun _ _ _ _ _ => Nat.zero_le _⟩

theorem catchClause_takes : ∀ c : CatchClause Stmt, (S → CatchWritten c) → ∀ {first},
    Takes q S first (catchSlots c) (catchClause c) fun c' => (∀ s ∈ c'.body.stmts, s.Tidy q S) ∧
      Row first (catchVariables c') (first + catchSlots c) ∧ Lows Stmt.rankCatch c c'
  | ⟨_, param, body⟩, h, _ => by
    refine .after modify_takes fun _ => .read (resolveType_similar param.line param.ty) ?_
    intro ty hty
    rw [catchSlots, ← hty]
    refine .bind (declareLocal_takes param.line param.name ty) fun slot => ?_
    refine .before (block_takes body fun hS => (h hS).2) fun body' => ?_
    refine .after modify_takes fun _ => .pure ?_
    rintro _ ⟨hbody, hrow, hlow⟩ rfl _
    exact ⟨hbody, ⟨rfl, Nat.add_assoc _ _ _ ▸ hrow⟩, hlow⟩

theorem catchClauses_takes : ∀ cs : List (CatchClause Stmt), (S → CatchesWritten cs) →
    ∀ {first}, Takes q S first (catchesSlots cs) (catchClauses cs) fun cs' =>
      (∀ c ∈ cs', ∀ s ∈ c.body.stmts, s.Tidy q S) ∧
        Row first (catchesVariables cs') (first + catchesSlots cs) ∧ Lows Stmt.rankCatches cs cs'
  | c :: cs, h, _ => by
    refine .bind (catchClause_takes c fun hS => (h hS).1) fun _ => ?_
    refine .before (catchClauses_takes cs fun hS => (h hS).2) fun _ => .pure fun hcs hc => ?_
    refine ⟨List.forall_mem_cons.2 ⟨hc.1, hcs.1⟩, hc.2.1.append hcs.2.1, ?_⟩
    intro words n hwords hh hw
    simp only [Stmt.rankCatches, Nat.max_le] at hh hw ⊢
    exact ⟨hc.2.2 words n hwords hh.1 hw.1, hcs.2.2 words n hwords hh.2 hw.2⟩
  | [], _, _ => .pure ⟨nofun, rfl, fun _ _ _ _ _ => Nat.zero_le _⟩

theorem switchGroup_takes : ∀ g : SwitchGroup Stmt, (S → GroupWritten g) → ∀ cases {first},
      Takes q S first (groupSlots g) (switchGroup cases g) fun res =>
      ((∀ s ∈ res.1.stmts, s.Tidy q S) ∧ (q → ∀ e, .case e ∈ res.1.labels → e.Barred)) ∧
        Row first (groupVariables res.1) (first + groupSlots g) ∧ Lows Stmt.rankGroup g res.1
  | ⟨labels, body⟩, h, cases, _ => by
    refine .after (Elabs.takes (fun _ => switchLabels_elabs cases labels) fun hS => (h hS).1) ?_
    refine fun res => .before (stmts_takes body fun hS => (h hS).2) fun body' => .pure ?_
    rintro hbody ⟨_, hlabels⟩
    refine ⟨⟨hbody.tidy, fun hq e he => ?_⟩, hbody.row, fun words n hwords hh hw => ?_⟩
    · obtain ⟨l, -, hl⟩ := exists_of_mem_forall₂ hlabels he
      cases l with
      | case => exact Turns.barred hl hq
      | otherwise => cases hl
    · simp only [Stmt.rankGroup, Nat.max_le] at hh hw ⊢
      exact ⟨labels_lows hlabels words n hwords hh.1 hw.1, hbody.low words n hwords hh.2 hw.2⟩

theorem switchGroups_takes : ∀ gs : List (SwitchGroup Stmt), (S → GroupsWritten gs) →
    ∀ cases {first}, Takes q S first (groupsSlots gs) (switchGroups cases gs)
      fun gs' => (∀ g ∈ gs', (∀ s ∈ g.stmts, s.Tidy q S) ∧
        (q → ∀ e, .case e ∈ g.labels → e.Barred)) ∧
          Row first (groupsVariables gs') (first + groupsSlots gs) ∧ Lows Stmt.rankGroups gs gs'
  | g :: gs, h, cases, _ => by
    refine .bind (switchGroup_takes g (fun hS => (h hS).1) cases) fun res => ?_
    refine .before (switchGroups_takes gs (fun hS => (h hS).2) res.2) fun _ => .pure fun hgs hg =>
      ?_
    refine ⟨List.forall_mem_cons.2 ⟨hg.1, hgs.1⟩, hg.2.1.append hgs.2.1, ?_⟩
    intro words n hwords hh hw
    simp only [Stmt.rankGroups, Nat.max_le] at hh hw ⊢
    exact ⟨hg.2.2 words n hwords hh.1 hw.1, hgs.2.2 words n hwords hh.2 hw.2⟩
  | [], _, _, _ => .pure ⟨nofun, rfl, fun _ _ _ _ _ => Nat.zero_le _⟩

end

end Analysis

end JMinusMinus
