import JMinusMinus.Proofs.Labels.Stmt
import JMinusMinus.Proofs.Slots.Uses

/-!
# Code of settled statements

What is known of the code of a settled statement is shown in one pass over the tree (`stmt_codes`).

* It starts with nothing on the stack and ends so. Where a statement ends abruptly, nothing goes on
  behind it, and the height there is free. This is needed where a guarded block ends abruptly: the
  next line is then the start of a handler, with the exception on the stack.
* It uses the slots of variables, and slots that it takes for saved values: the value of a return
  while final blocks run, and what was thrown while the final block of its handler runs.
* It is made unless an expression has no code or slots run out. A jump finds its target, the labels
  of a switch are constants, and handlers have slots for their variables.

The slots that it takes are counted on the tree. As the code of a final block is repeated where a
jump leaves it, so are its slots (`Stmt.spills`). Slots are only spoken of in a strict case, in
which the exits around a statement are known (`Codes`).
-/

namespace JMinusMinus

/-! ## Slots of code -/

/-- What a jump may have to leave. For a final block it is the slots that its code takes. -/
inductive Nest where
  | loop
  | switch
  | guarded (final : Option Nat)

namespace Nest

/-- Whether there is a final block. -/
def hasFinal : Nest → Bool
  | guarded (some _) => true
  | _ => false

/-- The target of jumps that a construct is. -/
def jump? : Nest → Option JumpTarget
  | loop => some .loop
  | switch => some .switch
  | guarded _ => none

/-- The slots of all final blocks. -/
def toReturn : List Nest → Nat
  | [] => 0
  | guarded final :: around => final.getD 0 + toReturn around
  | _ :: around => toReturn around

/-- The slots of the final blocks on the way to where `break` goes. -/
def toBreak : List Nest → Nat
  | guarded final :: around => final.getD 0 + toBreak around
  | _ => 0

/-- The slots of the final blocks on the way to where `continue` goes. -/
def toContinue : List Nest → Nat
  | guarded final :: around => final.getD 0 + toContinue around
  | switch :: around => toContinue around
  | _ => 0

end Nest

/-- The slots of the end of a block that may end normally. -/
def endSpills (abrupt : Bool) (final : Option Nat) : Nat := if abrupt then 0 else final.getD 0

/-- The slots of the handler of a final block. -/
def handlerSpills : Option Nat → Nat
  | some n => Ty.object.slots + n
  | none => 0

mutual

/-- The slots that the code of a statement takes, in a method whose result takes some. -/
def Stmt.spills (result : Nat) (around : List Nest) : Stmt → Nat
  | .blockStmt body => blockSpills result around body
  | .ifStmt _ _ thenBranch elseBranch =>
    thenBranch.spills result around + elseSpills result around elseBranch
  | .whileStmt _ _ body | .doStmt _ body _ => body.spills result (.loop :: around)
  | .forStmt _ init _ update body => stmtsSpills result around init +
      (body.spills result (.loop :: around) + stmtsSpills result around update)
  | .switchStmt _ _ groups => groupsSpills result (.switch :: around) groups
  | .tryStmt _ body catches final =>
    blockSpills result (.guarded (finalSpills result around final) :: around) body +
      (endSpills (Stmt.blockEndsAbruptly body) (finalSpills result around final) +
      (catchesSpills result around (finalSpills result around final) catches +
      handlerSpills (finalSpills result around final)))
  | .returnStmt _ (some _) => if around.any Nest.hasFinal then result + Nest.toReturn around else 0
  | .returnStmt _ none => Nest.toReturn around
  | .breakStmt _ => Nest.toBreak around
  | .continueStmt _ => Nest.toContinue around
  | _ => 0
termination_by structural s => s

def elseSpills (result : Nat) (around : List Nest) : Option Stmt → Nat
  | some s => s.spills result around
  | none => 0
termination_by structural s => s

def stmtsSpills (result : Nat) (around : List Nest) : List Stmt → Nat
  | s :: ss => s.spills result around + stmtsSpills result around ss
  | [] => 0
termination_by structural ss => ss

def blockSpills (result : Nat) (around : List Nest) : Block Stmt → Nat
  | ⟨_, body⟩ => stmtsSpills result around body
termination_by structural b => b

def finalSpills (result : Nat) (around : List Nest) : Option (Block Stmt) → Option Nat
  | some body => some (blockSpills result around body)
  | none => none
termination_by structural b => b

/-- The slots of a handler beside a final block. -/
def catchSpills (result : Nat) (around : List Nest) (final : Option Nat) :
    CatchClause Stmt → Nat
  | ⟨_, _, body⟩ => blockSpills result (.guarded final :: around) body +
      endSpills (Stmt.blockEndsAbruptly body) final
termination_by structural c => c

def catchesSpills (result : Nat) (around : List Nest) (final : Option Nat) :
    List (CatchClause Stmt) → Nat
  | c :: cs => catchSpills result around final c + catchesSpills result around final cs
  | [] => 0
termination_by structural cs => cs

def groupSpills (result : Nat) (around : List Nest) : SwitchGroup Stmt → Nat
  | ⟨_, body⟩ => stmtsSpills result around body
termination_by structural g => g

def groupsSpills (result : Nat) (around : List Nest) : List (SwitchGroup Stmt) → Nat
  | g :: gs => groupSpills result around g + groupsSpills result around gs
  | [] => 0
termination_by structural gs => gs

end

/-! ## Excuses -/

/-- A reason to stop for every creation of an array with too many lengths. -/
def Stmt.Excused (E : Failure → Prop) (s : Stmt) : Prop :=
  ∀ t, s.Part t → ∀ e ∈ t.exprs, ∀ x ∈ e.nodes, x.isDeepCreation →
    E (.ofDefect (.dimensions x.line))

theorem Stmt.Excused.child {E : Failure → Prop} {s c : Stmt} (h : s.Excused E)
    (hc : c ∈ s.children) : c.Excused E :=
  fun t hpart => h t (hpart.of_child hc)

/-- Statements each of which may fail for a reason that is allowed. -/
def StmtsExcused (E : Failure → Prop) (ss : List Stmt) : Prop := ∀ s ∈ ss, s.Excused E

/-- Variables that may be used. -/
def Granted (allowed : Opcode × Nat → Prop) (xs : List Variable) : Prop :=
  ∀ x ∈ xs, ∀ use, x.Allows use → allowed use

/-- A frame whose variables and current object may be used. -/
structure Frame.Granted (allowed : Opcode × Nat → Prop) (fr : Frame) : Prop where
  vars : ∀ v ∈ fr.vars, ∀ use, Variable.Allows ⟨some v.1, v.2, false⟩ use → allowed use
  self : fr.isStatic = false → allowed (.aload, 0)

namespace Lowering

variable {T : Terms} {result : Ty}

/-- A statement with reasons for its code to stop, and with slots that its code may use. -/
structure Fair (T : Terms) (s : Stmt) : Prop where
  excused : T.strict → s.Excused T.stops
  granted : T.strict → Granted T.allowed s.variables

theorem Fair.child (h : Fair T s) (hc : c ∈ s.children) : Fair T c :=
  ⟨fun hT => (h.excused hT).child hc, fun hT x hx => h.granted hT x (Stmt.variables_child hc hx)⟩

/-! ## Steps -/

section Steps

variable {α β : Type}

/-- A step between two heights of the stack that takes so many slots. -/
structure Codes (T : Terms) (result : Ty) (P : List Nat → Prop) (n : Nat) (x : Lowering α)
    (k k' : Nat) (Q : List Nat → α → Prop) : Prop where
  balances : Balances P x k k' Q
  uses : T.strict → Uses result T.allowed x
  lowers : T.strict → Lowers T.stops n x fun _ => True

/-- A step of which nothing has to be known behind it. -/
abbrev Coded (T : Terms) (result : Ty) (P : List Nat → Prop) (n : Nat) (x : Lowering α)
    (k k' : Nat) : Prop :=
  Codes T result P n x k k' fun _ _ => True

/-- The terms for code that may load a saved value. -/
def Terms.saving (T : Terms) (slot : Nat) (t : Ty) : Terms where
  strict := T.strict ∧ slot + t.slots ≤ maxSlots
  stops := T.stops
  allowed use := T.allowed use ∨ use = (loadOp t, slot)

variable {P P' : List Nat → Prop} {x : Lowering α} {Q : List Nat → α → Prop}
  {R : List Nat → β → Prop} {n j k m k' : Nat} {f : α → Lowering β}

namespace Codes

theorem pure {a : α} (h : ∀ ℓ, P ℓ → Q ℓ a) : Codes T result P 0 (pure a) k k Q :=
  ⟨.pure h, fun _ => .pure, fun _ => .pure trivial⟩

theorem bind (hx : Codes T result P n x k m Q)
    (hf : ∀ a, Codes T result (fun ℓ => P ℓ ∧ Q ℓ a) j (f a) m k' R) :
    Codes T result P (n + j) (x >>= f) k k' R where
  balances := hx.balances.bind fun a => (hf a).balances
  uses hT := (hx.uses hT).bind fun a => (hf a).uses hT
  lowers hT := (hx.lowers hT).bind fun a _ => (hf a).lowers hT

theorem free (hx : Codes T result P 0 x k m Q)
    (hf : ∀ a, Codes T result (fun ℓ => P ℓ ∧ Q ℓ a) n (f a) m k' R) :
    Codes T result P n (x >>= f) k k' R := by
  have h := hx.bind hf
  rwa [Nat.zero_add] at h

theorem given (h : Codes T result P n x k k' Q) (hP : ∀ ℓ, P' ℓ → P ℓ) :
    Codes T result P' n x k k' Q :=
  ⟨h.balances.given hP, h.uses, h.lowers⟩

theorem seq {x : Lowering Unit} {f : Unit → Lowering β} (hx : Coded T result P n x k m)
    (hf : Codes T result P j (f ()) m k' R) : Codes T result P (n + j) (x >>= f) k k' R :=
  hx.bind fun _ => hf.given fun _ h => h.1

theorem next {x : Lowering Unit} {f : Unit → Lowering β} (hx : Coded T result P 0 x k m)
    (hf : Codes T result P n (f ()) m k' R) : Codes T result P n (x >>= f) k k' R :=
  hx.free fun _ => hf.given fun _ h => h.1

theorem last {x : Lowering Unit} {f : Unit → Lowering β} (hx : Coded T result P n x k m)
    (hf : Codes T result P 0 (f ()) m k' R) : Codes T result P n (x >>= f) k k' R :=
  hx.seq hf

theorem ite {b : Prop} [Decidable b] (hx : b → Codes T result P n x k k' Q)
    (hy : ¬b → Codes T result P n y k k' Q) : Codes T result P n (if b then x else y) k k' Q := by
  split
  · exact hx ‹_›
  · exact hy ‹_›

theorem forM {f : α → Lowering Unit} : ∀ {as : List α}, (∀ a ∈ as, Coded T result P 0 (f a) k k) →
    Coded T result P 0 (as.forM f) k k
  | [], _ => .pure fun _ _ => trivial
  | a :: as, h => .next (h a (by simp)) (forM fun b hb => h b (List.mem_cons_of_mem a hb))

theorem saving (h : Codes T result P n x k k' Q) : Codes (T.saving slot t) result P n x k k' Q :=
  ⟨h.balances, fun hT => (h.uses hT.1).more fun _ => .inl, fun hT => h.lowers hT.1⟩

theorem saved {f : Nat → Lowering α} (ht : t = result ∨ t = .object) (hvoid : t ≠ .void)
    (hf : ∀ slot, Codes (T.saving slot t) result P n (f slot) 0 k' Q) :
    Codes T result P (t.slots + n) (do
      let slot ← newSlot t
      access (storeOp t) slot
      f slot) t.words k' Q where
  balances := (newSlot_balances t).bind fun slot =>
    .seq (m := 0) (access_shifts (storeOp_moves hvoid) (Nat.le_refl _) (by omega))
      ((hf slot).balances.given fun _ h => h.1)
  uses hT := saved_uses ht fun slot hslot => (hf slot).uses ⟨hT, hslot⟩
  lowers hT := .bind (newSlot_lowers t) fun slot hslot =>
    .after (access_runs (by rwa [localWidth_storeOp])) fun _ _ => (hf slot).lowers ⟨hT, hslot⟩

end Codes

theorem newLabel_codes (height : Nat) : Codes T result P 0 newLabel k k fun ℓ l => l.At height ℓ :=
  ⟨newLabel_balances height, fun _ => newLabel_uses, fun _ hs => newLabel_runs hs⟩

theorem mark_codes (h : ∀ ℓ, P ℓ → l.At k ℓ) : Coded T result P 0 (mark l) k k :=
  ⟨mark_balances h, fun _ => mark_uses l, fun _ => mark_runs l⟩

theorem guard_codes {guarded : List (Label × Label)} (h : ∀ ℓ, P ℓ → target.At 1 ℓ) :
    Coded T result P 0 (guard guarded target catches) k k :=
  ⟨guard_balances h, fun _ => guard_uses _ _ _, fun _ => guard_runs _ _ _⟩

theorem addGaps_codes : Coded T result P 0 (addGaps gaps) k k :=
  ⟨addGaps_balances, fun _ => addGaps_uses _, fun _ => addGaps_runs _⟩

theorem takeGaps_codes {x : Lowering Unit} (h : Coded T result P n x k k') :
    Coded T result P n (takeGaps scope x) k k' :=
  ⟨takeGaps_balances h.balances, fun hT => takeGaps_uses (h.uses hT),
    fun hT => takeGaps_lowers (h.lowers hT)⟩

theorem instr_codes (h : Shifts P (instr i) k k') (huse : i.localUse? = none) :
    Coded T result P 0 (instr i) k k' :=
  ⟨h, fun _ => instr_uses huse, fun _ => instr_runs i⟩

theorem goto_codes (h : ∀ ℓ, P ℓ → l.At k ℓ) : Coded T result P 0 (branch .goto l) k k' :=
  instr_codes (goto_shifts h) rfl

theorem return_codes (t : Ty) : Coded T result P 0 (op (returnOp t)) t.words k' :=
  instr_codes (returnOp_shifts t) (longForm?_returnOp t)

theorem athrow_codes : Coded T result P 0 (op .athrow) 1 k' := instr_codes athrow_shifts rfl

theorem fail_codes (h : ¬T.strict) : Codes T result P n (failWith e : Lowering α) k k' Q :=
  ⟨failWith_balances, fun hT => absurd hT h, fun hT => absurd hT h⟩

theorem access_codes {o : Opcode} (h : Shifts P (access o slot) k k')
    (hallowed : T.strict → T.allowed (o, slot))
    (hfits : T.strict → slot + o.localWidth ≤ maxSlots) : Coded T result P 0 (access o slot) k k' :=
  ⟨h, fun hT => access_uses (hallowed hT), fun hT => access_runs (hfits hT)⟩

/-- A saved value is put back. -/
theorem load_codes (hvoid : t ≠ .void) :
    Coded (T.saving slot t) result P 0 (access (loadOp t) slot) 0 t.words :=
  access_codes (access_shifts (loadOp_moves hvoid) (Nat.zero_le 0) (by omega))
    (fun _ => .inr rfl) fun hT => by rw [localWidth_loadOp]; exact hT.2

end Steps

/-! ## Exits -/

/-- The code of a final block with its slots, where the labels of exits are level. -/
def FinalCodes (T : Terms) (result : Ty) (exits : List Exit) :
    Option (Lowering Unit) → Option Nat → Prop
  | some code, some n => ∀ P : List Nat → Prop, (∀ ℓ, P ℓ → Exit.Level exits ℓ) →
      Coded T result P n code 0 0
  | none, none => True
  | _, _ => False

/-- Exits with the slots of their final blocks. -/
inductive ExitCodes (T : Terms) (result : Ty) : List Exit → List Nest → Prop
  | nil : ExitCodes T result [] []
  | loop : ExitCodes T result es ns → ExitCodes T result (.loop stop next :: es) (.loop :: ns)
  | switch : ExitCodes T result es ns → ExitCodes T result (.switch stop :: es) (.switch :: ns)
  | guarded {scope : Label} {final : Option (Lowering Unit)} {n : Option Nat} :
      FinalCodes T result es final n → ExitCodes T result es ns →
      ExitCodes T result (.guarded scope final :: es) (.guarded n :: ns)

variable {P : List Nat → Prop} {k' : Nat} {exits left es : List Exit} {ns : List Nest}

theorem FinalCodes.getD (h : FinalCodes T result exits final n)
    (hP : ∀ ℓ, P ℓ → Exit.Level exits ℓ) :
    Coded T result P (n.getD 0) (final.getD (pure ())) 0 0 := by
  cases final <;> cases n
  · exact .pure fun _ _ => trivial
  · cases h
  · cases h
  · exact h P hP

theorem FinalCodes.saving (h : FinalCodes T result exits final n) :
    FinalCodes (T.saving slot t) result exits final n := by
  cases final <;> cases n
  · trivial
  · cases h
  · cases h
  · exact fun P hP => (h P hP).saving

namespace ExitCodes

theorem saving (h : ExitCodes T result es ns) : ExitCodes (T.saving slot t) result es ns := by
  induction h with
  | nil => exact .nil
  | loop _ ih => exact .loop ih
  | switch _ ih => exact .switch ih
  | guarded hfinal _ ih => exact .guarded hfinal.saving ih

theorem any_hasFinal (h : ExitCodes T result es ns) :
    es.any Exit.hasFinal = ns.any Nest.hasFinal := by
  induction h with
  | nil => rfl
  | loop _ ih | switch _ ih => exact ih
  | @guarded _ _ _ final n hfinal _ ih =>
    rw [List.any_cons, List.any_cons, ih]
    congr 1
    cases final <;> cases n <;> first | rfl | cases hfinal

theorem unwind {ms : List Nest} (h : ExitCodes T result (left ++ es) (ms ++ ns))
    (hlength : ms.length = left.length) (hP : ∀ ℓ, P ℓ → Exit.Level (left ++ es) ℓ) :
    Coded T result P (Nest.toReturn ms) (Exit.unwind left) 0 0 := by
  induction left generalizing ms P with
  | nil =>
    obtain rfl := List.length_eq_zero_iff.1 hlength
    exact .pure fun _ _ => trivial
  | cons e left ih =>
    obtain ⟨m, ms, rfl⟩ := List.exists_cons_of_length_eq_add_one hlength
    replace hlength : ms.length = left.length := Nat.succ.inj hlength
    cases h with
    | loop h =>
      have h := ih h hlength fun ℓ hℓ => (hP ℓ hℓ).2.2
      exact h
    | switch h =>
      have h := ih h hlength fun ℓ hℓ => (hP ℓ hℓ).2
      exact h
    | @guarded _ _ scope final n hfinal h =>
      rw [Exit.unwind_guarded]
      refine .ite (fun _ => ?_) fun hnone => ?_
      · refine .free (newLabel_codes 0) fun start => ?_
        refine .next (mark_codes fun _ h => h.2) (.seq (hfinal.getD fun ℓ h => hP ℓ h.1) ?_)
        exact .bind (ih h hlength fun ℓ h => hP ℓ h.1) fun _ => .pure fun _ _ => trivial
      · -- Without a final block on the way there is nothing to run.
        cases final with
        | some code => simp [Exit.hasFinal] at hnone
        | none =>
          cases n with
          | some n => cases hfinal
          | none =>
            rw [Nest.toReturn, Option.getD_none, Nat.zero_add]
            exact ih h hlength hP

theorem leave {ms : List Nest} {jump : Lowering Unit}
    (h : ExitCodes T result (left ++ es) (ms ++ ns)) (hlength : ms.length = left.length)
    (hP : ∀ ℓ, P ℓ → Exit.Level (left ++ es) ℓ) (hjump : Coded T result P 0 jump 0 k') :
    Coded T result P (Nest.toReturn ms) (Exit.leave left jump) 0 k' := by
  rw [Exit.leave_eq]
  refine .bind (j := 0) (h.unwind hlength hP) fun starts => ?_
  refine .next (hjump.given fun _ h => h.1) (.ite (fun _ => .pure fun _ _ => trivial) fun _ => ?_)
  refine .free (newLabel_codes k') fun stop => ?_
  exact .next (mark_codes fun _ h => h.2) addGaps_codes

theorem length_eq (h : ExitCodes T result es ns) : ns.length = es.length := by
  induction h with
  | nil => rfl
  | _ => simpa

theorem leaveAll {jump : Lowering Unit} (h : ExitCodes T result es ns)
    (hP : ∀ ℓ, P ℓ → Exit.Level es ℓ) (hjump : Coded T result P 0 jump 0 k') :
    Coded T result P (Nest.toReturn ns) (Exit.leave es jump) 0 k' := by
  have hlength := h.length_eq
  rw [← List.append_nil es, ← List.append_nil ns] at h
  exact h.leave hlength (by simpa using hP) hjump

end ExitCodes

/-- The exits on the way to a target at height zero, and the slots of their final blocks. -/
def Way (es : List Exit) (ns : List Nest) (found : Option (List Exit × Label)) (n : Nat) : Prop :=
  ∃ left target rest ms ns', found = some (left, target) ∧ es = left ++ rest ∧ ns = ms ++ ns' ∧
    ms.length = left.length ∧ Nest.toReturn ms = n ∧ ∀ ℓ, Exit.Level es ℓ → target.At 0 ℓ

namespace Way

variable {found : Option (List Exit × Label)} {n : Nat}

theorem here (h : ∀ ℓ, Exit.Level es ℓ → target.At 0 ℓ) : Way es ns (some ([], target)) 0 :=
  ⟨[], target, es, [], ns, rfl, rfl, rfl, rfl, rfl, h⟩

theorem outward (h : Way es ns found n) (e : Exit) (m : Nest)
    (hcost : ∀ ms, Nest.toReturn (m :: ms) = cost + Nest.toReturn ms)
    (hlevel : ∀ ℓ, Exit.Level (e :: es) ℓ → Exit.Level es ℓ) :
    Way (e :: es) (m :: ns) (found.map fun inner => (e :: inner.1, inner.2)) (cost + n) := by
  obtain ⟨left, target, rest, ms, ns', rfl, rfl, rfl, hlength, rfl, htarget⟩ := h
  exact ⟨e :: left, target, rest, m :: ms, ns', rfl, rfl, rfl, congrArg (· + 1) hlength, hcost ms,
    fun ℓ h => htarget ℓ (hlevel ℓ h)⟩

theorem codes (h : Way es ns found n) (hexits : ExitCodes T result es ns)
    (hP : ∀ ℓ, P ℓ → Exit.Level es ℓ) : ∃ left target, found = some (left, target) ∧
      Coded T result P n (Exit.leave left (branch .goto target)) 0 k' := by
  obtain ⟨left, target, rest, ms, ns', rfl, rfl, rfl, hlength, rfl, htarget⟩ := h
  exact ⟨left, target, rfl, hexits.leave hlength hP (goto_codes fun ℓ h => htarget ℓ (hP ℓ h))⟩

end Way

theorem ExitCodes.breakWay (h : ExitCodes T result es ns) :
    Exit.breakTarget? es = none ∧ ns.filterMap Nest.jump? = [] ∨
      Way es ns (Exit.breakTarget? es) (Nest.toBreak ns) := by
  induction h with
  | nil => exact .inl ⟨rfl, rfl⟩
  | loop => exact .inr (.here fun _ h => h.1)
  | switch => exact .inr (.here fun _ h => h.1)
  | @guarded _ _ scope final n hfinal _ ih =>
    rcases ih with ⟨hnone, hjumps⟩ | hway
    · exact .inl ⟨by simp [Exit.breakTarget?, hnone], hjumps⟩
    · exact .inr (hway.outward (.guarded scope final) (.guarded n) (fun _ => rfl) fun _ h => h)

theorem ExitCodes.continueWay (h : ExitCodes T result es ns) :
    Exit.continueTarget? es = none ∧ .loop ∉ ns.filterMap Nest.jump? ∨
      Way es ns (Exit.continueTarget? es) (Nest.toContinue ns) := by
  induction h with
  | nil => exact .inl ⟨rfl, nofun⟩
  | loop => exact .inr (.here fun _ h => h.2.1)
  | @switch _ _ stop _ ih =>
    rcases ih with ⟨hnone, hjumps⟩ | hway
    · exact .inl ⟨by simp [Exit.continueTarget?, hnone], by simpa [Nest.jump?] using hjumps⟩
    · rw [Nest.toContinue, ← Nat.zero_add (Nest.toContinue _)]
      exact .inr (hway.outward (.switch stop) .switch (fun _ => (Nat.zero_add _).symm) fun _ h =>
        h.2)
  | @guarded _ _ scope final n hfinal _ ih =>
    rcases ih with ⟨hnone, hjumps⟩ | hway
    · exact .inl ⟨by simp [Exit.continueTarget?, hnone], hjumps⟩
    · exact .inr (hway.outward (.guarded scope final) (.guarded n) (fun _ => rfl) fun _ h => h)

/-! ## Simple statements -/

variable {fr : Frame}

/-- Surroundings of the statements of a frame. -/
structure Env.Suits (T : Terms) (fr : Frame) (env : Env) (around : List Nest)
    (jumps : List JumpTarget) : Prop where
  hierarchy : env.hierarchy = fr.hierarchy
  result : env.result = fr.result
  proper : ∀ x ∈ fr.vars, x.2.isProper
  granted : T.strict → fr.Granted T.allowed
  countable : T.strict → Countable fr
  exits : ExitCodes T env.result env.exits around
  jumps : T.strict → jumps = around.filterMap Nest.jump?

variable {env : Env} {around : List Nest} {jumps : List JumpTarget}

section

variable (henv : env.Suits T fr around jumps)

include henv

namespace Env.Suits

theorem loop (stop next : Label) :
    (env.inside (.loop stop next)).Suits T fr (.loop :: around) (.loop :: jumps) :=
  { henv with
    exits := .loop henv.exits
    jumps := fun hT => congrArg _ (henv.jumps hT) }

theorem switch (stop : Label) :
    (env.inside (.switch stop)).Suits T fr (.switch :: around) (.switch :: jumps) :=
  { henv with
    exits := .switch henv.exits
    jumps := fun hT => congrArg _ (henv.jumps hT) }

theorem guarded
    (hfinal : FinalCodes T env.result env.exits final n) (start : Label) :
    (env.inside (.guarded start final)).Suits T fr (.guarded n :: around) jumps :=
  { henv with exits := .guarded hfinal henv.exits }

theorem expr (hx : Fair T s) (hs : e ∈ s.exprs)
    (he : e.SettledValue fr) {use : Use} (huse : use.Suits k e) (hmeets : use.Meets e)
    (hlands : ∀ ℓ, P ℓ → use.Lands k ℓ) :
    Coded T env.result P 0 (expr env.hierarchy use e) k (use.height k e) where
  balances := by
    rw [henv.hierarchy]
    exact expr_shifts henv.proper he.settled P use k huse hlands
  uses hT := expr_uses e (named_of_settled (fun v hv _ ho => (henv.granted hT).vars v hv _
    (Variable.allows_of_serves ho)) (henv.granted hT).self he.settled) use
  lowers hT := expr_runs (henv.countable hT) he.settled (hx.excused hT _ .self e hs) hmeets

theorem value (hx : Fair T s) (hs : e ∈ s.exprs)
    (he : e.SettledValue fr) (ht : e.ty.words = n) :
    Coded T env.result P 0 (Lowering.expr env.hierarchy .value e) 0 n := by
  rw [← ht, ← Nat.zero_add e.ty.words]
  exact henv.expr hx hs he trivial he.value fun _ _ => trivial

theorem test (hx : Fair T s) (hs : e ∈ s.exprs)
    (he : e.SettledTest fr) (sense : Bool) (htarget : ∀ ℓ, P ℓ → target.At 0 ℓ) :
    Coded T env.result P 0 (Lowering.expr env.hierarchy (.branch target sense) e) 0 0 :=
  henv.expr hx hs he.toSettledValue he.boolean he.value htarget

end Env.Suits

theorem initial_codes (hx : Fair T (.localsStmt line vars))
    (hmem : d ∈ vars) (hd : d.Settled fr) :
    Coded T env.result P 0 (initial env.hierarchy d) 0 0 := by
  obtain ⟨slot, hslot, hvar⟩ := hd.placed
  unfold initial
  cases hinit : d.init with
  | none => exact .pure fun _ _ => trivial
  | some e =>
    rw [hslot]
    have he := hd.init e hinit
    refine .next (henv.value hx (List.mem_filterMap.2 ⟨d, hmem, hinit⟩) he.toSettledValue
      (words_eq_of_fits he.fits)) ?_
    refine access_codes (access_shifts (storeOp_moves (ne_void_of_isProper (henv.proper _ hvar)))
      (Nat.le_refl _) (by omega)) (fun hT => ?_) fun hT => ?_
    · exact (henv.granted hT).vars _ hvar _ ⟨rfl, .inl (storeOp_serves _)⟩
    · rw [localWidth_storeOp]
      exact henv.countable hT _ hvar

theorem returnStmt_codes
    (hs : Stmt.Settled fr jumps (.returnStmt line value)) (hx : Fair T (.returnStmt line value))
    (hP : ∀ ℓ, P ℓ → Exit.Level env.exits ℓ) :
    Coded T env.result P ((Stmt.returnStmt line value).spills env.result.slots around)
      (returnStmt env value) 0 k' := by
  cases value with
  | none => exact henv.exits.leaveAll hP (return_codes .void)
  | some e =>
    obtain ⟨hvoid, he⟩ := hs
    have hwords : e.ty.words = env.result.words := by
      rw [henv.result]
      exact words_eq_of_fits he.fits
    rw [← henv.result] at hvoid
    rw [Stmt.spills, ← henv.exits.any_hasFinal]
    refine .next (henv.value hx (by simp [Stmt.exprs]) he.toSettledValue hwords) ?_
    by_cases hfinal : env.exits.any Exit.hasFinal
    · rw [if_pos hfinal, if_pos hfinal]
      refine .saved (.inl rfl) hvoid fun slot => ?_
      exact henv.exits.saving.leaveAll hP (.next (load_codes hvoid) (return_codes _))
    · rw [if_neg hfinal, if_neg hfinal]
      exact return_codes _

theorem breakStmt_codes (hjumps : jumps ≠ [])
    (hP : ∀ ℓ, P ℓ → Exit.Level env.exits ℓ) (line : Nat) :
    Coded T env.result P (Nest.toBreak around) (breakStmt env line) 0 k' := by
  rcases henv.exits.breakWay with ⟨hnone, hnil⟩ | hway
  · rw [breakStmt, hnone]
    exact fail_codes fun hT => hjumps ((henv.jumps hT).trans hnil)
  · obtain ⟨left, target, hfound, hcodes⟩ := hway.codes henv.exits hP
    rw [breakStmt, hfound]
    exact hcodes

theorem continueStmt_codes (hloop : .loop ∈ jumps)
    (hP : ∀ ℓ, P ℓ → Exit.Level env.exits ℓ) (line : Nat) :
    Coded T env.result P (Nest.toContinue around) (continueStmt env line) 0 k' := by
  rcases henv.exits.continueWay with ⟨hnone, hnot⟩ | hway
  · rw [continueStmt, hnone]
    exact fail_codes fun hT => hnot (henv.jumps hT ▸ hloop)
  · obtain ⟨left, target, hfound, hcodes⟩ := hway.codes henv.exits hP
    rw [continueStmt, hfound]
    exact hcodes

end

/-! ## Switches -/

theorem Targets.add_runs (t : Targets) (group : Label) {l : SwitchLabel} (hl : l.Settled fr) :
    Runs T.stops (t.add group l) := by
  cases l with
  | otherwise line => exact .pure trivial
  | case e =>
    obtain ⟨value, hvalue⟩ := Option.isSome_iff_exists.1 hl.2
    have hconstant : caseConstant e = .ok (some value) := by
      cases e with
      | literal n l =>
        simp only [SwitchLabel.value?] at hvalue
        split at hvalue
        case h_1 heq =>
          subst hvalue
          exact heq
        case h_2 => cases hvalue
      | _ => cases hvalue
    refine .after (ofExcept_runs hconstant) fun v hv => ?_
    rw [hv]
    exact .pure trivial

theorem Targets.addGroups_runs :
    ∀ (t : Targets) groups, (∀ labels ∈ groups, ∀ l ∈ labels, l.Settled fr) →
    Lowers T.stops 0 (t.addGroups groups) fun r => r.2.length = groups.length
  | t, [], _ => .pure rfl
  | t, labels :: groups, h => by
    refine .after newLabel_runs fun group _ => ?_
    have hlabels : ∀ (labels : List SwitchLabel) (t : Targets), (∀ l ∈ labels, l.Settled fr) →
        Runs T.stops (labels.foldlM (fun t l => t.add group l) t) := by
      intro labels
      induction labels with
      | nil => exact fun _ _ => .pure trivial
      | cons l labels ih =>
        intro t hl
        rw [List.foldlM_cons]
        exact .after (t.add_runs group (hl l (by simp))) fun t' _ =>
          ih t' fun l' hl' => hl l' (by simp [hl'])
    refine .after (hlabels labels t (h labels (by simp))) fun t' _ => ?_
    refine .after (addGroups_runs t' groups fun ls hls => h ls (by simp [hls])) fun r hr => ?_
    exact .pure (congrArg (· + 1) hr)

theorem Targets.addGroups_balances {t : Targets} (groups : List (List SwitchLabel))
    (hP : ∀ ℓ, P ℓ → ∀ l ∈ t.labels, l.At 0 ℓ) :
    Balances P (t.addGroups groups) k k fun ℓ r =>
      r.2.length = groups.length ∧ ∀ l ∈ r.1.labels ++ r.2, l.At 0 ℓ := by
  intro s a hrun heights hlength hheights
  obtain ⟨ha, hcreated, hlabels⟩ := addGroups_eq_ok hrun
  have hnew : ∀ l ∈ a.value.2, l.At 0 (heights ++ List.replicate groups.length 0) := by
    intro l hl
    rw [hcreated, mem_created] at hl
    rw [Label.At, List.getElem?_append_right (by omega), List.getElem?_replicate_of_lt (by omega)]
  refine ⟨heights ++ List.replicate groups.length 0, List.prefix_append _ _, ?_, ?_, ?_,
    fun more hmore => ⟨by simp [hcreated, created], fun l hl => ?_⟩⟩
  · rw [ha]
    simp [hlength]
  · rw [ha]
    exact .nil
  · rw [ha]
    simp
  · rcases List.mem_append.1 hl with hl | hl
    · rcases List.mem_append.1 (hlabels hl) with hl | hl
      · exact hP more (hheights more ((List.prefix_append _ _).trans hmore)) l hl
      · exact (hnew l hl).mono hmore
    · exact (hnew l hl).mono hmore

theorem addGroups_uses (t : Targets) (groups : List (List SwitchLabel)) :
    Uses result T.allowed (t.addGroups groups) := by
  intro bound _ s a _ hrun
  rw [(Targets.addGroups_eq_ok hrun).1]
  exact ⟨[], rfl, .unused (by simp)⟩

theorem addGroups_codes {t : Targets} {groups : List (List SwitchLabel)}
    {f : Targets × List Label → Lowering Unit} (hP : ∀ ℓ, P ℓ → ∀ l ∈ t.labels, l.At 0 ℓ)
    (hsettled : ∀ labels ∈ groups, ∀ l ∈ labels, l.Settled fr)
    (hf : ∀ r, r.2.length = groups.length →
      Coded T result (fun ℓ => P ℓ ∧ ∀ l ∈ r.1.labels ++ r.2, l.At 0 ℓ) n (f r) k k') :
    Coded T result P n (t.addGroups groups >>= f) k k' where
  balances := (Targets.addGroups_balances groups hP).bind fun r => .known (fun _ h => h.2.1)
    fun hr => (hf r hr).balances.given fun _ h => ⟨h.1, h.2.2⟩
  uses hT := (addGroups_uses t groups).bind_of_run fun s a hrun => (hf a.value (by
    simp [(Targets.addGroups_eq_ok hrun).2.1, created])).uses hT
  lowers hT := .after (Targets.addGroups_runs t groups hsettled) fun r hr => (hf r hr).lowers hT

theorem dispatch_codes {t : Targets} (hP : ∀ ℓ, P ℓ → ∀ l ∈ t.labels, l.At 0 ℓ) :
    Coded T result P 0 (instr t.dispatch) 1 k' := by
  have hdispatch : t.dispatch.effect = some (1, 0) ∧ t.dispatch.opcode.fallsThrough = false ∧
      t.dispatch.localUse? = none := by
    unfold Targets.dispatch
    dsimp only
    split <;> exact ⟨rfl, rfl, rfl⟩
  obtain ⟨heffect, hfalls, huse⟩ := hdispatch
  refine instr_codes (instr_shifts heffect (Nat.le_refl 1) ?_ ?_) huse
  · exact fun l hl ℓ h => hP ℓ h l (t.dispatch_targets hl)
  · rw [hfalls]
    intro h
    cases h

/-! ## Guarded blocks -/

theorem blockEnd_codes (hfinal : FinalCodes T result exits final n)
    (hP : ∀ ℓ, P ℓ → Exit.Level exits ℓ) (hdone : ∀ ℓ, P ℓ → done.At 0 ℓ) :
    Coded T result P (endSpills abrupt n) (blockEnd abrupt final done) (if abrupt then k' else 0)
      k' := by
  cases abrupt with
  | true => exact .pure fun _ _ => trivial
  | false => exact .last (hfinal.getD hP) (goto_codes hdone)

theorem finalHandler?_codes (hfinal : FinalCodes T result exits final n)
    (hP : ∀ ℓ, P ℓ → Exit.Level exits ℓ) (ranges : List (Label × Label)) :
    Coded T result P (handlerSpills n) (finalHandler? ranges final)
      (if final.isSome then 1 else 0) 0 := by
  cases final <;> cases n
  · exact .pure fun _ _ => trivial
  · cases hfinal
  · cases hfinal
  · refine .free (newLabel_codes 1) fun target => ?_
    refine .next (mark_codes fun _ h => h.2) (.next (guard_codes fun _ h => h.2) ?_)
    refine .saved (t := .object) (.inr rfl) nofun fun slot => ?_
    exact .last (hfinal _ fun ℓ h => hP ℓ h.1).saving (.next (load_codes nofun) athrow_codes)

/-- A handler whose variable may be stored, with fair statements. -/
structure FairCatch (T : Terms) (c : CatchClause Stmt) : Prop where
  body : ∀ s ∈ c.body.stmts, Fair T s
  param : T.strict → ∀ slot ∈ c.param.slot, T.allowed (.astore, slot)

theorem Fair.clause (h : Fair T (.tryStmt line body catches final)) :
    ∀ c ∈ catches, FairCatch T c := by
  refine fun c hc => ⟨fun s hs => h.child ?_, fun hT slot hslot => ?_⟩
  · simp only [Stmt.children, List.mem_append, List.mem_flatMap]
    exact .inl (.inr ⟨c, hc, hs⟩)
  · refine h.granted hT { c.param.variable with caught := true } ?_ _ ⟨hslot, .inr ⟨rfl, rfl⟩⟩
    simp only [Stmt.variables, catchesVariables_eq, List.mem_append, List.mem_flatMap]
    exact .inl (.inr ⟨c, hc, by simp⟩)

/-- The height where handlers start, if there are any, or else behind them. -/
def handlerHeight (catches : List (CatchClause Stmt)) (k : Nat) : Nat :=
  if catches.isEmpty then k else 1

/-! ## Statements -/

mutual

theorem stmt_codes : ∀ s {env : Env} {around jumps}, env.Suits T fr around jumps →
    s.Settled fr jumps → Fair T s → ∀ {P k'},
      (∀ ℓ, P ℓ → Exit.Level env.exits ℓ) → (s.endsAbruptly = false → k' = 0) →
        Coded T env.result P (s.spills env.result.slots around) (stmt env s) 0 k'
  | .blockStmt body, _, _, _, henv, hs, hx, _, _, hP, hk =>
    block_codes body henv hs (fun c hc => hx.child hc) hP hk
  | .ifStmt line test thenBranch none, _, _, _, henv, hs, hx, P, k', hP, hk => by
    obtain ⟨htest, hthen, -⟩ := hs
    obtain rfl := hk (by simp [Stmt.endsAbruptly, Stmt.elseEndsAbruptly])
    rw [stmt_if_none]
    refine .free (newLabel_codes 0) fun stop => ?_
    refine .next (henv.test hx (by simp [Stmt.exprs]) htest false fun _ h => h.2) ?_
    refine .last (stmt_codes thenBranch henv hthen (hx.child (by simp [Stmt.children]))
      (fun ℓ h => hP ℓ h.1) fun _ => rfl) ?_
    exact mark_codes fun _ h => h.2
  | .ifStmt line test thenBranch (some elseBranch), env, _, _, henv, hs, hx, P, k', hP, hk => by
    obtain ⟨htest, hthen, helse⟩ := hs
    rw [stmt_if_some]
    refine .free (newLabel_codes k') fun stop => .free (newLabel_codes 0) fun otherwise => ?_
    refine .next (henv.test hx (by simp [Stmt.exprs]) htest false fun _ h => h.2) ?_
    refine .seq (stmt_codes thenBranch henv hthen (hx.child (by simp [Stmt.children]))
      (fun ℓ h => hP ℓ h.1.1) fun _ => rfl) ?_
    have hjump : Coded T env.result (fun ℓ => (P ℓ ∧ stop.At k' ℓ) ∧ otherwise.At 0 ℓ) 0
        (if thenBranch.endsAbruptly then pure () else branch .goto stop) 0 0 := by
      refine .ite (fun _ => .pure fun _ _ => trivial) fun habrupt => ?_
      obtain rfl := hk (by simp [Stmt.endsAbruptly, habrupt])
      exact goto_codes fun _ h => h.1.2
    refine .next hjump (.next (mark_codes fun _ h => h.2) ?_)
    have helseAbrupt : elseBranch.endsAbruptly = false → k' = 0 := fun h =>
      hk (by simp [Stmt.endsAbruptly, Stmt.elseEndsAbruptly, h])
    refine .last (stmt_codes elseBranch henv helse (hx.child (by simp [Stmt.children]))
      (fun ℓ h => hP ℓ h.1.1) helseAbrupt) ?_
    exact mark_codes fun _ h => h.1.2
  | .whileStmt line test body, _, _, _, henv, hs, hx, P, k', hP, hk => by
    obtain rfl := hk rfl
    refine .free (newLabel_codes 0) fun top => .free (newLabel_codes 0) fun stop => ?_
    refine .next (mark_codes fun _ h => h.1.2) ?_
    refine .next (henv.test hx (by simp [Stmt.exprs]) hs.1 false fun _ h => h.2) ?_
    refine .last (stmt_codes body (henv.loop stop top) hs.2 (hx.child (by simp [Stmt.children]))
      (fun ℓ h => ⟨h.2, h.1.2, hP ℓ h.1.1⟩) fun _ => rfl) ?_
    exact .next (m := 0) (goto_codes fun _ h => h.1.2) (mark_codes fun _ h => h.2)
  | .doStmt line body test, _, _, _, henv, hs, hx, P, k', hP, hk => by
    obtain rfl := hk rfl
    refine .free (newLabel_codes 0) fun top => .free (newLabel_codes 0) fun next => ?_
    refine .free (newLabel_codes 0) fun stop => .next (mark_codes fun _ h => h.1.1.2) ?_
    refine .last (stmt_codes body (henv.loop stop next) hs.1 (hx.child (by simp [Stmt.children]))
      (fun ℓ h => ⟨h.2, h.1.2, hP ℓ h.1.1.1⟩) fun _ => rfl) ?_
    refine .next (mark_codes fun _ h => h.1.2) ?_
    refine .next (henv.test hx (by simp [Stmt.exprs]) hs.2 true fun _ h => h.1.1.2) ?_
    exact mark_codes fun _ h => h.2
  | .forStmt line init test update body, env, _, _, henv, hs, hx, P, k', hP, hk => by
    obtain ⟨hinit, htest, hupdate, hbody⟩ := hs
    obtain rfl := hk rfl
    rw [stmt_for]
    refine .seq (stmts_codes init henv hinit (fun c hc => hx.child (by simp [Stmt.children, hc]))
      hP fun _ => rfl) ?_
    refine .free (newLabel_codes 0) fun top => .free (newLabel_codes 0) fun next => ?_
    refine .free (newLabel_codes 0) fun stop => .next (mark_codes fun _ h => h.1.1.2) ?_
    refine .next (m := 0) ?_ ?_
    · cases test with
      | some e => exact henv.test hx (by simp [Stmt.exprs]) (htest e rfl) false fun _ h => h.2
      | none => exact .pure fun _ _ => trivial
    refine .seq (stmt_codes body (henv.loop stop next) hbody (hx.child (by simp [Stmt.children]))
      (fun ℓ h => ⟨h.2, h.1.2, hP ℓ h.1.1.1⟩) fun _ => rfl) ?_
    refine .next (mark_codes fun _ h => h.1.2) ?_
    refine .last (stmts_codes update henv hupdate (fun c hc => hx.child (by
      simp [Stmt.children, hc])) (fun ℓ h => hP ℓ h.1.1.1) fun _ => rfl) ?_
    exact .next (m := 0) (goto_codes fun _ h => h.1.1.2) (mark_codes fun _ h => h.2)
  | .switchStmt line value groups, _, _, _, henv, hs, hx, P, k', hP, hk => by
    obtain ⟨hvalue, hint, hlabels, hgroups⟩ := hs
    obtain rfl := hk rfl
    have heach : ∀ labels ∈ groups.map SwitchGroup.labels, ∀ l ∈ labels, l.Settled fr := by
      intro labels hl l hmem
      obtain ⟨g, hg, rfl⟩ := List.mem_map.1 hl
      exact hlabels.each l (List.mem_flatMap.2 ⟨g, hg, hmem⟩)
    have hwords : value.ty.words = 1 := by rw [← words_promoted, hint]; rfl
    refine .next (henv.value hx (by simp [Stmt.exprs]) hvalue hwords) ?_
    refine .free (newLabel_codes 0) fun stop => ?_
    refine addGroups_codes (fun ℓ h => List.forall_mem_singleton.2 h.2) heach fun r hr => ?_
    refine .next (m := 0) (dispatch_codes fun ℓ h l hl => h.2 l (by simp [hl])) ?_
    refine .last (switchGroups_codes groups (henv.switch stop) hgroups (fun g hg c hc => hx.child
      (List.mem_flatMap.2 ⟨g, hg, hc⟩)) (by rw [hr, List.length_map])
      (fun ℓ h => ⟨h.1.2, hP ℓ h.1.1⟩) fun ℓ h l hl => h.2 l (by simp [hl])) ?_
    exact mark_codes fun _ h => h.1.2
  | .tryStmt line body catches final, env, around, _, henv, hs, hx, P, k', hP, hk => by
    obtain ⟨hbody, hcatches, hfinal⟩ := hs
    obtain rfl := hk rfl
    have hfinal := finalBlock_codes final henv hfinal fun b hb c hc => hx.child (by
      simp only [Stmt.children, List.mem_append, List.mem_flatMap]
      exact .inr ⟨b, Option.mem_toList.2 hb, hc⟩)
    -- The block is followed by the first handler, or else by the end of the statement.
    let next := handlerHeight catches (if (finalBlock env final).isSome then 1 else 0)
    rw [stmt_try]
    refine .free (newLabel_codes 0) fun start => ?_
    let blockHeight := if Stmt.blockEndsAbruptly body then next else 0
    refine .free (newLabel_codes blockHeight) fun stop => .free (newLabel_codes 0) fun done => ?_
    refine .next (mark_codes fun _ h => h.1.1.2) ?_
    refine .bind (m := blockHeight) (takeGaps_codes (block_codes body (henv.guarded hfinal start)
      hbody (fun c hc => hx.child (by simp [Stmt.children, hc])) (fun ℓ h => hP ℓ h.1.1.1)
      fun habrupt => by simp [blockHeight, habrupt])) fun gaps => ?_
    refine .next (mark_codes fun _ h => h.1.1.2) ?_
    refine .seq (blockEnd_codes hfinal (fun ℓ h => hP ℓ h.1.1.1.1) fun _ h => h.1.2) ?_
    refine .bind (catchClauses_codes catches henv hcatches hx.clause hfinal
      (fun ℓ h => hP ℓ h.1.1.1.1) (fun _ h => h.1.2) _) fun more => ?_
    refine .last (finalHandler?_codes hfinal (fun ℓ h => hP ℓ h.1.1.1.1.1) _) ?_
    exact mark_codes fun _ h => h.1.1.2
  | .throwStmt line e, _, _, _, henv, hs, hx, P, _, _, _ =>
    .next (henv.value hx (by simp [Stmt.exprs]) hs.1 (words_of_isReference hs.2)) athrow_codes
  | .returnStmt line value, _, _, _, henv, hs, hx, _, _, hP, _ => returnStmt_codes henv hs hx hP
  | .breakStmt line, _, _, _, henv, hs, _, _, _, hP, _ => breakStmt_codes henv hs hP line
  | .continueStmt line, _, _, _, henv, hs, _, _, _, hP, _ => continueStmt_codes henv hs hP line
  | .emptyStmt line, _, _, _, _, _, _, _, _, _, hk => by
    obtain rfl := hk rfl
    exact .pure fun _ _ => trivial
  | .exprStmt line e, _, _, _, henv, hs, hx, P, _, _, hk => by
    obtain rfl := hk rfl
    exact henv.expr hx (by simp [Stmt.exprs]) hs trivial hs.value fun _ _ => trivial
  | .localsStmt line vars, _, _, _, henv, hs, hx, _, _, _, hk => by
    obtain rfl := hk rfl
    exact .forM fun d hd => initial_codes henv hx hd (hs d hd)

theorem stmts_codes : ∀ ss {env : Env} {around jumps}, env.Suits T fr around jumps →
    StmtsSettled fr jumps ss → (∀ s ∈ ss, Fair T s) → ∀ {P k'},
      (∀ ℓ, P ℓ → Exit.Level env.exits ℓ) → (Stmt.listEndsAbruptly ss = false → k' = 0) →
        Coded T env.result P (stmtsSpills env.result.slots around ss) (stmts env ss) 0 k'
  | [], _, _, _, _, _, _, _, _, _, hk => by
    obtain rfl := hk rfl
    exact .pure fun _ _ => trivial
  | s :: ss, _, _, _, henv, hs, hx, _, k', hP, hk => by
    refine .seq (m := if ss.isEmpty then k' else 0) (stmt_codes s henv hs.1 (hx s (by simp)) hP ?_)
      ?_
    · intro habrupt
      split
      · exact hk (by simp [Stmt.listEndsAbruptly, *])
      · rfl
    · cases ss with
      | nil => exact .pure fun _ _ => trivial
      | cons s' ss => exact stmts_codes (s' :: ss) henv hs.2 (fun t ht => hx t (by simp [ht])) hP hk

theorem block_codes : ∀ b {env : Env} {around jumps}, env.Suits T fr around jumps →
    BlockSettled fr jumps b → (∀ s ∈ b.stmts, Fair T s) → ∀ {P k'},
      (∀ ℓ, P ℓ → Exit.Level env.exits ℓ) → (Stmt.blockEndsAbruptly b = false → k' = 0) →
        Coded T env.result P (blockSpills env.result.slots around b) (block env b) 0 k'
  | ⟨_, body⟩, _, _, _, henv, hs, hx, _, _, hP, hk => stmts_codes body henv hs hx hP hk

theorem finalBlock_codes : ∀ final {env : Env} {around jumps}, env.Suits T fr around jumps →
    FinalSettled fr jumps final → (∀ b ∈ final, ∀ s ∈ b.stmts, Fair T s) →
      FinalCodes T env.result env.exits (finalBlock env final)
        (finalSpills env.result.slots around final)
  | none, _, _, _, _, _, _ => trivial
  | some body, _, _, _, henv, hs, hx => fun _ hP =>
    block_codes body henv hs (hx body rfl) hP fun _ => rfl

theorem switchGroups_codes : ∀ gs {env : Env} {around jumps}, env.Suits T fr around jumps →
    GroupsSettled fr jumps gs → (∀ g ∈ gs, ∀ s ∈ g.stmts, Fair T s) → ∀ {labels : List Label},
      labels.length = gs.length → ∀ {P}, (∀ ℓ, P ℓ → Exit.Level env.exits ℓ) →
        (∀ ℓ, P ℓ → ∀ l ∈ labels, l.At 0 ℓ) →
          Coded T env.result P (groupsSpills env.result.slots around gs)
            (switchGroups env labels gs) 0 0
  | [], _, _, _, _, _, _, [], _, _, _, _ => .pure fun _ _ => trivial
  | g :: gs, _, _, _, henv, hs, hx, l :: ls, hlength, _, hP, hlabels => by
    refine .next (mark_codes fun ℓ h => hlabels ℓ h l (by simp)) ?_
    refine .seq (switchGroup_codes g henv hs.1 (hx g (by simp)) hP) ?_
    exact switchGroups_codes gs henv hs.2 (fun g' hg' => hx g' (by simp [hg']))
      (Nat.succ.inj hlength) hP fun ℓ h l' hl' => hlabels ℓ h l' (by simp [hl'])

theorem switchGroup_codes : ∀ g {env : Env} {around jumps}, env.Suits T fr around jumps →
    GroupSettled fr jumps g → (∀ s ∈ g.stmts, Fair T s) → ∀ {P},
      (∀ ℓ, P ℓ → Exit.Level env.exits ℓ) →
        Coded T env.result P (groupSpills env.result.slots around g) (switchGroup env g) 0 0
  | ⟨_, body⟩, _, _, _, henv, hs, hx, _, hP => stmts_codes body henv hs hx hP fun _ => rfl

theorem catchClause_codes : ∀ c {env : Env} {around jumps}, env.Suits T fr around jumps →
    CatchSettled fr jumps c → FairCatch T c → ∀ {final n},
      FinalCodes T env.result env.exits final n → ∀ {P} {done : Label},
        (∀ ℓ, P ℓ → Exit.Level env.exits ℓ) → (∀ ℓ, P ℓ → done.At 0 ℓ) → ∀ {guarded} k',
          Coded T env.result P (catchSpills env.result.slots around n c)
            (catchClause env final guarded done c) 1 k'
  | ⟨line, param, body⟩, env, _, _, henv, hs, hx, _, _, hfinal, P, done, hP, hdone, _, k' => by
    obtain ⟨⟨slot, hslot, hmem⟩, hbody⟩ := hs
    have hfits (hT : T.strict) : slot + 1 ≤ maxSlots :=
      Nat.le_trans (Nat.add_le_add_left (Nat.le_max_right _ _) slot) (henv.countable hT _ hmem)
    rw [catchClause_eq hslot]
    refine .free (newLabel_codes 1) fun target => .next (mark_codes fun _ h => h.2) ?_
    refine .next (guard_codes fun _ h => h.2) ?_
    refine .next (m := 0) (access_codes (access_shifts ⟨rfl, rfl⟩ (Nat.le_refl 1) rfl)
      (fun hT => hx.param hT slot hslot) hfits) ?_
    refine .free (newLabel_codes 0) fun start => ?_
    let blockHeight := if Stmt.blockEndsAbruptly body then k' else 0
    refine .free (newLabel_codes blockHeight) fun stop => .next (mark_codes fun _ h => h.1.2) ?_
    refine .bind (m := blockHeight) (takeGaps_codes (block_codes body (henv.guarded hfinal start)
      hbody hx.body (fun ℓ h => hP ℓ h.1.1.1) fun habrupt => by
        simp [blockHeight, habrupt])) fun gaps => ?_
    refine .next (mark_codes fun _ h => h.1.2) ?_
    refine .last (blockEnd_codes hfinal (fun ℓ h => hP ℓ h.1.1.1.1) fun ℓ h =>
      hdone ℓ h.1.1.1.1) ?_
    exact .pure fun _ _ => trivial

theorem catchClauses_codes : ∀ cs {env : Env} {around jumps}, env.Suits T fr around jumps →
    CatchesSettled fr jumps cs → (∀ c ∈ cs, FairCatch T c) → ∀ {final n},
      FinalCodes T env.result env.exits final n → ∀ {P} {done : Label},
        (∀ ℓ, P ℓ → Exit.Level env.exits ℓ) → (∀ ℓ, P ℓ → done.At 0 ℓ) → ∀ {guarded} k',
          Coded T env.result P (catchesSpills env.result.slots around n cs)
            (catchClauses env final guarded done cs) (handlerHeight cs k') k'
  | [], _, _, _, _, _, _, _, _, _, _, _, _, _, _, _ => .pure fun _ _ => trivial
  | c :: cs, _, _, _, henv, hs, hx, _, _, hfinal, _, _, hP, hdone, _, k' => by
    refine .bind (m := handlerHeight cs k') (catchClause_codes c henv hs.1 (hx c (by simp)) hfinal
      hP hdone _) fun own => ?_
    refine .bind (j := 0) (catchClauses_codes cs henv hs.2 (fun c' hc' => hx c' (by simp [hc']))
      hfinal (fun ℓ h => hP ℓ h.1) (fun ℓ h => hdone ℓ h.1) k') fun others => ?_
    exact .pure fun _ _ => trivial

end

end Lowering

end JMinusMinus
