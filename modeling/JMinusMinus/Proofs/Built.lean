import JMinusMinus.Proofs.Equations
import JMinusMinus.Proofs.Generate
import JMinusMinus.Proofs.Labels.Basic

/-!
# How the code of expressions is built

The code of an expression is built of instructions, of jumps to labels that are known, and of
labels that are created and marked around parts of it (`Built`). Building stops only for the
reasons that are given, and uses only the local slots that are allowed. What holds of all code that
is built holds of the code of every expression (`expr_built`): it marks the labels that it creates
(`expr_closed`), and what it stops for and which slots it uses is read off in the same way.

An expression that is settled leaves fewer reasons to stop. So a condition `S` is carried along,
under which the expression is settled, and under which the reasons are to hold.
-/

namespace JMinusMinus

open Lowering (loadOp storeOp)

/-! ## Uses of local slots -/

namespace Opcode

theorem longForm?_shortForm {o : Opcode} (h : o.shortForm? slot = some short) :
    short.longForm? = some (o, slot) := by
  unfold shortForm? shortForms at h
  split at h
  case h_9 => cases h
  all_goals
    match slot, h with
    | 0, h | 1, h | 2, h | 3, h =>
      cases h
      rfl
    | n + 4, h => cases h

end Opcode

/-- The use of a local slot by an instruction: which load, store or step, and of which slot. -/
def Instruction.localUse? : Instruction → Option (Opcode × Nat)
  | .plain o => o.longForm?
  | .localVar o slot => some (o, slot)
  | .step slot _ => some (.iinc, slot)
  | _ => none

/-- An instruction that uses no slot and does not jump. -/
def Instruction.IsPlain (i : Instruction) : Prop := i.localUse? = none ∧ i.targets = []

/-- The loads, stores and steps of a variable of a type. -/
def Opcode.Serves (t : Ty) (o : Opcode) : Prop :=
  match t with
  | .int => o = .iload ∨ o = .istore ∨ o = .iinc
  | .char | .boolean => o = .iload ∨ o = .istore
  | .long => o = .lload ∨ o = .lstore
  | .double => o = .dload ∨ o = .dstore
  | _ => o = .aload ∨ o = .astore

/-- The opcode that loads a type is of its family. -/
theorem loadOp_serves (t : Ty) : (loadOp t).Serves t := by
  cases t <;> exact .inl rfl

/-- The opcode that stores a type is of its family. -/
theorem storeOp_serves (t : Ty) : (storeOp t).Serves t := by
  cases t <;> first | exact .inr rfl | exact .inr (.inl rfl)

/-- The creation of an array with more lengths than an instruction can count. -/
def Expr.isDeepCreation : Expr → Bool
  | .newArray _ _ dims => 255 < dims.length
  | _ => false

namespace Lowering

/-! ## Code -/

/-- The terms on which code is built. -/
structure Terms where
  /-- Whether the tree is known to be settled. -/
  strict : Prop
  /-- What may stop the code of a settled tree. -/
  stops : Failure → Prop
  allowed : Opcode × Nat → Prop

/-- Code that is built of instructions and of labels around its parts. -/
inductive Built (T : Terms) : List Label → {α : Type} → Lowering α → Prop
  | pure {a : α} : Built T known (pure a)
  | bind {f : α → Lowering β} : Built T known x → (∀ a, Built T known (f a)) →
    Built T known (x >>= f)
  | failWith : (T.strict → T.stops f) → Built T known (failWith f : Lowering α)
  | instr {i : Instruction} : i.localUse? = none → (∀ l ∈ i.targets, l ∈ known) →
    Built T known (instr i)
  | access : T.allowed (o, slot) → Built T known (access o slot)
  | stepLocal : T.allowed (.iinc, slot) → Built T known (stepLocal slot delta)
  /-- A part that may jump to its end. -/
  | skip {x : Label → Lowering Unit} : (∀ l, Built T (l :: known) (x l)) →
    Built T known (do
      let l ← newLabel
      x l
      mark l)
  /-- Two parts, the first of which may jump to the second, or to the end. -/
  | choice {x y : Label → Label → Lowering Unit} :
    (∀ l l', Built T (l :: l' :: known) (x l l')) → (∀ l l', Built T (l' :: known) (y l l')) →
    Built T known (do
      let l ← newLabel
      let l' ← newLabel
      x l l'
      mark l
      y l l'
      mark l')

section

variable {α β : Type} {T : Terms} {known : List Label}

theorem Built.ite {p : Prop} [Decidable p] {x y : Lowering α}
    (hx : p → Built T known x) (hy : ¬p → Built T known y) :
    Built T known (if p then x else y) := by
  split
  · exact hx ‹_›
  · exact hy ‹_›

theorem Built.forM {f : α → Lowering Unit} : ∀ {xs : List α}, (∀ x ∈ xs, Built T known (f x)) →
      Built T known (xs.forM f)
  | [], _ => .pure
  | x :: xs, h => (h x (by simp)).bind fun _ => forM fun y hy => h y (by simp [hy])

theorem failWith_bind (e : Failure) (f : α → Lowering β) : failWith e >>= f = failWith e := rfl

theorem ofExcept_built {f : α → Lowering β} (he : T.strict → ∃ a, e = .ok a)
    (hf : ∀ a, e = .ok a → Built T known (f a)) : Built T known (ofExcept e >>= f) := by
  cases e with
  | ok a =>
    rw [ofExcept, pure_bind]
    exact hf a rfl
  | error fault =>
    rw [ofExcept, failWith_bind]
    refine .failWith fun hS => ?_
    obtain ⟨a, ha⟩ := he hS
    cases ha

theorem plain_built {i : Instruction} (h : i.IsPlain) : Built T known (instr i) :=
  .instr h.1 (by simp [h.2])

theorem op_built {o : Opcode} (h : o.longForm? = none) : Built T known (op o) := .instr h nofun

theorem member_built (o : Opcode) (owner name descriptor : String) :
    Built T known (member o owner name descriptor) :=
  .instr rfl nofun

theorem reference_built (o : Opcode) (type : String) : Built T known (reference o type) :=
  .instr rfl nofun

theorem branch_built (o : Opcode) (h : l ∈ known) : Built T known (branch o l) :=
  .instr rfl fun _ hl => List.mem_singleton.1 hl ▸ h

/-! ## Constants and conversions -/

theorem longForm?_byType {int long double : Opcode} (hint : int.longForm? = none)
    (hlong : long.longForm? = none) (hdouble : double.longForm? = none) (t : Ty) :
    (byType int long double t).longForm? = none := by
  unfold byType
  split
  · exact hlong
  · exact hdouble
  · exact hint

theorem longForm?_binaryOp (o : BinaryOp) (t : Ty) : (binaryOp o t).longForm? = none := by
  cases o
  all_goals first | exact longForm?_byType rfl rfl rfl t | rfl

theorem longForm?_elementLoadOp (t : Ty) : (elementLoadOp t).longForm? = none := by
  cases t <;> rfl

theorem longForm?_elementStoreOp (t : Ty) : (elementStoreOp t).longForm? = none := by
  cases t <;> rfl

theorem longForm?_copyUnder (words : Nat) (t : Ty) : (copyUnder words t).longForm? = none := by
  unfold copyUnder
  split <;> rfl

theorem longForm?_conversionOps (source target : Ty) :
    ∀ o ∈ conversionOps source target, o.longForm? = none := by
  unfold conversionOps
  split <;> simp <;> decide

theorem longForm?_dropOps (words : Nat) : ∀ o ∈ dropOps words, o.longForm? = none := by
  unfold dropOps
  split <;> simp <;> decide

theorem longForm?_smallInt (h : smallInt? value = some o) : o.longForm? = none := by
  unfold smallInt? at h
  repeat' split at h
  all_goals cases h
  all_goals rfl

theorem intLoad_isPlain (value : Int) : (intLoad value).IsPlain := by
  unfold intLoad
  split
  next o ho => exact ⟨longForm?_smallInt ho, rfl⟩
  next =>
    repeat' split
    all_goals exact ⟨rfl, rfl⟩

theorem longLoad_isPlain (value : Int) : (longLoad value).IsPlain := by
  unfold longLoad
  repeat' split
  all_goals exact ⟨rfl, rfl⟩

theorem doubleLoad_isPlain (value : Binary64) : (doubleLoad value).IsPlain := by
  unfold doubleLoad
  repeat' split
  all_goals exact ⟨rfl, rfl⟩

theorem widened?_isPlain (h : widened? target e = .ok (some load)) : load.IsPlain := by
  unfold widened? at h
  split at h
  case h_3 => cases h
  all_goals
    obtain ⟨value, -, h⟩ := exists_of_bind_eq_ok h
    split at h
    · cases h
      exact longLoad_isPlain _
    · cases h
      exact doubleLoad_isPlain _
    · cases h

theorem pushInt_built (value : Int) : Built T known (pushInt value) :=
  plain_built (intLoad_isPlain value)

theorem intValue_of_isValid {l : Literal} (h : l.isValid = .ok true) (hl : l.ty.promoted = .int) :
    ∃ value, l.intValue = .ok (some value) := by
  have hsome : ∀ {e : Except Fault (Option Int)},
      (do return (← e).isSome) = Except.ok true → ∃ value, e = .ok (some value) := by
    intro e he
    cases e with
    | error f => cases he
    | ok value =>
      cases value with
      | none => cases he
      | some value => exact ⟨value, rfl⟩
  cases l with
  | int image | char image => exact hsome h
  | _ => cases hl

theorem literal_built (line : Nat) {l : Literal} (h : T.strict → l.isValid = .ok true) :
    Built T known (literal line l) := by
  cases l with
  | int image | char image =>
    have hvalid := fun hS => intValue_of_isValid (h hS) rfl
    refine ofExcept_built (fun hS => (hvalid hS).elim fun v hv => ⟨_, hv⟩) fun value hvalue => ?_
    cases value with
    | some value => exact pushInt_built value
    | none =>
      refine .failWith fun hS => ?_
      obtain ⟨v, hv⟩ := hvalid hS
      cases hvalue.symm.trans hv
  | long image =>
    simp only [literal]
    split
    next => exact plain_built (longLoad_isPlain _)
    next hnone => exact .failWith fun hS => by simp [Literal.isValid, hnone] at h; exact absurd hS h
  | double image =>
    simp only [literal]
    split
    next => exact plain_built (doubleLoad_isPlain _)
    next hnone => exact .failWith fun hS => by simp [Literal.isValid, hnone] at h; exact absurd hS h
  | string image =>
    refine ofExcept_built (fun hS => ?_) fun value hvalue => ?_
    · cases htext : (Literal.string image).stringValue with
      | error f => simp [Literal.isValid, htext, bind, Except.bind] at h; exact absurd hS h
      | ok text => exact ⟨text, rfl⟩
    · cases value with
      | some value => exact plain_built ⟨rfl, rfl⟩
      | none =>
        refine .failWith fun hS => ?_
        simp [Literal.isValid, hvalue, bind, Except.bind, pure, Except.pure] at h
        exact absurd hS h
  | boolean value => cases value <;> exact op_built rfl
  | null => exact op_built rfl

theorem conversion_built (h : Hierarchy) (source target : Ty) :
    Built T known (conversion h source target) := by
  refine .ite (fun _ => .ite (fun _ => .ite (fun _ => .pure) fun _ => ?_) fun _ => ?_) fun _ =>
    .pure
  · exact reference_built _ _
  · exact .forM fun o ho => op_built (longForm?_conversionOps source target o ho)

theorem newArray_built (line : Nat) {type : Ty} (h : T.strict → type.component?.isSome) :
    Built T known (newArray line type) := by
  unfold newArray
  split
  next hnone => exact .failWith fun hS => by simp [hnone] at h; exact absurd hS h
  next =>
    split
    · exact plain_built ⟨rfl, rfl⟩
    · exact reference_built _ _

theorem newBuilder_built : Built T known newBuilder :=
  (reference_built _ _).bind fun _ => (op_built rfl).bind fun _ => member_built _ _ _ _

theorem builderOfString_built : Built T known builderOfString :=
  (member_built _ _ _ _).bind fun _ => (reference_built _ _).bind fun _ =>
    (op_built rfl).bind fun _ => (op_built rfl).bind fun _ => member_built _ _ _ _

theorem invert_built (t : Ty) : Built T known (invert t) :=
  .ite (fun _ => (plain_built ⟨rfl, rfl⟩).bind fun _ => op_built rfl) fun _ =>
    (op_built rfl).bind fun _ => op_built rfl

/-! ## Uses of expressions -/

/-- The label a use branches to, if it has one, is known. -/
def Use.Aims (known : List Label) : Use → Prop
  | .branch target _ => target ∈ known
  | _ => True

theorem Use.exists_aims (use : Use) : ∃ known, use.Aims known := by
  cases use with
  | branch target sense => exact ⟨[target], List.mem_cons_self⟩
  | _ => exact ⟨[], trivial⟩

/-- An expression that can be used. -/
def Use.Meets (e : Expr) : Use → Prop
  | discarded => True
  | address => e.isVariable
  | _ => e.isTypeName = false

/-- The code of a test, for any label that is known. -/
def BuiltTest (T : Terms)
    (test : Label → Bool → Lowering Unit) : Prop :=
  ∀ (known : List Label) (target : Label) (sense : Bool), target ∈ known →
    Built T known (test target sense)

namespace Use

variable {use : Use} (haims : use.Aims known) (huse : T.strict → use ≠ .address) (n : Note)

include haims huse

theorem finish_built {x : Lowering Unit} (hx : Built T known x) :
    Built T known (use.finish n x) := by
  cases use with
  | value => exact hx
  | effect => exact hx.bind fun _ => .forM fun o ho => op_built (longForm?_dropOps _ o ho)
  | discarded => exact hx.bind fun _ => op_built rfl
  | branch target sense => exact hx.bind fun _ => branch_built _ haims
  | append => exact hx.bind fun _ => member_built _ _ _ _
  | address => exact .failWith fun hS => absurd rfl (huse hS)

theorem decide_built {test : Label → Bool → Lowering Unit}
    (htest : BuiltTest T test) : Built T known (use.decide n test) := by
  have hvalue : Built T known (booleanValue test) := by
    have h : Built T known _ := .choice
      (x := fun otherwise stop => do
        test otherwise false
        op .iconst_1
        Lowering.branch .goto stop)
      (y := fun _ _ => op .iconst_0)
      (fun _ _ => (htest _ _ _ (by simp)).bind fun _ => (op_built rfl).bind fun _ =>
        branch_built _ (by simp))
      (fun _ _ => op_built rfl)
    simpa only [booleanValue, bind_assoc] using h
  cases use with
  | branch target sense => exact htest known target sense haims
  | _ => exact finish_built haims huse n hvalue

theorem store_built {code : Bool → Lowering Unit} (hcode : ∀ wanted, Built T known (code wanted)) :
    Built T known (use.store n code) := by
  cases use with
  | effect => exact hcode false
  | _ => exact finish_built haims huse n (hcode true)

end Use

/-! ## Conditions -/

theorem skip_built {lhs rhs : Label → Bool → Lowering Unit} (hl : BuiltTest T lhs)
    (hr : BuiltTest T rhs) (sense : Bool) {target : Label} (sense' : Bool)
    (htarget : target ∈ known) : Built T known (do
      let skip ← newLabel
      lhs skip sense
      rhs target sense'
      mark skip) := by
  have h : Built T known _ := .skip
    (x := fun skip => do
      lhs skip sense
      rhs target sense')
    fun skip => (hl _ skip sense (by simp)).bind fun _ => hr _ target sense' (by simp [htarget])
  simpa only [bind_assoc] using h

theorem bothBranch_built {lhs rhs : Label → Bool → Lowering Unit} (hl : BuiltTest T lhs)
    (hr : BuiltTest T rhs) : BuiltTest T (bothBranch lhs rhs) := by
  intro known target sense htarget
  cases sense with
  | true => exact skip_built hl hr false true htarget
  | false => exact (hl known target false htarget).bind fun _ => hr known target false htarget

theorem eitherBranch_built {lhs rhs : Label → Bool → Lowering Unit}
    (hl : BuiltTest T lhs) (hr : BuiltTest T rhs) :
    BuiltTest T (eitherBranch lhs rhs) := by
  intro known target sense htarget
  cases sense with
  | true => exact (hl known target true htarget).bind fun _ => hr known target true htarget
  | false => exact skip_built hl hr true false htarget

variable {fr : Frame}

theorem isZero_eq_ok {e : Expr} (he : e.NodeSettled fr) : ∃ b, isZero e = .ok b := by
  have hliteral : ∀ {n : Note} {l : Literal}, e = .literal n l → l.ty.promoted = .int →
      ∃ b, (do return (← l.intValue) = some 0 : Except Fault Bool) = .ok b := by
    rintro n l rfl hl
    obtain ⟨value, hvalue⟩ := intValue_of_isValid he.form.2 hl
    exact ⟨_, by rw [hvalue]; rfl⟩
  unfold isZero
  split
  · exact hliteral rfl rfl
  · exact hliteral rfl rfl
  · exact ⟨_, rfl⟩

theorem widened?_eq_ok (target : Ty) {e : Expr} (he : e.NodeSettled fr) :
    ∃ load, widened? target e = .ok load := by
  unfold widened?
  split
  · obtain ⟨value, hvalue⟩ := intValue_of_isValid he.form.2 rfl
    rw [hvalue]
    cases target <;> exact ⟨_, rfl⟩
  · obtain ⟨value, hvalue⟩ := intValue_of_isValid he.form.2 rfl
    rw [hvalue]
    cases target <;> exact ⟨_, rfl⟩
  · exact ⟨_, rfl⟩

theorem compareBranch_built (o : BinaryOp) (lhs rhs : Expr) (hl : ∀ known, Built T known lhsCode)
    (hr : ∀ known, Built T known rhsCode) (hrhs : T.strict → rhs.NodeSettled fr) :
    BuiltTest T (compareBranch o lhs rhs lhsCode rhsCode) := by
  intro known target sense htarget
  have hbranch : ∀ o, Built T known (branch o target) := fun o => branch_built o htarget
  have hdouble : (doubleCompare o).longForm? = none := by cases o <;> rfl
  unfold compareBranch
  dsimp only
  split
  · exact (hl _).bind fun _ => (hr _).bind fun _ => (op_built rfl).bind fun _ => hbranch _
  · exact (hl _).bind fun _ => (hr _).bind fun _ => (op_built hdouble).bind fun _ => hbranch _
  · refine .ite (fun _ => .ite (fun _ => ?_) fun _ => ?_) fun _ => ?_
    · split
      · exact (hl _).bind fun _ => hbranch _
      · exact (hr _).bind fun _ => hbranch _
    · exact (hl _).bind fun _ => (hr _).bind fun _ => hbranch _
    · refine (hl _).bind fun _ => ofExcept_built (fun hS => isZero_eq_ok (hrhs hS)) fun zero _ => ?_
      exact .ite (fun _ => hbranch _) fun _ => (hr _).bind fun _ => hbranch _

/-! ## Places -/

/-- A place whose variable, if it is one, may be used. -/
def Place.Named (allowed : Opcode × Nat → Prop) : Place → Prop
  | .localVar slot t => ∀ o : Opcode, o.Serves t → allowed (o, slot)
  | _ => True

/-- A node that names a variable, or the current object, that may be used. -/
def NodeNamed (allowed : Opcode × Nat → Prop) : Expr → Prop
  | .localVar n _ slot => ∀ o : Opcode, o.Serves (n.ty.getD .any) → allowed (o, slot)
  | .thisRef _ | .superRef _ | .delegate .. => allowed (.aload, 0)
  | .send _ target _ _ method =>
    ∀ r ∈ method, target = none → r.kind ≠ .static → allowed (.aload, 0)
  | _ => True

namespace Place

variable {p : Place}

theorem of_built {f : Place → Lowering Unit} (he : NodeNamed T.allowed e)
    (hvar : T.strict → e.NodeSettled fr ∧ e.isVariable)
    (hf : ∀ p : Place, p.Named T.allowed → Built T known (f p)) :
    Built T known (Place.of e >>= f) := by
  cases e with
  | localVar n x slot =>
    rw [Place.of, pure_bind]
    exact hf _ he
  | field n target x ref =>
    cases ref with
    | some r =>
      simp only [Place.of, resolved, pure_bind]
      exact hf _ (by split <;> trivial)
    | none =>
      refine .failWith fun hS => ?_
      obtain ⟨_, _, hnone, -⟩ := (hvar hS).1.form
      cases hnone
  | element n array index =>
    rw [Place.of, pure_bind]
    exact hf _ trivial
  | wild n => exact .failWith fun hS => absurd (hvar hS).1.form id
  | _ => exact .failWith fun hS => nomatch (hvar hS).2

theorem copyAddress_built (p : Place) : Built T known p.copyAddress := by
  unfold copyAddress
  split
  · exact op_built rfl
  · exact op_built rfl
  · exact .pure

theorem load_built (hp : p.Named T.allowed) : Built T known p.load := by
  cases p with
  | localVar slot t => exact .access (hp (loadOp t) (loadOp_serves t))
  | staticField ref | field ref => exact member_built _ _ _ _
  | element t => exact op_built (longForm?_elementLoadOp t)

theorem storeKeeping_built (hp : p.Named T.allowed) (t : Ty) (wanted : Bool) :
    Built T known (p.storeKeeping t wanted) := by
  have hstore : Built T known p.store := by
    cases p with
    | localVar slot t => exact .access (hp (storeOp t) (storeOp_serves t))
    | staticField ref | field ref => exact member_built _ _ _ _
    | element t => exact op_built (longForm?_elementStoreOp t)
  cases wanted with
  | true => exact (op_built (longForm?_copyUnder _ t)).bind fun _ => hstore
  | false => exact hstore

theorem Named.intSlot (hp : p.Named T.allowed) (h : p.intSlot? = some slot) :
    T.allowed (.iload, slot) ∧ T.allowed (.iinc, slot) := by
  unfold intSlot? at h
  split at h
  · cases h
    exact ⟨hp .iload (.inl rfl), hp .iinc (.inr (.inr rfl))⟩
  · cases h

end Place

theorem stepInt_built (hload : T.allowed (.iload, slot)) (hstep : T.allowed (.iinc, slot))
    (delta : Int) (wanted : Bool) : Built T known (stepInt slot delta wanted) := by
  refine (Built.stepLocal hstep).bind fun _ => ?_
  cases wanted with
  | true => exact .access hload
  | false => exact .pure

theorem assign_built (o : AssignOp) (rhs : Expr) (hlhs : NodeNamed T.allowed lhs)
    (hvar : T.strict → lhs.NodeSettled fr ∧ lhs.isVariable) (haddress : Built T known address)
    (hoperand : Built T known operand) (happended : Built T known appended) (wanted : Bool) :
    Built T known (assign o lhs rhs address operand appended wanted) := by
  refine Place.of_built hlhs hvar fun p hp => ?_
  have hstore : Built T known (p.storeKeeping lhs.ty wanted) :=
    Place.storeKeeping_built hp lhs.ty wanted
  cases o.binary? with
  | none => exact haddress.bind fun _ => hoperand.bind fun _ => hstore
  | some b =>
    dsimp only
    split
    next slot delta hslot _ =>
      exact stepInt_built (hp.intSlot hslot).1 (hp.intSlot hslot).2 delta wanted
    next =>
      refine haddress.bind fun _ => p.copyAddress_built.bind fun _ => ?_
      refine (Place.load_built hp).bind fun _ => .ite (fun _ => ?_) fun _ => ?_
      · exact builderOfString_built.bind fun _ => happended.bind fun _ =>
          (member_built _ _ _ _).bind fun _ => hstore
      · exact hoperand.bind fun _ => (op_built (longForm?_binaryOp b _)).bind fun _ => hstore

theorem step_built (o : StepOp) (t : Ty) (hoperand : NodeNamed T.allowed operand)
    (hvar : T.strict → operand.NodeSettled fr ∧ operand.isVariable)
    (haddress : Built T known address) (wanted : Bool) :
    Built T known (step o operand t address wanted) := by
  refine Place.of_built hoperand hvar fun p hp => ?_
  cases hslot : p.intSlot? with
  | some slot =>
    obtain ⟨hload, hstep⟩ := hp.intSlot hslot
    refine .ite (fun _ => ?_) fun _ => stepInt_built hload hstep _ _
    exact (Built.access hload).bind fun _ => stepInt_built hload hstep _ _
  | none =>
    have hrest : Built T known (do
        op (oneOp t)
        op (binaryOp (if 0 < o.delta then .add else .sub) t)
        p.storeKeeping t (wanted && o.isBefore)) :=
      (op_built (longForm?_byType rfl rfl rfl t)).bind fun _ =>
        (op_built (longForm?_binaryOp _ t)).bind fun _ => Place.storeKeeping_built hp t _
    refine haddress.bind fun _ => p.copyAddress_built.bind fun _ => ?_
    refine (Place.load_built hp).bind fun _ => .ite (fun _ => ?_) fun _ => hrest
    exact (op_built (longForm?_copyUnder _ t)).bind fun _ => hrest

end

/-! ## Expressions -/

/-- An expression whose variables may be used. -/
def Named (allowed : Opcode × Nat → Prop) (e : Expr) : Prop := ∀ x ∈ e.nodes, NodeNamed allowed x

section

variable {T : Terms} {known : List Label} {h : Hierarchy} {fr : Frame}

/-- Code for the expression is built in every use that suits it. -/
def BuiltExpr (T : Terms) (h : Hierarchy)
    (e : Expr) : Prop :=
  ∀ (known : List Label) (use : Use), use.Aims known → (T.strict → use.Meets e) →
    Built T known (expr h use e)

namespace BuiltExpr

variable {e : Expr}

theorem value (he : BuiltExpr T h e) (hvalue : T.strict → e.isTypeName = false) :
    Built T known (expr h .value e) :=
  he known .value trivial hvalue

theorem tests (he : BuiltExpr T h e) (hvalue : T.strict → e.isTypeName = false) :
    BuiltTest T fun target sense => expr h (.branch target sense) e :=
  fun known target sense htarget => he known (.branch target sense) htarget hvalue

theorem of_value (hcode : ∀ use, expr h use e = use.finish n x) (hvar : e.isVariable = false)
    (hx : ∀ known, Built T known x) : BuiltExpr T h e := by
  intro known use haims hmeets
  rw [hcode]
  refine Use.finish_built haims (fun hS => ?_) n (hx known)
  rintro rfl
  exact absurd (hmeets hS) (by simp [Use.Meets, hvar])

theorem target (he : BuiltExpr T h e) {isStatic : Bool} (htarget : T.strict → e.IsTarget isStatic) :
    Built T known (expr h (if isStatic then .discarded else .value) e) := by
  cases isStatic with
  | true => exact he known .discarded trivial fun _ => trivial
  | false => exact he.value fun hS => (htarget hS).2 rfl

end BuiltExpr

theorem ne_address {e : Expr} {use : Use} (hvar : e.isVariable = false)
    (h : T.strict → use.Meets e) :
    T.strict → use ≠ .address := by
  rintro hS rfl
  exact absurd (h hS) (by simp [Use.Meets, hvar])

section

variable {es : List Expr} (hes : ∀ e ∈ es, BuiltExpr T h e)
  (hvalues : T.strict → ∀ e ∈ es, e.isTypeName = false)

include hes hvalues

theorem exprs_built : Built T known (exprs h es) := by
  induction es with
  | nil => exact .pure
  | cons e es ih =>
    refine ((hes e (by simp)).value fun hS => hvalues hS e (by simp)).bind fun _ => ?_
    exact ih (fun x hx => hes x (by simp [hx])) fun hS x hx => hvalues hS x (by simp [hx])

theorem elements_built (t : Ty) (index : Nat) :
    Built T known (elements h (elementStoreOp t) index es) := by
  induction es generalizing index with
  | nil => exact .pure
  | cons e es ih =>
    refine (op_built rfl).bind fun _ => (pushInt_built _).bind fun _ => ?_
    refine ((hes e (by simp)).value fun hS => hvalues hS e (by simp)).bind fun _ => ?_
    refine (op_built (longForm?_elementStoreOp t)).bind fun _ => ?_
    exact ih (fun x hx => hes x (by simp [hx])) (fun hS x hx => hvalues hS x (by simp [hx])) _

end

theorem isTypeName_of_argsFit (hfit : ArgsFit h es ts) : ∀ e ∈ es, e.isTypeName = false := by
  induction es generalizing ts with
  | nil => exact nofun
  | cons e es ih =>
    cases ts with
    | nil => cases hfit
    | cons t ts => exact List.forall_mem_cons.2 ⟨hfit.1, ih hfit.2.2⟩

theorem receiver_built (htarget : ∀ e ∈ target, BuiltExpr T h e)
    (hrole : T.strict → ∀ e ∈ target, e.IsTarget isStatic)
    (hnone : target = none → isStatic = false → T.allowed (.aload, 0)) :
    Built T known (receiver h isStatic target) := by
  cases target with
  | some e => exact (htarget e rfl).target fun hS => hrole hS e rfl
  | none =>
    cases isStatic with
    | true => exact .pure
    | false => exact .access (hnone rfl rfl)

theorem builtExpr_field (hform : T.strict → (Expr.field n target x ref).FormSettled fr)
    (htarget : BuiltExpr T h target) : BuiltExpr T h (.field n target x ref) := by
  intro known use haims hmeets
  cases ref with
  | none =>
    have hstop : ∀ {α : Type} {x : Lowering α} {f : Failure}, x = failWith f → Built T known x := by
      rintro α x f rfl
      refine .failWith fun hS => ?_
      obtain ⟨r, t, hnone, -⟩ := hform hS
      cases hnone
    cases use with
    | address => exact hstop rfl
    | _ => exact Use.finish_built haims (fun _ => by simp) n (hstop rfl)
  | some r =>
    have hrole : T.strict → target.IsTarget r.isStatic := fun hS => by
      obtain ⟨_, _, hsome, -, -, -, -, hrole⟩ := hform hS
      cases hsome
      exact hrole
    simp only [expr, discard_eq, resolved, bind_assoc, pure_bind]
    cases use with
    | address => exact (htarget.target hrole).bind fun _ => .pure
    | _ =>
      refine Use.finish_built haims (fun _ => by simp) n ?_
      exact (htarget.target hrole).bind fun _ => member_built _ _ _ _

theorem builtExpr_binary (hform : T.strict → (Expr.binary n o lhs rhs).FormSettled fr)
    (hrhs : T.strict → rhs.NodeSettled fr) (hl : BuiltExpr T h lhs) (hr : BuiltExpr T h rhs) :
    BuiltExpr T h (.binary n o lhs rhs) := by
  intro known use haims hmeets
  have huse := ne_address rfl hmeets
  have hlhs : T.strict → lhs.isTypeName = false := fun hS => (hform hS).1
  have hrhs' : T.strict → rhs.isTypeName = false := fun hS => (hform hS).2.1
  simp only [expr]
  refine .ite (fun _ => ?_) fun _ => .ite (fun _ => ?_) fun _ => .ite (fun _ => ?_) fun _ => ?_
  · exact Use.decide_built haims huse n (bothBranch_built (hl.tests hlhs) (hr.tests hrhs'))
  · exact Use.decide_built haims huse n (eitherBranch_built (hl.tests hlhs) (hr.tests hrhs'))
  · refine Use.decide_built haims huse n ?_
    exact compareBranch_built o lhs rhs (fun _ => hl.value hlhs) (fun _ => hr.value hrhs') hrhs
  · refine Use.finish_built haims huse n ((hl.value hlhs).bind fun _ => ?_)
    exact (hr.value hrhs').bind fun _ => op_built (longForm?_binaryOp o _)

theorem builtExpr_unary {operand : Expr} (hvalue : T.strict → operand.isTypeName = false)
    (ho : BuiltExpr T h operand) : BuiltExpr T h (.unary n o operand) := by
  intro known use haims hmeets
  have huse := ne_address rfl hmeets
  have hoperand : Built T known (expr h .value operand) := ho.value hvalue
  cases o with
  | not =>
    refine Use.decide_built haims huse n fun known target sense htarget => ?_
    exact ho.tests hvalue known target (!sense) htarget
  | plus => exact Use.finish_built haims huse n hoperand
  | neg =>
    refine Use.finish_built haims huse n (hoperand.bind fun _ => ?_)
    exact op_built (longForm?_byType rfl rfl rfl _)
  | bitNot => exact Use.finish_built haims huse n (hoperand.bind fun _ => invert_built _)

theorem builtExpr_conditional
    (hform : T.strict → (Expr.conditional n test thenExpr elseExpr).FormSettled fr)
    (htest : BuiltExpr T h test) (hthen : BuiltExpr T h thenExpr) (helse : BuiltExpr T h elseExpr) :
    BuiltExpr T h (.conditional n test thenExpr elseExpr) := by
  have hvalue : T.strict → test.isTypeName = false := fun hS => (hform hS).1
  have hvalue' : T.strict → thenExpr.isTypeName = false :=
    fun hS => (hform hS).2.2.elim fun _ h => h.2.1
  have hvalue'' : T.strict → elseExpr.isTypeName = false :=
    fun hS => (hform hS).2.2.elim fun _ h => h.2.2.2.1
  refine .of_value (n := n) (fun _ => rfl) rfl fun known => ?_
  have hcode : Built T known _ := .choice
    (x := fun otherwise stop => do
      expr h (.branch otherwise false) test
      expr h .value thenExpr
      branch .goto stop)
    (y := fun _ _ => expr h .value elseExpr)
    (fun _ _ => (htest.tests hvalue _ _ false (by simp)).bind fun _ =>
      (hthen.value hvalue').bind fun _ => branch_built _ (by simp))
    (fun _ _ => helse.value hvalue'')
  simpa only [bind_assoc] using hcode

theorem builtExpr_newArray (hform : T.strict → (Expr.newArray n type dims).FormSettled fr)
    (hdims : ∀ e ∈ dims, BuiltExpr T h e)
    (hdeep : 255 < dims.length → T.strict → T.stops (.ofDefect (.dimensions n.line))) :
    BuiltExpr T h (.newArray n type dims) := by
  refine .of_value (n := n) (fun _ => rfl) rfl fun known => ?_
  refine (exprs_built hdims fun hS e he => ((hform hS).2.2.2.2 e he).1).bind fun _ => ?_
  refine .ite (fun _ => newArray_built _ fun hS => ?_) fun _ =>
    .ite (fun _ => plain_built ⟨rfl, rfl⟩) fun hmany => .failWith (hdeep (by omega))
  obtain ⟨-, -, hne, hle, -⟩ := hform hS
  have hpos : 0 < dims.length := List.length_pos_iff.2 hne
  cases type with
  | array component => rfl
  | _ => exact absurd (Nat.lt_of_lt_of_le hpos hle) (Nat.lt_irrefl 0)

/-- The code of an expression is built of its variables, and stops under the condition only where it
creates an array with too many lengths. -/
theorem expr_built {e : Expr} (hnamed : Named T.allowed e) (he : T.strict → e.Settled fr)
    (hdeep : ∀ x ∈ e.nodes, x.isDeepCreation → T.strict →
      T.stops (.ofDefect (.dimensions x.line))) :
    BuiltExpr T h e := by
  induction e using Expr.childrenInduction with
  | step e ih =>
    have hbelow : ∀ c ∈ e.children, ∀ x ∈ c.nodes, x ∈ e.nodes := fun c hc x hx => by
      rw [Expr.nodes, Expr.descendants_eq]
      exact List.mem_cons_of_mem _ (List.mem_flatMap.2 ⟨c, hc, hx⟩)
    have ih : ∀ c ∈ e.children, BuiltExpr T h c := fun c hc =>
      ih c hc (fun x hx => hnamed x (hbelow c hc x hx)) (fun hS x hx => he hS x (hbelow c hc x hx))
        fun x hx => hdeep x (hbelow c hc x hx)
    have hnode : ∀ c ∈ e.children, NodeNamed T.allowed c ∧ (T.strict → c.NodeSettled fr) :=
      fun c hc =>
      have hmem := hbelow c hc c (Expr.mem_nodes_self c)
      ⟨hnamed c hmem, fun hS => he hS c hmem⟩
    have hname := hnamed e (Expr.mem_nodes_self e)
    have hform : T.strict → e.FormSettled fr := fun hS => (he hS e (Expr.mem_nodes_self e)).form
    cases e with
    | literal n l =>
      intro known use haims hmeets
      simp only [expr, useLiteral]
      split
      · exact .ite (fun _ => branch_built _ haims) fun _ => .pure
      · exact Use.finish_built haims (ne_address rfl hmeets) n
          (literal_built _ fun hS => (hform hS).2)
    | name n segments =>
      exact .of_value (n := n) (fun _ => rfl) rfl fun _ => .failWith fun hS => (hform hS).elim
    | wild n =>
      intro known use haims hmeets
      have hstop : ∀ {x : Lowering Unit} {f : Failure}, x = failWith f → Built T known x := by
        rintro x f rfl
        exact .failWith fun hS => (hform hS).elim
      cases use with
      | address => exact hstop rfl
      | _ => exact Use.finish_built haims (fun _ => by simp) n (hstop rfl)
    | localVar n x slot =>
      intro known use haims hmeets
      cases use with
      | address => exact .pure
      | _ =>
        refine Use.finish_built haims (fun _ => by simp) n (.access ?_)
        exact hname (loadOp (n.ty.getD .any)) (loadOp_serves _)
    | thisRef n | superRef n =>
      exact .of_value (n := n) (fun _ => rfl) rfl fun _ => .access hname
    | typeName n type =>
      intro known use haims hmeets
      cases use with
      | discarded => exact .pure
      | address => exact .failWith fun hS => by cases hmeets hS
      | _ =>
        refine Use.finish_built haims (fun _ => by simp) n ?_
        exact .failWith fun hS => by cases hmeets hS
    | field n target x ref => exact builtExpr_field hform (ih target (by simp [Expr.children]))
    | arrayLength n array =>
      refine .of_value (n := n) (fun _ => rfl) rfl fun known => ?_
      exact ((ih array (by simp [Expr.children])).value fun hS => (hform hS).2.1).bind fun _ =>
        op_built rfl
    | element n array index =>
      intro known use haims hmeets
      have haddress : Built T known (do
          expr h .value array
          expr h .value index) :=
        ((ih array (by simp [Expr.children])).value fun hS => (hform hS).elim fun _ h => h.2.1).bind
          fun _ => (ih index (by simp [Expr.children])).value
            fun hS => (hform hS).elim fun _ h => h.2.2.2.1
      cases use with
      | address => exact haddress
      | _ =>
        refine Use.finish_built haims (fun _ => by simp) n (haddress.bind fun _ => ?_)
        exact op_built (longForm?_elementLoadOp _)
    | send n target x args method =>
      refine .of_value (n := n) (fun _ => rfl) rfl fun known => ?_
      cases method with
      | none =>
        refine .failWith fun hS => ?_
        obtain ⟨_, _, _, hnone, -⟩ := hform hS
        cases hnone
      | some r =>
        have hrole : T.strict → (∀ e ∈ target, e.IsTarget (r.kind = .static)) ∧
            ∀ e ∈ args, e.isTypeName = false := fun hS => by
          obtain ⟨_, _, _, hsome, -, -, -, -, -, hrole, -, hfit⟩ := hform hS
          cases hsome
          exact ⟨hrole, isTypeName_of_argsFit hfit⟩
        simp only [resolved, pure_bind]
        refine (receiver_built (fun e he => ih e ?_) (fun hS => (hrole hS).1) ?_).bind fun _ => ?_
        · simp [Expr.children, Option.mem_def.1 he]
        · exact fun hnone hstatic => hname r rfl hnone (of_decide_eq_false hstatic)
        · refine (exprs_built (fun e he => ih e ?_) fun hS => (hrole hS).2).bind fun _ => ?_
          · simp [Expr.children, he]
          · exact member_built _ _ _ _
    | delegate n target args ctor =>
      refine .of_value (n := n) (fun _ => rfl) rfl fun known => ?_
      cases ctor with
      | none =>
        refine .failWith fun hS => ?_
        obtain ⟨_, _, hnone, -⟩ := hform hS
        cases hnone
      | some r =>
        simp only [resolved, pure_bind]
        refine (Built.access hname).bind fun _ => (exprs_built ih fun hS => ?_).bind fun _ => ?_
        · obtain ⟨_, _, -, -, -, -, -, hfit⟩ := hform hS
          exact isTypeName_of_argsFit hfit
        · exact member_built _ _ _ _
    | newObject n type args ctor =>
      refine .of_value (n := n) (fun _ => rfl) rfl fun known => ?_
      cases ctor with
      | none =>
        refine .failWith fun hS => ?_
        obtain ⟨_, _, hnone, -⟩ := hform hS
        cases hnone
      | some r =>
        simp only [resolved, pure_bind]
        refine (reference_built _ _).bind fun _ => (op_built rfl).bind fun _ => ?_
        refine (exprs_built ih fun hS => ?_).bind fun _ => member_built _ _ _ _
        obtain ⟨_, _, -, -, -, -, -, -, hfit⟩ := hform hS
        exact isTypeName_of_argsFit hfit
    | newArray n type dims =>
      refine builtExpr_newArray hform ih fun hmany => ?_
      exact hdeep _ (Expr.mem_nodes_self _) (by simpa [Expr.isDeepCreation] using hmany)
    | arrayInit n type items =>
      refine .of_value (n := n) (fun _ => rfl) rfl fun known => ?_
      cases hc : type.component? with
      | none =>
        refine .failWith fun hS => ?_
        obtain ⟨c, -, rfl, -⟩ := hform hS
        cases hc
      | some component =>
        refine (pushInt_built _).bind fun _ => (newArray_built _ fun _ => by simp [hc]).bind
          fun _ => elements_built ih (fun hS e he => ?_) component 0
        exact (hform hS).elim fun _ h => (h.2.2.2 e he).1
    | binary n o lhs rhs =>
      exact builtExpr_binary hform (hnode rhs (by simp [Expr.children])).2
        (ih lhs (by simp [Expr.children])) (ih rhs (by simp [Expr.children]))
    | concat n lhs rhs =>
      intro known use haims hmeets
      have happends : Built T known (do
          expr h .append lhs
          expr h .append rhs) :=
        (ih lhs (by simp [Expr.children]) known .append trivial fun hS => (hform hS).2.1).bind
          fun _ => ih rhs (by simp [Expr.children]) known .append trivial fun hS => (hform hS).2.2.1
      have hvalue : Built T known (do
          newBuilder
          (do
            expr h .append lhs
            expr h .append rhs)
          builderText) :=
        newBuilder_built.bind fun _ => happends.bind fun _ => member_built _ _ _ _
      cases use with
      | append => exact happends
      | _ => exact Use.finish_built haims (ne_address rfl hmeets) n hvalue
    | instanceOf n operand target =>
      refine .of_value (n := n) (fun _ => rfl) rfl fun known => ?_
      exact ((ih operand (by simp [Expr.children])).value fun hS => (hform hS).2.1).bind fun _ =>
        reference_built _ _
    | unary n o operand =>
      exact builtExpr_unary (fun hS => (hform hS).1) (ih operand (by simp [Expr.children]))
    | step n o operand =>
      intro known use haims hmeets
      obtain ⟨hoperand, hsettled⟩ := hnode operand (by simp [Expr.children])
      have hvar : T.strict → operand.isVariable := fun hS => (hform hS).2.1
      refine Use.store_built haims (ne_address rfl hmeets) n fun wanted => ?_
      refine step_built o _ hoperand (fun hS => ⟨hsettled hS, hvar hS⟩) ?_ wanted
      exact ih operand (by simp [Expr.children]) known .address trivial hvar
    | cast n target operand =>
      refine .of_value (n := n) (fun _ => rfl) rfl fun known => ?_
      have hsettled := (hnode operand (by simp [Expr.children])).2
      refine ofExcept_built (fun hS => widened?_eq_ok target (hsettled hS)) fun load hload => ?_
      cases load with
      | some load => exact plain_built (widened?_isPlain hload)
      | none =>
        exact ((ih operand (by simp [Expr.children])).value fun hS => (hform hS).2.2.1).bind
          fun _ => conversion_built _ _ _
    | assign n o lhs rhs =>
      intro known use haims hmeets
      obtain ⟨hlhs, hsettled⟩ := hnode lhs (by simp [Expr.children])
      have hvar : T.strict → lhs.isVariable := fun hS => (hform hS).2.1
      have hvalue : T.strict → rhs.isTypeName = false := fun hS => (hform hS).2.2.1
      have hr := ih rhs (by simp [Expr.children])
      refine Use.store_built haims (ne_address rfl hmeets) n fun wanted => ?_
      exact assign_built o rhs hlhs (fun hS => ⟨hsettled hS, hvar hS⟩)
        (ih lhs (by simp [Expr.children]) known .address trivial hvar) (hr.value hvalue)
        (hr known .append trivial hvalue) wanted
    | conditional n test thenExpr elseExpr =>
      exact builtExpr_conditional hform (ih test (by simp [Expr.children]))
        (ih thenExpr (by simp [Expr.children])) (ih elseExpr (by simp [Expr.children]))

end

theorem expr_built_of_named {allowed : Opcode × Nat → Prop} {h : Hierarchy} {e : Expr}
    (hnamed : Named allowed e) : BuiltExpr ⟨False, fun _ => True, allowed⟩ h e :=
  have hsettled : False → e.Settled ⟨h, none, "", false, .void, []⟩ := False.elim
  expr_built hnamed hsettled fun _ _ _ => False.elim

theorem named_of_settled {allowed : Opcode × Nat → Prop} {fr : Frame}
    (hvars : ∀ v ∈ fr.vars, ∀ o : Opcode, o.Serves v.2 → allowed (o, v.1))
    (hself : fr.isStatic = false → allowed (.aload, 0)) {e : Expr} (he : e.Settled fr) :
    Named allowed e := by
  intro x hx
  have hform := (he x hx).form
  cases x with
  | localVar n name slot =>
    obtain ⟨t, ht, hmem⟩ := hform
    rw [NodeNamed, ht]
    exact hvars _ hmem
  | thisRef n | superRef n => exact hself hform.1
  | delegate n target args ctor =>
    obtain ⟨_, _, -, -, hstatic, -⟩ := hform
    exact hself hstatic
  | send n target name args method =>
    obtain ⟨r, _, _, rfl, -, -, -, -, -, -, hnone, -⟩ := hform
    intro r' hr' htarget hkind
    cases hr'
    exact absurd (hnone htarget) hkind
  | _ => trivial

/-! ## Labels -/

/-- What is built names only labels that are known. -/
theorem Built.closed {T : Terms} {α : Type} {known : List Label} {x : Lowering α}
    (h : Built T known x) : Closed known x := by
  induction h with
  | pure => exact .pure
  | bind _ _ hx hf => exact hx.bind hf
  | failWith => exact failWith_marks
  | instr _ htargets => exact instr_closed htargets
  | access => exact access_closed _ _
  | stepLocal => exact stepLocal_closed _ _
  | skip _ hx =>
    refine newLabel_marks.bind fun l => ?_
    exact .after (hx l) fun _ => mark_closes l
  | choice _ _ hx hy =>
    refine newLabel_marks.bind fun l => newLabel_marks.bind fun l' => ?_
    refine .after (hx l l') fun _ => (mark_marks l).bind fun _ => ?_
    exact .after (hy l l') fun _ => mark_closes l'

/-- Code for the expression names only labels that are known, in every use. -/
def ClosedExpr (h : Hierarchy) (e : Expr) : Prop :=
  ∀ (known : List Label) (use : Use), use.Aims known → Closed known (expr h use e)

namespace ClosedExpr

variable {known : List Label} {h : Hierarchy} {e : Expr}

theorem value (he : ClosedExpr h e) : Closed known (expr h .value e) := he known .value trivial

theorem tests (he : ClosedExpr h e) (sense : Bool) (htarget : target ∈ known) :
    Closed known (expr h (.branch target sense) e) :=
  he known (.branch target sense) htarget

end ClosedExpr

theorem expr_closed (e : Expr) : ClosedExpr h e := by
  have hnamed : Named (fun _ => True) e := by
    intro x _
    cases x <;> simp [NodeNamed]
  intro known use haims
  have hbuilt := expr_built_of_named (h := h) hnamed
  exact (hbuilt known use haims False.elim).closed

end Lowering

end JMinusMinus
