import JMinusMinus.Proofs.Flow.Unit
import JMinusMinus.Proofs.Machine.Basic
import JMinusMinus.Proofs.Stack.Unit

/-!
# Slots of a unit

The variables of a method or a constructor have slots that do not overlap, above that of the
current object and below the number of slots that is recorded for it. Its code uses the slot of a
variable by instructions for the type of the variable, and saves values in slots above those of all
variables, each in slots of its own (`accepted_laid`).

There is one exception. Analysis does not ask that the variable of a handler is of a reference
type, and what the handler catches is stored as a reference (`not_all_stores_typed`).
-/

namespace JMinusMinus

/-! ## Members -/

namespace Member

/-- The type of what a member returns. -/
def result : Member → Ty
  | .method m => m.result
  | _ => .void

/-- A use of the slot of a variable of a member, or the load of the current object. -/
def Allows (m : Member) (use : Opcode × Nat) : Prop :=
  (∃ x ∈ m.variables, x.Allows use) ∨ m.isStatic = false ∧ use = (.aload, 0)

/-- A member whose variables have slots that do not overlap. -/
structure Laid (m : Member) : Prop where
  between : ∀ x ∈ m.variables, x.Between m.firstSlot m.locals
  apart : m.variables.Pairwise Variable.Apart

theorem InRow.laid {m : Member} (h : m.InRow) : m.Laid := by
  cases m with
  | field f => exact ⟨nofun, .nil⟩
  | ctor c => exact ⟨Row.between h, Row.apart h⟩
  | method decl => exact ⟨Row.between h, Row.apart h⟩

end Member

/-! ## Variables of settled trees -/

/-- Every variable has a slot, and the frame has it with its type. -/
def Frame.Declares (fr : Frame) (xs : List Variable) : Prop :=
  ∀ x ∈ xs, ∃ slot, x.slot = some slot ∧ (slot, x.ty) ∈ fr.vars

theorem Frame.Declares.append {fr : Frame} (hxs : fr.Declares xs) (hys : fr.Declares ys) :
    fr.Declares (xs ++ ys) :=
  List.forall_mem_append.2 ⟨hxs, hys⟩

section

variable {fr : Frame}

mutual

/-- The variables of a settled statement are in the frame. -/
theorem stmt_declares : ∀ (s : Stmt) {jumps}, s.Settled fr jumps → fr.Declares s.variables
  | .blockStmt body, _, h => block_declares body h
  | .ifStmt _ _ thenBranch elseBranch, _, h =>
    .append (stmt_declares thenBranch h.2.1) (else_declares elseBranch h.2.2)
  | .whileStmt _ _ body, _, h => stmt_declares body h.2
  | .doStmt _ body _, _, h => stmt_declares body h.1
  | .forStmt _ init _ update body, _, h =>
    .append (.append (stmts_declare init h.1) (stmts_declare update h.2.2.1))
      (stmt_declares body h.2.2.2)
  | .switchStmt _ _ groups, _, h => groups_declare groups h.2.2.2
  | .tryStmt _ body catches final, _, h =>
    .append (.append (block_declares body h.1) (catches_declare catches h.2.1))
      (final_declares final h.2.2)
  | .localsStmt _ vars, _, h => fun _ hx => by
    obtain ⟨d, hd, rfl⟩ := List.mem_map.1 hx
    exact (h d hd).placed
  | .throwStmt _ _, _, _ | .returnStmt _ _, _, _ | .breakStmt _, _, _ | .continueStmt _, _, _
  | .emptyStmt _, _, _ | .exprStmt _ _, _, _ => nofun

theorem else_declares : ∀ s {jumps}, ElseSettled fr jumps s → fr.Declares (elseVariables s)
  | some s, _, h => stmt_declares s h
  | none, _, _ => nofun

theorem stmts_declare : ∀ ss {jumps}, StmtsSettled fr jumps ss → fr.Declares (stmtsVariables ss)
  | s :: ss, _, h => .append (stmt_declares s h.1) (stmts_declare ss h.2)
  | [], _, _ => nofun

theorem block_declares : ∀ b {jumps}, BlockSettled fr jumps b → fr.Declares (blockVariables b)
  | ⟨_, ss⟩, _, h => stmts_declare ss h

theorem final_declares : ∀ b {jumps}, FinalSettled fr jumps b → fr.Declares (finalVariables b)
  | some b, _, h => block_declares b h
  | none, _, _ => nofun

theorem catch_declares : ∀ c {jumps}, CatchSettled fr jumps c → fr.Declares (catchVariables c)
  | ⟨_, _, body⟩, _, h => List.forall_mem_cons.2 ⟨h.1, block_declares body h.2⟩

theorem catches_declare :
    ∀ cs {jumps}, CatchesSettled fr jumps cs → fr.Declares (catchesVariables cs)
  | c :: cs, _, h => .append (catch_declares c h.1) (catches_declare cs h.2)
  | [], _, _ => nofun

theorem group_declares : ∀ g {jumps}, GroupSettled fr jumps g → fr.Declares (groupVariables g)
  | ⟨_, ss⟩, _, h => stmts_declare ss h

theorem groups_declare : ∀ gs {jumps}, GroupsSettled fr jumps gs → fr.Declares (groupsVariables gs)
  | g :: gs, _, h => .append (group_declares g h.1) (groups_declare gs h.2)
  | [], _, _ => nofun

end

theorem BodySettled.declares {params : List Param} {locals : Nat} {body : Option (Block Stmt)}
    (h : BodySettled fr params locals body) :
    fr.Declares (params.map Param.variable ++ finalVariables body) := by
  refine .append (fun x hx => ?_) (final_declares body h.body)
  obtain ⟨p, hp, rfl⟩ := List.mem_map.1 hx
  exact h.params p hp

theorem Vars.Apart.of_mem {vars : Vars} (h : vars.Apart) (hx : x ∈ vars) (hy : y ∈ vars)
    (hne : x ≠ y) : x.1 + x.2.slots ≤ y.1 ∨ y.1 + y.2.slots ≤ x.1 := by
  obtain ⟨i, hi, rfl⟩ := List.getElem_of_mem hx
  obtain ⟨j, hj, rfl⟩ := List.getElem_of_mem hy
  have hpairwise := List.pairwise_iff_getElem.1 h
  rcases Nat.lt_trichotomy i j with hlt | rfl | hlt
  · exact hpairwise i j hi hj hlt
  · exact absurd rfl hne
  · exact (hpairwise j i hj hi hlt).symm

theorem Frame.Declares.mem_of_row (hxs : fr.Declares xs) (hwithin : fr.vars.Within fr locals)
    (hrow : Row fr.firstSlot xs locals) (hmem : (slot, t) ∈ fr.vars) :
    ∃ x ∈ xs, x.slot = some slot ∧ x.ty = t := by
  have hpos := t.slots_pos
  have hupper : slot + t.slots ≤ locals := hwithin.upper _ hmem
  obtain ⟨x, hx, i, hi, hle, hlt⟩ := hrow.covers (hwithin.lower _ hmem) (by omega)
  obtain ⟨j, hj, hx'⟩ := hxs x hx
  obtain rfl : i = j := Option.some.inj (hi.symm.trans hj)
  by_cases heq : (i, x.ty) = (slot, t)
  · cases heq
    exact ⟨x, hx, hi, rfl⟩
  · -- Different variables of the frame do not overlap, but both have this slot.
    have := hwithin.apart.of_mem hx' hmem heq
    simp only at this
    omega

end

/-! ## Code of members -/

/-- Code that uses the slots of variables as it is allowed, and saves values above them. -/
structure Code.Laid (code : Code) (m : Member) (saved : List Variable) : Prop where
  /-- There is room for the variables. -/
  room : m.locals ≤ code.maxLocals
  /-- Saved values are results and what was thrown. -/
  kinds : ∀ x ∈ saved, x.ty = m.result ∨ x.ty = .object
  /-- They are above the variables, and there is room for them. -/
  above : ∀ x ∈ saved, x.Between m.locals code.maxLocals
  /-- They do not overlap. -/
  apart : saved.Pairwise Variable.Apart
  /-- What is stored above the variables are the saved values, each of them once and in order. -/
  stores : List.Forall₂ Variable.Allows saved
    (code.instructions.filterMap fun p => p.2.storeFrom? m.locals)
  /-- Every load, store and step is of a variable or of a saved value, for its type. -/
  uses : ∀ p ∈ code.instructions, ∀ use ∈ p.2.localUse?, m.Allows use ∨ ∃ x ∈ saved, x.Allows use
  /-- There is room for what is loaded or stored. -/
  within : ∀ p ∈ code.instructions, ∀ use ∈ p.2.localUse?,
    use.2 + use.1.localWidth ≤ code.maxLocals

namespace Lowering

variable {m : Member} {code : Code}

theorem storesBelow_of_laid (h : m.Laid) : StoresBelow m.locals m.Allows := by
  rintro use (⟨x, hx, hslot, -⟩ | ⟨-, rfl⟩) hstore
  · obtain ⟨i, hi, -, hupper⟩ := h.between x hx
    obtain rfl : i = use.2 := Option.some.inj (hi.symm.trans hslot)
    have := x.ty.slots_pos
    omega
  · cases hstore

/-- The code of a body keeps to the slots of its variables and to those it saves values in. -/
theorem assemble_laid (hm : m.Laid) (hx : Uses m.result m.Allows x)
    (h : assemble m.locals x = .ok code) : ∃ saved, code.Laid m saved := by
  obtain ⟨a, hrun, hlayout⟩ := exists_of_bind_eq_ok h
  obtain ⟨saved, hrow, husing⟩ := hx _ (storesBelow_of_laid hm) _ a (Nat.le_refl _) hrun
  obtain ⟨-, hinstructions, -, hmax, -⟩ := layout_eq_ok hlayout
  have hmax : code.maxLocals = max m.locals a.code.maxLocals := hmax
  have hmem : ∀ p ∈ code.instructions, .instr p.2 ∈ a.code.lines := fun p hp => by
    rw [hinstructions] at hp
    exact instr_mem_of_mem_placed hp
  refine ⟨saved, ?_⟩
  constructor
  case room => omega
  case kinds => exact husing.kinds
  case above =>
    intro x hx
    obtain ⟨slot, hslot, hlower, -⟩ := hrow.between x hx
    have := husing.reached x hx slot hslot
    exact ⟨slot, hslot, hlower, by omega⟩
  case apart => exact hrow.apart
  case stores =>
    rw [hinstructions, filterMap_placed]
    exact husing.stores
  case uses => exact fun p hp => husing.uses p.2 (hmem p hp)
  case within =>
    intro p hp use huse
    have := husing.within p.2 (hmem p hp) use huse
    omega

theorem granted_of_row {fr : Frame} (hstatic : fr.isStatic = m.isStatic)
    (hvars : fr.Declares m.variables) (hwithin : fr.vars.Within fr m.locals)
    (hrow : Row m.firstSlot m.variables m.locals) : fr.Granted m.Allows := by
  constructor
  case vars =>
    intro v hv use huse
    have hfirst : fr.firstSlot = m.firstSlot := by rw [Frame.firstSlot, hstatic, Member.firstSlot]
    rw [← hfirst] at hrow
    obtain ⟨x, hx, hslot, hty⟩ := hvars.mem_of_row hwithin hrow hv
    refine .inl ⟨x, hx, hslot.trans huse.1, ?_⟩
    rw [hty]
    exact huse.2.imp_right fun h => absurd h.2 (by simp)
  case self => exact fun h => .inr ⟨hstatic ▸ h, rfl⟩

theorem fair_of_subset {body : Block Stmt} (h : blockVariables body ⊆ m.variables) :
    ∀ s ∈ body.stmts, Fair ⟨True, fun _ => True, m.Allows⟩ s := by
  intro s hs
  refine ⟨fun _ _ _ _ _ _ _ _ => trivial, fun _ x hx _ huse => .inl ⟨x, h ?_, huse⟩⟩
  rw [blockVariables_eq, stmtsVariables_eq]
  exact List.mem_flatMap.2 ⟨s, hs, hx⟩

variable {h : Hierarchy} {u : CompilationUnit} {name : String}

theorem memberFiles_laid {d : ClassDecl} (hsettled : ∀ m ∈ d.members, m.Settled h u name)
    (hsized : ∀ m ∈ d.members, m.Sized) (hrows : ∀ m ∈ d.members, m.InRow) (hm : m ∈ d.members)
    (hfiles : memberFiles h (initsOf owner d false) m = .ok files) (hf : f ∈ files)
    (hcode : f.code = some code) : ∃ saved, code.Laid m saved := by
  have hrow := hrows m hm
  have hmember := hsettled m hm
  cases m with
  | field decl =>
    cases hfiles
    cases hf
  | method decl =>
    obtain ⟨file, hfile, heq⟩ := exists_of_bind_eq_ok hfiles
    cases heq
    obtain rfl := List.mem_singleton.1 hf
    obtain ⟨body, hbody, hrun⟩ := code_of_methodFile hfile hcode
    obtain ⟨-, ⟨vars, hbodySettled⟩, -⟩ := hmember
    have hfr := granted_of_row (m := .method decl) rfl hbodySettled.declares
      hbodySettled.within hrow
    rw [hbody] at hbodySettled
    have hfair := fair_of_subset (m := .method decl) (show blockVariables body ⊆ _ by
      simp [Member.variables, hbody, finalVariables])
    exact assemble_laid (m := .method decl) hrow.laid ((methodBody_codes hbodySettled
      (fun _ => (hsized _ hm).1) (fun _ => hfr) hfair).uses trivial) hrun
  | ctor decl =>
    obtain ⟨file, hfile, heq⟩ := exists_of_bind_eq_ok hfiles
    cases heq
    obtain rfl := List.mem_singleton.1 hf
    have hrun := code_of_ctorFile hfile hcode
    obtain ⟨vars, hbodySettled⟩ := hmember
    have hfr := granted_of_row (m := .ctor decl) rfl hbodySettled.declares hbodySettled.within hrow
    have hinits : ∀ f ∈ initsOf owner d false,
        Coded ⟨True, fun _ => True, Member.Allows (.ctor decl)⟩ .void (fun _ => True) 0
          (fieldInit h f) 0 0 :=
      initsOf_codes hsettled (fun _ => hsized) (fun _ _ _ _ _ _ _ _ => trivial)
        fun _ => hfr.self rfl
    have hfair := fair_of_subset (m := .ctor decl) (show blockVariables decl.body ⊆ _ by
      simp [Member.variables])
    exact assemble_laid (m := .ctor decl) hrow.laid ((ctorBody_codes hbodySettled
      (fun _ => (hsized _ hm).1) (fun _ => hfr) hinits hfair).uses trivial) hrun

end Lowering

/-! ## Accepted sources -/

open Lowering

/-- A unit whose variables have slots that do not overlap, and whose code uses them by their
types. -/
structure Analyzed.Laid (a : Analyzed) : Prop where
  members : ∀ d ∈ a.unit.types, ∀ m ∈ d.members, m.Laid
  codes : ∀ d, .classDecl d ∈ a.unit.types → ∀ m ∈ d.members, ∀ files,
    memberFiles a.hierarchy (initsOf (a.unit.internalName d.name) d false) m = .ok files →
    ∀ f ∈ files, ∀ code ∈ f.code, ∃ saved, code.Laid m saved

/-- The slots of an accepted source do not collide. -/
theorem accepted_laid {file : String} {maxDepth : Nat} {source : String} {a : Analyzed}
    (h : Accepted file maxDepth source a) : a.Laid := by
  have hwritten := Grammar.parseSource_written h.parsed
  have hcounted := (analyze_counted (q := False) (fun _ : True => hwritten) h.analyzed nofun).2
  have hrows : ∀ d ∈ a.unit.types, ∀ m ∈ d.members, m.Sized ∧ m.InRow := by
    intro d hd m hm
    obtain ⟨_, hcounted, -⟩ := hcounted d hd m hm
    exact ⟨hcounted.sized trivial, hcounted.inRow⟩
  constructor
  case members => exact fun d hd m hm => (hrows d hd m hm).2.laid
  case codes =>
    intro d hd m hm files hfiles f hf code hcode
    have hsettled := analyze_settled hwritten h.analyzed h.silent _ hd
    exact memberFiles_laid hsettled (fun m hm => (hrows _ hd m hm).1)
      (fun m hm => (hrows _ hd m hm).2) hm hfiles hf hcode

/-- A method with a handler, and with a return that saves its value while a final block runs. -/
def savingSource : String :=
  "class Saving \x7b int n = 1; long m(long a) \x7b try \x7b int i = 2; i++; return a; \x7d " ++
  "catch (Exception e) \x7b throw e; \x7d finally \x7b n = n + 1; \x7d \x7d \x7d"

theorem accepted_laid_saving : ∃ a files, Accepted "Saving.java" 100 savingSource a ∧
    generate a.unit a.hierarchy = .ok files ∧ a.Laid := by
  obtain ⟨a, files, ha, hfiles⟩ :=
    exists_generated (show generates "Saving.java" 100 savingSource by decide +kernel)
  exact ⟨a, files, ha, hfiles, accepted_laid ha⟩

/-! ## Variables of handlers -/

/-- Whether the code of a member uses a slot by an opcode. -/
def hasUse (a : Analyzed) (d : ClassDecl) (m : Member) (use : Opcode × Nat) : Bool :=
  match memberFiles a.hierarchy (initsOf (a.unit.internalName d.name) d false) m with
  | .ok files => files.any fun f => f.code.any fun code =>
    code.instructions.any fun p => p.2.localUse? = some use
  | .error _ => false

/-- Whether an accepted source stores a reference in the slot of a variable of a type. -/
def storesReference (file : String) (maxDepth : Nat) (source : String) (slot : Nat) (t : Ty) :
    Bool :=
  let (parsed, log) := Grammar.parseSource file maxDepth source
  !log.failed && match analyze parsed log with
    | .ok a => !a.log.failed && a.unit.types.any fun
        | .classDecl d => d.members.any fun m =>
          m.variables.any (fun x => x.slot = some slot ∧ x.ty = t) && hasUse a d m (.astore, slot)
        | .interfaceDecl _ => false
    | .error _ => false

/-- A handler for something that is no reference. -/
def intHandlerSource : String :=
  "class T \x7b void m() \x7b try \x7b \x7d catch (int e) \x7b \x7d \x7d \x7d"

/-- The variable of a handler is stored as a reference even where its type is `int`. -/
theorem not_all_stores_typed : ∃ a d m, Accepted "T.java" 100 intHandlerSource a ∧
    .classDecl d ∈ a.unit.types ∧ m ∈ d.members ∧ hasUse a d m (.astore, 1) ∧
    ∃ x ∈ m.variables, x.slot = some 1 ∧ x.ty = .int := by
  have h : storesReference "T.java" 100 intHandlerSource 1 .int := by decide +kernel
  simp only [storesReference, Bool.and_eq_true, Bool.not_eq_true'] at h
  obtain ⟨hparsed, hanalyzed⟩ := h
  split at hanalyzed
  case h_1 a ha =>
    simp only [Bool.and_eq_true, Bool.not_eq_true', List.any_eq_true] at hanalyzed
    obtain ⟨hsilent, type, htype, hstores⟩ := hanalyzed
    cases type with
    | classDecl d =>
      obtain ⟨m, hm, hmember⟩ := List.any_eq_true.1 hstores
      simp only [Bool.and_eq_true, List.any_eq_true, decide_eq_true_eq] at hmember
      obtain ⟨⟨x, hx, hslot, hty⟩, huse⟩ := hmember
      exact ⟨a, d, m, ⟨hparsed, ha, hsilent⟩, htype, hm, huse, x, hx, hslot, hty⟩
    | interfaceDecl d => cases hstores
  case h_2 => cases hanalyzed

end JMinusMinus
