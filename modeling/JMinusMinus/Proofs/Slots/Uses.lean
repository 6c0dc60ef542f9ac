import JMinusMinus.Proofs.Progress.Steps
import JMinusMinus.Proofs.Slots.Variables

/-!
# Uses of local slots

An instruction uses a local slot if it is a load or a store, in its long or its short form, or the
step of a local `int` (`Instruction.localUse?`). The code of an expression uses the slots of its
variables, each by instructions for the type of the variable, and the slot of the current object
(`expr_uses`).

Lowering takes slots of its own for what has to be kept while a final block runs. They stand in a
row above the slots that were in use (`Uses`).
-/

namespace JMinusMinus

open Lowering (loadOp storeOp)

/-- A use of the slot of a variable by an instruction for its type. What a handler catches is
stored as a reference, whatever the type of its variable. -/
def Variable.Allows (x : Variable) (use : Opcode × Nat) : Prop :=
  x.slot = some use.2 ∧ (use.1.Serves x.ty ∨ use.1 = .astore ∧ x.caught)

theorem Variable.allows_of_serves {slot : Nat} {t : Ty} {o : Opcode} (h : o.Serves t) :
    Variable.Allows ⟨some slot, t, false⟩ (o, slot) :=
  ⟨rfl, .inl h⟩

/-! ## Stores -/

/-- Whether an opcode stores in a slot. -/
def Opcode.isStore : Opcode → Bool
  | .istore | .lstore | .dstore | .astore => true
  | _ => false

theorem isStore_loadOp (t : Ty) : (loadOp t).isStore = false := by
  cases t <;> rfl

theorem isStore_storeOp (t : Ty) : (storeOp t).isStore = true := by
  cases t <;> rfl

/-- The store of an instruction, if it is to a slot from a bound on. -/
def Instruction.storeFrom? (bound : Nat) (i : Instruction) : Option (Opcode × Nat) :=
  i.localUse?.filter fun use => use.1.isStore && bound ≤ use.2

/-- The store that a line makes in a slot from a bound on. -/
def Line.storeFrom? (bound : Nat) : Line → Option (Opcode × Nat)
  | .mark _ => none
  | .instr i => i.storeFrom? bound

/-- The stores of some lines to slots from a bound on, in order. -/
def storesFrom (bound : Nat) (lines : List Line) : List (Opcode × Nat) :=
  lines.filterMap (Line.storeFrom? bound)

theorem storesFrom_eq_nil {lines : List Line}
    (h : ∀ i, .instr i ∈ lines → i.storeFrom? bound = none) : storesFrom bound lines = [] := by
  refine List.filterMap_eq_nil_iff.2 fun l hl => ?_
  cases l with
  | mark => rfl
  | instr i => exact h i hl

/-- What is placed has the stores of its lines. -/
theorem filterMap_placed (bound offset : Nat) (lines : List Line) :
    (placed offset lines).filterMap (fun p => p.2.storeFrom? bound) = storesFrom bound lines := by
  induction lines generalizing offset with
  | nil => rfl
  | cons l lines ih =>
    cases l with
    | mark => exact ih offset
    | instr i =>
      simp only [placed, storesFrom, List.filterMap_cons]
      rw [ih]
      rfl

/-- Slots that may be stored to are below a bound. -/
def StoresBelow (bound : Nat) (allowed : Opcode × Nat → Prop) : Prop :=
  ∀ use, allowed use → use.1.isStore → use.2 < bound

theorem StoresBelow.storeFrom? {i : Instruction} (h : StoresBelow bound allowed)
    (hi : i.localUse? = some use) (huse : allowed use) : i.storeFrom? bound = none := by
  have hbelow := h use huse
  simp only [Instruction.storeFrom?, hi, Option.filter_eq_none_iff]
  rintro _ ⟨⟩
  simpa using hbelow

/-- Code whose uses of local slots are allowed, or are of saved values. It reaches the slots of
both. Every saved value is stored once, in order, and nothing else is stored from a bound on. -/
structure Fragment.Using (bound : Nat) (result : Ty) (allowed : Opcode × Nat → Prop)
    (saved : List Variable) (f : Fragment) : Prop where
  kinds : ∀ x ∈ saved, x.ty = result ∨ x.ty = .object
  stores : List.Forall₂ Variable.Allows saved (storesFrom bound f.lines)
  reached : ∀ x ∈ saved, ∀ slot ∈ x.slot, slot + x.ty.slots ≤ f.maxLocals
  uses : ∀ i, .instr i ∈ f.lines → ∀ use ∈ i.localUse?, allowed use ∨ ∃ x ∈ saved, x.Allows use
  within : ∀ i, .instr i ∈ f.lines → ∀ use ∈ i.localUse?, use.2 + use.1.localWidth ≤ f.maxLocals

namespace Fragment.Using

variable {result : Ty} {allowed allowed' : Opcode × Nat → Prop} {saved : List Variable}
  {f : Fragment}

theorem unused (h : ∀ i, .instr i ∈ f.lines → i.localUse? = none) :
    f.Using bound result allowed [] where
  kinds := nofun
  stores := by
    rw [storesFrom_eq_nil fun i hi => by simp [Instruction.storeFrom?, h i hi]]
    exact .nil
  reached := nofun
  uses i hi use huse := by simp [h i hi] at huse
  within i hi use huse := by simp [h i hi] at huse

theorem append {g : Fragment} {saved' : List Variable} (hf : f.Using bound result allowed saved)
    (hg : g.Using bound result allowed saved') :
    (f ++ g).Using bound result allowed (saved ++ saved') where
  kinds x hx := (List.mem_append.1 hx).elim (hf.kinds x) (hg.kinds x)
  stores := by
    change List.Forall₂ _ _ (List.filterMap _ (f.lines ++ g.lines))
    rw [List.filterMap_append]
    exact List.rel_append hf.stores hg.stores
  reached x hx slot hslot := by
    rcases List.mem_append.1 hx with hx | hx
    · exact Nat.le_trans (hf.reached x hx slot hslot) (Nat.le_max_left _ _)
    · exact Nat.le_trans (hg.reached x hx slot hslot) (Nat.le_max_right _ _)
  uses i hi use huse := by
    rcases List.mem_append.1 hi with hi | hi
    · exact (hf.uses i hi use huse).imp_right fun ⟨x, hx, h⟩ => ⟨x, by simp [hx], h⟩
    · exact (hg.uses i hi use huse).imp_right fun ⟨x, hx, h⟩ => ⟨x, by simp [hx], h⟩
  within i hi use huse := by
    rcases List.mem_append.1 hi with hi | hi
    · exact Nat.le_trans (hf.within i hi use huse) (Nat.le_max_left _ _)
    · exact Nat.le_trans (hg.within i hi use huse) (Nat.le_max_right _ _)

theorem more (h : f.Using bound result allowed saved) (hmore : ∀ use, allowed use → allowed' use) :
    f.Using bound result allowed' saved :=
  { h with uses := fun i hi use huse => (h.uses i hi use huse).imp_left (hmore use) }

end Fragment.Using

namespace Lowering

variable {α β : Type} {result : Ty} {allowed allowed' : Opcode × Nat → Prop}

/-! ## Steps -/

/-- A step whose code uses local slots as it is allowed, and values that it saves in slots from the
first free one on. -/
def Uses (result : Ty) (allowed : Opcode × Nat → Prop) (x : Lowering α) : Prop :=
  ∀ bound, StoresBelow bound allowed → ∀ s a, bound ≤ s.slot → x s = .ok a →
    ∃ saved, Row s.slot saved a.supply.slot ∧ a.code.Using bound result allowed saved

namespace Uses

variable {x : Lowering α}

theorem pure {a : α} : Uses result allowed (pure a) := by
  intro bound _ s a' _ hrun
  cases hrun
  exact ⟨[], rfl, .unused (by simp)⟩

theorem bind_of_run {f : α → Lowering β} (hx : Uses result allowed x)
    (hf : ∀ s a, x s = .ok a → Uses result allowed (f a.value)) :
    Uses result allowed (x >>= f) := by
  intro bound hbelow s c hbound hrun
  obtain ⟨a, b, ha, hb, rfl⟩ := bind_eq_ok hrun
  obtain ⟨saved, hrow, husing⟩ := hx bound hbelow s a hbound ha
  obtain ⟨saved', hrow', husing'⟩ :=
    hf s a ha bound hbelow a.supply b (Nat.le_trans hbound hrow.le) hb
  exact ⟨saved ++ saved', row_append.2 ⟨_, hrow, hrow'⟩, husing.append husing'⟩

theorem bind {f : α → Lowering β} (hx : Uses result allowed x)
    (hf : ∀ a, Uses result allowed (f a)) : Uses result allowed (x >>= f) :=
  hx.bind_of_run fun _ a _ => hf a.value

theorem more (h : Uses result allowed x) (hmore : ∀ use, allowed use → allowed' use) :
    Uses result allowed' x := by
  intro bound hbelow s a hbound hrun
  obtain ⟨saved, hrow, husing⟩ :=
    h bound (fun use huse => hbelow use (hmore use huse)) s a hbound hrun
  exact ⟨saved, hrow, husing.more hmore⟩

end Uses

theorem failWith_uses : Uses result allowed (failWith f : Lowering α) := by
  intro bound _ s a _ hrun
  cases hrun

theorem newLabel_uses : Uses result allowed newLabel := by
  intro bound _ s a _ hrun
  cases hrun
  exact ⟨[], rfl, .unused (by simp)⟩

theorem mark_uses (l : Label) : Uses result allowed (mark l) := by
  intro bound _ s a _ hrun
  cases hrun
  exact ⟨[], rfl, .unused (by simp [Fragment.mark])⟩

theorem guard_uses (ranges : List (Label × Label)) (target : Label) (catches : Option String) :
    Uses result allowed (guard ranges target catches) := by
  intro bound _ s a _ hrun
  cases hrun
  exact ⟨[], rfl, .unused (by simp)⟩

theorem addGaps_uses (gaps : List Gap) : Uses result allowed (addGaps gaps) := by
  intro bound _ s a _ hrun
  cases hrun
  exact ⟨[], rfl, .unused (by simp)⟩

theorem takeGaps_uses (hx : Uses result allowed x) : Uses result allowed (takeGaps scope x) := by
  intro bound hbelow s c hbound hrun
  obtain ⟨a, ha, rfl⟩ := takeGaps_eq_ok hrun
  exact hx bound hbelow s a hbound ha

theorem instr_uses {i : Instruction} (h : i.localUse? = none) : Uses result allowed (instr i) := by
  intro bound _ s a _ hrun
  cases hrun
  exact ⟨[], rfl, .unused (by simp [Fragment.instr, h])⟩

theorem addSlots_eq_ok (h : addSlots slot count = .ok n) : n = slot + count := by
  unfold addSlots at h
  split at h
  · exact (Except.ok.inj h).symm
  · cases h

theorem access_code {o : Opcode} {slot : Nat} {s : Supply} {a : Emitted Unit}
    (h : access o slot s = .ok a) : ∃ i, i.localUse? = some (o, slot) ∧
      a = ⟨(), { lines := [.instr i], maxLocals := slot + o.localWidth }, [], s⟩ := by
  obtain ⟨code, hcode, rfl⟩ := emit_ofExcept_eq_ok h
  obtain ⟨n, hn, hcode⟩ := exists_of_bind_eq_ok hcode
  cases hcode
  rw [addSlots_eq_ok hn]
  refine ⟨_, ?_, rfl⟩
  split
  next short hshort => exact Opcode.longForm?_shortForm hshort
  next => rfl

theorem access_uses (h : allowed (o, slot)) : Uses result allowed (access o slot) := by
  intro bound hbelow s a _ hrun
  obtain ⟨i, hi, rfl⟩ := access_code hrun
  refine ⟨[], rfl, nofun, ?_, nofun, ?_, ?_⟩
  · rw [storesFrom_eq_nil fun j hj => ?_]
    · exact .nil
    · obtain rfl : j = i := by simpa using hj
      exact hbelow.storeFrom? hi h
  all_goals
    intro j hj use huse
    obtain rfl : j = i := by simpa using hj
    obtain rfl : (o, slot) = use := by simpa [hi] using huse
  · exact .inl h
  · exact Nat.le_refl _

theorem stepLocal_uses (delta : Int) (h : allowed (.iinc, slot)) :
    Uses result allowed (stepLocal slot delta) := by
  intro bound hbelow s a _ hrun
  obtain ⟨code, hcode, rfl⟩ := emit_ofExcept_eq_ok hrun
  obtain ⟨n, hn, hcode⟩ := exists_of_bind_eq_ok hcode
  cases hcode
  refine ⟨[], rfl, nofun, .nil, nofun, ?_, ?_⟩
  all_goals
    intro j hj use huse
    obtain rfl : j = .step slot delta := by simpa using hj
    obtain rfl : (.iinc, slot) = use := by simpa [Instruction.localUse?] using huse
  · exact .inl h
  · exact Nat.le_of_eq (addSlots_eq_ok hn).symm

/-- A value is saved in slots of its own. What follows may only load it. -/
theorem saved_uses {t : Ty} {f : Nat → Lowering α} (ht : t = result ∨ t = .object)
    (hf : ∀ slot, slot + t.slots ≤ maxSlots →
      Uses result (fun use => allowed use ∨ use = (loadOp t, slot)) (f slot)) :
    Uses result allowed (do
      let slot ← newSlot t
      access (storeOp t) slot
      f slot) := by
  intro bound hbelow s c hbound hrun
  obtain ⟨hfits, hrun⟩ := newSlot_bind_eq_ok hrun
  obtain ⟨a, b, ha, hb, rfl⟩ := bind_eq_ok hrun
  obtain ⟨i, hi, rfl⟩ := access_code ha
  have hbelow' : StoresBelow bound fun use => allowed use ∨ use = (loadOp t, s.slot) := by
    rintro use (huse | rfl) hstore
    · exact hbelow use huse hstore
    · simp [isStore_loadOp] at hstore
  obtain ⟨saved, hrow, husing⟩ :=
    hf _ hfits bound hbelow' _ b (Nat.le_trans hbound (Nat.le_add_right _ _)) hb
  let x : Variable := ⟨some s.slot, t, false⟩
  have hx : x.Allows (storeOp t, s.slot) := Variable.allows_of_serves (storeOp_serves t)
  have hmax : s.slot + t.slots ≤ max (s.slot + (storeOp t).localWidth) b.code.maxLocals := by
    rw [localWidth_storeOp]
    exact Nat.le_max_left _ _
  refine ⟨x :: saved, ⟨rfl, hrow⟩, ?_, ?_, ?_, ?_, ?_⟩
  · exact List.forall_mem_cons.2 ⟨ht, husing.kinds⟩
  · have hstore : (Line.instr i).storeFrom? bound = some (storeOp t, s.slot) := by
      simp [Line.storeFrom?, Instruction.storeFrom?, hi, isStore_storeOp, hbound]
    change List.Forall₂ _ _ (List.filterMap _ (.instr i :: b.code.lines))
    rw [List.filterMap_cons_some hstore]
    exact .cons hx husing.stores
  · refine List.forall_mem_cons.2 ⟨fun slot hslot => ?_, fun y hy slot hslot => ?_⟩
    · cases hslot
      exact hmax
    · exact Nat.le_trans (husing.reached y hy slot hslot) (Nat.le_max_right _ _)
  · intro j hj use huse
    rcases List.mem_cons.1 hj with heq | hj
    · cases heq
      obtain rfl : (storeOp t, s.slot) = use := by simpa [hi] using huse
      exact .inr ⟨x, by simp, hx⟩
    · rcases husing.uses j hj use huse with (h | rfl) | ⟨y, hy, h⟩
      · exact .inl h
      · exact .inr ⟨x, by simp, Variable.allows_of_serves (loadOp_serves t)⟩
      · exact .inr ⟨y, by simp [hy], h⟩
  · intro j hj use huse
    rcases List.mem_cons.1 hj with heq | hj
    · cases heq
      obtain rfl : (storeOp t, s.slot) = use := by simpa [hi] using huse
      exact Nat.le_max_left _ _
    · exact Nat.le_trans (husing.within j hj use huse) (Nat.le_max_right _ _)

theorem longForm?_returnOp (t : Ty) : (returnOp t).longForm? = none := by
  cases t <;> rfl

/-! ## Expressions -/

theorem Built.uses (h : Built T known x) : Uses result T.allowed x := by
  induction h with
  | pure => exact .pure
  | bind _ _ hx hf => exact hx.bind hf
  | failWith => exact failWith_uses
  | instr huse => exact instr_uses huse
  | access hslot => exact access_uses hslot
  | stepLocal hslot => exact stepLocal_uses _ hslot
  | skip _ hx =>
    refine newLabel_uses.bind fun l => ?_
    exact (hx l).bind fun _ => mark_uses l
  | choice _ _ hx hy =>
    refine newLabel_uses.bind fun l => newLabel_uses.bind fun l' => ?_
    refine (hx l l').bind fun _ => (mark_uses l).bind fun _ => ?_
    exact (hy l l').bind fun _ => mark_uses l'

theorem expr_uses (e : Expr) (he : Named allowed e) (use : Use) :
    Uses result allowed (expr h use e) := by
  obtain ⟨known, haims⟩ := use.exists_aims
  exact (expr_built_of_named he known use haims False.elim).uses

end Lowering

end JMinusMinus
