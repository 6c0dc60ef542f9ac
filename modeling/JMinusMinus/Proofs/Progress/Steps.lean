import JMinusMinus.Proofs.Built

/-!
# Steps of lowering that stop

A step of lowering may stop. `Lowers E n x p` says why the step `x` may: for a reason `E`, or
because the slots that it takes cannot be counted. It takes `n` slots, so that the step runs out of
slots exactly if these are too many.

Code is made for every settled expression, unless it creates an array with more lengths than an
instruction can count (`expr_runs`). Analysis has resolved members and types, literals have values,
and the slots of variables can be counted.
-/

namespace JMinusMinus.Lowering

variable {α β : Type}

/-- A step that takes so many slots and stops only for a reason, or because slots run out. -/
def Lowers (E : Failure → Prop) (n : Nat) (x : Lowering α) (p : α → Prop) : Prop :=
  ∀ s, (∀ f, x s = .error f → E f ∨ f = .fault .slotOverflow ∧ maxSlots < s.slot + n) ∧
    ∀ a, x s = .ok a → a.supply.slot = s.slot + n ∧
      (s.slot ≤ maxSlots → s.slot + n ≤ maxSlots) ∧ p a.value

/-- A step that takes no slots and stops only for a reason. -/
abbrev Runs (E : Failure → Prop) (x : Lowering α) : Prop := Lowers E 0 x fun _ => True

theorem bind_cases (x : Lowering α) (f : α → Lowering β) (s : Supply) :
    (∃ e, x s = .error e ∧ (x >>= f) s = .error e) ∨
      ∃ a, x s = .ok a ∧ ((∃ e, f a.value a.supply = .error e ∧ (x >>= f) s = .error e) ∨
        ∃ b c, f a.value a.supply = .ok b ∧ (x >>= f) s = .ok c ∧ c.value = b.value ∧
          c.supply = b.supply) := by
  cases hx : x s with
  | error e => exact .inl ⟨e, rfl, by simp [Bind.bind, hx, Except.bind]⟩
  | ok a =>
    refine .inr ⟨a, rfl, ?_⟩
    cases hf : f a.value a.supply with
    | error e => exact .inl ⟨e, rfl, by simp [Bind.bind, hx, hf, Except.bind]⟩
    | ok b =>
      refine .inr ⟨b, ⟨b.value, a.code ++ b.code, a.gaps ++ b.gaps, b.supply⟩, rfl, ?_, rfl, rfl⟩
      simp [Bind.bind, hx, hf, Except.bind, Pure.pure, Except.pure]

namespace Lowers

variable {E : Failure → Prop} {x : Lowering α} {p q : α → Prop} {r : β → Prop} {n k : Nat}
  {f : α → Lowering β}

theorem pure {a : α} (h : p a) : Lowers E 0 (pure a) p := by
  refine fun s => ⟨nofun, fun a' heq => ?_⟩
  cases heq
  exact ⟨rfl, id, h⟩

theorem bind (hx : Lowers E n x p) (hf : ∀ a, p a → Lowers E k (f a) r) :
    Lowers E (n + k) (x >>= f) r := by
  intro s
  obtain ⟨herror, hok⟩ := hx s
  rcases bind_cases x f s with ⟨e, hrun, hbind⟩ | ⟨a, hrun, hrest⟩
  · rw [hbind]
    refine ⟨fun e' heq => ?_, nofun⟩
    cases heq
    exact (herror e hrun).imp id fun h => ⟨h.1, by omega⟩
  · obtain ⟨hslot, hle, ha⟩ := hok a hrun
    obtain ⟨herror', hok'⟩ := hf a.value ha a.supply
    simp only [hslot, Nat.add_assoc] at herror' hok'
    rcases hrest with ⟨e, hrun', hbind⟩ | ⟨b, c, hrun', hbind, hvalue, hsupply⟩
    · rw [hbind]
      refine ⟨fun e' heq => ?_, nofun⟩
      cases heq
      exact herror' e hrun'
    · rw [hbind]
      refine ⟨nofun, fun c' heq => ?_⟩
      cases heq
      obtain ⟨hslot', hle', hb⟩ := hok' b hrun'
      rw [hsupply, hvalue]
      exact ⟨hslot', fun hs => hle' (hle hs), hb⟩

theorem after (hx : Lowers E 0 x p) (hf : ∀ a, p a → Lowers E n (f a) r) :
    Lowers E n (x >>= f) r := by
  have h := hx.bind hf
  rwa [Nat.zero_add] at h

end Lowers

section Steps

variable {E : Failure → Prop}

theorem ofExcept_runs (h : e = .ok a) : Lowers E 0 (ofExcept e) fun b => b = a := by
  subst h
  exact .pure rfl

theorem emit_runs (f : Fragment) : Runs E (emit f) := by
  refine fun s => ⟨nofun, fun a heq => ?_⟩
  cases heq
  exact ⟨rfl, id, trivial⟩

theorem newLabel_runs : Runs E newLabel := by
  refine fun s => ⟨nofun, fun a heq => ?_⟩
  cases heq
  exact ⟨rfl, id, trivial⟩

theorem instr_runs (i : Instruction) : Runs E (instr i) := emit_runs _

theorem mark_runs (l : Label) : Runs E (mark l) := emit_runs _

theorem guard_runs (ranges : List (Label × Label)) (target : Label) (catches : Option String) :
    Runs E (guard ranges target catches) := emit_runs _

theorem addGaps_runs (gaps : List Gap) : Runs E (addGaps gaps) := by
  refine fun s => ⟨nofun, fun a heq => ?_⟩
  cases heq
  exact ⟨rfl, id, trivial⟩

theorem takeGaps_lowers (h : Lowers E n x fun _ => True) :
    Lowers E n (takeGaps scope x) fun _ => True := by
  intro s
  obtain ⟨herror, hok⟩ := h s
  cases hx : x s with
  | error f =>
    have hrun : takeGaps scope x s = .error f := by simp [takeGaps, hx, bind, Except.bind]
    rw [hrun]
    refine ⟨fun e heq => ?_, nofun⟩
    cases heq
    exact herror f hx
  | ok a =>
    refine ⟨fun e he => ?_, fun b hb => ?_⟩
    · simp [takeGaps, hx, bind, Except.bind, pure, Except.pure] at he
    · obtain ⟨a', ha', rfl⟩ := takeGaps_eq_ok hb
      exact ⟨(hok a' ha').1, (hok a' ha').2.1, trivial⟩

theorem access_runs {o : Opcode} (h : slot + o.localWidth ≤ maxSlots) : Runs E (access o slot) := by
  have hok : ∃ code, Fragment.access o slot = .ok code := by
    simp [Fragment.access, addSlots, h, bind, Except.bind, pure, Except.pure]
  obtain ⟨code, hcode⟩ := hok
  exact .after (ofExcept_runs hcode) fun _ _ => emit_runs _

theorem stepLocal_runs (h : slot + 1 ≤ maxSlots) : Runs E (stepLocal slot delta) := by
  have hok : ∃ code, Fragment.step slot delta = .ok code := by
    simp [Fragment.step, addSlots, h, bind, Except.bind, pure, Except.pure]
  obtain ⟨code, hcode⟩ := hok
  exact .after (ofExcept_runs hcode) fun _ _ => emit_runs _

theorem newSlot_lowers (t : Ty) : Lowers E t.slots (newSlot t) fun slot =>
    slot + t.slots ≤ maxSlots := by
  intro s
  unfold newSlot addSlots
  by_cases hfits : s.slot + t.slots ≤ maxSlots
  · rw [if_pos hfits]
    refine ⟨nofun, fun a heq => ?_⟩
    cases heq
    exact ⟨rfl, fun _ => hfits, hfits⟩
  · rw [if_neg hfits]
    refine ⟨fun f heq => ?_, nofun⟩
    cases heq
    exact .inr ⟨rfl, by omega⟩

end Steps

/-! ## Expressions -/

theorem localWidth_of_serves {o : Opcode} {t : Ty} (h : o.Serves t) : o.localWidth = t.slots := by
  cases t with
  | int => rcases h with rfl | rfl | rfl <;> rfl
  | _ => rcases h with rfl | rfl <;> rfl

theorem localWidth_loadOp (t : Ty) : (loadOp t).localWidth = t.slots :=
  localWidth_of_serves (loadOp_serves t)

theorem localWidth_storeOp (t : Ty) : (storeOp t).localWidth = t.slots :=
  localWidth_of_serves (storeOp_serves t)

/-- Variables whose slots can be counted. -/
def Countable (fr : Frame) : Prop := ∀ x ∈ fr.vars, x.1 + x.2.slots ≤ maxSlots

variable {E : Failure → Prop}

/-- Code that is built is made, unless it stops for a reason that is allowed. -/
theorem Built.runs {T : Terms} (hstrict : T.strict)
    (hallowed : ∀ use, T.allowed use → use.2 + use.1.localWidth ≤ maxSlots) (h : Built T known x) :
    Runs T.stops x := by
  induction h with
  | pure => exact .pure trivial
  | bind _ _ hx hf => exact .after hx fun a _ => hf a
  | failWith hf =>
    refine fun s => ⟨fun f heq => ?_, nofun⟩
    cases heq
    exact .inl (hf hstrict)
  | instr => exact instr_runs _
  | access hslot => exact access_runs (hallowed _ hslot)
  | stepLocal hslot => exact stepLocal_runs (hallowed _ hslot)
  | skip _ hx =>
    refine .after newLabel_runs fun l _ => ?_
    exact .after (hx l) fun _ _ => mark_runs l
  | choice _ _ hx hy =>
    refine .after newLabel_runs fun l _ => .after newLabel_runs fun l' _ => ?_
    refine .after (hx l l') fun _ _ => .after (mark_runs l) fun _ _ => ?_
    exact .after (hy l l') fun _ _ => mark_runs l'

theorem expr_runs (hfr : Countable fr) {e : Expr} (he : e.Settled fr)
    (hdeep : ∀ x ∈ e.nodes, x.isDeepCreation → E (.ofDefect (.dimensions x.line))) {use : Use}
    (huse : use.Meets e) : Runs E (expr h use e) := by
  obtain ⟨known, haims⟩ := use.exists_aims
  have hnamed : Named (fun use => use.2 + use.1.localWidth ≤ maxSlots) e := by
    refine named_of_settled (fun v hv o ho => ?_) (fun _ => by decide) he
    rw [localWidth_of_serves ho]
    exact hfr v hv
  have hbuilt : BuiltExpr ⟨True, E, fun use => use.2 + use.1.localWidth ≤ maxSlots⟩ h e :=
    expr_built hnamed (fun _ => he) fun x hx hd _ => hdeep x hx hd
  exact (hbuilt known use haims fun _ => huse).runs trivial fun _ huse => huse

end JMinusMinus.Lowering
