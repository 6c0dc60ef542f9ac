import JMinusMinus.Proofs.Flow.Basic

/-!
# Flow through steps of lowering

`Flows P x b b' Q` says that control flows through the code of the step `x`, for some choice of
which of its new labels are alive. As with heights of the stack, the choice is a list that grows
as labels are created, `P` are facts about labels at the start and `Q` are those about the result.

A closed step needs no rule of its own. Where control comes to it, all its labels may be called
alive, and where control does not come, none of them is (`Closed.flows`). Only statements have to
say more exactly where control ends.
-/

namespace JMinusMinus.Lowering

variable {α β : Type}

/-- A step through whose code control flows. -/
def Flows (P : List Bool → Prop) (x : Lowering α) (b b' : Bool) (Q : List Bool → α → Prop) :
    Prop :=
  ∀ s a, x s = .ok a → ∀ lives : List Bool, lives.length = s.labels →
    (∀ more, lives <+: more → P more) →
    ∃ after, lives <+: after ∧ after.length = a.supply.labels ∧
      Flow after b a.code.lines b' ∧ (∀ h ∈ a.code.handlers, h.Calm after a.code.lines) ∧
      ∀ more, after <+: more → Q more a.value

namespace Flows

variable {P P' : List Bool → Prop} {x : Lowering α} {Q : List Bool → α → Prop} {b c b' c' : Bool}

theorem pure {a : α} (hb : b → b') (h : ∀ ℓ, P ℓ → Q ℓ a) : Flows P (pure a) b b' Q := by
  intro s a' hrun lives hlength hP
  cases hrun
  exact ⟨lives, List.prefix_rfl, hlength, .nil hb, by simp,
    fun more hmore => h more (hP more hmore)⟩

theorem bind {f : α → Lowering β} {R : List Bool → β → Prop} (hx : Flows P x b c Q)
    (hf : ∀ a, Flows (fun ℓ => P ℓ ∧ Q ℓ a) (f a) c b' R) : Flows P (x >>= f) b b' R := by
  intro s e hrun lives hlength hP
  obtain ⟨a, d, ha, hd, rfl⟩ := bind_eq_ok hrun
  obtain ⟨mid, hmid, hmidLength, hflow, hcalm, hQ⟩ := hx s a ha lives hlength hP
  obtain ⟨after, hafter, hafterLength, hflow', hcalm', hR⟩ :=
    hf a.value a.supply d hd mid hmidLength fun more hmore =>
      ⟨hP more (hmid.trans hmore), hQ more hmore⟩
  refine ⟨after, hmid.trans hafter, hafterLength, (hflow.mono hafter).append hflow', ?_, hR⟩
  intro h hh
  rw [show (a.code ++ d.code).lines = a.code.lines ++ d.code.lines from rfl]
  rcases List.mem_append.1 hh with hh | hh
  · simpa using ((hcalm h hh).mono hafter).append [] d.code.lines
  · simpa using (hcalm' h hh).append a.code.lines []

theorem given (h : Flows P x b b' Q) (hP : ∀ ℓ, P' ℓ → P ℓ) : Flows P' x b b' Q :=
  fun s a hrun lives hlength hP' =>
    h s a hrun lives hlength fun more hmore => hP more (hP' more hmore)

theorem imp (h : Flows P x b b' Q) (hb' : b' → c') : Flows P x b c' Q := by
  intro s a hrun lives hlength hP
  obtain ⟨after, hafter, hafterLength, hflow, hcalm, hQ⟩ := h s a hrun lives hlength hP
  exact ⟨after, hafter, hafterLength, hflow.imp hb', hcalm, hQ⟩

theorem known {q : Prop} (hq : ∀ ℓ, P ℓ → q) (h : q → Flows P x b b' Q) : Flows P x b b' Q := by
  intro s a hrun lives hlength hP
  exact h (hq lives (hP lives List.prefix_rfl)) s a hrun lives hlength hP

theorem ite {q : Prop} [Decidable q] (hx : q → Flows P x b b' Q) (hy : ¬q → Flows P y b b' Q) :
    Flows P (if q then x else y) b b' Q := by
  by_cases hq : q
  · rw [if_pos hq]
    exact hx hq
  · rw [if_neg hq]
    exact hy hq

theorem seq {x : Lowering Unit} {f : Unit → Lowering β} {R : List Bool → β → Prop}
    (hx : Flows P x b c fun _ _ => True) (hf : Flows P (f ()) c b' R) :
    Flows P (x >>= f) b b' R :=
  hx.bind fun _ => hf.given fun _ h => h.1

end Flows

/-- A step without a result through whose code control flows. -/
abbrev Passes (P : List Bool → Prop) (x : Lowering Unit) (b b' : Bool) : Prop :=
  Flows P x b b' fun _ _ => True

variable {P : List Bool → Prop} {b c b' : Bool}

theorem Closed.flows (hx : Closed known x) (hknown : b → ∀ ℓ, P ℓ → ∀ l ∈ known, l.Alive true ℓ) :
    Flows P x b b fun _ _ => True := by
  intro s a hrun lives hlength hP
  obtain ⟨⟨hle, hmarks, hjumps, -⟩, hhandlers⟩ := hx s a hrun
  let after := lives ++ List.replicate (a.supply.labels - s.labels) b
  have hcreated : ∀ l ∈ created s.labels a.supply.labels, l.Alive b after := by
    intro l hl
    have hl := mem_created.1 hl
    rw [Label.Alive, List.getElem?_append_right (by omega),
      List.getElem?_replicate_of_lt (by omega)]
  have hmarked : ∀ l ∈ marked a.code.lines, l.Alive b after := by
    intro l hl
    refine hcreated l (hmarks.mem_iff.1 ?_)
    simpa using hl
  refine ⟨after, List.prefix_append _ _, by simp [after]; omega, ?_, ?_, fun _ _ => trivial⟩
  · refine .of_marked hmarked fun hb i hi l hl => ?_
    rcases hjumps i hi l hl with h | h | h
    · exact hknown hb _ (hP after (List.prefix_append _ _)) l h
    · cases h
    · exact hb ▸ hcreated l h
  · intro h hh
    obtain ⟨before, first, inside, rest, heq, hstart, hstop, htarget⟩ := hhandlers h hh
    have hinside : ∀ l ∈ marked (.mark first :: inside), l.Alive b after := fun l hl =>
      hmarked l (by simp only [heq, marked_append, List.mem_append]; exact .inl (.inr hl))
    cases b with
    | true => exact .inl (hinside _ htarget.mem_marked)
    | false => exact .inr ⟨before, first, inside, rest, heq, hstart, hstop, hinside⟩

theorem Closed.flows_dead (hx : Closed known x) : Flows P x false b' fun _ _ => True :=
  (hx.flows nofun).imp nofun

theorem Closed.passes (hx : Closed [] x) : Flows P x b b fun _ _ => True :=
  hx.flows fun _ _ _ => by simp

theorem Flows.orDead {x : Lowering Unit} {known : List Label} (h : Passes P x true c)
    (hx : Closed known x) (b : Bool) : Passes P x b (b && c) := by
  cases b with
  | true => exact h
  | false => exact hx.flows_dead

theorem failWith_flows {Q : List Bool → α → Prop} : Flows P (failWith f : Lowering α) b b' Q := by
  intro s a hrun
  cases hrun

theorem newLabel_flows (c : Bool) : Flows P newLabel b b fun ℓ l => l.Alive c ℓ := by
  intro s a hrun lives hlength hP
  cases hrun
  refine ⟨lives ++ [c], List.prefix_append _ _, by simp [hlength], .nil id, by simp, ?_⟩
  intro more hmore
  refine Label.Alive.mono ?_ hmore
  simp [Label.Alive, ← hlength]

theorem emit_flows {f : Fragment}
    (h : ∀ ℓ, P ℓ → Flow ℓ b f.lines b' ∧ ∀ h ∈ f.handlers, h.target.Alive true ℓ) :
    Passes P (emit f) b b' := by
  intro s a hrun lives hlength hP
  cases hrun
  obtain ⟨hflow, htargets⟩ := h lives (hP lives List.prefix_rfl)
  exact ⟨lives, List.prefix_rfl, hlength, hflow, fun h hh => .inl (htargets h hh),
    fun _ _ => trivial⟩

theorem mark_flows {l : Label} (c : Bool) (hl : ∀ ℓ, P ℓ → l.Alive c ℓ) (hb : b → c) :
    Passes P (mark l) b c :=
  emit_flows fun ℓ hP => ⟨.mark (hl ℓ hP) hb (.nil id), by simp [Fragment.mark]⟩

theorem guard_flows {ranges : List (Label × Label)} {target : Label} {catches : Option String}
    (htarget : ∀ ℓ, P ℓ → target.Alive true ℓ) : Passes P (guard ranges target catches) b b := by
  refine emit_flows fun ℓ hP => ⟨.nil id, ?_⟩
  intro h hh
  obtain ⟨r, -, rfl⟩ := List.mem_map.1 hh
  exact htarget ℓ hP

theorem addGaps_flows : Passes P (addGaps gaps) b b := by
  intro s a hrun lives hlength hP
  cases hrun
  exact ⟨lives, List.prefix_rfl, hlength, .nil id, by simp, fun _ _ => trivial⟩

theorem takeGaps_flows (h : Passes P x b b') : Flows P (takeGaps scope x) b b' fun _ _ => True := by
  intro s a hrun lives hlength hP
  obtain ⟨e, he, rfl⟩ := takeGaps_eq_ok hrun
  exact h s e he lives hlength hP

theorem instr_flows {i : Instruction} (hfalls : i.opcode.fallsThrough = false)
    (htargets : b → ∀ l ∈ i.targets, ∀ ℓ, P ℓ → l.Alive true ℓ) : Passes P (instr i) b false := by
  refine emit_flows fun ℓ hP => ⟨.instr (fun hb l hl => htargets hb l hl ℓ hP) (.nil ?_), ?_⟩
  · simp [hfalls]
  · simp [Fragment.instr]

theorem goto_flows {l : Label} (hl : b → ∀ ℓ, P ℓ → l.Alive true ℓ) :
    Passes P (branch .goto l) b false := by
  refine instr_flows rfl fun hb l' hl' => ?_
  obtain rfl := List.mem_singleton.1 hl'
  exact hl hb

theorem op_flows {o : Opcode} (hfalls : o.fallsThrough = false) : Passes P (op o) b false :=
  instr_flows hfalls fun _ _ hl => nomatch hl

end JMinusMinus.Lowering
