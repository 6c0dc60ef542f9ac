import JMinusMinus.Proofs.Steps

/-!
# Balanced code

A line of code is checked against a height of the stack before it, a height after it, and the
heights of labels. Where control does not go on, the height after is free. Labels are numbered
in the order of creation, so their heights are a list that grows as labels are created.

*Steps of lowering.*  `Balances P x k k' Q` says that the code of the step `x` is checked from
height `k` to height `k'`, for some heights of the labels that it creates, and that its handlers
start with the exception on the stack. `P` are facts about label heights at the start and `Q` are
those about the result. Facts are about all lists that may still grow out of the present one.

*Layout.*  Code that is checked line by line has a height at every byte offset at which an
instruction starts (`Checks.exists_heights`).
-/

namespace JMinusMinus

variable {code : Code} {i : Instruction} {l : Label} {lines : List Line} {heights : List Nat}
  {slot : Nat}

/-! ## Checked lines -/

/-- The stack has a height at a label. -/
def Label.At (l : Label) (k : Nat) (heights : List Nat) : Prop := heights[l.id]? = some k

theorem Label.At.mono (h : l.At k a) (hab : a <+: b) : l.At k b := by
  obtain ⟨c, rfl⟩ := hab
  have hlt : l.id < a.length := (List.getElem?_eq_some_iff.1 h).1
  rw [Label.At, List.getElem?_append_left hlt]
  exact h

/-- An instruction that finds its words, leaves a height behind where control goes on, and meets
the heights of the labels it jumps to. -/
def Instruction.Steps (heights : List Nat) (i : Instruction) (k k' : Nat) : Prop :=
  ∃ takes puts, i.effect = some (takes, puts) ∧ takes ≤ k ∧
    (∀ l ∈ i.targets, l.At (k - takes + puts) heights) ∧
    (i.opcode.fallsThrough → k' = k - takes + puts)

theorem Instruction.Steps.mono (h : i.Steps a k k') (hab : a <+: b) : i.Steps b k k' := by
  obtain ⟨takes, puts, heffect, hle, htargets, hnext⟩ := h
  exact ⟨takes, puts, heffect, hle, fun l hl => (htargets l hl).mono hab, hnext⟩

/-- Lines that lead from one height of the stack to another, with all labels at their heights. -/
inductive Checks (heights : List Nat) : Nat → List Line → Nat → Prop
  | nil {k : Nat} : Checks heights k [] k
  | mark {l : Label} {k k' : Nat} {lines : List Line} :
      l.At k heights → Checks heights k lines k' → Checks heights k (.mark l :: lines) k'
  | instr {i : Instruction} {k m k' : Nat} {lines : List Line} :
      i.Steps heights k m → Checks heights m lines k' → Checks heights k (.instr i :: lines) k'

theorem Checks.append (ha : Checks heights k a m) (hb : Checks heights m b k') :
    Checks heights k (a ++ b) k' := by
  induction ha with
  | nil => exact hb
  | mark hl _ ih => exact .mark hl (ih hb)
  | instr hi _ ih => exact .instr hi (ih hb)

theorem Checks.mono (h : Checks a k lines k') (hab : a <+: b) : Checks b k lines k' := by
  induction h with
  | nil => exact .nil
  | mark hl _ ih => exact .mark (hl.mono hab) ih
  | instr hi _ ih => exact .instr (hi.mono hab) ih

/-! ## Heights by offset -/

/-- Heights at the offsets of lines: instructions step between them, and marks have theirs. -/
structure LineHeights (heights : List Nat) (start : Nat) (lines : List Line) (height : Nat → Nat) :
    Prop where
  instructions : ∀ p ∈ placed start lines,
    p.2.Steps heights (height p.1) (height (p.1 + p.2.size p.1))
  marks : ∀ m ∈ marks start lines, m.1.At (height m.2) heights

theorem Checks.exists_lineHeights (h : Checks heights k lines k') (start : Nat) :
    ∃ height : Nat → Nat, height start = k ∧ LineHeights heights start lines height := by
  induction h generalizing start with
  | @nil k => exact ⟨fun _ => k, rfl, ⟨by simp [placed], by simp [marks]⟩⟩
  | mark hl _ ih =>
    obtain ⟨height, hstart, hlines⟩ := ih start
    refine ⟨height, hstart, hlines.instructions, ?_⟩
    intro m hm
    rcases List.mem_cons.1 hm with rfl | hm
    · rw [hstart]
      exact hl
    · exact hlines.marks m hm
  | @instr i k m k' lines hi _ ih =>
    -- The rest starts behind the instruction, so the height here can be set apart.
    have hpos := i.size_pos start
    obtain ⟨height, hstart, hlines⟩ := ih (start + i.size start)
    refine ⟨fun p => if p = start then k else height p, by simp, ?_, ?_⟩
    · intro p hp
      rcases List.mem_cons.1 hp with rfl | hp
      · have hne : i.size start ≠ 0 := by omega
        simpa [hne, hstart] using hi
      · have hle := le_of_mem_placed hp
        have hne : p.1 ≠ start := by omega
        have hne' : p.1 + p.2.size p.1 ≠ start := by omega
        simpa [hne, hne'] using hlines.instructions p hp
    · intro mark hmark
      have hle : start + i.size start ≤ mark.2 := le_of_mem_marks hmark
      have hne : mark.2 ≠ start := by omega
      simpa [hne] using hlines.marks mark hmark

/-! ## Heights of code -/

/-- An assignment of stack heights to the offsets of code: nothing is on the stack at the start
and the exception at every handler, every instruction finds its words, and all that lead to an
offset lead there with its height. -/
structure Code.Heights (code : Code) (height : Nat → Nat) : Prop where
  entry : height 0 = 0
  handlers : ∀ r ∈ code.exceptions, height r.target = 1
  steps : ∀ offset i, (offset, i) ∈ code.instructions → ∃ takes puts,
    i.effect = some (takes, puts) ∧ takes ≤ height offset ∧
    (∀ l ∈ i.targets, ∃ target, code.labelOffsets[l.id]? = some target ∧
      height target = height offset - takes + puts) ∧
    (i.opcode.fallsThrough →
      height (offset + i.size offset) = height offset - takes + puts)

theorem Code.Locates.height_eq (h : code.Locates labels lines) (hlength : heights.length = labels)
    {height : Nat → Nat} (hlines : LineHeights heights 0 lines height) (hl : l.At k heights) :
    ∃ target, code.labelOffsets[l.id]? = some target ∧ height target = k := by
  have hlt : l.id < code.labelOffsets.size := by
    have := (List.getElem?_eq_some_iff.1 hl).1
    have := h.size
    omega
  have hoffset : code.labelOffsets[l.id]? = some code.labelOffsets[l.id] :=
    Array.getElem?_eq_getElem hlt
  refine ⟨_, hoffset, ?_⟩
  have hat := hlines.marks _ (h.marked l.id _ hoffset)
  exact Option.some.inj (hat.symm.trans hl)

theorem Checks.exists_heights {b : Buffer} (hcode : b.layout = .ok code)
    (hlength : heights.length = b.labels) (hlines : Checks heights 0 b.code.lines k)
    (hhandlers : ∀ h ∈ b.code.handlers, h.target.At 1 heights) : ∃ height, code.Heights height := by
  obtain ⟨hlocates, hplaced, -, -, rows, hrows, hexceptions⟩ := layout_eq_ok hcode
  obtain ⟨height, hentry, hheights⟩ := hlines.exists_lineHeights 0
  refine ⟨height, hentry, ?_, ?_⟩
  · intro r hr
    rw [hexceptions] at hr
    obtain ⟨h, hh, hrow⟩ := exists_of_mem_mapM hrows (List.mem_filter.1 hr).1
    obtain ⟨target, htarget, hheight⟩ := hlocates.height_eq hlength hheights (hhandlers h hh)
    have := (row_eq_ok hrow).2.2.1
    rw [← hheight, Option.some.inj (htarget.symm.trans this)]
  · intro offset i hi
    rw [hplaced] at hi
    obtain ⟨takes, puts, heffect, hle, htargets, hnext⟩ := hheights.instructions _ hi
    refine ⟨takes, puts, heffect, hle, fun l hl => ?_, hnext⟩
    exact hlocates.height_eq hlength hheights (htargets l hl)

/-! ## Steps of lowering -/

namespace Lowering

variable {α β : Type}

/-- A step whose code is checked from one height to another. -/
def Balances (P : List Nat → Prop) (x : Lowering α) (k k' : Nat) (Q : List Nat → α → Prop) :
    Prop :=
  ∀ s a, x s = .ok a → ∀ heights : List Nat, heights.length = s.labels →
    (∀ more, heights <+: more → P more) →
    ∃ after, heights <+: after ∧ after.length = a.supply.labels ∧
      Checks after k a.code.lines k' ∧ (∀ h ∈ a.code.handlers, h.target.At 1 after) ∧
      ∀ more, after <+: more → Q more a.value

namespace Balances

variable {P P' : List Nat → Prop} {x : Lowering α} {Q Q' : List Nat → α → Prop} {k m k' : Nat}

theorem pure {a : α} (h : ∀ ℓ, P ℓ → Q ℓ a) : Balances P (pure a) k k Q := by
  intro s a' hrun heights hlength hP
  cases hrun
  exact ⟨heights, List.prefix_rfl, hlength, .nil, by simp, fun more hmore => h more (hP more hmore)⟩

theorem skip : Balances P (Pure.pure ()) k k fun _ (_ : Unit) => True := .pure fun _ _ => trivial

theorem bind {f : α → Lowering β} {R : List Nat → β → Prop} (hx : Balances P x k m Q)
    (hf : ∀ a, Balances (fun ℓ => P ℓ ∧ Q ℓ a) (f a) m k' R) : Balances P (x >>= f) k k' R := by
  intro s c hrun heights hlength hP
  obtain ⟨a, b, ha, hb, rfl⟩ := bind_eq_ok hrun
  obtain ⟨mid, hmid, hmidLength, hchecks, hhandlers, hQ⟩ := hx s a ha heights hlength hP
  obtain ⟨after, hafter, hafterLength, hchecks', hhandlers', hR⟩ :=
    hf a.value a.supply b hb mid hmidLength fun more hmore =>
      ⟨hP more (hmid.trans hmore), hQ more hmore⟩
  refine ⟨after, hmid.trans hafter, hafterLength, ?_, ?_, hR⟩
  · exact (hchecks.mono hafter).append hchecks'
  · intro h hh
    rcases List.mem_append.1 hh with hh | hh
    · exact (hhandlers h hh).mono hafter
    · exact hhandlers' h hh

theorem imp (h : Balances P x k k' Q) (hP : ∀ ℓ, P' ℓ → P ℓ)
    (hQ : ∀ ℓ a, P' ℓ → Q ℓ a → Q' ℓ a) : Balances P' x k k' Q' := by
  intro s a hrun heights hlength hP'
  obtain ⟨after, hafter, hlength', hchecks, hhandlers, hq⟩ :=
    h s a hrun heights hlength fun more hmore => hP more (hP' more hmore)
  exact ⟨after, hafter, hlength', hchecks, hhandlers,
    fun more hmore => hQ more _ (hP' more (hafter.trans hmore)) (hq more hmore)⟩

theorem given (h : Balances P x k k' Q) (hP : ∀ ℓ, P' ℓ → P ℓ) : Balances P' x k k' Q :=
  h.imp hP fun _ _ _ hQ => hQ

/-- What follows from the heights may be assumed. -/
theorem known {q : Prop} (hq : ∀ ℓ, P ℓ → q) (h : q → Balances P x k k' Q) :
    Balances P x k k' Q := by
  intro s a hrun heights hlength hP
  exact h (hq heights (hP heights List.prefix_rfl)) s a hrun heights hlength hP

theorem seq {x : Lowering Unit} {f : Unit → Lowering β} {R : List Nat → β → Prop}
    (hx : Balances P x k m fun _ _ => True) (hf : Balances P (f ()) m k' R) :
    Balances P (x >>= f) k k' R :=
  hx.bind fun _ => hf.given fun _ h => h.1

end Balances

variable {P : List Nat → Prop} {k k' : Nat}

theorem failWith_balances {Q : List Nat → α → Prop} :
    Balances P (failWith f : Lowering α) k k' Q := by
  intro s a hrun
  cases hrun

theorem ofExcept_balances : Balances P (ofExcept e) k k fun _ a => e = .ok a := by
  cases e with
  | ok a => exact .pure fun _ _ => rfl
  | error f => exact failWith_balances

theorem newLabel_balances (n : Nat) : Balances P newLabel k k fun ℓ l => l.At n ℓ := by
  intro s a hrun heights hlength hP
  cases hrun
  refine ⟨heights ++ [n], List.prefix_append _ _, by simp [hlength], .nil, by simp, ?_⟩
  intro more hmore
  refine Label.At.mono ?_ hmore
  simp [Label.At, ← hlength]

theorem newSlot_balances (t : Ty) : Balances P (newSlot t) k k fun _ _ => True := by
  intro s a hrun heights hlength hP
  unfold newSlot at hrun
  split at hrun
  · cases hrun
    exact ⟨heights, List.prefix_rfl, hlength, .nil, by simp, fun _ _ => trivial⟩
  · cases hrun

theorem emit_balances {f : Fragment}
    (hlines : ∀ ℓ, P ℓ → Checks ℓ k f.lines k' ∧ ∀ h ∈ f.handlers, h.target.At 1 ℓ) :
    Balances P (emit f) k k' fun _ _ => True := by
  intro s a hrun heights hlength hP
  cases hrun
  obtain ⟨hchecks, hhandlers⟩ := hlines heights (hP heights List.prefix_rfl)
  exact ⟨heights, List.prefix_rfl, hlength, hchecks, hhandlers, fun _ _ => trivial⟩

theorem mark_balances (hl : ∀ ℓ, P ℓ → l.At k ℓ) : Balances P (mark l) k k fun _ _ => True :=
  emit_balances fun ℓ hP => ⟨.mark (hl ℓ hP) .nil, by simp [Fragment.mark]⟩

theorem addGaps_balances : Balances P (addGaps gaps) k k fun _ _ => True := by
  intro s a hrun heights hlength hP
  cases hrun
  exact ⟨heights, List.prefix_rfl, hlength, .nil, by simp, fun _ _ => trivial⟩

theorem takeGaps_balances {Q : List Nat → Unit → Prop} (h : Balances P x k k' Q) :
    Balances P (takeGaps scope x) k k' fun _ _ => True := by
  intro s a hrun heights hlength hP
  obtain ⟨b, hb, rfl⟩ := takeGaps_eq_ok hrun
  obtain ⟨after, hafter, hlength', hchecks, hhandlers, -⟩ := h s b hb heights hlength hP
  exact ⟨after, hafter, hlength', hchecks, hhandlers, fun _ _ => trivial⟩

theorem guard_balances {ranges : List (Label × Label)} {target : Label}
    (htarget : ∀ ℓ, P ℓ → target.At 1 ℓ) :
    Balances P (guard ranges target catches) k k fun _ _ => True := by
  refine emit_balances fun ℓ hP => ⟨.nil, ?_⟩
  intro h hh
  obtain ⟨r, -, rfl⟩ := List.mem_map.1 hh
  exact htarget ℓ hP

/-! ## Instructions -/

/-- A step without a result that is checked from one height to another. -/
abbrev Shifts (P : List Nat → Prop) (x : Lowering Unit) (k k' : Nat) : Prop :=
  Balances P x k k' fun _ _ => True

theorem instr_shifts (heffect : i.effect = some (takes, puts)) (htakes : takes ≤ k)
    (htargets : ∀ l ∈ i.targets, ∀ ℓ, P ℓ → l.At (k - takes + puts) ℓ)
    (hnext : i.opcode.fallsThrough → k' + takes = k + puts) : Shifts P (instr i) k k' := by
  refine emit_balances fun ℓ hP => ⟨.instr ?_ .nil, by simp [Fragment.instr]⟩
  refine ⟨takes, puts, heffect, htakes, fun l hl => htargets l hl ℓ hP, fun h => ?_⟩
  have := hnext h
  omega

variable {o : Opcode} {takes puts : Nat}

theorem op_shifts (h : o.Moves takes puts) (htakes : takes ≤ k) (hk : k' + takes = k + puts) :
    Shifts P (op o) k k' :=
  instr_shifts (i := .plain o) h.1 htakes nofun fun _ => hk

theorem reference_shifts (h : o.Moves takes puts) (htakes : takes ≤ k)
    (hk : k' + takes = k + puts) : Shifts P (reference o type) k k' :=
  instr_shifts (i := .reference o type) h.1 htakes nofun fun _ => hk

theorem member_shifts (takes puts : Nat)
    (heffect : (Instruction.member o owner name descriptor).effect = some (takes, puts))
    (htakes : takes ≤ k) (hk : k' + takes = k + puts) :
    Shifts P (member o owner name descriptor) k k' :=
  instr_shifts heffect htakes nofun fun _ => hk

theorem branch_shifts (h : o.Moves takes 0) (htakes : takes ≤ k)
    (hk : k' + takes = k) (hl : ∀ ℓ, P ℓ → l.At k' ℓ) : Shifts P (branch o l) k k' := by
  refine instr_shifts (i := .branch o l) h.1 htakes ?_ fun _ => hk
  intro l' hl' ℓ hP
  obtain rfl := List.mem_singleton.1 hl'
  have : k - takes + 0 = k' := by omega
  rw [this]
  exact hl ℓ hP

theorem goto_shifts (hl : ∀ ℓ, P ℓ → l.At k ℓ) : Shifts P (branch .goto l) k k' := by
  refine instr_shifts (i := .branch .goto l) rfl (Nat.zero_le k) ?_ nofun
  intro l' hl' ℓ hP
  obtain rfl := List.mem_singleton.1 hl'
  exact hl ℓ hP

theorem access_shifts (h : o.Moves takes puts) (htakes : takes ≤ k)
    (hk : k' + takes = k + puts) : Shifts P (access o slot) k k' := by
  refine ofExcept_balances.bind fun f => ?_
  refine emit_balances fun ℓ hP => ?_
  obtain ⟨-, hf⟩ := hP
  obtain ⟨n, -, hf⟩ := exists_of_bind_eq_ok hf
  cases hf
  have hchecks : ∀ i : Instruction, i.effect = some (takes, puts) → i.targets = [] →
      Checks ℓ k [.instr i] k' := fun i heffect htargets =>
    .instr ⟨takes, puts, heffect, htakes, by simp [htargets], fun _ => by omega⟩ .nil
  refine ⟨?_, by simp⟩
  split
  next short hshort => exact hchecks _ (h.shortForm hshort).1 rfl
  next => exact hchecks _ h.1 rfl

theorem stepLocal_shifts : Shifts P (stepLocal slot delta) k k := by
  refine ofExcept_balances.bind fun f => ?_
  refine emit_balances fun ℓ hP => ?_
  obtain ⟨-, hf⟩ := hP
  obtain ⟨n, -, hf⟩ := exists_of_bind_eq_ok hf
  cases hf
  exact ⟨.instr ⟨0, 0, rfl, Nat.zero_le k, nofun, fun _ => rfl⟩ .nil, by simp⟩

end Lowering

end JMinusMinus
