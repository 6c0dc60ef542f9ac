import JMinusMinus.Lowering.Exit
import JMinusMinus.Proofs.Steps

/-!
# Labels of code

Lowering marks every label that it creates, and marks it once. A step in the middle may mark a
label that was created before it, and leave a label to a later step. So a step is told the labels
that are *due*, and says which it leaves as a *debt* (`Marks`). A step is *closed* if nothing is
due and it leaves no debt (`Closed`).

* Jumps go to labels that are known from outside, or to labels of the step.
* The ends of a gap are marked in the code of the step that hands it on.
* A handler guards lines of the step, and an instruction follows where its code starts
  (`Handler.Within`).
-/

namespace JMinusMinus

variable {h : Handler} {l : Label} {lines : List Line} {slot : Nat} {o : Opcode}

/-! ## Labels of lines -/

/-- The labels that lines mark. -/
def marked : List Line → List Label
  | [] => []
  | .mark l :: ls => l :: marked ls
  | .instr _ :: ls => marked ls

@[simp] theorem marked_nil : marked [] = [] := rfl

@[simp] theorem marked_cons_mark (l : Label) (ls : List Line) :
    marked (.mark l :: ls) = l :: marked ls := rfl

@[simp] theorem marked_cons_instr (i : Instruction) (ls : List Line) :
    marked (.instr i :: ls) = marked ls := rfl

@[simp] theorem marked_append (a b : List Line) : marked (a ++ b) = marked a ++ marked b := by
  induction a with
  | nil => rfl
  | cons line a ih => cases line <;> simp [ih]

/-- The labels that are created while their number grows. -/
def created (first last : Nat) : List Label := (List.range' first (last - first)).map Label.mk

@[simp] theorem mem_created : l ∈ created first last ↔ first ≤ l.id ∧ l.id < last := by
  constructor
  · intro h
    obtain ⟨n, hn, rfl⟩ := List.mem_map.1 h
    have := List.mem_range'_1.1 hn
    simp only
    omega
  · intro h
    refine List.mem_map.2 ⟨l.id, List.mem_range'_1.2 ?_, rfl⟩
    omega

@[simp] theorem created_self (n : Nat) : created n n = [] := by simp [created]

@[simp] theorem created_succ (n : Nat) : created n (n + 1) = [⟨n⟩] := by simp [created]

theorem created_append (h : first ≤ mid) (h' : mid ≤ last) :
    created first mid ++ created mid last = created first last := by
  have hlength : last - first = (mid - first) + (last - mid) := by omega
  have hmid : mid = first + (mid - first) := by omega
  rw [created, created, created, ← List.map_append, hlength, ← List.range'_append_1, ← hmid]

theorem nodup_created (first last : Nat) : (created first last).Nodup :=
  List.Pairwise.map Label.mk (fun _ _ hne heq => hne (congrArg Label.id heq))
    (List.nodup_range' (s := first))

/-- A label that an instruction follows. -/
def Label.Lands (l : Label) (lines : List Line) : Prop :=
  ∃ before i after, lines = before ++ .mark l :: .instr i :: after

theorem Label.Lands.mem_marked (h : l.Lands lines) : l ∈ marked lines := by
  obtain ⟨before, i, after, rfl⟩ := h
  simp

theorem Label.Lands.append (h : l.Lands lines)
    (before after : List Line) : l.Lands (before ++ lines ++ after) := by
  obtain ⟨inner, i, rest, rfl⟩ := h
  exact ⟨before ++ inner, i, rest ++ after, by simp⟩

/-! ## Handlers -/

/-- A handler of lines that are somewhere among others. They start with a mark, and all labels of
the handler are theirs. -/
def Handler.Within (h : Handler) (lines : List Line) : Prop :=
  ∃ before first inside after, lines = before ++ (.mark first :: inside) ++ after ∧
    h.start ∈ marked (.mark first :: inside) ∧ h.stop ∈ marked (.mark first :: inside) ∧
    h.target.Lands (.mark first :: inside)

theorem Handler.Within.append (hlines : h.Within lines)
    (before after : List Line) : h.Within (before ++ lines ++ after) := by
  obtain ⟨outer, first, inside, rest, rfl, hlabels⟩ := hlines
  exact ⟨before ++ outer, first, inside, rest ++ after, by simp, hlabels⟩

theorem Handler.Within.append_right (hlines : h.Within lines)
    (after : List Line) : h.Within (lines ++ after) := by
  simpa using hlines.append [] after

theorem Handler.Within.append_left (hlines : h.Within lines)
    (before : List Line) : h.Within (before ++ lines) := by
  simpa using hlines.append before []

/-- What a step made: it marks the labels that are due and those it creates, up to a debt. -/
structure Emitted.Marking {α : Type} (known due : List Label) (s : Supply) (a : Emitted α)
    (debt : List Label) : Prop where
  le : s.labels ≤ a.supply.labels
  marks : (marked a.code.lines ++ debt).Perm (due ++ created s.labels a.supply.labels)
  jumps : ∀ i, .instr i ∈ a.code.lines → ∀ l ∈ i.targets,
    l ∈ known ∨ l ∈ due ∨ l ∈ created s.labels a.supply.labels
  gaps : ∀ g ∈ a.gaps, g.start ∈ marked a.code.lines ∧ g.stop ∈ marked a.code.lines

theorem Emitted.Marking.marks_perm {a : Emitted α} (h : a.Marking known [] s []) :
    (marked a.code.lines).Perm (created s.labels a.supply.labels) := by
  simpa using h.marks

/-- What a step made whose handlers guard its own lines. -/
structure Emitted.Tidy {α : Type} (known due : List Label) (s : Supply) (a : Emitted α)
    (debt : List Label) : Prop extends a.Marking known due s debt where
  handlers : ∀ h ∈ a.code.handlers, h.Within a.code.lines

namespace Emitted

variable {α β : Type} {known due mid debt : List Label} {s : Supply} {a : Emitted α}

open scoped List in
theorem Marking.bind {b : Emitted β} (ha : a.Marking known due s mid)
    (hb : b.Marking known mid a.supply debt) :
    Marking known due s ⟨b.value, a.code ++ b.code, a.gaps ++ b.gaps, b.supply⟩ debt := by
  have hcreated := created_append ha.le hb.le
  have hlines : (a.code ++ b.code).lines = a.code.lines ++ b.code.lines := rfl
  constructor
  case le => exact Nat.le_trans ha.le hb.le
  case marks =>
    calc marked (a.code ++ b.code).lines ++ debt
      = marked a.code.lines ++ (marked b.code.lines ++ debt) := by simp [hlines]
      _ ~ marked a.code.lines ++ (mid ++ created a.supply.labels b.supply.labels) :=
        hb.marks.append_left _
      _ = marked a.code.lines ++ mid ++ created a.supply.labels b.supply.labels := by simp
      _ ~ due ++ created s.labels a.supply.labels ++ created a.supply.labels b.supply.labels :=
        ha.marks.append_right _
      _ = due ++ created s.labels b.supply.labels := by rw [List.append_assoc, hcreated]
  case jumps =>
    simp only [← hcreated, List.mem_append]
    intro i hi l hl
    rw [hlines, List.mem_append] at hi
    rcases hi with hi | hi
    · rcases ha.jumps i hi l hl with h | h | h
      · exact .inl h
      · exact .inr (.inl h)
      · exact .inr (.inr (.inl h))
    · rcases hb.jumps i hi l hl with h | h | h
      · exact .inl h
      · -- What the first step left was due before it, or is its own.
        have hmid := ha.marks.mem_iff.1 (List.mem_append_right _ h)
        rcases List.mem_append.1 hmid with h | h
        · exact .inr (.inl h)
        · exact .inr (.inr (.inl h))
      · exact .inr (.inr (.inr h))
  case gaps =>
    intro g hg
    rw [hlines, marked_append]
    rcases List.mem_append.1 hg with hg | hg
    · exact ⟨List.mem_append_left _ (ha.gaps g hg).1, List.mem_append_left _ (ha.gaps g hg).2⟩
    · exact ⟨List.mem_append_right _ (hb.gaps g hg).1, List.mem_append_right _ (hb.gaps g hg).2⟩

theorem Tidy.bind {b : Emitted β} (ha : a.Tidy known due s mid)
    (hb : b.Tidy known mid a.supply debt) :
    Tidy known due s ⟨b.value, a.code ++ b.code, a.gaps ++ b.gaps, b.supply⟩ debt := by
  refine ⟨ha.toMarking.bind hb.toMarking, ?_⟩
  intro h hh
  rw [show (a.code ++ b.code).handlers = a.code.handlers ++ b.code.handlers from rfl,
    List.mem_append] at hh
  rw [show (a.code ++ b.code).lines = a.code.lines ++ b.code.lines from rfl]
  rcases hh with hh | hh
  · exact (ha.handlers h hh).append_right _
  · exact (hb.handlers h hh).append_left _

theorem Tidy.withGaps (ha : a.Tidy known due s debt) {gaps : List Gap}
    (hgaps : ∀ g ∈ gaps, g.start ∈ marked a.code.lines ∧ g.stop ∈ marked a.code.lines) :
    Tidy known due s { a with gaps } debt :=
  ⟨⟨ha.le, ha.marks, ha.jumps, hgaps⟩, ha.handlers⟩

end Emitted

/-! ## Steps -/

namespace Lowering

variable {α β : Type}

/-- A step marks what it owes and names only labels that are known. -/
def Marks (known due : List Label) (x : Lowering α) (debt : α → List Label) : Prop :=
  ∀ s a, x s = .ok a → a.Tidy known due s (debt a.value)

/-- A step that marks what it creates, and nothing else. -/
abbrev Closed (known : List Label) (x : Lowering α) : Prop := Marks known [] x fun _ => []

namespace Marks

variable {known known' due due' : List Label} {x : Lowering α} {debt : α → List Label}

theorem pure {a : α} : Marks known (debt a) (pure a) debt := by
  intro s a' hrun
  cases hrun
  exact ⟨⟨Nat.le_refl _, by simp, by simp, by simp⟩, by simp⟩

theorem bind_of_run {f : α → Lowering β} {debt' : β → List Label} (hx : Marks known due x debt)
    (hf : ∀ s a, x s = .ok a → Marks known (debt a.value) (f a.value) debt') :
    Marks known due (x >>= f) debt' := by
  intro s c hrun
  obtain ⟨a, b, ha, hb, rfl⟩ := bind_eq_ok hrun
  exact (hx s a ha).bind (hf s a ha a.supply b hb)

theorem bind {f : α → Lowering β} {debt' : β → List Label} (hx : Marks known due x debt)
    (hf : ∀ a, Marks known (debt a) (f a) debt') : Marks known due (x >>= f) debt' :=
  hx.bind_of_run fun _ a _ => hf a.value

theorem perm (h : Marks known due x debt) (hdue : due.Perm due') : Marks known due' x debt := by
  intro s a hrun
  obtain ⟨⟨hle, hmarks, hjumps, hgaps⟩, hhandlers⟩ := h s a hrun
  refine ⟨⟨hle, hmarks.trans (hdue.append_right _), ?_, hgaps⟩, hhandlers⟩
  intro i hi l hl
  rw [← hdue.mem_iff]
  exact hjumps i hi l hl

theorem swap (h : Marks known (l :: l' :: due) x debt) : Marks known (l' :: l :: due) x debt :=
  h.perm (.swap _ _ _)

theorem more (h : Marks known due x debt) (hknown : known ⊆ known') : Marks known' due x debt := by
  intro s a hrun
  obtain ⟨⟨hle, hmarks, hjumps, hgaps⟩, hhandlers⟩ := h s a hrun
  refine ⟨⟨hle, hmarks, ?_, hgaps⟩, hhandlers⟩
  intro i hi l hl
  exact (hjumps i hi l hl).imp_left (@hknown l)

theorem framed (h : Closed (due ++ known) x) : Marks known due x fun _ => due := by
  intro s a hrun
  obtain ⟨⟨hle, hmarks, hjumps, hgaps⟩, hhandlers⟩ := h s a hrun
  refine ⟨⟨hle, ?_, ?_, hgaps⟩, hhandlers⟩
  · simp only [List.append_nil, List.nil_append] at hmarks
    exact (hmarks.append_right due).trans List.perm_append_comm
  · intro i hi l hl
    rcases hjumps i hi l hl with h | h | h
    · rcases List.mem_append.1 h with h | h
      · exact .inr (.inl h)
      · exact .inl h
    · cases h
    · exact .inr (.inr h)

theorem after {f : α → Lowering β} {debt' : β → List Label} (hx : Closed (due ++ known) x)
    (hf : ∀ a, Marks known due (f a) debt') : Marks known due (x >>= f) debt' :=
  hx.framed.bind hf

end Marks

variable {known due : List Label}

theorem failWith_marks {debt : α → List Label} :
    Marks known due (failWith f : Lowering α) debt := by
  intro s a hrun
  cases hrun

theorem newLabel_marks : Marks known due newLabel fun l => due ++ [l] := by
  intro s a hrun
  cases hrun
  exact ⟨⟨Nat.le_succ _, by simp, by simp, by simp⟩, by simp⟩

theorem mark_marks (l : Label) : Marks known (l :: due) (mark l) fun _ => due := by
  intro s a hrun
  cases hrun
  exact ⟨⟨Nat.le_refl _, by simp [Fragment.mark], by simp [Fragment.mark], by simp⟩,
    by simp [Fragment.mark]⟩

theorem Marks.mark_bind {f : Unit → Lowering α} {debt : α → List Label}
    (hf : Marks (l :: known) due (f ()) debt) : Marks known (l :: due) (mark l >>= f) debt := by
  intro s c hrun
  obtain ⟨a, ha, rfl⟩ := emit_bind_eq_ok hrun
  obtain ⟨⟨hle, hmarks, hjumps, hgaps⟩, hhandlers⟩ := hf s a ha
  have hlines : (Fragment.mark l ++ a.code).lines = .mark l :: a.code.lines := rfl
  refine ⟨⟨hle, ?_, ?_, ?_⟩, ?_⟩
  · rw [hlines]
    exact hmarks.cons l
  · intro i hi k hk
    rw [hlines] at hi
    rcases hjumps i (by simpa using hi) k hk with h | h | h
    · rcases List.mem_cons.1 h with rfl | h
      · exact .inr (.inl List.mem_cons_self)
      · exact .inl h
    · exact .inr (.inl (List.mem_cons_of_mem _ h))
    · exact .inr (.inr h)
  · intro g hg
    rw [hlines]
    simp [hgaps g hg]
  · intro h hh
    have := (hhandlers h hh).append_left [.mark l]
    rwa [hlines]

theorem mark_closes (l : Label) : Marks known [l] (mark l) fun _ => [] := mark_marks l

namespace Closed

variable {x : Lowering α}

theorem pure {a : α} : Closed known (pure a) := @Marks.pure _ _ (fun _ => []) a

theorem bind {f : α → Lowering β} (hx : Closed known x) (hf : ∀ a, Closed known (f a)) :
    Closed known (x >>= f) :=
  Marks.bind hx hf

theorem ite {b : Prop} [Decidable b] (hx : b → Closed known x) (hy : ¬b → Closed known y) :
    Closed known (if b then x else y) := by
  split
  · exact hx ‹_›
  · exact hy ‹_›

end Closed

theorem ofExcept_closed : Closed known (ofExcept e) := by
  cases e with
  | ok a => exact .pure
  | error f => exact failWith_marks

theorem newSlot_closed (t : Ty) : Closed known (newSlot t) := by
  intro s a hrun
  unfold newSlot at hrun
  split at hrun
  · cases hrun
    exact ⟨⟨Nat.le_refl _, by simp, by simp, by simp⟩, by simp⟩
  · cases hrun

theorem instr_closed {i : Instruction} (h : ∀ l ∈ i.targets, l ∈ known) :
    Closed known (instr i) := by
  intro s a hrun
  cases hrun
  refine ⟨⟨Nat.le_refl _, by simp [Fragment.instr], ?_, by simp⟩, by simp [Fragment.instr]⟩
  intro j hj l hl
  have heq : j = i := by simpa [Fragment.instr] using hj
  exact .inl (h l (heq ▸ hl))

theorem op_closed (o : Opcode) : Closed known (op o) := instr_closed nofun

theorem member_closed (o : Opcode) (owner name descriptor : String) :
    Closed known (member o owner name descriptor) :=
  instr_closed nofun

theorem branch_closed (o : Opcode) (h : l ∈ known) : Closed known (branch o l) :=
  instr_closed fun _ hl => List.mem_singleton.1 hl ▸ h

theorem access_closed (o : Opcode) (slot : Nat) : Closed known (access o slot) := by
  intro s a hrun
  obtain ⟨i, n, htargets, rfl⟩ := access_eq_ok hrun
  exact ⟨⟨Nat.le_refl _, by simp, by simp [htargets], by simp⟩, by simp⟩

theorem stepLocal_closed (slot : Nat) (delta : Int) : Closed known (stepLocal slot delta) := by
  intro s a hrun
  obtain ⟨code, hcode, rfl⟩ := emit_ofExcept_eq_ok hrun
  obtain ⟨n, -, hcode⟩ := exists_of_bind_eq_ok hcode
  cases hcode
  exact ⟨⟨Nat.le_refl _, by simp, by simp [Instruction.targets], by simp⟩, by simp⟩

theorem forM_closed {f : α → Lowering Unit} :
    ∀ {xs : List α}, (∀ x ∈ xs, Closed known (f x)) → Closed known (xs.forM f)
  | [], _ => .pure
  | x :: xs, h => (h x (by simp)).bind fun _ => forM_closed fun y hy => h y (by simp [hy])

end Lowering

end JMinusMinus
