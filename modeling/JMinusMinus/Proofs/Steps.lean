import JMinusMinus.Lowering.Basic
import JMinusMinus.Proofs.Layout
import JMinusMinus.Proofs.Stack.Effect

/-!
# Runs of steps

What a step of lowering made, read off its parts.
-/

namespace JMinusMinus.Lowering

variable {α β : Type} {o : Opcode} {slot : Nat}

/-- A sequence that makes code made it part by part. -/
theorem bind_eq_ok {f : α → Lowering β} (h : (x >>= f) s = .ok c) :
    ∃ a b, x s = .ok a ∧ f a.value a.supply = .ok b ∧
      c = ⟨b.value, a.code ++ b.code, a.gaps ++ b.gaps, b.supply⟩ := by
  obtain ⟨a, hx, h⟩ := exists_of_bind_eq_ok h
  obtain ⟨b, hf, h⟩ := exists_of_bind_eq_ok h
  cases h
  exact ⟨a, b, hx, hf, rfl⟩

theorem pure_eq_ok (h : (pure v : Lowering α) s = .ok a) : a = ⟨v, {}, [], s⟩ := by
  cases h
  rfl

/-- A new label is the first one that is free. -/
theorem newLabel_bind (f : Label → Lowering α) (s : Supply) :
    (newLabel >>= f) s = f ⟨s.labels⟩ ⟨s.labels + 1, s.slot⟩ := by
  simp only [newLabel, Bind.bind, Except.bind]
  cases f ⟨s.labels⟩ ⟨s.labels + 1, s.slot⟩ with
  | error e => rfl
  | ok a => simp [Pure.pure, Except.pure, Fragment.empty_append]

theorem newSlot_bind_eq_ok {f : Nat → Lowering α} (h : (newSlot t >>= f) s = .ok a) :
    s.slot + t.slots ≤ maxSlots ∧ f s.slot ⟨s.labels, s.slot + t.slots⟩ = .ok a := by
  obtain ⟨_, b, hslot, hb, rfl⟩ := bind_eq_ok h
  unfold newSlot addSlots at hslot
  by_cases hle : s.slot + t.slots ≤ maxSlots
  · rw [if_pos hle] at hslot
    cases hslot
    exact ⟨hle, by simpa [Fragment.empty_append] using hb⟩
  · rw [if_neg hle] at hslot
    cases hslot

theorem ofExcept_bind_eq_ok {f : α → Lowering β} (h : (ofExcept e >>= f) s = .ok b) :
    ∃ a, e = .ok a ∧ f a s = .ok b := by
  cases e with
  | ok a =>
    rw [ofExcept, pure_bind] at h
    exact ⟨a, rfl, h⟩
  | error f => cases h

theorem emit_bind_eq_ok {f : Unit → Lowering α} (h : (emit code >>= f) s = .ok a) :
    ∃ b, f () s = .ok b ∧ a = ⟨b.value, code ++ b.code, b.gaps, b.supply⟩ := by
  obtain ⟨_, b, hcode, hb, rfl⟩ := bind_eq_ok h
  cases hcode
  exact ⟨b, hb, by simp⟩

theorem emit_ofExcept_eq_ok (h : (ofExcept f >>= emit) s = .ok a) :
    ∃ code, f = .ok code ∧ a = ⟨(), code, [], s⟩ := by
  obtain ⟨code, hcode, hrun⟩ := ofExcept_bind_eq_ok h
  cases hrun
  exact ⟨code, hcode, rfl⟩

theorem access_eq_ok (h : access o slot s = .ok a) :
    ∃ i n, i.targets = [] ∧ a = ⟨(), { lines := [.instr i], maxLocals := n }, [], s⟩ := by
  obtain ⟨code, hcode, rfl⟩ := emit_ofExcept_eq_ok h
  obtain ⟨n, -, hcode⟩ := exists_of_bind_eq_ok hcode
  cases hcode
  refine ⟨_, n, ?_, rfl⟩
  split <;> rfl

theorem access_bind_eq_ok {f : Unit → Lowering α} (h : (access o slot >>= f) s = .ok a) :
    ∃ i b, access o slot s = .ok i ∧ f () s = .ok b ∧ i.code.handlers = [] ∧
      a = ⟨b.value, i.code ++ b.code, b.gaps, b.supply⟩ := by
  obtain ⟨i, b, hi, hb, rfl⟩ := bind_eq_ok h
  obtain ⟨_, _, -, rfl⟩ := access_eq_ok hi
  exact ⟨_, b, hi, hb, rfl, by simp⟩

theorem takeGaps_eq_ok (h : takeGaps scope x s = .ok c) : ∃ a, x s = .ok a ∧
      c = ⟨(a.gaps.filter (·.scope = scope)).map fun g => (g.start, g.stop), a.code,
        a.gaps.filter (·.scope ≠ scope), a.supply⟩ := by
  obtain ⟨a, hx, h⟩ := exists_of_bind_eq_ok h
  refine ⟨a, hx, ?_⟩
  rw [List.partition_eq_filter_filter] at h
  rw [← Except.ok.inj h]
  simp [Function.comp_def]

end JMinusMinus.Lowering
