import JMinusMinus.Grammar.State
import Mathlib

/-!
# Actions of the parser

The moves of a parser, as equations between states.
-/

namespace JMinusMinus.Grammar

/-- How many tokens come after the current one. -/
def State.left (s : State) : Nat := s.cursor.following.length

/-- The parse one token further on. -/
def State.next (s : State) : State := { s with cursor := s.cursor.next }

theorem State.left_next_le (s : State) : s.next.left ≤ s.left := by
  cases hf : s.cursor.following <;> simp [State.next, State.left, Cursor.next, hf]

/-- What `require` does in each of its states. -/
theorem require_eq (kind : Kind) (s : State) : require kind s =
    if s.cursor.kind = kind then ((), { s with cursor := s.cursor.next, recovered := true })
    else if s.recovered = true then complain (.mismatch s.cursor.token.image kind) s
    else if (s.cursor.seek fun j => j = kind || j = .endOfInput).kind = kind then
      ((), { s with
        cursor := (s.cursor.seek fun j => j = kind || j = .endOfInput).next, recovered := true })
    else ((), { s with cursor := s.cursor.seek fun j => j = kind || j = .endOfInput }) := by
  simp only [require, bind, StateT.bind, get, getThe, MonadStateOf.get, StateT.get, Pure.pure]
  repeat' split
  all_goals rfl

theorem require_run {kind : Kind} {s : State} (hs : (require kind s).2.log.latest = []) :
    s.log.latest = [] ∧
      (s.recovered = true → s.cursor.kind = kind ∧ (require kind s).2 = s.next) := by
  rw [require_eq] at hs ⊢
  by_cases hk : s.cursor.kind = kind
  · rw [if_pos hk] at hs ⊢
    refine ⟨hs, fun hr => ⟨hk, ?_⟩⟩
    simp only [State.next, ← hr]
  · rw [if_neg hk] at hs
    by_cases hr : s.recovered = true
    · rw [if_pos hr] at hs
      exact absurd hs (by simp [complain, modify, modifyGet, MonadStateOf.modifyGet,
        StateT.modifyGet, Log.add, Pure.pure])
    · refine ⟨?_, fun h => absurd h hr⟩
      rw [if_neg hr] at hs
      split at hs <;> exact hs

/-- A level past the limit, reported the first time. -/
def State.tooDeep (s : State) : State :=
  if s.depthReported = true then { s with depth := s.depth + 1 }
  else { s with
    depth := s.depth + 1
    depthReported := true
    recovered := false
    log := s.log.add s.cursor.token.line (.syntactic (.tooDeep s.maxDepth)) }

/-- What going down a level does. -/
theorem descend_eq (s : State) : descend s =
    if s.depth + 1 ≤ s.maxDepth then (true, { s with depth := s.depth + 1 })
    else (false, if s.cursor.kind = .endOfInput then s.tooDeep else s.tooDeep.next) := by
  by_cases hd : s.depth + 1 ≤ s.maxDepth
  · simp [descend, hd, bind, StateT.bind, get, getThe, MonadStateOf.get, StateT.get,
      Pure.pure, StateT.pure, set, MonadStateOf.set, StateT.set]
  · by_cases hr : s.depthReported = true <;> by_cases he : s.cursor.kind = .endOfInput <;>
      simp [State.tooDeep, State.next, descend, sees, complain, advance, hd, hr, he, bind,
        StateT.bind, get, getThe, MonadStateOf.get, StateT.get, Pure.pure, StateT.pure, set,
        MonadStateOf.set, StateT.set, modify, modifyGet, MonadStateOf.modifyGet,
        StateT.modifyGet]

theorem State.latest_tooDeep {s : State} (h : s.tooDeep.log.latest = []) :
    s.log.latest = [] ∧ s.depthReported = true := by
  unfold State.tooDeep at h
  split at h
  · rename_i hr
    exact ⟨h, hr⟩
  · simp [Log.add] at h

end JMinusMinus.Grammar
