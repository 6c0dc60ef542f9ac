import JMinusMinus.Proofs.Stack.Expr

/-!
# Stack heights at exits

A jump out of statements meets a label outside of them. So the exits around a statement come with
two facts: their labels are at height zero (`Exit.Level`), and their final blocks keep the stack as
it was wherever the labels outside of the guarded block are level (`Exit.Finals`).
-/

namespace JMinusMinus.Lowering

/-! ## Exits -/

namespace Exit

/-- Exits whose labels are at height zero. -/
def Level : List Exit → List Nat → Prop
  | [], _ => True
  | loop stop next :: es, heights => stop.At 0 heights ∧ next.At 0 heights ∧ Level es heights
  | switch stop :: es, heights => stop.At 0 heights ∧ Level es heights
  | guarded _ _ :: es, heights => Level es heights

/-- Code that leaves an empty stack as it was, where the labels of exits are level. -/
def Keeps (exits : List Exit) (final : Lowering Unit) : Prop :=
  ∀ P : List Nat → Prop, (∀ ℓ, P ℓ → Level exits ℓ) → Shifts P final 0 0

/-- Exits whose final blocks leave the stack as it was. -/
def Finals : List Exit → Prop
  | [] => True
  | guarded _ final :: es => (∀ code ∈ final, Keeps es code) ∧ Finals es
  | loop _ _ :: es | switch _ :: es => Finals es

variable {target : Label} {left exits : List Exit}

/-- An exit with a label that a jump may go to. -/
inductive Lands (target : Label) : Exit → Prop
  | stop (next : Label) : Lands target (loop target next)
  | next (stop : Label) : Lands target (loop stop target)
  | switch : Lands target (switch target)

theorem lands_of_target
    (h : breakTarget? exits = some (left, target) ∨ continueTarget? exits = some (left, target)) :
    ∃ e rest, exits = left ++ e :: rest ∧ Lands target e := by
  induction exits generalizing left with
  | nil => rcases h with h | h <;> cases h
  | cons e es ih =>
    have houter : ∀ {found}, breakTarget? es = found ∨ continueTarget? es = found →
        found.map (fun inner => (e :: inner.1, inner.2)) = some (left, target) →
        ∃ d rest, e :: es = left ++ d :: rest ∧ Lands target d := by
      rintro found hfound h
      obtain ⟨⟨inner, l⟩, rfl, heq⟩ := Option.map_eq_some_iff.1 h
      cases heq
      obtain ⟨d, rest, rfl, hlands⟩ := ih hfound
      exact ⟨d, rest, rfl, hlands⟩
    cases e with
    | loop stop next =>
      rcases h with h | h <;> cases h
      · exact ⟨_, es, rfl, .stop next⟩
      · exact ⟨_, es, rfl, .next stop⟩
    | switch stop =>
      rcases h with h | h
      · cases h
        exact ⟨_, es, rfl, .switch⟩
      · exact houter (.inr rfl) h
    | guarded scope final =>
      rcases h with h | h
      · exact houter (.inl rfl) h
      · exact houter (.inr rfl) h

end Exit

/-! ## Jumps -/

variable {P : List Nat → Prop} {k' : Nat} {env : Env}

theorem returnOp_effect (t : Ty) : (returnOp t).effect = some (t.words, 0) ∧
    (returnOp t).fallsThrough = false := by
  cases t <;> exact ⟨rfl, rfl⟩

theorem returnOp_shifts (t : Ty) : Shifts P (op (returnOp t)) t.words k' := by
  refine instr_shifts (i := .plain (returnOp t)) (returnOp_effect t).1 (Nat.le_refl _) nofun ?_
  intro hfalls
  rw [show (Instruction.plain (returnOp t)).opcode = returnOp t from rfl,
    (returnOp_effect t).2] at hfalls
  cases hfalls

theorem athrow_shifts : Shifts P (op .athrow) 1 k' :=
  instr_shifts (i := .plain .athrow) rfl (Nat.le_refl 1) nofun nofun

/-- What holds of every jump to a label of an exit holds of both statements that jump. -/
theorem jump_cases {motive : Lowering Unit → Prop}
    (leaves : ∀ {left e rest target}, env.exits = left ++ e :: rest → Exit.Lands target e →
      motive (Exit.leave left (branch .goto target)))
    (fails : ∀ f, motive (failWith f)) (line : Nat) :
    motive (breakStmt env line) ∧ motive (continueStmt env line) := by
  unfold breakStmt continueStmt
  constructor <;> split
  next left target htarget =>
    obtain ⟨e, rest, hexits, hlands⟩ := Exit.lands_of_target (.inl htarget)
    exact leaves hexits hlands
  next => exact fails _
  next left target htarget =>
    obtain ⟨e, rest, hexits, hlands⟩ := Exit.lands_of_target (.inr htarget)
    exact leaves hexits hlands
  next => exact fails _

/-! ## Cases -/

theorem mem_insertPair {α : Type} {key : Int} {value : α} :
    ∀ {pairs : List (Int × α)} {p : Int × α}, p ∈ Instruction.insertPair key value pairs →
      p = (key, value) ∨ p ∈ pairs
  | [], p, h => .inl (List.mem_singleton.1 h)
  | q :: pairs, p, h => by
    unfold Instruction.insertPair at h
    split at h
    · rcases List.mem_cons.1 h with rfl | h
      · exact .inl rfl
      · exact .inr h
    · split at h
      · rcases List.mem_cons.1 h with rfl | h
        · exact .inl rfl
        · exact .inr (by simp [h])
      · rcases List.mem_cons.1 h with rfl | h
        · exact .inr (by simp)
        · rcases mem_insertPair h with rfl | h
          · exact .inl rfl
          · exact .inr (by simp [h])

end JMinusMinus.Lowering
