import Mathlib
import JMinusMinus.Proofs.Height.Passes
import JMinusMinus.Proofs.Spelling.Words

/-!
# Loops that go on

A chain of operators reads its left operand in a loop, so the tree so far is the argument of the
loop. `Leads levels x i d y r` says that the rule `x` takes the tokens `i` up to `r` and goes on as
`y`, `d` levels down, from every state with nothing to recover from and with so many levels left.
Nothing is reported.

`Takes x i e r` says that `x` reads the tokens `i` before `r` as the tree `e`, up to lines and with
enough levels left. `Enters x loop i e r` says that after them it is in a loop that has read `e` so
far. A loop is entered by reading its first operand (`Enters.start`), each turn takes it further
(`Enters.turn`), and it ends before a token it does not take (`Enters.finish`).
-/

namespace JMinusMinus.Grammar

variable {α β : Type} {levels levels' d d' : Nat} {i j r : List Token} {t u : Token}

theorem Passes.mono {x : Parser α} {a : α} (h : Passes levels x i a r) (hle : levels ≤ levels') :
    Passes levels' x i a r := fun s hs hd => h s hs (by omega)

/-! ## Tokens before others -/

section Tokens

variable {x y : Parser α} {a : α} {k : Kind} (hj : j ≠ [])

include hj

theorem Passes.acceptedOne (hk : t.kind = k) (hx : Passes levels x j a r) :
    Passes levels (accept k >>= fun b => if b = true then x else y) (t :: j) a r := by
  obtain ⟨u, j, rfl⟩ := List.exists_cons_of_ne_nil hj
  exact .accepted hk hx

theorem Passes.requireOne {f : Unit → Parser α} (hk : t.kind = k)
    (hf : Passes levels (f ()) j a r) : Passes levels (Grammar.require k >>= f) (t :: j) a r := by
  obtain ⟨u, j, rfl⟩ := List.exists_cons_of_ne_nil hj
  exact .require hk hf

theorem Passes.advanceOne : Passes levels Grammar.advance (t :: j) () j := by
  obtain ⟨u, j, rfl⟩ := List.exists_cons_of_ne_nil hj
  exact fun s hs _ => ⟨s.next, rfl, hs.next, ⟨rfl, rfl, rfl, rfl⟩⟩

theorem Passes.identifierOne (hk : t.kind = .identifier) :
    Passes levels Grammar.identifier (t :: j) t.lexeme j := by
  obtain ⟨u, j, rfl⟩ := List.exists_cons_of_ne_nil hj
  exact .identifier hk

end Tokens

/-! ## Rules that go on as others -/

/-- A state that differs from another in where it stands, by so many levels and in what went wrong
before. -/
structure State.Below (d : Nat) (s s' : State) : Prop where
  depth : s'.depth = s.depth + d
  maxDepth : s'.maxDepth = s.maxDepth
  size : s'.size = s.size
  log : s'.log = s.log

theorem State.Below.trans {s s' s'' : State} (h : s.Below d s') (h' : s'.Below d' s'') :
    s.Below (d + d') s'' :=
  ⟨by rw [h'.depth, h.depth, Nat.add_assoc], h'.maxDepth.trans h.maxDepth, h'.size.trans h.size,
    h'.log.trans h.log⟩

theorem State.Like.below {s s' : State} (h : s.Like s') : s.Below 0 s' :=
  ⟨h.depth, h.maxDepth, h.size, h.log⟩

/-- A rule takes tokens without a report and goes on as another rule. -/
def Leads (levels : Nat) (x : Parser α) (i : List Token) (d : Nat) (y : Parser α)
    (r : List Token) : Prop :=
  ∀ s : State, s.On i → s.depth + levels ≤ s.maxDepth →
    ∃ s' : State, x s = y s' ∧ s'.On r ∧ s.Below d s'

namespace Leads

variable {x y z : Parser α} {a : α}

theorem refl : Leads levels x i 0 x i := fun s hs _ => ⟨s, rfl, hs, State.Like.rfl.below⟩

theorem ofPasses (h : Passes levels x i a r) : Leads levels x i 0 (pure a) r := by
  intro s hs hd
  obtain ⟨s', hrun, hs', hlike⟩ := h s hs hd
  exact ⟨s', hrun, hs', hlike.below⟩

theorem mono (h : Leads levels x i d y r) (hle : levels ≤ levels') : Leads levels' x i d y r :=
  fun s hs hd => h s hs (by omega)

theorem trans (hx : Leads levels x i d y j) (hy : Leads levels' y j d' z r)
    (hle : d + levels' ≤ levels) : Leads levels x i (d + d') z r := by
  intro s hs hd
  obtain ⟨s', hrun, hs', hbelow⟩ := hx s hs hd
  have hleft : s'.depth + levels' ≤ s'.maxDepth := by
    rw [hbelow.depth, hbelow.maxDepth]
    omega
  obtain ⟨s'', hrun', hs'', hbelow'⟩ := hy s' hs' hleft
  exact ⟨s'', hrun.trans hrun', hs'', hbelow.trans hbelow'⟩

/-- What comes after a rule comes after the rule it goes on as. -/
theorem andThen {x y : Parser β} (f : β → Parser α) (h : Leads levels x i d y j) :
    Leads levels (x >>= f) i d (y >>= f) j := by
  intro s hs hd
  obtain ⟨s', hrun, hs', hbelow⟩ := h s hs hd
  refine ⟨s', ?_, hs', hbelow⟩
  change f (x s).1 (x s).2 = f (y s').1 (y s').2
  rw [hrun]

theorem bind {x : Parser β} {f : β → Parser α} {b : β} (hx : Passes levels x i b j)
    (hf : Leads levels (f b) j d y r) : Leads levels (x >>= f) i d y r := by
  have h := ((ofPasses hx).andThen f).trans (z := y) hf (Nat.le_of_eq (Nat.zero_add _))
  rwa [Nat.zero_add] at h

/-- A look at the upcoming tokens leaves them as they are. -/
theorem look {x : Parser β} {f : β → Parser α} (g : List Token → β)
    (hx : ∀ s, x s = (g s.upcoming, s)) (hf : Leads levels (f (g i)) i d y r) :
    Leads levels (x >>= f) i d y r := by
  refine .bind (fun s hs _ => ⟨s, ?_, hs, .rfl⟩) hf
  rw [hx s, hs.upcoming]

theorem descended (h : Leads levels x i d y r) :
    Leads (levels + 1) (descend >>= fun b => if b = true then x else z) i (d + 1) y r := by
  intro s hs hd
  let down : State := { s with depth := s.depth + 1 }
  have hdown : Grammar.descend s = (true, down) := by rw [descend_eq, if_pos (by omega)]
  have hlevels : down.depth + levels ≤ down.maxDepth := by
    change s.depth + 1 + levels ≤ s.maxDepth
    omega
  obtain ⟨s', hrun, hs', hbelow⟩ := h down ⟨hs.upcoming, hs.size, hs.recovered⟩ hlevels
  refine ⟨s', ?_, hs', ⟨?_, hbelow.maxDepth, hbelow.size, hbelow.log⟩⟩
  · change (if (Grammar.descend s).1 = true then x else z) (Grammar.descend s).2 = _
    rw [hdown]
    exact hrun
  · rw [hbelow.depth]
    change s.depth + 1 + d = _
    omega

/-- Coming up as many levels as it went down, a rule is done. -/
theorem ascended (h : Leads levels x i d (ascend d >>= fun _ => pure a) r) :
    Passes levels x i a r := by
  intro s hs hd
  obtain ⟨s', hrun, hs', hbelow⟩ := h s hs hd
  refine ⟨(ascend d s').2, hrun, ⟨hs'.upcoming, hs'.size, hs'.recovered⟩,
    ⟨?_, hbelow.maxDepth, hbelow.size, hbelow.log⟩⟩
  change s'.depth - d = s.depth
  rw [hbelow.depth, Nat.add_sub_cancel]

end Leads

/-! ## Trees up to lines -/

/-- A rule reads tokens as a tree. -/
def Takes (x : Parser Expr) (i : List Token) (e : Expr) (r : List Token) : Prop :=
  ∃ levels e', e'.unlined = e.unlined ∧ Passes levels x (i ++ r) e' r

/-- A rule reads tokens as a tree and is in a loop that has read it so far. -/
def Enters (x : Parser α) (loop : Nat → Nat → Expr → Parser α) (i : List Token) (e : Expr)
    (r : List Token) : Prop :=
  ∃ levels d bound e', e'.unlined = e.unlined ∧ r.length ≤ bound ∧
    Leads levels x (i ++ r) d (loop bound d e') r

/-- A turn of a loop takes tokens and makes one tree of another. -/
def Turns (loop : Nat → Nat → Expr → Parser α) (i : List Token) (f : Expr → Expr)
    (r : List Token) : Prop :=
  ∃ levels, ∀ bound d e e', e'.unlined = e.unlined → ∃ e'', e''.unlined = (f e).unlined ∧
    Leads levels (loop (bound + 1) d e') (i ++ r) 1 (loop bound (d + 1) e'') r

/-- A loop ends before tokens. -/
def Ends (loop : Nat → Nat → Expr → Parser (Expr × Nat)) (r : List Token) : Prop :=
  ∀ bound d e, Passes 0 (loop (bound + 1) d e) r (e, d) r

section Loops

variable {x : Parser α} {loop : Nat → Nat → Expr → Parser α} {e : Expr}

theorem Enters.start {operand : Parser Expr} (h : Takes operand i e r) :
    Enters (operand >>= fun lhs => remaining >>= fun n => loop n 0 lhs) loop i e r := by
  obtain ⟨levels, e', he, h⟩ := h
  exact ⟨levels, 0, r.length, e', he, Nat.le_refl _,
    .bind h (.bind (.remaining .pure) .refl)⟩

theorem Enters.turn {f : Expr → Expr} (h : Enters x loop i e (j ++ r)) (hturn : Turns loop j f r)
    (hj : j ≠ []) : Enters x loop (i ++ j) (f e) r := by
  obtain ⟨levels, d, bound, e', he, hbound, h⟩ := h
  obtain ⟨levels', hturn⟩ := hturn
  have hlength : 0 < j.length := List.length_pos_iff.2 hj
  rw [List.length_append] at hbound
  obtain ⟨bound, rfl⟩ := Nat.exists_eq_succ_of_ne_zero (show bound ≠ 0 by omega)
  obtain ⟨e'', he'', hlead⟩ := hturn bound d e e' he
  refine ⟨levels + (d + levels'), d + 1, bound, e'', he'', by omega, ?_⟩
  rw [List.append_assoc]
  exact (h.mono (Nat.le_add_right _ _)).trans hlead (Nat.le_add_left _ _)

/-- Out of a loop that ends, into what comes after it. -/
theorem Enters.leave {x : Parser (Expr × Nat)} {loop : Nat → Nat → Expr → Parser (Expr × Nat)}
    (h : Enters x loop i e r) (hends : Ends loop r) (hr : r ≠ []) : ∃ levels d e',
      e'.unlined = e.unlined ∧ Leads levels x (i ++ r) d (pure (e', d)) r := by
  obtain ⟨levels, d, bound, e', he, hbound, h⟩ := h
  have hlength : 0 < r.length := List.length_pos_iff.2 hr
  obtain ⟨bound, rfl⟩ := Nat.exists_eq_succ_of_ne_zero (show bound ≠ 0 by omega)
  refine ⟨levels + d, d, e', he, ?_⟩
  exact (h.mono (Nat.le_add_right _ _)).trans (.ofPasses (hends bound d e')) (by omega)

theorem Enters.finish {x : Parser (Expr × Nat)} {loop : Nat → Nat → Expr → Parser (Expr × Nat)}
    (h : Enters x loop i e r) (hends : Ends loop r) (hr : r ≠ []) :
    Takes (x >>= fun p => ascend p.2 >>= fun _ => pure p.1) i e r := by
  obtain ⟨levels, d, e', he, h⟩ := h.leave hends hr
  exact ⟨levels, e', he, (h.andThen _).ascended⟩

/-- From one loop into the next, which starts where the first one is. -/
theorem Enters.next {x : Parser (Expr × Nat)}
    {loop loop' : Nat → Nat → Expr → Parser (Expr × Nat)} (h : Enters x loop i e r)
    (hends : Ends loop r) (hr : r ≠ []) :
    Enters (x >>= fun p => remaining >>= fun n => loop' n p.2 p.1) loop' i e r := by
  obtain ⟨levels, d, e', he, h⟩ := h.leave hends hr
  refine ⟨levels + d, d, r.length, e', he, Nat.le_refl _, ?_⟩
  have hnext : Leads 0 (pure (e', d) >>= fun p => remaining >>= fun n => loop' n p.2 p.1) r 0
      (loop' r.length d e') r := .bind .pure (.bind (.remaining .pure) .refl)
  exact ((h.mono (Nat.le_add_right _ _)).andThen _).trans hnext (by omega)

end Loops

end JMinusMinus.Grammar
