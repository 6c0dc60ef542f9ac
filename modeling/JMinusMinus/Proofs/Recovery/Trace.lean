import JMinusMinus.Proofs.Parse.Steps

/-!
# Recovery as a trace

A run of a rule is a sequence of *events*. A required kind is matched, or a problem is reported.
`Traces x s es` says that the rule `x`, started in the state `s`, has the events `es`. They come
from its uses of `require` and `complain`. Whatever else it does changes neither the log nor the
state of recovery.

* A mismatch is what `require` reports. It does so only while the parse is recovered.
* All other problems are reported by `complain`, recovered or not.
* After a report the parse is not recovered. Only a match makes it recovered again.

So the events alone determine the log and the state of recovery at the end of a run
(`Traces.log_eq`, `Traces.recovered_eq`), and a mismatch never follows a report without a match
between them (`Traces.orderly`).
-/

namespace JMinusMinus

/-- Whether a problem is a token that stands where another kind must stand. -/
def SyntaxProblem.isMismatch : SyntaxProblem → Bool
  | .mismatch _ _ => true
  | _ => false

/-- Whether a problem is a level past the limit. -/
def SyntaxProblem.isTooDeep : SyntaxProblem → Bool
  | .tooDeep _ => true
  | _ => false

namespace Grammar

/-- What a parse does about recovery. -/
inductive Event where
  /-- A required kind is found and taken. -/
  | matched (kind : Kind)
  /-- A problem is reported on a line. -/
  | reported (line : Nat) (problem : SyntaxProblem)
deriving DecidableEq

/-- What happens where a kind must stand. -/
def State.requireEvents (s : State) (sought : Kind) : List Event :=
  if s.cursor.kind = sought then [.matched sought]
  else if s.recovered = true then
    [.reported s.cursor.token.line (.mismatch s.cursor.token.image sought)]
  else if (s.cursor.seek fun k => k = sought || k = .endOfInput).kind = sought then
    [.matched sought]
  else []

/-- The events of a run, in order. -/
inductive Traces : {α : Type} → Parser α → State → List Event → Prop
  /-- What leaves the log and the state of recovery alone has no events. -/
  | quiet {α : Type} {x : Parser α} {s : State} (log : (x s).2.log = s.log)
      (recovered : (x s).2.recovered = s.recovered) : Traces x s []
  /-- A required kind is matched or missed. -/
  | require (sought : Kind) (s : State) : Traces (require sought) s (s.requireEvents sought)
  /-- Any problem but a mismatch is reported in either state. -/
  | complain {problem : SyntaxProblem} (s : State) (direct : problem.isMismatch = false) :
      Traces (complain problem) s [.reported s.cursor.token.line problem]
  /-- The events of a sequence are those of its parts. -/
  | bind {α β : Type} {x : Parser α} {f : α → Parser β} {s : State} {es fs : List Event}
      (first : Traces x s es) (rest : Traces (f (x s).1) (x s).2 fs) :
      Traces (x >>= f) s (es ++ fs)

/-! ## What events do to a state -/

/-- The log after some events. -/
def logAfter (log : Log Problem) : List Event → Log Problem
  | [] => log
  | .matched _ :: es => logAfter log es
  | .reported line problem :: es => logAfter (log.add line (.syntactic problem)) es

/-- Whether the parse is recovered after some events. -/
def recoveredAfter (recovered : Bool) : List Event → Bool
  | [] => recovered
  | .matched _ :: es => recoveredAfter true es
  | .reported _ _ :: es => recoveredAfter false es

/-- Events in which a mismatch is only reported while the parse is recovered. -/
def Orderly (recovered : Bool) : List Event → Prop
  | [] => True
  | .matched _ :: es => Orderly true es
  | .reported _ problem :: es =>
    (problem.isMismatch = true → recovered = true) ∧ Orderly false es

theorem logAfter_append (es fs : List Event) (log : Log Problem) :
    logAfter log (es ++ fs) = logAfter (logAfter log es) fs := by
  induction es generalizing log with
  | nil => rfl
  | cons e es ih => cases e <;> exact ih _

theorem recoveredAfter_append (es fs : List Event) (recovered : Bool) :
    recoveredAfter recovered (es ++ fs) = recoveredAfter (recoveredAfter recovered es) fs := by
  induction es generalizing recovered with
  | nil => rfl
  | cons e es ih => cases e <;> exact ih _

theorem orderly_append : Orderly recovered (es ++ fs) ↔
      Orderly recovered es ∧ Orderly (recoveredAfter recovered es) fs := by
  induction es generalizing recovered with
  | nil => exact ⟨fun h => ⟨trivial, h⟩, And.right⟩
  | cons e es ih =>
    cases e with
    | matched kind => exact ih
    | reported line problem => exact (and_congr_right' ih).trans and_assoc.symm

theorem exists_matched_of_recoveredAfter (h : recoveredAfter false es = true) :
    ∃ kind, .matched kind ∈ es := by
  induction es with
  | nil => cases h
  | cons e es ih =>
    cases e with
    | matched kind => exact ⟨kind, List.mem_cons_self⟩
    | reported line problem =>
      obtain ⟨kind, hkind⟩ := ih h
      exact ⟨kind, List.mem_cons_of_mem _ hkind⟩

theorem Orderly.matched_between (h : Orderly recovered es)
    (hes : es = before ++ .reported line problem :: between ++ .reported line' problem' :: after)
    (hmismatch : problem'.isMismatch = true) : ∃ kind, .matched kind ∈ between := by
  subst hes
  obtain ⟨hfirst, hlast⟩ := orderly_append.1 h
  rw [recoveredAfter_append] at hlast
  exact exists_matched_of_recoveredAfter (hlast.1 hmismatch)

/-! ## What a run of a rule does -/

theorem run_bind {α β : Type} {x : Parser α} {f : α → Parser β} {s t : State} {a : α}
    (h : x s = (a, t)) : (x >>= f) s = f a t := by
  change f (x s).1 (x s).2 = _
  rw [h]

namespace Traces

variable {α : Type} {x : Parser α} {s : State} {es : List Event}

theorem require_step (sought : Kind) (s : State) :
    (Grammar.require sought s).2.log = logAfter s.log (s.requireEvents sought) ∧
      (Grammar.require sought s).2.recovered = recoveredAfter s.recovered (s.requireEvents sought) ∧
      Orderly s.recovered (s.requireEvents sought) := by
  rw [require_eq, State.requireEvents]
  split
  · exact ⟨rfl, rfl, trivial⟩
  split
  · rename_i hrecovered
    exact ⟨rfl, rfl, fun _ => hrecovered, trivial⟩
  split
  · exact ⟨rfl, rfl, trivial⟩
  · exact ⟨rfl, rfl, trivial⟩

theorem skip {β : Type} {f : α → Parser β} (outcome : x s = (a, t)) (hlog : t.log = s.log)
    (hrecovered : t.recovered = s.recovered) (rest : Traces (f a) t fs) : Traces (x >>= f) s fs :=
  .bind (.quiet (by rwa [outcome]) (by rwa [outcome])) (by rwa [outcome])

theorem andThen {β : Type} {f : α → Parser β} (first : Traces x s es) (outcome : x s = (a, t))
    (rest : Traces (f a) t fs) : Traces (x >>= f) s (es ++ fs) :=
  .bind first (by rwa [outcome])

theorem run (h : Traces x s es) : (x s).2.log = logAfter s.log es ∧
    (x s).2.recovered = recoveredAfter s.recovered es ∧ Orderly s.recovered es := by
  induction h with
  | quiet hlog hrecovered => exact ⟨hlog, hrecovered, trivial⟩
  | require sought s => exact require_step sought s
  | complain s hdirect =>
    refine ⟨rfl, rfl, ?_, trivial⟩
    intro hmismatch
    rw [hdirect] at hmismatch
    cases hmismatch
  | @bind _ _ x f s es fs _ _ hfirst hrest =>
    obtain ⟨hlog, hrecovered, horderly⟩ := hfirst
    obtain ⟨hlog', hrecovered', horderly'⟩ := hrest
    refine ⟨?_, ?_, orderly_append.2 ⟨horderly, hrecovered ▸ horderly'⟩⟩
    · rw [logAfter_append, ← hlog]
      exact hlog'
    · rw [recoveredAfter_append, ← hrecovered]
      exact hrecovered'

theorem log_eq (h : Traces x s es) : (x s).2.log = logAfter s.log es := h.run.1

theorem orderly (h : Traces x s es) : Orderly s.recovered es := h.run.2.2

end Traces

/-! ## How rules are made -/

/-- Rules made in sequence from the steps of a parse. What a rule does may depend on its place in
the tokens. It does not depend on the log, and on the limit only through `descend`. -/
inductive Made : {α : Type} → Parser α → Prop
  | pure {α : Type} {a : α} : Made (Pure.pure a : Parser α)
  | bind {α β : Type} {x : Parser α} {f : α → Parser β} (first : Made x)
      (rest : ∀ a, Made (f a)) : Made (x >>= f)
  /-- A look at the place. -/
  | look {α : Type} (f : Cursor → Nat → α) : Made fun s : State => (f s.cursor s.size, s)
  | advance : Made advance
  | require {sought : Kind} : Made (require sought)
  | complain {problem : SyntaxProblem}
      (direct : (problem.isMismatch || problem.isTooDeep) = false) :
      Made (complain problem)
  | descend : Made descend
  | ascend {levels : Nat} : Made (ascend levels)
  | stick : Made (modify fun s : State => { s with stuck := true })

namespace Made

variable {α β : Type} {x y : Parser α}

theorem ite {c : Prop} [Decidable c] (hx : Made x) (hy : Made y) :
    Made (if c then x else y) := by
  split
  · exact hx
  · exact hy

theorem join {c : Prop} [Decidable c] {f : α → Parser β} (hx : Made x) (hy : Made y)
    (hf : ∀ a, Made (f a)) : Made (if c then x >>= f else y >>= f) :=
  .ite (.bind hx hf) (.bind hy hf)

theorem atCursor {f : Cursor → Parser α} (h : ∀ c, Made (f c)) :
    Made (get >>= fun s : State => f s.cursor) :=
  .bind (x := fun s : State => (s.cursor, s)) (.look fun c _ => c) h

/-! ## Tokens and depth -/

theorem currentLine : Made currentLine := .look fun c _ => c.token.line

theorem currentKind : Made currentKind := .look fun c _ => c.kind

theorem current : Made current := .look fun c _ => c.token

theorem remaining : Made remaining := .look fun c size => size - c.position

theorem sees : Made (sees kind) := .look fun c _ => c.kind == kind

theorem identifier : Made identifier :=
  .bind require fun _ =>
    .look fun c _ => if c.previous.kind = .identifier then c.previous.lexeme else ""

theorem ensureProgress : Made (ensureProgress before) := by
  have hstep (c : Cursor) : Made (if c.position = before ∧ c.kind ≠ .endOfInput
      then Grammar.advance else Pure.pure ()) := .ite advance .pure
  exact .atCursor hstep

theorem nested {fallback : α} {rule : Parser α} (h : Made rule) : Made (nested fallback rule) := by
  have hrest (a : α) : Made (Grammar.ascend 1 >>= fun _ => (Pure.pure a : Parser α)) :=
    .bind ascend fun _ => .pure
  exact .bind descend fun _ => .join h .pure hrest

theorem outOfBound : Made (outOfBound a) := .bind stick fun _ => .pure

/-! ## Events of rules -/

theorem descend_traces (s : State) : ∃ es, Traces Grammar.descend s es := by
  let skip : Parser Bool := do
    unless ← Grammar.sees .endOfInput do Grammar.advance
    return false
  let report : Parser Bool := do
    modify fun s => { s with depthReported := true }
    Grammar.complain (.tooDeep s.maxDepth)
    skip
  have hskip (t : State) : Traces skip t [] := by
    have hrun : skip t = (false, if t.cursor.kind == .endOfInput then t else t.next) := by
      change (if (t.cursor.kind == .endOfInput) = true then Pure.pure false
        else Grammar.advance >>= fun _ => Pure.pure false : Parser Bool) t = _
      split <;> rfl
    refine .quiet ?_ ?_ <;> rw [hrun] <;> split <;> rfl
  have hreport (t : State) : ∃ es, Traces report t es :=
    ⟨_, .bind (.quiet rfl rfl) (.bind (.complain _ rfl) (hskip _))⟩
  have hrest (t : State) : ∃ es, Traces (if s.depth + 1 ≤ s.maxDepth then Pure.pure true
      else if s.depthReported = true then skip else report) t es := by
    split
    · exact ⟨[], .quiet rfl rfl⟩
    · split
      · exact ⟨[], hskip t⟩
      · exact hreport t
  obtain ⟨es, hes⟩ := hrest { s with depth := s.depth + 1 }
  exact ⟨_, .bind (.quiet rfl rfl) (.bind (.quiet rfl rfl) hes)⟩

theorem traces (h : Made x) : ∀ s, ∃ es, Traces x s es := by
  induction h with
  | require => exact fun s => ⟨_, .require _ s⟩
  | complain direct => exact fun s => ⟨_, .complain s (Bool.or_eq_false_iff.1 direct).1⟩
  | descend => exact descend_traces
  | bind _ _ hfirst hrest =>
    intro s
    obtain ⟨es, hes⟩ := hfirst s
    obtain ⟨fs, hfs⟩ := hrest _ _
    exact ⟨es ++ fs, .bind hes hfs⟩
  | _ => exact fun _ => ⟨[], .quiet rfl rfl⟩

end Made

end Grammar

end JMinusMinus
