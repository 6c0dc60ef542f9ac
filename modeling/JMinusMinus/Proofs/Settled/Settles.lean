import JMinusMinus.Proofs.Run
import JMinusMinus.Proofs.Settled.Basic

/-!
# What analysis settles

A step of analysis that ends with an empty log has reported nothing, so it started with an empty
log too. `Settles K F x K' p` is about such runs of the step `x`.

* `K` and `K'` say what is known about the context before and after, given the variables that
  were declared so far. The step may declare more, and never takes one back.
* `F` are facts at the start and `p` says what holds of the result. Both are about all variables
  that may still be declared later, so that what is settled stays settled. A sequence of steps
  collects what its parts settle (`Settles.bind`).

As a report makes the log nonempty, a step that reports may promise anything (`report_bind`).
-/

namespace JMinusMinus.Analysis

variable {α β : Type}

/-- What is known about a context, given the variables declared so far. -/
abbrev Known := Vars → Context → Prop

/-- What a step does when it reports nothing. -/
def Settles (K : Known) (F : Vars → Prop) (x : Analysis α) (K' : Known)
    (p : Vars → α → Prop) : Prop :=
  ∀ c a c', x c = .ok (a, c') → c'.log.latest = [] →
    c.log.latest = [] ∧ ∀ v, K v c → (∀ w, v ⊆ w → F w) →
      ∃ v', v ⊆ v' ∧ K' v' c' ∧ ∀ w, v' ⊆ w → p w a

/-- A step that takes no report back. -/
def Quiet (x : Analysis α) : Prop :=
  ∀ c a c', x c = .ok (a, c') → c'.log.latest = [] → c.log.latest = []

theorem Quiet.pure {a : α} : Quiet (pure a : Analysis α) := by
  intro c a' c' hrun hlog
  cases hrun
  exact hlog

namespace Settles

variable {K K' K'' : Known} {F G : Vars → Prop} {x : Analysis α} {p q : Vars → α → Prop}

theorem quiet (h : Settles K F x K' p) : Quiet x := fun c a c' hrun hlog => (h c a c' hrun hlog).1

theorem pure {a : α} (h : ∀ w, F w → p w a) : Settles K F (pure a) K p := by
  intro c a' c' hrun hlog
  cases hrun
  exact ⟨hlog, fun v hK hF => ⟨v, fun _ => id, hK, fun w hw => h w (hF w hw)⟩⟩

/-- A sequence of steps settles what its parts settle. -/
theorem bind {f : α → Analysis β} {r : Vars → β → Prop} (hx : Settles K F x K' p)
    (hf : ∀ a, Settles K' (fun w => F w ∧ p w a) (f a) K'' r) :
    Settles K F (x >>= f) K'' r := by
  intro c b c'' hrun hlog
  obtain ⟨a, c', hxc, hfc⟩ := runs_of_bind hrun
  obtain ⟨hmid, hafter⟩ := hf a c' b c'' hfc hlog
  obtain ⟨hstart, hbefore⟩ := hx c a c' hxc hmid
  refine ⟨hstart, fun v hK hF => ?_⟩
  obtain ⟨v', hv, hK', hp⟩ := hbefore v hK hF
  obtain ⟨v'', hv', hK'', hr⟩ := hafter v' hK' fun w hw =>
    ⟨hF w (List.Subset.trans hv hw), hp w hw⟩
  exact ⟨v'', List.Subset.trans hv hv', hK'', hr⟩

/-- Facts may be strengthened and results weakened. -/
theorem imp (h : Settles K F x K' p) (hF : ∀ w, G w → F w) (hp : ∀ w a, G w → p w a → q w a) :
    Settles K G x K' q := by
  intro c a c' hrun hlog
  obtain ⟨hstart, hafter⟩ := h c a c' hrun hlog
  refine ⟨hstart, fun v hK hG => ?_⟩
  obtain ⟨v', hv, hK', hpa⟩ := hafter v hK fun w hw => hF w (hG w hw)
  exact ⟨v', hv, hK', fun w hw => hp w a (hG w (List.Subset.trans hv hw)) (hpa w hw)⟩

theorem given (h : Settles K F x K' p) (hF : ∀ w, G w → F w) : Settles K G x K' p :=
  h.imp hF fun _ _ _ hp => hp

theorem knowing {K₀ : Known} (h : Settles K F x K' p) (hK : ∀ v c, K₀ v c → K v c) :
    Settles K₀ F x K' p := by
  intro c a c' hrun hlog
  obtain ⟨hstart, hafter⟩ := h c a c' hrun hlog
  exact ⟨hstart, fun v hc => hafter v (hK v c hc)⟩

theorem ite {b : Prop} [Decidable b] (hx : b → Settles K F x K' p) (hy : ¬b → Settles K F y K' p) :
    Settles K F (if b then x else y) K' p := by
  split
  · exact hx ‹_›
  · exact hy ‹_›

end Settles

section

variable {K K' : Known} {F : Vars → Prop} {p : Vars → α → Prop}

theorem get_bind {f : Context → Analysis α}
    (h : ∀ c, Settles K (fun w => F w ∧ ∃ v, v ⊆ w ∧ K v c) (f c) K' p) :
    Settles K F (get >>= f) K' p := by
  intro c a c' hrun hlog
  obtain ⟨hstart, hafter⟩ := h c c a c' hrun hlog
  exact ⟨hstart, fun v hK hF => hafter v hK fun w hw => ⟨hF w hw, v, hw, hK⟩⟩

theorem lift_bind {e : Except Fault β} {f : β → Analysis α}
    (h : ∀ b, e = .ok b → Settles K F (f b) K' p) :
    Settles K F ((liftM e : Analysis β) >>= f) K' p := by
  intro c a c' hrun hlog
  cases e with
  | error f => cases hrun
  | ok b => exact h b rfl c a c' hrun hlog

theorem report_bind {f : Unit → Analysis α} (h : Quiet (f ())) :
    Settles K F (report line problem >>= f) K' p := by
  intro c a c' hrun hlog
  have hmid := h _ a c' hrun hlog
  simp [Log.add] at hmid

theorem reportIf_bind {b : Prop} [Decidable b] {f : Unit → Analysis α}
    (h : Settles K (fun w => F w ∧ ¬b) (f ()) K' p) :
    Settles K F (if b then report line problem >>= f else f ()) K' p :=
  .ite (fun _ => report_bind h.quiet) fun hb => h.given fun _ hw => ⟨hw, hb⟩

theorem reportUnless_bind {b : Prop} [Decidable b] {f : Unit → Analysis α}
    (h : Settles K (fun w => F w ∧ b) (f ()) K' p) :
    Settles K F (if b then f () else report line problem >>= f) K' p :=
  .ite (fun hb => h.given fun _ hw => ⟨hw, hb⟩) fun _ => report_bind h.quiet

theorem modify_settles {f : Context → Context} (hlog : ∀ c, (f c).log = c.log)
    (hK : ∀ v c, K v c → K' v (f c)) :
    Settles K F (modify f : Analysis PUnit) K' fun _ _ => True := by
  intro c a c' hrun hc'
  cases hrun
  rw [hlog] at hc'
  exact ⟨hc', fun v hc _ => ⟨v, fun _ => id, hK v c hc, fun _ _ => trivial⟩⟩

/-- A step for each item settles each item. -/
theorem mapM_settles {f : β → Analysis α} {r : Vars → β → α → Prop} :
    ∀ {bs : List β}, (∀ b ∈ bs, Settles K F (f b) K fun w a => r w b a) →
      Settles K F (bs.mapM f) K fun w as => ∀ a ∈ as, ∃ b ∈ bs, r w b a
  | [], _ => .pure fun _ _ => nofun
  | b :: bs, h => by
    rw [List.mapM_cons]
    have hrest := mapM_settles (r := r) fun b' hb' => h b' (List.mem_cons_of_mem b hb')
    refine .bind (h b (by simp)) fun a => .bind (hrest.given fun _ hw => hw.1) fun as =>
      .pure fun w hw x hx => ?_
    rcases List.mem_cons.1 hx with rfl | hx
    · exact ⟨b, by simp, hw.1.2⟩
    · obtain ⟨b', hb', hr⟩ := hw.2 x hx
      exact ⟨b', List.mem_cons_of_mem _ hb', hr⟩

end

end JMinusMinus.Analysis
