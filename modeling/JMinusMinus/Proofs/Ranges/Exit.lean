import JMinusMinus.Proofs.Ranges.Basic

/-!
# Gaps of exits

A jump out of guarded blocks leaves them one by one, innermost first. The gap of a block starts
where it is left, so it is inside the gaps of the blocks that were left before, and behind the
gaps that the final blocks of those hand on. All these gaps stop behind the jump.
-/

namespace JMinusMinus.Lowering

open List

variable {f : Emitted Unit} {scope : Label} {jump : Lowering Unit} {r' : Option (List Exit × Label)}
  {x x' final : Option (Lowering Unit)}

variable {k : Copy} {around base : Blocks} {s : Supply}

/-! ## Exits -/

/-- The code of a final block with and without a copy. -/
inductive FinalTwins (k : Copy) (around : Blocks) :
    List Stmt → Option (Lowering Unit) → Option (Lowering Unit) → Prop
  | none : FinalTwins k around [] none none
  | some {parts : List Stmt} {x x' : Lowering Unit} : (∀ known, Orderly k known around parts x x') →
      FinalTwins k around parts (some x) (some x')

theorem FinalTwins.getD (h : FinalTwins k around parts x x') (known : List Label) :
    Orderly k known around parts (x.getD (pure ())) (x'.getD (pure ())) := by
  cases h with
  | none => exact .quiet .pure
  | some h => exact h known

namespace Exit

/-- Exits beside their twins, with the blocks that are around inside them. Those of `base` are
around outside. -/
inductive Twins (k : Copy) (base : Blocks) : List Exit → List Exit → Blocks → Prop
  | nil : Twins k base [] [] base
  | loop {es es' : List Exit} {around : Blocks} (stop next : Label) : Twins k base es es' around →
      Twins k base (loop stop next :: es) (loop stop next :: es') around
  | switch {es es' : List Exit} {around : Blocks} (stop : Label) : Twins k base es es' around →
      Twins k base (switch stop :: es) (switch stop :: es') around
  | guarded {es es' : List Exit} {around : Blocks} {scope : Label} {parts : List Stmt}
      {x x' : Option (Lowering Unit)} : Twins k base es es' around → scope ∉ around.map (·.1) →
      FinalTwins k around parts x x' →
      Twins k base (guarded scope x :: es) (guarded scope x' :: es') ((scope, x) :: around)
  | own {es es' : List Exit} {around : Blocks} {scope : Label} {parts : List Stmt} :
      Twins k base es es' around → scope ∉ around.map (·.1) → k.scope = some scope →
      (∀ known, Orderly k known around parts k.final k.final) →
      Twins k base (guarded scope (some k.final) :: es)
        (guarded scope (some (withoutCopy k.supply k.final)) :: es')
        ((scope, some k.final) :: around)

variable {es es' left left' : List Exit}

theorem Twins.any_hasFinal (h : Twins k base es es' around) :
    es'.any hasFinal = es.any hasFinal := by
  induction h with
  | nil => rfl
  | guarded _ _ hx ih => cases hx <;> simp [hasFinal, ih]
  | loop _ _ _ ih | switch _ _ ih | own _ _ _ _ ih => simp [hasFinal, ih]

/-- The same target of a jump, and twins of the exits on the way. -/
inductive SameTarget (k : Copy) (around : Blocks) :
    Option (List Exit × Label) → Option (List Exit × Label) → Prop
  | none : SameTarget k around none none
  | some {base : Blocks} {left left' : List Exit} (l : Label) : Twins k base left left' around →
      SameTarget k around (some (left, l)) (some (left', l))

theorem SameTarget.map (h : SameTarget k around r r')
    (he : ∀ {base left left'}, Twins k base left left' around →
      Twins k base (e :: left) (e' :: left') more) :
    SameTarget k more (r.map fun (left, l) => (e :: left, l))
      (r'.map fun (left, l) => (e' :: left, l)) := by
  cases h with
  | none => exact .none
  | some l hleft => exact .some l (he hleft)

theorem Twins.breakTarget? (h : Twins k base es es' around) :
    SameTarget k around (Exit.breakTarget? es) (Exit.breakTarget? es') := by
  induction h with
  | nil => exact .none
  | loop stop next => exact .some stop .nil
  | switch stop => exact .some stop .nil
  | guarded _ hnew hx ih => exact ih.map (.guarded · hnew hx)
  | own _ hnew hown hx ih => exact ih.map (.own · hnew hown hx)

theorem Twins.continueTarget? (h : Twins k base es es' around) :
    SameTarget k around (Exit.continueTarget? es) (Exit.continueTarget? es') := by
  induction h with
  | nil => exact .none
  | loop stop next => exact .some next .nil
  | switch stop _ ih => exact ih.map (.switch stop)
  | guarded _ hnew hx ih => exact ih.map (.guarded · hnew hx)
  | own _ hnew hown hx ih => exact ih.map (.own · hnew hown hx)

/-! ## Unwinding -/

/-- The copy stands where its guarded block is left. -/
def AtStart (k : Copy) (starts : List (Label × Label)) (lines : List Line) : Prop :=
  ∃ r ∈ starts, k.scope = some r.1 ∧ r.2.id + 1 = k.supply.labels ∧
    ∃ before f rest, k.final k.supply = .ok f ∧ lines = before ++ .mark r.2 :: f.code.lines ++ rest

/-- What unwinding made: the gaps that are to start, and those of final blocks on the way. The
copy that is asked for may be at the start of a gap that is still open. -/
structure Unwound (k : Copy) (around : Blocks) (es' : List Exit) (s : Supply)
    (a : Emitted (List (Label × Label))) : Prop extends Spaced around s a where
  nodup : (a.value.map (·.1)).Nodup
  starts : ∀ r ∈ a.value, ∃ final, (r.1, final) ∈ around ∧ ∃ before way,
    a.code.lines = before ++ .mark r.2 :: way ∧ Unwinds final a.supply way
  before : ∀ r ∈ a.value, (ends (gapsOf r.1 a.gaps) ++ [r.2]).Sublist (marked a.code.lines)
  twin : Twin (unwind es') s a (k.InGap a.gaps a.code.lines ∨ AtStart k a.value a.code.lines)

theorem unwind_guarded_eq_ok (h : unwind (guarded scope final :: es) s = .ok a)
    (hfinal : (guarded scope final :: es).any hasFinal) :
    ∃ f r, final.getD (pure ()) ⟨s.labels + 1, s.slot⟩ = .ok f ∧ unwind es f.supply = .ok r ∧
      a = ⟨(scope, ⟨s.labels⟩) :: r.value, .mark ⟨s.labels⟩ ++ (f.code ++ r.code),
        f.gaps ++ r.gaps, r.supply⟩ := by
  rw [unwind_guarded, if_pos hfinal, newLabel_bind] at h
  obtain ⟨_, h₁, rfl⟩ := emit_bind_eq_ok h
  obtain ⟨f, _, hf, h₂, rfl⟩ := bind_eq_ok h₁
  obtain ⟨r, _, hr, h₃, rfl⟩ := bind_eq_ok h₂
  obtain rfl := pure_eq_ok h₃
  exact ⟨f, r, hf, hr, by simp [Fragment.append_empty]⟩

theorem unwind_guarded_twin {asked asked' asked'' : Prop}
    (hfinal : (guarded scope final :: es).any hasFinal)
    (hf : Twin (final.getD (pure ())) ⟨s.labels + 1, s.slot⟩ f asked)
    (hr : Twin (unwind es) f.supply r asked') (h : asked → asked'') (h' : asked' → asked'') :
    Twin (unwind (guarded scope final :: es)) s ⟨(scope, ⟨s.labels⟩) :: r.value,
      .mark ⟨s.labels⟩ ++ (f.code ++ r.code), f.gaps ++ r.gaps, r.supply⟩ asked'' := by
  have hmark : Twin (mark ⟨s.labels⟩) ⟨s.labels + 1, s.slot⟩
    ⟨(), .mark ⟨s.labels⟩, [], ⟨s.labels + 1, s.slot⟩⟩ False := .inl rfl
  have hpure : Twin (pure ((scope, ⟨s.labels⟩) :: r.value)) r.supply
    ⟨(scope, ⟨s.labels⟩) :: r.value, {}, [], r.supply⟩ False := .inl rfl
  have hrest := hr.bind (f := fun rest => pure ((scope, ⟨s.labels⟩) :: rest)) hpure h' False.elim
  have hall := hmark.bind (f := fun _ => _) (hf.bind (f := fun _ => _) hrest h id) False.elim id
  rw [Twin, unwind_guarded, if_pos hfinal, newLabel_bind]
  simpa only [Twin, nil_append, append_nil, Fragment.append_empty] using hall

/-- Leaving one more block on the way out. -/
theorem Unwound.step (hr : Unwound k around es' f.supply r)
    (hran : x.getD (pure ()) ⟨s.labels + 1, s.slot⟩ = .ok f) (hrest : unwind es f.supply = .ok r)
    (hfinal : (guarded scope x' :: es').any hasFinal) (hscope : scope ∉ around.map (·.1))
    (hf : Spaced around ⟨s.labels + 1, s.slot⟩ f)
    (htwin : Twin (x'.getD (pure ())) ⟨s.labels + 1, s.slot⟩ f
      (k.InGap f.gaps f.code.lines ∨ k.scope = some scope ∧ s.labels + 1 = k.supply.labels ∧
        k.final k.supply = .ok f)) : Unwound k ((scope, x) :: around) (guarded scope x' :: es') s
      ⟨(scope, ⟨s.labels⟩) :: r.value, .mark ⟨s.labels⟩ ++ (f.code ++ r.code),
        f.gaps ++ r.gaps, r.supply⟩ := by
  have hspaced : Spaced around ⟨s.labels + 1, s.slot⟩
    (⟨(), f.code ++ r.code, f.gaps ++ r.gaps, r.supply⟩ : Emitted Unit) :=
    hf.bind hr.toSpaced rfl rfl rfl
  have hmore := hspaced.more (subset_cons_self (scope, x) around)
  have hlines : f.code.lines ++ r.code.lines <:+:
      .mark ⟨s.labels⟩ :: (f.code.lines ++ r.code.lines) :=
    (suffix_cons _ _).isInfix
  constructor
  case toSpaced =>
    refine ⟨Nat.le_of_succ_le hspaced.labels, fun g hg => ?_, fun scope => ?_⟩
    · obtain ⟨final, hmem, hexit⟩ := hmore.gaps g hg
      exact ⟨final, hmem, hexit.mono hlines⟩
    · exact (hmore.ordered scope).cons _
  case nodup =>
    refine nodup_cons.2 ⟨fun hmem => hscope ?_, hr.nodup⟩
    obtain ⟨t, ht, rfl⟩ := mem_map.1 hmem
    obtain ⟨final, hmem, -⟩ := hr.starts t ht
    exact mem_map_of_mem hmem
  case starts =>
    intro t ht
    rcases mem_cons.1 ht with rfl | ht
    · exact ⟨x, mem_cons_self, [], _, rfl, _, f, es, r, hran, hrest, rfl, rfl⟩
    · obtain ⟨final, hmem, before, way, hway, hunwinds⟩ := hr.starts t ht
      refine ⟨final, mem_cons_of_mem _ hmem, .mark ⟨s.labels⟩ :: f.code.lines ++ before, way,
        ?_, hunwinds⟩
      simp [Fragment.append_def, Fragment.mark, hway]
  case before =>
    intro t ht
    rcases mem_cons.1 ht with rfl | ht
    · have hnone := hspaced.gapsOf_eq_nil hscope
      simp only [hnone, ends, flatMap_nil, nil_append]
      exact (nil_sublist _).cons_cons _
    · have hboth := (hf.ordered t.1).append (hr.before t ht)
      refine .cons _ ?_
      simpa [Fragment.append_def] using hboth
  case twin =>
    refine unwind_guarded_twin hfinal htwin hr.twin ?_ ?_
    · rintro (hgap | ⟨hown, hlabel, hcopy⟩)
      · refine .inl (hgap.mono (fun g hg _ => mem_append_left _ hg) (.trans ?_ hlines))
        exact (prefix_append _ _).isInfix
      · exact .inr ⟨_, mem_cons_self, hown, hlabel, [], f, r.code.lines, hcopy, rfl⟩
    · rintro (hgap | ⟨t, ht, hown, hlabel, before, f', rest, hcopy, hmade⟩)
      · refine .inl (hgap.mono (fun g hg _ => mem_append_right _ hg) (.trans ?_ hlines))
        exact (suffix_append _ _).isInfix
      · refine .inr ⟨t, mem_cons_of_mem _ ht, hown, hlabel,
          .mark ⟨s.labels⟩ :: f.code.lines ++ before, f', rest, hcopy, ?_⟩
        simp [Fragment.append_def, Fragment.mark, hmade]

theorem Unwound.pass (h : Unwound k around es' s a)
    (hfinal : ¬(guarded scope x' :: es').any hasFinal) :
    Unwound k ((scope, x) :: around) (guarded scope x' :: es') s a := by
  refine ⟨h.toSpaced.more (subset_cons_self _ _), h.nodup, fun r hr => ?_, h.before, ?_⟩
  · obtain ⟨final, hmem, hway⟩ := h.starts r hr
    exact ⟨final, mem_cons_of_mem _ hmem, hway⟩
  · rw [unwind_guarded, if_neg hfinal]
    exact h.twin

theorem Twins.unwound (h : Twins k base es es' around) (hrun : unwind es s = .ok a)
    (habove : Above k around s) : Unwound k around es' s a := by
  induction h generalizing s a with
  | nil =>
    obtain rfl := pure_eq_ok hrun
    exact ⟨⟨Nat.le_refl _, nofun, fun _ => .slnil⟩, .nil, nofun, nofun, .inl hrun⟩
  | loop _ _ _ ih =>
    obtain ⟨hspaced, hnodup, hstarts, hbefore, htwin⟩ := ih hrun habove
    exact ⟨hspaced, hnodup, hstarts, hbefore, htwin⟩
  | switch _ _ ih =>
    obtain ⟨hspaced, hnodup, hstarts, hbefore, htwin⟩ := ih hrun habove
    exact ⟨hspaced, hnodup, hstarts, hbefore, htwin⟩
  | @guarded es es' around scope _ x x' hes hnew hx ih =>
    have habove : Above k around s := ⟨habove.1, (forall_mem_cons.1 habove.2).2⟩
    have hsame := (Twins.guarded hes hnew hx).any_hasFinal
    by_cases hany : (Exit.guarded scope x :: es).any hasFinal
    · obtain ⟨f, r, hran, hrest, rfl⟩ := unwind_guarded_eq_ok hrun hany
      obtain ⟨hf, htwin, -⟩ := (hx.getD []).made hran (habove.mono (Nat.le_succ _)) nofun
      have hr := ih hrest (habove.mono (Nat.le_trans (Nat.le_succ _) hf.labels))
      exact hr.step hran hrest (hsame.trans hany) hnew hf (htwin.imp_right fun h => ⟨h.1, .inl h.2⟩)
    · rw [unwind_guarded, if_neg hany] at hrun
      exact (ih hrun habove).pass fun h => hany (hsame.symm.trans h)
  | own hes hnew hown hfinal ih =>
    have habove : Above k _ s := ⟨habove.1, (forall_mem_cons.1 habove.2).2⟩
    obtain ⟨f, r, hran, hrest, rfl⟩ := unwind_guarded_eq_ok hrun rfl
    have hf := ((hfinal []).made hran (habove.mono (Nat.le_succ _)) nofun).1
    have hr := ih hrest (habove.mono (Nat.le_trans (Nat.le_succ _) hf.labels))
    refine hr.step hran hrest rfl hnew hf ?_
    by_cases hsupply : (⟨s.labels + 1, s.slot⟩ : Supply) = k.supply
    · refine .inr ⟨⟨_, if_pos hsupply⟩, .inr ⟨hown, ?_, hsupply ▸ hran⟩⟩
      exact congrArg Supply.labels hsupply
    · exact .inl ((if_neg hsupply).trans hran)

/-! ## Jumps -/

theorem leave_eq_ok (h : leave left jump s = .ok a) :
    ∃ u j stop tail, unwind left s = .ok u ∧ jump u.supply = .ok j ∧
      a.code.lines = u.code.lines ++ j.code.lines ++ tail ∧
      a.gaps = u.gaps ++ j.gaps ++ u.value.map (fun r => ⟨r.1, r.2, stop⟩) ∧
      j.supply.labels ≤ a.supply.labels ∧ (u.value ≠ [] → tail = [.mark stop]) := by
  rw [leave_eq] at h
  obtain ⟨u, _, hu, h₁, rfl⟩ := bind_eq_ok h
  obtain ⟨j, b, hj, h₂, rfl⟩ := bind_eq_ok h₁
  split at h₂
  next hempty =>
    obtain rfl := pure_eq_ok h₂
    have hnil : u.value = [] := List.isEmpty_iff.1 hempty
    exact ⟨u, j, ⟨0⟩, [], hu, hj, by simp [Fragment.append_def], by simp [hnil], Nat.le_refl _,
      absurd hnil⟩
  next =>
    rw [newLabel_bind] at h₂
    obtain ⟨c, h₃, rfl⟩ := emit_bind_eq_ok h₂
    cases h₃
    exact ⟨u, j, ⟨j.supply.labels⟩, [.mark ⟨j.supply.labels⟩], hu, hj,
      by simp [Fragment.append_def, Fragment.mark], by simp, Nat.le_succ _, fun _ => rfl⟩

theorem gapsOf_starts (stop scope : Label) {starts : List (Label × Label)}
    (h : (starts.map (·.1)).Nodup) :
    gapsOf scope (starts.map fun r => ⟨r.1, r.2, stop⟩) = [] ∨ ∃ r ∈ starts, r.1 = scope ∧
        gapsOf scope (starts.map fun r => ⟨r.1, r.2, stop⟩) = [(r.2, stop)] := by
  induction starts with
  | nil => exact .inl rfl
  | cons r starts ih =>
    obtain ⟨hnot, hnodup⟩ := nodup_cons.1 h
    by_cases hr : r.1 = scope
    · subst hr
      refine .inr ⟨r, mem_cons_self, rfl, ?_⟩
      rcases ih hnodup with hnone | ⟨r', hr', hsame, -⟩
      · simpa [gapsOf] using hnone
      · exact absurd (mem_map.2 ⟨r', hr', hsame⟩) hnot
    · have hskip : gapsOf scope ((r :: starts).map fun r => ⟨r.1, r.2, stop⟩) =
          gapsOf scope (starts.map fun r => ⟨r.1, r.2, stop⟩) := by
        simp [gapsOf, hr]
      rw [hskip]
      refine (ih hnodup).imp_right ?_
      rintro ⟨r', hr', h⟩
      exact ⟨r', mem_cons_of_mem _ hr', h⟩

theorem Twins.leave (h : Twins k base left left' around)
    (hjump : IsJump jump) (known : List Label) :
    Orderly k known around [] (leave left jump) (leave left' jump) := by
  constructor
  intro s a hrun habove _
  obtain ⟨u, j, stop, tail, hu, hj, hlines, hgaps, hlabels, htail⟩ := leave_eq_ok hrun
  obtain ⟨hspaced, hnodup, hstarts, hbefore, htwin⟩ := h.unwound hu habove
  obtain ⟨hle, hnone⟩ := hjump.quiet _ _ hj
  rw [hnone, append_nil] at hgaps
  have hfirst : u.code.lines <:+: a.code.lines := by
    rw [hlines, append_assoc]
    exact (prefix_append _ _).isInfix
  refine ⟨⟨Nat.le_trans hspaced.labels (Nat.le_trans hle hlabels), ?_, ?_⟩, ?_, nofun⟩
  · intro g hg
    rcases mem_append.1 (hgaps ▸ hg) with hg | hg
    · obtain ⟨final, hmem, hexit⟩ := hspaced.gaps g hg
      exact ⟨final, hmem, hexit.mono hfirst⟩
    · obtain ⟨r, hr, rfl⟩ := mem_map.1 hg
      obtain ⟨final, hmem, before, way, hway, hunwinds⟩ := hstarts r hr
      refine ⟨final, hmem, way, _, jump, j, hunwinds, hjump, hj, before, [], ?_⟩
      simp [hlines, hway, htail (ne_nil_of_mem hr)]
  · intro scope
    rw [hgaps, hlines, gapsOf_append, ends_append]
    rcases gapsOf_starts stop scope hnodup with hempty | ⟨r, hr, rfl, hone⟩
    · rw [hempty, marked_append, marked_append, append_assoc]
      exact (hspaced.ordered scope).append (nil_sublist _)
    · have hstop : [stop].Sublist (marked j.code.lines ++ [stop]) := sublist_append_right _ _
      simpa [hone, ends, htail (ne_nil_of_mem hr)] using (hbefore r hr).append hstop
  · rcases htwin with htwin | ⟨⟨e, he⟩, hcopy⟩
    · refine .inl (Eq.trans ?_ hrun)
      simp only [leave_eq, Bind.bind, htwin, hu]
    · refine .inr ⟨⟨e, by simp [leave_eq, Bind.bind, Except.bind, he]⟩, ?_⟩
      rw [hgaps]
      rcases hcopy with hgap | ⟨r, hr, hscope, hlabel, before, f, rest, hf, hmade⟩
      · exact hgap.mono (fun g hg _ => mem_append_left _ hg) hfirst
      · refine ⟨_, mem_append_right _ (mem_map_of_mem hr), hscope, hlabel, f,
          rest ++ j.code.lines, hf, before, [], ?_⟩
        simp [hlines, hmade, htail (ne_nil_of_mem hr)]

theorem sameTarget_leave {r : Option (List Exit × Label)} (d : Defect) (known : List Label) :
    SameTarget k around r r' → Orderly k known around []
      (match r with
        | some (exits, target) => leave exits (branch .goto target)
        | none => fail d)
      (match r' with
        | some (exits, target) => leave exits (branch .goto target)
        | none => fail d) := by
  intro h
  cases h with
  | none => exact .quiet failWith_quiet
  | some l hleft => exact hleft.leave (.goto l) known

end Exit

end JMinusMinus.Lowering
