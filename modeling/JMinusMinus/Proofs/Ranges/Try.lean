import JMinusMinus.Proofs.Ranges.Stmt

/-!
# Ranges of try statements

A try statement is its block, what follows the block at a normal end, its handlers and the handler
of its final block, one after the other. Its handlers exclude its ways out and nothing else of its
blocks (`TryExcludes`).

* The gaps of its block, and of the block of each handler, follow each other between the start and
  the end of the block. So the ranges that are left follow each other as well.
* Every handler takes the ranges of the block. The handler of the final block takes these, and
  then the ranges of the blocks of the handlers.
* The ranges of a block cover it but for its gaps, and a gap is the code of a way out.
* No copy of the final block that is made for the statement is covered, whether it stands at a
  normal end, on a way out, or in the handler of the final block.
-/

namespace JMinusMinus.Lowering

variable {clause : CatchClause Stmt} {a : Emitted Unit} {catches : List (CatchClause Stmt)}
  {all : List (Label × Label)}

variable {env : Env} {s : Supply}

/-! ## Covered instructions -/

/-- A range that covers the instruction behind some lines: it has started there, and has not
stopped. -/
def Covers (r : Label × Label) (before : List Line) : Prop :=
  r.1 ∈ marked before ∧ r.2 ∉ marked before

/-- No instruction of some lines, which are behind others, is covered. -/
def Uncovered (ranges : List (Label × Label)) (before lines : List Line) : Prop :=
  ∀ pre i post, lines = pre ++ .instr i :: post → ∀ r ∈ ranges, ¬Covers r (before ++ pre)

section

variable {before lines after : List Line} {start stop : Label} {gaps : List (Label × Label)}

theorem uncovered_of_nodup (hnodup : (marked (before ++ lines ++ after)).Nodup)
    {ranges : List (Label × Label)}
    (h : ∀ r ∈ ranges, r.2 ∈ marked before ∨ r.1 ∈ marked after) :
    Uncovered ranges before lines := by
  rintro pre i post rfl r hr ⟨hstart, hstop⟩
  rcases h r hr with hin | hin
  · exact hstop (by simp [hin])
  · have hpre : r.1 ∈ marked (before ++ (pre ++ .instr i :: post)) := by
      simp only [marked_append, List.mem_append] at hstart ⊢
      exact hstart.imp_right .inl
    rw [marked_append] at hnodup
    exact (List.nodup_append.1 hnodup).2.2 _ hpre _ hin rfl

theorem mem_marked_mono (hl : l ∈ marked lines) (h : lines <:+: more) : l ∈ marked more := by
  obtain ⟨before, after, rfl⟩ := h
  simp [hl]

theorem ends_ranges : ends (ranges start stop gaps) = start :: (ends gaps ++ [stop]) := by
  induction gaps generalizing start with
  | nil => rfl
  | cons g gaps ih =>
    show start :: g.1 :: ends (ranges g.2 stop gaps) = _
    rw [ih]
    rfl

theorem mem_ends (h : r ∈ rs) : r.1 ∈ ends rs ∧ r.2 ∈ ends rs :=
  ⟨List.mem_flatMap.2 ⟨r, h, by simp⟩, List.mem_flatMap.2 ⟨r, h, by simp⟩⟩

theorem Spaced.ascends (h : Spaced around s b) (scope start stop : Label) :
    (ends (ranges start stop (gapsOf scope b.gaps))).Sublist
      (marked (.mark start :: (b.code.lines ++ [.mark stop]))) := by
  rw [ends_ranges]
  simpa using (h.ordered scope).cons_cons start

theorem pairwise_marked {labels : List Label} (h : labels.Sublist (marked (lines ++ after)))
    (hnodup : (marked (before ++ (lines ++ after))).Nodup) :
    labels.Pairwise fun l l' => l' ∈ marked (before ++ lines) → l ∈ marked (before ++ lines) := by
  rw [← List.append_assoc, marked_append] at hnodup
  have hafter : ∀ l ∈ marked after, l ∉ marked (before ++ lines) := fun l hl hin =>
    (List.nodup_append.1 hnodup).2.2 _ hin _ hl rfl
  have hlines : ∀ l ∈ marked lines, l ∈ marked (before ++ lines) := fun l hl => by simp [hl]
  have hall : ∀ ls : List Label, ls.Pairwise fun _ _ => True := fun _ =>
    List.pairwise_of_forall fun _ _ => trivial
  refine List.Pairwise.sublist h ?_
  rw [marked_append lines]
  refine List.pairwise_append.2 ⟨?_, ?_, fun l hl _ _ _ => hlines l hl⟩
  · exact (hall _).imp_of_mem fun hl _ _ _ => hlines _ hl
  · exact (hall _).imp_of_mem fun _ hl _ hin => absurd hin (hafter _ hl)

theorem covers_ranges_iff (hstart : start ∈ marked before) (hstop : stop ∉ marked before)
    (hgaps : (ends gaps).Pairwise fun l l' => l' ∈ marked before → l ∈ marked before) :
    (∃ r ∈ ranges start stop gaps, Covers r before) ↔ ∀ g ∈ gaps, ¬Covers g before := by
  induction gaps generalizing start with
  | nil => simp [ranges, Covers, hstart, hstop]
  | cons g gaps ih =>
    obtain ⟨hfirst, hrest⟩ := List.pairwise_cons.1 hgaps
    obtain ⟨hsecond, hrest⟩ := List.pairwise_cons.1 hrest
    by_cases hin : g.1 ∈ marked before
    · by_cases hout : g.2 ∈ marked before
      · simp only [ranges, List.mem_cons, exists_eq_or_imp, forall_eq_or_imp, ih hout hrest]
        simp [Covers, hin, hout]
      · -- The gap covers the place, and what follows it has not started.
        have hnone : ∀ r ∈ ranges g.2 stop gaps, ¬Covers r before := by
          rintro r hr ⟨hr₁, -⟩
          rcases (mem_ranges hr).1 with heq | ⟨g', hg', heq⟩
          · exact hout (heq ▸ hr₁)
          · exact hout (hsecond _ (mem_ends hg').2 (heq ▸ hr₁))
        simp only [ranges, List.mem_cons, exists_eq_or_imp, forall_eq_or_imp]
        refine iff_of_false ?_ fun h => h.1 ⟨hin, hout⟩
        rintro (h | ⟨r, hr, h⟩)
        · exact h.2 hin
        · exact hnone r hr h
    · refine iff_of_true ⟨_, List.mem_cons_self, hstart, hin⟩ ?_
      rintro g' hg' ⟨hg₁, -⟩
      rcases List.mem_cons.1 hg' with rfl | hg'
      · exact hin hg₁
      · exact hin (hfirst _ (List.mem_cons_of_mem _ (mem_ends hg').1) hg₁)

end

/-! ## What the parts exclude -/

/-- The code of a guarded block behind some lines, whose ranges are among all ranges of its
statement. -/
structure BlockExcludes (env : Env) (scope stop : Label) (final : Option (Lowering Unit))
    (body : Block Stmt) (s : Supply) (before : List Line) (b : Emitted Unit)
    (all : List (Label × Label)) : Prop where
  /-- The gaps follow each other. -/
  gaps : (ends (gapsOf scope b.gaps)).Sublist (marked b.code.lines)
  /-- A gap is a way out. -/
  exits : ∀ g ∈ gapsOf scope b.gaps, IsExit final g b.code.lines
  /-- What is not in a gap is covered. -/
  covered : ∀ pre i post, b.code.lines = pre ++ .instr i :: post →
    ((∃ r ∈ ranges scope stop (gapsOf scope b.gaps), Covers r (before ++ pre)) ↔
      ∀ g ∈ gapsOf scope b.gaps, ¬Covers g (before ++ pre))
  /-- A copy of the final block that is asked for is not covered. -/
  copies : ∀ last ∈ final, ∀ t : Supply,
    block (env.inside (.guarded scope (some (withoutCopy t last)))) body s = .ok b ∨
      ∃ l f pre post, l.id + 1 = t.labels ∧ last t = .ok f ∧
        b.code.lines = pre ++ .mark l :: (f.code.lines ++ post) ∧
        Uncovered all (before ++ (pre ++ [.mark l])) f.code.lines

/-- The code of handlers that take the same ranges, among all ranges of their statement. -/
inductive ClausesExclude (env : Env) (final : Option (Lowering Unit))
    (guarded : List (Label × Label)) (done : Label) (all : List (Label × Label)) :
    List (CatchClause Stmt) → Supply → List Line → Emitted (List (Label × Label)) → Prop
  | nil (s : Supply) (before : List Line) :
      ClausesExclude env final guarded done all [] s before ⟨[], {}, [], s⟩
  | cons {line : Nat} {param : Param} {body : Block Stmt} {cs : List (CatchClause Stmt)}
      {s : Supply} {before : List Line} {store b e : Emitted Unit}
      {own others : Emitted (List (Label × Label))} :
      CatchRun env final guarded done param body s store b e own →
      BlockExcludes env ⟨s.labels + 1⟩ ⟨s.labels + 2⟩ final body ⟨s.labels + 3, s.slot⟩
        (before ++ .mark ⟨s.labels⟩ :: store.code.lines ++ [.mark ⟨s.labels + 1⟩]) b all →
      Uncovered all (before ++ .mark ⟨s.labels⟩ :: store.code.lines ++ .mark ⟨s.labels + 1⟩ ::
        b.code.lines ++ [.mark ⟨s.labels + 2⟩]) e.code.lines →
      ClausesExclude env final guarded done all cs own.supply (before ++ own.code.lines) others →
      ClausesExclude env final guarded done all (⟨line, param, body⟩ :: cs) s before
        ⟨own.value ++ others.value, own.code ++ others.code, own.gaps ++ others.gaps,
          others.supply⟩

/-- A try statement behind some lines. Its ranges are those of its block, and then those of its
handlers. -/
structure TryExcludes (env : Env) (body : Block Stmt) (catches : List (CatchClause Stmt))
    (final : Option (Block Stmt)) (s : Supply) (before : List Line) (b e : Emitted Unit)
    (c : Emitted (List (Label × Label))) (f a : Emitted Unit)
    (guarded all : List (Label × Label)) : Prop
    extends TryRun env body catches final s b e c f a where
  guarded_eq : guarded = ranges ⟨s.labels⟩ ⟨s.labels + 1⟩ (gapsOf ⟨s.labels⟩ b.gaps)
  all_eq : all = guarded ++ c.value
  /-- The ranges follow each other. -/
  ascends : (ends all).Sublist (marked a.code.lines)
  block : BlockExcludes env ⟨s.labels⟩ ⟨s.labels + 1⟩ (finalBlock env final) body
    ⟨s.labels + 3, s.slot⟩ (before ++ [.mark ⟨s.labels⟩]) b all
  normal : Uncovered all
    (before ++ .mark ⟨s.labels⟩ :: b.code.lines ++ [.mark ⟨s.labels + 1⟩]) e.code.lines
  clauses : ClausesExclude env (finalBlock env final) guarded ⟨s.labels + 2⟩ all catches e.supply
    (before ++ .mark ⟨s.labels⟩ :: b.code.lines ++ .mark ⟨s.labels + 1⟩ :: e.code.lines) c
  handler : Uncovered all (before ++ .mark ⟨s.labels⟩ :: b.code.lines ++ .mark ⟨s.labels + 1⟩ ::
    e.code.lines ++ c.code.lines) f.code.lines
  noFinal : final = none → f.code.handlers = []
  catchAny : ∀ last ∈ final, ∃ store load g,
    FinalRun all (Lowering.block env last) c.supply store load g f

/-! ## Surroundings -/

theorem Env.Nested.twins (henv : env.Nested) (k : Copy) : env.Twins k env := by
  obtain ⟨h, result, es⟩ := env
  refine ⟨rfl, rfl, henv, ?_⟩
  have hes : Exit.Nested h result es := henv
  induction hes with
  | nil => exact .nil
  | loop stop next hes ih => exact .loop stop next (ih hes)
  | switch stop hes ih => exact .switch stop (ih hes)
  | guarded final hes hscope ih =>
    have htwins : Env.Twins k ⟨h, result, _⟩ ⟨h, result, _⟩ := ⟨rfl, rfl, hes, ih hes⟩
    exact .guarded (ih hes) hscope (finalBlock_orderly final htwins)

theorem Env.Nested.tidy (henv : env.Nested) : Exit.Tidy env.exits := by
  obtain ⟨h, result, es⟩ := env
  have hes : Exit.Nested h result es := henv
  induction hes with
  | nil => trivial
  | loop _ _ hes ih | switch _ hes ih => exact ih hes
  | guarded final hes _ ih => exact ⟨finalBlock_closed final (ih hes), ih hes⟩

theorem Env.Below.mono {t : Supply} (h : env.Below s) (hle : s.labels ≤ t.labels) : env.Below t :=
  fun b hb => Nat.lt_of_lt_of_le (h b hb) hle

theorem Env.Below.not_mem (h : env.Below s) (hn : s.labels ≤ n) :
    ⟨n⟩ ∉ (Exit.blocks env.exits).map (·.1) := by
  intro hmem
  obtain ⟨b, hb, heq⟩ := List.mem_map.1 hmem
  have := h b hb
  have : b.1.id = n := congrArg Label.id heq
  omega

/-! ## Guarded blocks -/

section

variable {scope stop : Label} {final : Option (Block Stmt)} {body : Block Stmt} {b : Emitted Unit}

theorem block_spaced (henv : env.Nested) (hbelow : env.Below s)
    (hnew : scope ∉ (Exit.blocks env.exits).map (·.1)) (hscope : scope.id < s.labels)
    (hran : block (env.inside (.guarded scope (finalBlock env final))) body s = .ok b) :
    Spaced ((scope, finalBlock env final) :: Exit.blocks env.exits) s b ∧
      ∀ last ∈ finalBlock env final, ∀ t,
        Twin (block (env.inside (.guarded scope (some (withoutCopy t last)))) body) s b
          (Copy.InGap ⟨some scope, last, t⟩ b.gaps b.code.lines) := by
  have hbelow : ∀ b ∈ (scope, finalBlock env final) :: Exit.blocks env.exits, b.1.id < s.labels :=
    List.forall_mem_cons.2 ⟨hscope, hbelow⟩
  constructor
  · have htwins := henv.twins ⟨none, pure (), s⟩
    have hinside := htwins.guarded hnew (finalBlock_orderly final htwins)
    exact ((block_orderly body hinside).made hran ⟨nofun, hbelow⟩ (List.forall_mem_nil _)).1
  · intro last hlast t
    cases final with
    | none => cases hlast
    | some final =>
      cases hlast
      have htwins := henv.twins ⟨some scope, block env final, t⟩
      have hinside : (env.inside (.guarded scope (some (block env final)))).Twins
          ⟨some scope, block env final, t⟩
          (env.inside (.guarded scope (some (withoutCopy t (block env final))))) :=
        ⟨rfl, rfl, .guarded (some final) henv hnew,
          .own htwins.exits hnew rfl fun _ => block_orderly final htwins⟩
      have habove : Above ⟨some scope, block env final, t⟩
          ((scope, some (block env final)) :: Exit.blocks env.exits) s :=
        ⟨by rintro _ ⟨⟩; exact hscope, hbelow⟩
      exact ((block_orderly body hinside).made hran habove (List.forall_mem_nil _)).2.1

/-- A guarded block between some lines. The other ranges of its statement have stopped before it,
or start behind it. -/
theorem block_excludes (henv : env.Nested) (hbelow : env.Below s)
    (hnew : scope ∉ (Exit.blocks env.exits).map (·.1)) (hscope : scope.id < s.labels)
    (hran : block (env.inside (.guarded scope (finalBlock env final))) body s = .ok b)
    (hnodup : (marked (before ++ b.code.lines ++ after)).Nodup) (hstart : scope ∈ marked before)
    (hstop : stop ∈ marked after)
    (hall : ∀ r ∈ all, r ∈ ranges scope stop (gapsOf scope b.gaps) ∨ r.2 ∈ marked before ∨
      r.1 ∈ marked after) :
    BlockExcludes env scope stop (finalBlock env final) body s before b all := by
  obtain ⟨hspaced, htwin⟩ := block_spaced henv hbelow hnew hscope hran
  have hgaps := hspaced.ordered scope
  have hcovered : ∀ pre i post, b.code.lines = pre ++ .instr i :: post →
      ((∃ r ∈ ranges scope stop (gapsOf scope b.gaps), Covers r (before ++ pre)) ↔
        ∀ g ∈ gapsOf scope b.gaps, ¬Covers g (before ++ pre)) := by
    intro pre i post hlines
    rw [hlines] at hnodup hgaps
    rw [marked_append] at hnodup
    refine covers_ranges_iff (by simp [hstart]) (fun hin => ?_) (pairwise_marked hgaps ?_)
    · have hin : stop ∈ marked (before ++ (pre ++ .instr i :: post)) := by
        simp only [marked_append, List.mem_append] at hin ⊢
        exact hin.imp_right .inl
      exact (List.nodup_append.1 hnodup).2.2 _ hin _ hstop rfl
    · exact (List.nodup_append.1 hnodup).1
  constructor
  case gaps => exact hgaps
  case exits =>
    intro g hg
    obtain ⟨g, hmem, rfl⟩ := List.mem_map.1 hg
    obtain ⟨hg, hown⟩ := List.mem_filter.1 hmem
    obtain ⟨final', hmem, hexit⟩ := hspaced.gaps g hg
    have hown : g.scope = scope := by simpa using hown
    rcases List.mem_cons.1 hmem with heq | hmem
    · obtain ⟨-, rfl⟩ := Prod.mk.inj heq
      exact hexit
    · exact absurd (hown ▸ List.mem_map_of_mem hmem) hnew
  case covered => exact hcovered
  case copies =>
    intro last hlast t
    refine (htwin last hlast t).imp_right ?_
    rintro ⟨-, g, hg, hown, hlabel, f, rest, hf, pre, post, hlines⟩
    obtain rfl : scope = g.scope := Option.some.inj hown
    have hmem : (g.start, g.stop) ∈ gapsOf g.scope b.gaps :=
      List.mem_map.2 ⟨g, List.mem_filter.2 ⟨hg, by simp⟩, rfl⟩
    refine ⟨g.start, f, pre, rest ++ .mark g.stop :: post, hlabel, hf, by simp [← hlines], ?_⟩
    intro pre' i post' hcopy r hr hcovers
    have hsplit : b.code.lines = (pre ++ .mark g.start :: pre') ++
        .instr i :: (post' ++ rest ++ .mark g.stop :: post) := by
      simp [← hlines, hcopy]
    have hsame : before ++ (pre ++ [.mark g.start]) ++ pre' =
        before ++ (pre ++ .mark g.start :: pre') := by
      simp
    rw [hsame] at hcovers
    rcases hall r hr with hr | hr
    · refine (hcovered _ i _ hsplit).1 ⟨r, hr, hcovers⟩ _ hmem ⟨by simp, fun hin => ?_⟩
      rw [hsplit, ← List.append_assoc before, List.append_assoc, marked_append] at hnodup
      exact (List.nodup_append.1 hnodup).2.2 _ hin g.stop (by simp) rfl
    · have hone : ∀ r' ∈ [r], r'.2 ∈ marked before ∨ r'.1 ∈ marked after := by simpa using hr
      exact uncovered_of_nodup hnodup hone _ i _ hsplit r List.mem_cons_self hcovers

end

/-! ## Handlers -/

section

variable {final : Option (Block Stmt)} {guarded : List (Label × Label)} {done : Label}
  {c : Emitted (List (Label × Label))} {param : Param} {body : Block Stmt}
  {store b e : Emitted Unit}

theorem CatchRun.ascends (henv : env.Nested) (hbelow : env.Below s)
    (h : CatchRun env (finalBlock env final) guarded done param body s store b e c) :
    (ends c.value).Sublist (marked (.mark ⟨s.labels + 1⟩ :: (b.code.lines ++
      [.mark ⟨s.labels + 2⟩]))) := by
  have hspaced := block_spaced henv (hbelow.mono (Nat.le_add_right _ 3))
    (hbelow.not_mem (Nat.le_succ _)) (by simp) h.ran
  rw [h.value]
  exact hspaced.1.ascends _ _ _

theorem catchClauses_cons_eq_ok {final : Option (Lowering Unit)} {cs : List (CatchClause Stmt)}
    (h : catchClauses env final guarded done (clause :: cs) s = .ok c) :
    ∃ own others, catchClause env final guarded done clause s = .ok own ∧
      catchClauses env final guarded done cs own.supply = .ok others ∧
      c = ⟨own.value ++ others.value, own.code ++ others.code, own.gaps ++ others.gaps,
        others.supply⟩ := by
  obtain ⟨own, _, hown, h₁, rfl⟩ := bind_eq_ok h
  obtain ⟨others, _, hothers, h₂, rfl⟩ := bind_eq_ok h₁
  obtain rfl := pure_eq_ok h₂
  exact ⟨own, others, hown, hothers, by simp [Fragment.append_empty]⟩

theorem Env.Nested.below_catchClause (henv : env.Nested) (hbelow : env.Below s)
    (h : catchClause env (finalBlock env final) guarded done clause s = .ok c) :
    env.Below c.supply :=
  hbelow.mono (catchClause_guardTidy clause henv.tidy (finalBlock_closed final henv.tidy) h).1.le

theorem catchClauses_ascends (henv : env.Nested) (hbelow : env.Below s)
    (h : catchClauses env (finalBlock env final) guarded done catches s = .ok c) :
    (ends c.value).Sublist (marked c.code.lines) := by
  induction catches generalizing s c with
  | nil =>
    obtain rfl := pure_eq_ok h
    exact .slnil
  | cons clause cs ih =>
    obtain ⟨own, others, hown, hothers, rfl⟩ := catchClauses_cons_eq_ok h
    obtain ⟨store, b, e, hrun⟩ := catchClause_eq_ok hown
    have hrest := ih (henv.below_catchClause hbelow hown) hothers
    have hlines : own.code.lines = .mark ⟨s.labels⟩ :: store.code.lines ++
        .mark ⟨s.labels + 1⟩ :: (b.code.lines ++ [.mark ⟨s.labels + 2⟩]) ++ e.code.lines := by
      simp [hrun.lines]
    rw [ends_append, Fragment.append_def, marked_append, hlines, marked_append, marked_append]
    refine ((hrun.ascends henv hbelow).trans ?_).append hrest
    exact (List.sublist_append_right _ _).trans (List.sublist_append_left _ _)

/-- Handlers between some lines. The other ranges of their statement have stopped before them, or
start behind them. -/
theorem clauses_exclude (henv : env.Nested) (hbelow : env.Below s)
    (h : catchClauses env (finalBlock env final) guarded done catches s = .ok c)
    (hnodup : (marked (before ++ c.code.lines ++ after)).Nodup)
    (hall : ∀ r ∈ all, r ∈ c.value ∨ r.2 ∈ marked before ∨ r.1 ∈ marked after) :
    ClausesExclude env (finalBlock env final) guarded done all catches s before c := by
  induction catches generalizing s c before with
  | nil =>
    obtain rfl := pure_eq_ok h
    exact .nil s before
  | cons clause cs ih =>
    obtain ⟨line, param, body⟩ := clause
    obtain ⟨own, others, hown, hothers, rfl⟩ := catchClauses_cons_eq_ok h
    obtain ⟨store, b, e, hrun⟩ := catchClause_eq_ok hown
    have hbelow' := henv.below_catchClause hbelow hown
    have hown : ∀ r ∈ own.value, r.2 ∈ marked (.mark ⟨s.labels + 1⟩ :: (b.code.lines ++
        [.mark ⟨s.labels + 2⟩])) := fun r hr =>
      (hrun.ascends henv hbelow).subset (mem_ends hr).2
    have hothers' : ∀ r ∈ others.value, r.1 ∈ marked others.code.lines := fun r hr =>
      (catchClauses_ascends henv hbelow' hothers).subset (mem_ends hr).1
    have hall' : ∀ r ∈ all, r ∈ own.value ∨ r.1 ∈ marked others.code.lines ∨
        r.2 ∈ marked before ∨ r.1 ∈ marked after := fun r hr =>
      (hall r hr).elim (fun h => (List.mem_append.1 h).imp_right fun h => .inl (hothers' r h))
        fun h => .inr (.inr h)
    refine .cons hrun ?_ ?_ (ih hbelow' hothers (by simpa [Fragment.append_def] using hnodup) ?_)
    · have hnodup : (marked (before ++ .mark ⟨s.labels⟩ :: store.code.lines ++
          [.mark ⟨s.labels + 1⟩] ++ b.code.lines ++ (.mark ⟨s.labels + 2⟩ :: e.code.lines ++
            others.code.lines ++ after))).Nodup := by
        simpa [Fragment.append_def, hrun.lines] using hnodup
      refine block_excludes henv (hbelow.mono (Nat.le_add_right _ 3))
        (hbelow.not_mem (Nat.le_succ _)) (by simp) hrun.ran hnodup (by simp) (by simp)
        fun r hr => ?_
      rcases hall' r hr with h | h | h | h
      · exact .inl (hrun.value ▸ h)
      all_goals simp [h]
    · have hnodup : (marked (before ++ .mark ⟨s.labels⟩ :: store.code.lines ++
          .mark ⟨s.labels + 1⟩ :: b.code.lines ++ [.mark ⟨s.labels + 2⟩] ++ e.code.lines ++
            (others.code.lines ++ after))).Nodup := by
        simpa [Fragment.append_def, hrun.lines] using hnodup
      refine uncovered_of_nodup hnodup fun r hr => ?_
      rcases hall' r hr with h | h | h | h
      · refine .inl (mem_marked_mono (hown r h) ?_)
        exact ⟨before ++ .mark ⟨s.labels⟩ :: store.code.lines, [], by simp⟩
      all_goals simp [h]
    · intro r hr
      rcases hall r hr with h | h | h
      · rcases List.mem_append.1 h with h | h
        · exact .inr (.inl (mem_marked_mono (hown r h) ⟨before ++ .mark ⟨s.labels⟩ ::
            store.code.lines, e.code.lines, by simp [hrun.lines]⟩))
        · exact .inl h
      all_goals simp [h]

end

/-! ## Try statements -/

theorem TryRun.below (h : TryRun env body catches final s b e c f a) (henv : env.Nested)
    (hbelow : env.Below s) : env.Below ⟨s.labels + 3, s.slot⟩ ∧ env.Below e.supply := by
  have hfinal := finalBlock_closed final henv.tidy
  have hinside : Exit.Tidy (env.inside (.guarded ⟨s.labels⟩ (finalBlock env final))).exits :=
    ⟨hfinal, henv.tidy⟩
  have hb := (block_closed body hinside _ b h.ran).le
  have he := (blockEnd_closed (fun code hcode => (hfinal code hcode).more
    (List.subset_cons_self _ _)) List.mem_cons_self _ _ e h.ended).le
  have hbelow := hbelow.mono (t := ⟨s.labels + 3, s.slot⟩) (Nat.le_add_right _ 3)
  exact ⟨hbelow, hbelow.mono (Nat.le_trans hb he)⟩

/-- The handlers of a try statement cover its blocks without the exits. -/
theorem try_excludes (henv : env.Nested) (hbelow : env.Below s)
    (h : stmt env (.tryStmt line body catches final) s = .ok a)
    (hnodup : (marked (before ++ a.code.lines ++ after)).Nodup) :
    ∃ b e c f guarded all, TryExcludes env body catches final s before b e c f a guarded all := by
  obtain ⟨b, e, c, f, h⟩ := stmt_try_eq_ok h
  obtain ⟨hbelow₁, hbelow₂⟩ := h.below henv hbelow
  have hnew := hbelow.not_mem (Nat.le_refl s.labels)
  have hown := (block_spaced henv hbelow₁ hnew (by simp) h.ran).1.ascends ⟨s.labels⟩ ⟨s.labels⟩
    ⟨s.labels + 1⟩
  have hcaught := catchClauses_ascends henv hbelow₂ h.caught
  have hfirst : ∀ r ∈ ranges ⟨s.labels⟩ ⟨s.labels + 1⟩ (gapsOf ⟨s.labels⟩ b.gaps),
      r.2 ∈ marked (.mark ⟨s.labels⟩ :: (b.code.lines ++ [.mark ⟨s.labels + 1⟩])) := fun r hr =>
    hown.subset (mem_ends hr).2
  have hsecond : ∀ r ∈ c.value, r.1 ∈ marked c.code.lines ∧ r.2 ∈ marked c.code.lines :=
    fun r hr => ⟨hcaught.subset (mem_ends hr).1, hcaught.subset (mem_ends hr).2⟩
  rw [h.lines] at hnodup
  refine ⟨b, e, c, f, _, _, h, rfl, rfl, ?_, ?_, ?_, ?_, ?_, ?_, ?_⟩
  · have hlines : a.code.lines = .mark ⟨s.labels⟩ :: (b.code.lines ++ [.mark ⟨s.labels + 1⟩]) ++
        e.code.lines ++ (c.code.lines ++ (f.code.lines ++ [.mark ⟨s.labels + 2⟩])) := by
      simp [h.lines]
    rw [ends_append, hlines, marked_append, marked_append, marked_append c.code.lines]
    exact (hown.trans (List.sublist_append_left _ _)).append
      (hcaught.trans (List.sublist_append_left _ _))
  · have hnodup : (marked (before ++ [.mark ⟨s.labels⟩] ++ b.code.lines ++
        (.mark ⟨s.labels + 1⟩ :: e.code.lines ++ c.code.lines ++ f.code.lines ++
          [.mark ⟨s.labels + 2⟩] ++ after))).Nodup := by
      simpa using hnodup
    refine block_excludes henv hbelow₁ hnew (by simp) h.ran hnodup (by simp) (by simp)
      fun r hr => ?_
    refine (List.mem_append.1 hr).imp_right fun hr => .inr ?_
    simp [(hsecond r hr).1]
  · have hnodup : (marked (before ++ .mark ⟨s.labels⟩ :: b.code.lines ++ [.mark ⟨s.labels + 1⟩] ++
        e.code.lines ++ (c.code.lines ++ f.code.lines ++
          [.mark ⟨s.labels + 2⟩] ++ after))).Nodup := by
      simpa using hnodup
    refine uncovered_of_nodup hnodup fun r hr => ?_
    rcases List.mem_append.1 hr with hr | hr
    · exact .inl (mem_marked_mono (hfirst r hr) ⟨before, [], by simp⟩)
    · exact .inr (by simp [(hsecond r hr).1])
  · have hnodup : (marked (before ++ .mark ⟨s.labels⟩ :: b.code.lines ++ .mark ⟨s.labels + 1⟩ ::
        e.code.lines ++ c.code.lines ++ (f.code.lines ++
          [.mark ⟨s.labels + 2⟩] ++ after))).Nodup := by
      simpa using hnodup
    refine clauses_exclude henv hbelow₂ h.caught hnodup fun r hr => ?_
    refine (List.mem_append.1 hr).symm.imp_right fun hr => .inl ?_
    exact mem_marked_mono (hfirst r hr) ⟨before, e.code.lines, by simp⟩
  · have hnodup : (marked (before ++ .mark ⟨s.labels⟩ :: b.code.lines ++ .mark ⟨s.labels + 1⟩ ::
        e.code.lines ++ c.code.lines ++ f.code.lines ++
          ([.mark ⟨s.labels + 2⟩] ++ after))).Nodup := by
      simpa using hnodup
    refine uncovered_of_nodup hnodup fun r hr => .inl ?_
    rcases List.mem_append.1 hr with hr | hr
    · exact mem_marked_mono (hfirst r hr) ⟨before, e.code.lines ++ c.code.lines, by simp⟩
    · simp [(hsecond r hr).2]
  · rintro rfl
    obtain rfl := pure_eq_ok h.finished
    rfl
  · rintro last ⟨⟩
    exact finalHandler_eq_ok h.finished

end JMinusMinus.Lowering
