import JMinusMinus.Proofs.Equations
import JMinusMinus.Proofs.Labels.Basic

/-!
# How guarded blocks are put together

The lines and handlers of a try statement, of a handler and of the handler of a final block, from
the runs that make their parts. Labels are numbered from the supply at the start.
-/

namespace JMinusMinus.Lowering

open List

/-- The gaps of a guarded block among those that a step hands on. -/
def gapsOf (scope : Label) (gaps : List Gap) : List (Label × Label) :=
  (gaps.filter (·.scope = scope)).map fun g => (g.start, g.stop)

/-- The gaps of other blocks. -/
def gapsBeyond (scope : Label) (gaps : List Gap) : List Gap := gaps.filter (·.scope ≠ scope)

/-- A handler for each of some ranges. -/
def handlersOf (ranges : List (Label × Label)) (target : Label) (catches : Option String) :
    List Handler :=
  ranges.map fun r => ⟨r.1, r.2, target, catches⟩

/-- The handler of a final block, from the run `f` of the block. -/
structure FinalRun (ranges : List (Label × Label)) (final : Lowering Unit) (s : Supply)
    (store load f a : Emitted Unit) : Prop where
  stored : access .astore s.slot ⟨s.labels + 1, s.slot + 1⟩ = .ok store
  ran : final ⟨s.labels + 1, s.slot + 1⟩ = .ok f
  loaded : access .aload s.slot f.supply = .ok load
  lines : a.code.lines = .mark ⟨s.labels⟩ :: store.code.lines ++ f.code.lines ++
    load.code.lines ++ [.instr (.plain .athrow)]
  handlers : a.code.handlers = handlersOf ranges ⟨s.labels⟩ none ++ f.code.handlers
  gaps : a.gaps = f.gaps
  supply : a.supply = f.supply

/-- A handler, from the runs of its block and of what follows it. -/
structure CatchRun (env : Env) (final : Option (Lowering Unit)) (guarded : List (Label × Label))
    (done : Label) (param : Param) (body : Block Stmt) (s : Supply) (store b e : Emitted Unit)
    (a : Emitted (List (Label × Label))) : Prop where
  stored : ∃ slot, param.slot = some slot ∧
    access .astore slot ⟨s.labels + 1, s.slot⟩ = .ok store
  ran : block (env.inside (.guarded ⟨s.labels + 1⟩ final)) body ⟨s.labels + 3, s.slot⟩ = .ok b
  ended : blockEnd (Stmt.blockEndsAbruptly body) final done b.supply = .ok e
  lines : a.code.lines = .mark ⟨s.labels⟩ :: store.code.lines ++ .mark ⟨s.labels + 1⟩ ::
    b.code.lines ++ .mark ⟨s.labels + 2⟩ :: e.code.lines
  handlers : a.code.handlers = handlersOf guarded ⟨s.labels⟩ (some param.ty.internalName) ++
    b.code.handlers ++ e.code.handlers
  value : a.value = ranges ⟨s.labels + 1⟩ ⟨s.labels + 2⟩ (gapsOf ⟨s.labels + 1⟩ b.gaps)
  gaps : a.gaps = gapsBeyond ⟨s.labels + 1⟩ b.gaps ++ e.gaps
  supply : a.supply = e.supply

/-- A try statement, from the runs of its block, of what follows the block, of its handlers and of
the handler of its final block. -/
structure TryRun (env : Env) (body : Block Stmt) (catches : List (CatchClause Stmt))
    (final : Option (Block Stmt)) (s : Supply) (b e : Emitted Unit)
    (c : Emitted (List (Label × Label))) (f a : Emitted Unit) : Prop where
  ran : block (env.inside (.guarded ⟨s.labels⟩ (finalBlock env final))) body
    ⟨s.labels + 3, s.slot⟩ = .ok b
  ended : blockEnd (Stmt.blockEndsAbruptly body) (finalBlock env final) ⟨s.labels + 2⟩
    b.supply = .ok e
  caught : catchClauses env (finalBlock env final)
    (ranges ⟨s.labels⟩ ⟨s.labels + 1⟩ (gapsOf ⟨s.labels⟩ b.gaps)) ⟨s.labels + 2⟩ catches
    e.supply = .ok c
  finished :
    finalHandler? (ranges ⟨s.labels⟩ ⟨s.labels + 1⟩ (gapsOf ⟨s.labels⟩ b.gaps) ++ c.value)
      (finalBlock env final) c.supply = .ok f
  lines : a.code.lines = .mark ⟨s.labels⟩ :: b.code.lines ++ .mark ⟨s.labels + 1⟩ ::
    e.code.lines ++ c.code.lines ++ f.code.lines ++ [.mark ⟨s.labels + 2⟩]
  handlers : a.code.handlers =
    b.code.handlers ++ e.code.handlers ++ c.code.handlers ++ f.code.handlers
  gaps : a.gaps = gapsBeyond ⟨s.labels⟩ b.gaps ++ e.gaps ++ c.gaps ++ f.gaps
  supply : a.supply = f.supply

variable {env : Env} {s : Supply}

/-! ## Runs -/

theorem finalHandler_eq_ok {ranges : List (Label × Label)} {final : Lowering Unit}
    {a : Emitted Unit} (h : finalHandler ranges final s = .ok a) :
    ∃ store load f, FinalRun ranges final s store load f a := by
  rw [finalHandler, newLabel_bind] at h
  obtain ⟨a₁, h₁, rfl⟩ := emit_bind_eq_ok h
  obtain ⟨a₂, h₂, rfl⟩ := emit_bind_eq_ok h₁
  obtain ⟨-, h₃⟩ := newSlot_bind_eq_ok h₂
  obtain ⟨store, a₃, hstore, h₄, hnone, rfl⟩ := access_bind_eq_ok h₃
  obtain ⟨f, a₄, hf, h₅, rfl⟩ := bind_eq_ok h₄
  obtain ⟨load, a₅, hload, h₆, hnone', rfl⟩ := access_bind_eq_ok h₅
  cases h₆
  refine ⟨store, load, f, hstore, hf, hload, ?_, ?_, ?_, rfl⟩
  all_goals
    simp [Fragment.append_def, Fragment.mark, Fragment.instr, handlersOf, hnone, hnone']

theorem catchClause_eq_ok (h : catchClause env final guarded done ⟨line, param, body⟩ s = .ok a) :
    ∃ store b e, CatchRun env final guarded done param body s store b e a := by
  cases hslot : param.slot with
  | none =>
    simp only [catchClause, hslot, newLabel_bind] at h
    obtain ⟨a₁, h₁, -⟩ := emit_bind_eq_ok h
    obtain ⟨a₂, h₂, -⟩ := emit_bind_eq_ok h₁
    obtain ⟨_, _, hfail, -, -⟩ := bind_eq_ok h₂
    cases hfail
  | some slot =>
    rw [catchClause_eq hslot, newLabel_bind] at h
    obtain ⟨a₁, h₁, rfl⟩ := emit_bind_eq_ok h
    obtain ⟨a₂, h₂, rfl⟩ := emit_bind_eq_ok h₁
    obtain ⟨store, a₃, hstore, h₃, hnone, rfl⟩ := access_bind_eq_ok h₂
    rw [newLabel_bind, newLabel_bind] at h₃
    obtain ⟨a₄, h₄, rfl⟩ := emit_bind_eq_ok h₃
    obtain ⟨_, a₅, hgaps, h₅, rfl⟩ := bind_eq_ok h₄
    obtain ⟨b, hb, rfl⟩ := takeGaps_eq_ok hgaps
    obtain ⟨a₆, h₆, rfl⟩ := emit_bind_eq_ok h₅
    obtain ⟨e, a₇, he, h₇, rfl⟩ := bind_eq_ok h₆
    obtain rfl := pure_eq_ok h₇
    refine ⟨store, b, e, ⟨slot, hslot, hstore⟩, hb, he, ?_, ?_, rfl, ?_, rfl⟩
    all_goals
      simp [Fragment.append_def, Fragment.mark, handlersOf, gapsBeyond, hnone]

theorem stmt_try_eq_ok (h : stmt env (.tryStmt line body catches final) s = .ok a) :
    ∃ b e c f, TryRun env body catches final s b e c f a := by
  rw [stmt_try, newLabel_bind, newLabel_bind, newLabel_bind] at h
  obtain ⟨a₁, h₁, rfl⟩ := emit_bind_eq_ok h
  obtain ⟨_, a₂, hgaps, h₂, rfl⟩ := bind_eq_ok h₁
  obtain ⟨b, hb, rfl⟩ := takeGaps_eq_ok hgaps
  obtain ⟨a₃, h₃, rfl⟩ := emit_bind_eq_ok h₂
  obtain ⟨e, a₄, he, h₄, rfl⟩ := bind_eq_ok h₃
  obtain ⟨c, a₅, hc, h₅, rfl⟩ := bind_eq_ok h₄
  obtain ⟨f, a₆, hf, h₆, rfl⟩ := bind_eq_ok h₅
  cases h₆
  refine ⟨b, e, c, f, hb, he, hc, hf, ?_, ?_, ?_, rfl⟩
  all_goals simp [Fragment.append_def, Fragment.mark, gapsBeyond]

/-! ## Ranges -/

theorem mem_ranges (h : r ∈ ranges start stop gaps) :
    (r.1 = start ∨ ∃ g ∈ gaps, r.1 = g.2) ∧ (r.2 = stop ∨ ∃ g ∈ gaps, r.2 = g.1) := by
  induction gaps generalizing start with
  | nil =>
    obtain rfl := mem_singleton.1 h
    exact ⟨.inl rfl, .inl rfl⟩
  | cons g gaps ih =>
    rcases mem_cons.1 h with rfl | h
    · exact ⟨.inl rfl, .inr ⟨g, by simp, rfl⟩⟩
    · obtain ⟨hstart, hstop⟩ := ih h
      refine ⟨.inr ?_, hstop.imp_right ?_⟩
      · rcases hstart with h | ⟨g', hg', h⟩
        · exact ⟨g, by simp, h⟩
        · exact ⟨g', by simp [hg'], h⟩
      · rintro ⟨g', hg', h⟩
        exact ⟨g', by simp [hg'], h⟩

theorem mem_marked_of_mem_ranges
    (hgaps : ∀ g ∈ gaps, g.start ∈ marked lines ∧ g.stop ∈ marked lines)
    (hstart : start ∈ marked lines) (hstop : stop ∈ marked lines)
    (h : r ∈ ranges start stop (gapsOf scope gaps)) : r.1 ∈ marked lines ∧ r.2 ∈ marked lines := by
  have hgap : ∀ p ∈ gapsOf scope gaps, p.1 ∈ marked lines ∧ p.2 ∈ marked lines := by
    intro p hp
    obtain ⟨g, hg, rfl⟩ := mem_map.1 hp
    exact hgaps g (mem_filter.1 hg).1
  obtain ⟨h₁, h₂⟩ := mem_ranges h
  constructor
  · rcases h₁ with h | ⟨p, hp, h⟩
    · rw [h]
      exact hstart
    · rw [h]
      exact (hgap p hp).2
  · rcases h₂ with h | ⟨p, hp, h⟩
    · rw [h]
      exact hstop
    · rw [h]
      exact (hgap p hp).1

/-! ## Labels of handlers -/

/-- What was made for handlers: it guards its own lines, or ranges that it is given. -/
structure GuardTidy {α : Type} (known : List Label) (guarded : List (Label × Label)) (s : Supply)
    (a : Emitted α) : Prop extends a.Marking known [] s [] where
  handlers : ∀ h ∈ a.code.handlers, h.Within a.code.lines ∨
    (h.start, h.stop) ∈ guarded ∧ h.target.Lands a.code.lines

variable {known : List Label}

theorem created_cons (h : first < last) :
    created first last = ⟨first⟩ :: created (first + 1) last := by
  rw [← created_append (Nat.le_succ first) h, created_succ]
  rfl

theorem Closed.guardTidy {α : Type} {guarded : List (Label × Label)} {x : Lowering α}
    (hx : Closed known x) {a : Emitted α} (h : x s = .ok a) : GuardTidy known guarded s a :=
  ⟨(hx s a h).toMarking, fun g hg => .inl ((hx s a h).handlers g hg)⟩

theorem mem_handlersOf {ranges : List (Label × Label)} {target : Label} {catches : Option String}
    {h : Handler} (hh : h ∈ handlersOf ranges target catches) :
    (h.start, h.stop) ∈ ranges ∧ h.target = target := by
  obtain ⟨r, hr, rfl⟩ := mem_map.1 hh
  exact ⟨hr, rfl⟩

theorem FinalRun.guardTidy {ranges : List (Label × Label)} {final : Lowering Unit}
    {store load f a : Emitted Unit} (h : FinalRun ranges final s store load f a)
    (hfinal : Closed known final) : GuardTidy known ranges s a := by
  have hf := hfinal _ f h.ran
  obtain ⟨i, n, hi, rfl⟩ := access_eq_ok h.stored
  obtain ⟨j, n', hj, rfl⟩ := access_eq_ok h.loaded
  have hle : s.labels + 1 ≤ f.supply.labels := hf.le
  have hmarks := hf.marks_perm
  have hlines := h.lines
  simp only [cons_append, nil_append, append_assoc] at hlines
  refine ⟨⟨?_, ?_, ?_, ?_⟩, ?_⟩
  · rw [h.supply]
    omega
  · rw [h.supply, created_cons hle, hlines]
    simpa using hmarks
  · intro k hk l hl
    rw [h.supply, created_cons hle]
    rw [hlines] at hk
    simp only [mem_cons, mem_append, reduceCtorEq, Line.instr.injEq, false_or,
      not_mem_nil, or_false] at hk
    rcases hk with rfl | hk | rfl | rfl
    · simp [hi] at hl
    · rcases hf.jumps k hk l hl with h | h | h
      · exact .inl h
      · cases h
      · exact .inr (.inr (mem_cons_of_mem _ h))
    · simp [hj] at hl
    · cases hl
  · intro g hg
    rw [h.gaps] at hg
    rw [hlines]
    have := hf.gaps g hg
    simp [this]
  · intro g hg
    rw [h.handlers, mem_append] at hg
    rcases hg with hg | hg
    · obtain ⟨hrange, htarget⟩ := mem_handlersOf hg
      refine .inr ⟨hrange, ?_⟩
      rw [htarget, hlines]
      exact ⟨[], i, _, rfl⟩
    · refine .inl ?_
      have := (hf.handlers g hg).append [.mark ⟨s.labels⟩, .instr i]
        [.instr j, .instr (.plain .athrow)]
      rw [hlines]
      simpa using this

theorem CatchRun.guardTidy (h : CatchRun env final guarded done param body s store b e a)
    (hb : b.Tidy known [] ⟨s.labels + 3, s.slot⟩ []) (he : e.Tidy known [] b.supply []) :
    GuardTidy known guarded s a ∧
      ∀ r ∈ a.value, r.1 ∈ marked a.code.lines ∧ r.2 ∈ marked a.code.lines := by
  obtain ⟨slot, -, hstore⟩ := h.stored
  obtain ⟨i, n, hi, rfl⟩ := access_eq_ok hstore
  have hble : s.labels + 3 ≤ b.supply.labels := hb.le
  have hcreated : created s.labels e.supply.labels = ⟨s.labels⟩ :: ⟨s.labels + 1⟩ ::
      ⟨s.labels + 2⟩ :: (created (s.labels + 3) b.supply.labels ++
        created b.supply.labels e.supply.labels) := by
    have := he.le
    rw [created_append hble he.le, created_cons (by omega), created_cons (by omega),
      created_cons (by omega)]
  have hbmarks := hb.marks_perm
  have hemarks := he.marks_perm
  have hlines := h.lines
  simp only [cons_append, nil_append] at hlines
  refine ⟨⟨⟨?_, ?_, ?_, ?_⟩, ?_⟩, ?_⟩
  · have := he.le
    rw [h.supply]
    omega
  · rw [h.supply, hcreated, hlines]
    simp only [marked_cons_mark, marked_cons_instr, marked_append, append_nil, nil_append]
    exact ((perm_middle.trans ((hbmarks.append hemarks).cons _)).cons _).cons _
  · intro j hj l hl
    rw [h.supply, hcreated]
    rw [hlines] at hj
    simp only [mem_cons, mem_append, reduceCtorEq, Line.instr.injEq, false_or] at hj
    rcases hj with rfl | hj | hj
    · simp [hi] at hl
    · rcases hb.jumps j hj l hl with h | h | h
      · exact .inl h
      · cases h
      · exact .inr (.inr (by simp [h]))
    · rcases he.jumps j hj l hl with h | h | h
      · exact .inl h
      · cases h
      · exact .inr (.inr (by simp [h]))
  · intro g hg
    rw [h.gaps, mem_append] at hg
    rw [hlines]
    rcases hg with hg | hg
    · simp [hb.gaps g (mem_filter.1 hg).1]
    · simp [he.gaps g hg]
  · intro g hg
    rw [h.handlers, mem_append, mem_append] at hg
    rw [hlines]
    rcases hg with (hg | hg) | hg
    · obtain ⟨hrange, htarget⟩ := mem_handlersOf hg
      refine .inr ⟨hrange, ?_⟩
      rw [htarget]
      exact ⟨[], i, _, rfl⟩
    · have := (hb.handlers g hg).append [.mark ⟨s.labels⟩, .instr i, .mark ⟨s.labels + 1⟩]
        (.mark ⟨s.labels + 2⟩ :: e.code.lines)
      exact .inl (by simpa using this)
    · have := (he.handlers g hg).append_left
        (.mark ⟨s.labels⟩ :: .instr i :: .mark ⟨s.labels + 1⟩ ::
          (b.code.lines ++ [.mark ⟨s.labels + 2⟩]))
      exact .inl (by simpa using this)
  · intro r hr
    rw [h.value] at hr
    refine mem_marked_of_mem_ranges (fun g hg => ?_) ?_ ?_ hr
    · rw [hlines]
      simp [hb.gaps g hg]
    · simp [hlines]
    · simp [hlines]

theorem GuardTidy.bind {α β γ : Type} {guarded : List (Label × Label)} {a : Emitted α}
    {b : Emitted β} (ha : GuardTidy known guarded s a) (hb : GuardTidy known guarded a.supply b)
    (value : γ) :
    GuardTidy known guarded s ⟨value, a.code ++ b.code, a.gaps ++ b.gaps, b.supply⟩ := by
  have hmarking := ha.toMarking.bind hb.toMarking
  refine ⟨⟨hmarking.le, hmarking.marks, hmarking.jumps, hmarking.gaps⟩, ?_⟩
  intro h hh
  rw [show (a.code ++ b.code).lines = a.code.lines ++ b.code.lines from rfl]
  rcases mem_append.1 hh with hh | hh
  · rcases ha.handlers h hh with hh | ⟨hrange, htarget⟩
    · exact .inl (hh.append_right _)
    · exact .inr ⟨hrange, by simpa using htarget.append [] b.code.lines⟩
  · rcases hb.handlers h hh with hh | ⟨hrange, htarget⟩
    · exact .inl (hh.append_left _)
    · exact .inr ⟨hrange, by simpa using htarget.append a.code.lines []⟩

/-- The code of a try statement is tidy if its parts are. -/
theorem TryRun.tidy (h : TryRun env body catches final s b e c f a)
    (hb : b.Tidy (⟨s.labels + 2⟩ :: known) [] ⟨s.labels + 3, s.slot⟩ [])
    (he : e.Tidy (⟨s.labels + 2⟩ :: known) [] b.supply [])
    (hc : GuardTidy (⟨s.labels + 2⟩ :: known)
      (ranges ⟨s.labels⟩ ⟨s.labels + 1⟩ (gapsOf ⟨s.labels⟩ b.gaps)) e.supply c)
    (hvalue : ∀ r ∈ c.value, r.1 ∈ marked c.code.lines ∧ r.2 ∈ marked c.code.lines)
    (hf : GuardTidy (⟨s.labels + 2⟩ :: known)
      (ranges ⟨s.labels⟩ ⟨s.labels + 1⟩ (gapsOf ⟨s.labels⟩ b.gaps) ++ c.value) c.supply f) :
    a.Tidy known [] s [] := by
  have hble : s.labels + 3 ≤ b.supply.labels := hb.le
  have hele := he.le
  have hcle := hc.le
  have hfle := hf.le
  have hcreated : created s.labels f.supply.labels = ⟨s.labels⟩ :: ⟨s.labels + 1⟩ ::
      ⟨s.labels + 2⟩ :: (created (s.labels + 3) b.supply.labels ++
        (created b.supply.labels e.supply.labels ++ (created e.supply.labels c.supply.labels ++
          created c.supply.labels f.supply.labels))) := by
    rw [created_append hcle hfle, created_append hele (by omega), created_append hble (by omega),
      created_cons (by omega), created_cons (by omega), created_cons (by omega)]
  have hbmarks := hb.marks_perm
  have hemarks := he.marks_perm
  have hcmarks := hc.marks_perm
  have hfmarks := hf.marks_perm
  have hlines := h.lines
  simp only [cons_append, append_assoc] at hlines
  -- The labels of the ranges are marked in the statement, and so are those of handlers.
  have hranges : ∀ r ∈ ranges ⟨s.labels⟩ ⟨s.labels + 1⟩ (gapsOf ⟨s.labels⟩ b.gaps),
      r.1 ∈ marked a.code.lines ∧ r.2 ∈ marked a.code.lines := by
    intro r hr
    refine mem_marked_of_mem_ranges (fun g hg => ?_) ?_ ?_ hr
    · rw [hlines]
      simp [hb.gaps g hg]
    · simp [hlines]
    · simp [hlines]
  have hwithin : ∀ g : Handler, g.start ∈ marked a.code.lines → g.stop ∈ marked a.code.lines →
      g.target.Lands a.code.lines → g.Within a.code.lines := by
    intro g hstart hstop htarget
    refine ⟨[], ⟨s.labels⟩, _, [], by rw [hlines, nil_append, append_nil], ?_⟩
    rw [← hlines]
    exact ⟨hstart, hstop, htarget⟩
  refine ⟨⟨?_, ?_, ?_, ?_⟩, ?_⟩
  · rw [h.supply]
    omega
  · rw [h.supply, hcreated, hlines]
    simp only [marked_cons_mark, marked_append, marked_nil, append_nil, nil_append]
    have hdone := perm_append_singleton (⟨s.labels + 2⟩ : Label) (marked b.code.lines ++
      (marked e.code.lines ++ (marked c.code.lines ++ marked f.code.lines)))
    simp only [append_assoc] at hdone
    have hrest := hbmarks.append (hemarks.append (hcmarks.append hfmarks))
    exact (perm_middle.trans ((hdone.trans (hrest.cons _)).cons _)).cons _
  · intro j hj l hl
    rw [h.supply, hcreated]
    rw [hlines] at hj
    simp only [mem_cons, mem_append, reduceCtorEq, false_or, not_mem_nil, or_false] at hj
    have hstep : ∀ {n m : Nat}, (l ∈ (⟨s.labels + 2⟩ : Label) :: known ∨ l ∈ ([] : List Label) ∨
        l ∈ created n m) → l ∈ known ∨ l = ⟨s.labels + 2⟩ ∨ l ∈ created n m := by
      intro n m h
      simp only [mem_cons, not_mem_nil, false_or] at h
      rcases h with (h | h) | h
      · exact .inr (.inl h)
      · exact .inl h
      · exact .inr (.inr h)
    rcases hj with hj | hj | hj | hj
    · rcases hstep (hb.jumps j hj l hl) with h | h | h <;> simp [h]
    · rcases hstep (he.jumps j hj l hl) with h | h | h <;> simp [h]
    · rcases hstep (hc.jumps j hj l hl) with h | h | h <;> simp [h]
    · rcases hstep (hf.jumps j hj l hl) with h | h | h <;> simp [h]
  · intro g hg
    rw [h.gaps] at hg
    simp only [mem_append] at hg
    rw [hlines]
    rcases hg with ((hg | hg) | hg) | hg
    · simp [hb.gaps g (mem_filter.1 hg).1]
    · simp [he.gaps g hg]
    · simp [hc.gaps g hg]
    · simp [hf.gaps g hg]
  · intro g hg
    rw [h.handlers] at hg
    simp only [mem_append] at hg
    have hpart : ∀ {before part after : List Line}, a.code.lines = before ++ part ++ after →
        g.Within part → g.Within a.code.lines := by
      intro before part after heq hpart
      rw [heq]
      exact hpart.append before after
    have hlands : ∀ {before part after : List Line}, a.code.lines = before ++ part ++ after →
        g.target.Lands part → g.target.Lands a.code.lines := by
      intro before part after heq hpart
      rw [heq]
      exact hpart.append before after
    have hlinesB : a.code.lines = [.mark ⟨s.labels⟩] ++ b.code.lines ++
        (.mark ⟨s.labels + 1⟩ :: e.code.lines ++ c.code.lines ++ f.code.lines ++
          [.mark ⟨s.labels + 2⟩]) := by
      simp [hlines]
    have hlinesE : a.code.lines = .mark ⟨s.labels⟩ :: b.code.lines ++ [.mark ⟨s.labels + 1⟩] ++
        e.code.lines ++ (c.code.lines ++ f.code.lines ++ [.mark ⟨s.labels + 2⟩]) := by
      simp [hlines]
    have hlinesC : a.code.lines = .mark ⟨s.labels⟩ :: b.code.lines ++ .mark ⟨s.labels + 1⟩ ::
        e.code.lines ++ c.code.lines ++ (f.code.lines ++ [.mark ⟨s.labels + 2⟩]) := by
      simp [hlines]
    rcases hg with ((hg | hg) | hg) | hg
    · exact hpart hlinesB (hb.handlers g hg)
    · exact hpart hlinesE (he.handlers g hg)
    · rcases hc.handlers g hg with hg | ⟨hg, htarget⟩
      · exact hpart hlinesC hg
      · exact hwithin g (hranges _ hg).1 (hranges _ hg).2 (hlands hlinesC htarget)
    · rcases hf.handlers g hg with hg | ⟨hg, htarget⟩
      · exact hpart h.lines hg
      · refine hwithin g ?_ ?_ (hlands h.lines htarget)
        all_goals
          rcases mem_append.1 hg with hg | hg
          · first | exact (hranges _ hg).1 | exact (hranges _ hg).2
          · rw [hlines]
            have := hvalue _ hg
            simp [this]

end JMinusMinus.Lowering
