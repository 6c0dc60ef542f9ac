import JMinusMinus.Proofs.Labels.Stmt

/-!
# Gaps of a step

A step of lowering hands on gaps, which are ranges between labels of its lines. The gaps of one
guarded block follow each other (`Spaced`). A gap is the code of a jump out of its block, from
where the block is left: a copy of the final block, the rest of the way out, and the jump itself
(`IsExit`).

The code of a final block is made from a supply each time. A step asks for a copy from a supply if
it could not be made without it. So a step is looked at beside a twin, which has all copies but
one: both make the same, or the copy is asked for and stands in a gap (`Orderly`).

A step also makes code of the statements it is made for. Such a statement may have code at many
places, if it stands in a final block (`Emission`).
-/

namespace JMinusMinus.Lowering

open List

/-- The guarded blocks around a step, each by the label of its start and with the code of its final
block. -/
abbrev Blocks := List (Label × Option (Lowering Unit))

variable {α β : Type} {around : Blocks} {s : Supply}

/-! ## Gaps -/

/-- The last step of a way out. -/
inductive IsJump : Lowering Unit → Prop
  | goto (l : Label) : IsJump (branch .goto l)
  | finish : IsJump (op .return_)
  | result (t : Ty) (slot : Nat) : IsJump (do
      access (loadOp t) slot
      op (returnOp t))

/-- Lines on the way out of a guarded block up to the jump: a copy of its final block, and those of
the blocks that are left after it. -/
def Unwinds (final : Option (Lowering Unit)) (t : Supply) (way : List Line) : Prop :=
  ∃ s f es u, final.getD (pure ()) s = .ok f ∧ Exit.unwind es f.supply = .ok u ∧ u.supply = t ∧
    way = f.code.lines ++ u.code.lines

/-- A range of the lines that is a jump out of a guarded block, from where the block is left. -/
def IsExit (final : Option (Lowering Unit)) (g : Label × Label) (lines : List Line) : Prop :=
  ∃ way t jump j, Unwinds final t way ∧ IsJump jump ∧ jump t = .ok j ∧
    .mark g.1 :: way ++ j.code.lines ++ [.mark g.2] <:+: lines

/-- The labels at the ends of ranges. -/
def ends (ranges : List (Label × Label)) : List Label := ranges.flatMap fun r => [r.1, r.2]

@[simp] theorem ends_append (rs rs' : List (Label × Label)) :
    ends (rs ++ rs') = ends rs ++ ends rs' :=
  flatMap_append

theorem ends_sublist {rs : List (Label × Label)} (h : rs.Sublist rs') :
    (ends rs).Sublist (ends rs') := by
  induction h with
  | slnil => exact .slnil
  | cons r _ ih => exact (ih.cons r.2).cons r.1
  | cons_cons r _ ih => exact (ih.cons_cons r.2).cons_cons r.1

@[simp] theorem gapsOf_append (scope : Label) (gaps gaps' : List Gap) :
    gapsOf scope (gaps ++ gaps') = gapsOf scope gaps ++ gapsOf scope gaps' := by
  simp [gapsOf]

/-- The gaps of emitted code are exits of blocks around it. -/
structure Spaced (around : Blocks) (s : Supply) (a : Emitted α) : Prop where
  labels : s.labels ≤ a.supply.labels
  gaps : ∀ g ∈ a.gaps, ∃ final, (g.scope, final) ∈ around ∧
    IsExit final (g.start, g.stop) a.code.lines
  ordered : ∀ scope, (ends (gapsOf scope a.gaps)).Sublist (marked a.code.lines)

theorem IsExit.mono (h : IsExit final g lines) (hmore : lines <:+: more) : IsExit final g more := by
  obtain ⟨way, t, jump, j, hway, hjump, hj, hlines⟩ := h
  exact ⟨way, t, jump, j, hway, hjump, hj, hlines.trans hmore⟩

theorem Spaced.bind {γ : Type} {a : Emitted α} {b : Emitted β} (ha : Spaced around s a)
    (hb : Spaced around a.supply b) {c : Emitted γ}
    (hlines : c.code.lines = a.code.lines ++ b.code.lines) (hgaps : c.gaps = a.gaps ++ b.gaps)
    (hsupply : c.supply = b.supply) : Spaced around s c := by
  refine ⟨hsupply ▸ Nat.le_trans ha.labels hb.labels, ?_, ?_⟩
  · intro g hg
    rw [hlines]
    rcases mem_append.1 (hgaps ▸ hg) with hg | hg
    · obtain ⟨final, hmem, hexit⟩ := ha.gaps g hg
      exact ⟨final, hmem, hexit.mono (prefix_append _ _).isInfix⟩
    · obtain ⟨final, hmem, hexit⟩ := hb.gaps g hg
      exact ⟨final, hmem, hexit.mono (suffix_append _ _).isInfix⟩
  · intro scope
    simpa [hlines, hgaps] using (ha.ordered scope).append (hb.ordered scope)

theorem Spaced.more {a : Emitted α} {more : Blocks} (h : Spaced around s a)
    (hmore : around ⊆ more) : Spaced more s a := by
  refine ⟨h.labels, fun g hg => ?_, h.ordered⟩
  obtain ⟨final, hmem, hexit⟩ := h.gaps g hg
  exact ⟨final, hmore hmem, hexit⟩

theorem Spaced.gapsOf_eq_nil (h : Spaced around s a) (hscope : scope ∉ around.map (·.1)) :
    gapsOf scope a.gaps = [] := by
  simp only [gapsOf, map_eq_nil_iff, filter_eq_nil_iff, decide_eq_true_eq]
  rintro g hg rfl
  obtain ⟨final, hmem, -⟩ := h.gaps g hg
  exact hscope (mem_map_of_mem hmem)

theorem Spaced.beyond (h : Spaced ((scope, final) :: around) s a) {b : Emitted β}
    (hcode : b.code = a.code) (hgaps : b.gaps = gapsBeyond scope a.gaps)
    (hsupply : b.supply = a.supply) : Spaced around s b := by
  refine ⟨hsupply ▸ h.labels, fun g hg => ?_, fun scope' => ?_⟩
  · obtain ⟨hg, hne⟩ := mem_filter.1 (hgaps ▸ hg)
    obtain ⟨final', hmem, hexit⟩ := h.gaps g hg
    have hne : g.scope ≠ scope := by simpa using hne
    have hother : (g.scope, final') ≠ (scope, final) := fun heq => hne (congrArg Prod.fst heq)
    exact ⟨final', (mem_cons.1 hmem).resolve_left hother, hcode ▸ hexit⟩
  · have hsub : ((gapsBeyond scope a.gaps).filter (·.scope = scope')).Sublist
        (a.gaps.filter (·.scope = scope')) := filter_sublist.filter _
    rw [hgaps, hcode]
    exact (ends_sublist (hsub.map _)).trans (h.ordered scope')

/-! ## Steps without gaps -/

/-- A step that hands on no gaps. -/
def Quiet (x : Lowering α) : Prop :=
  ∀ s a, x s = .ok a → s.labels ≤ a.supply.labels ∧ a.gaps = []

namespace Quiet

variable {x : Lowering α}

theorem bind {f : α → Lowering β} (hx : Quiet x) (hf : ∀ a, Quiet (f a)) : Quiet (x >>= f) := by
  intro s c h
  obtain ⟨a, b, ha, hb, rfl⟩ := bind_eq_ok h
  obtain ⟨hle, hnone⟩ := hx s a ha
  obtain ⟨hle', hnone'⟩ := hf a.value a.supply b hb
  exact ⟨Nat.le_trans hle hle', by simp [hnone, hnone']⟩

theorem pure {v : α} : Quiet (pure v) := by
  rintro s _ ⟨⟩
  exact ⟨Nat.le_refl _, rfl⟩

theorem ite {c : Prop} [Decidable c] (hx : Quiet x) (hy : Quiet y) :
    Quiet (if c then x else y) := by
  split
  · exact hx
  · exact hy

end Quiet

theorem failWith_quiet : Quiet (failWith f : Lowering α) := nofun

theorem newLabel_quiet : Quiet newLabel := by
  rintro s _ ⟨⟩
  exact ⟨Nat.le_succ _, rfl⟩

theorem emit_quiet (code : Fragment) : Quiet (emit code) := by
  rintro s _ ⟨⟩
  exact ⟨Nat.le_refl _, rfl⟩

theorem ofExcept_quiet : Quiet (ofExcept e) := by
  cases e with
  | ok a => exact .pure
  | error f => exact failWith_quiet

theorem mark_quiet (l : Label) : Quiet (mark l) := emit_quiet _

theorem instr_quiet (i : Instruction) : Quiet (instr i) := emit_quiet _

theorem guard_quiet (ranges : List (Label × Label)) (target : Label) (catches : Option String) :
    Quiet (guard ranges target catches) :=
  emit_quiet _

theorem access_quiet (o : Opcode) (slot : Nat) : Quiet (access o slot) :=
  ofExcept_quiet.bind emit_quiet

theorem stepLocal_quiet (slot : Nat) (delta : Int) : Quiet (stepLocal slot delta) :=
  ofExcept_quiet.bind emit_quiet

theorem newSlot_quiet (t : Ty) : Quiet (newSlot t) := by
  intro s a h
  unfold newSlot at h
  split at h
  · cases h
    exact ⟨Nat.le_refl _, rfl⟩
  · cases h

theorem forM_quiet {f : α → Lowering Unit} (hf : ∀ x, Quiet (f x)) :
    ∀ xs : List α, Quiet (xs.forM f)
  | [] => .pure
  | x :: xs => (hf x).bind fun _ => forM_quiet hf xs

theorem Built.quiet (h : Built T known x) : Quiet x := by
  induction h with
  | pure => exact .pure
  | bind _ _ hx hf => exact hx.bind hf
  | failWith => exact failWith_quiet
  | instr => exact instr_quiet _
  | access => exact access_quiet _ _
  | stepLocal => exact stepLocal_quiet _ _
  | skip _ hx => exact newLabel_quiet.bind fun l => (hx l).bind fun _ => mark_quiet l
  | choice _ _ hx hy =>
    refine newLabel_quiet.bind fun l => newLabel_quiet.bind fun l' => ?_
    refine (hx l l').bind fun _ => (mark_quiet l).bind fun _ => ?_
    exact (hy l l').bind fun _ => mark_quiet l'

theorem IsJump.quiet (h : IsJump jump) : Quiet jump := by
  cases h with
  | goto l => exact instr_quiet _
  | finish => exact instr_quiet _
  | result t slot => exact (access_quiet _ _).bind fun _ => instr_quiet _

theorem expr_quiet (h : Hierarchy) (use : Use) (e : Expr) : Quiet (expr h use e) := by
  have hnamed : Named (fun _ => True) e := by
    intro x _
    cases x <;> simp [NodeNamed]
  obtain ⟨known, haims⟩ := use.exists_aims
  exact (expr_built_of_named (h := h) hnamed known use haims False.elim).quiet

theorem initial_quiet (h : Hierarchy) (d : Declarator) : Quiet (initial h d) := by
  unfold initial
  split
  · exact (expr_quiet _ _ _).bind fun _ => access_quiet _ _
  · exact .pure

theorem test?_quiet (h : Hierarchy) (target : Label) (test : Option Expr) :
    Quiet (test? h target test) := by
  cases test with
  | none => exact .pure
  | some e => exact expr_quiet _ _ e

theorem fieldInit_quiet (h : Hierarchy) (f : FieldInit) : Quiet (fieldInit h f) := by
  refine .ite ((expr_quiet _ _ _).bind fun _ => instr_quiet _) ?_
  exact (access_quiet _ _).bind fun _ => (expr_quiet _ _ _).bind fun _ => instr_quiet _

/-! ## Statements in the code -/

/-- The guarded blocks around, with their final blocks. -/
def Exit.blocks : List Exit → Blocks
  | [] => []
  | guarded scope final :: es => (scope, final) :: blocks es
  | loop _ _ :: es | switch _ :: es => blocks es

/-- Exits from statements around a statement. A final block is code of a block at the exits around
its own statement. -/
inductive Exit.Nested (h : Hierarchy) (result : Ty) : List Exit → Prop
  | nil : Nested h result []
  | loop (stop next : Label) {es : List Exit} : Nested h result es →
      Nested h result (.loop stop next :: es)
  | switch (stop : Label) {es : List Exit} : Nested h result es →
      Nested h result (.switch stop :: es)
  | guarded {scope : Label} (final : Option (Block Stmt)) {es : List Exit} : Nested h result es →
      scope ∉ (Exit.blocks es).map (·.1) →
      Nested h result (.guarded scope (finalBlock ⟨h, result, es⟩ final) :: es)

/-- Surroundings from statements around a statement. -/
def Env.Nested (env : Env) : Prop := Exit.Nested env.hierarchy env.result env.exits

/-- The labels of the blocks around are older than all that are still to be made. -/
def Env.Below (env : Env) (s : Supply) : Prop := ∀ b ∈ Exit.blocks env.exits, b.1.id < s.labels

/-- A statement whose code stands between other lines, with statements around it. -/
structure Emission (made : Fragment) (env : Env) (t : Stmt) (s : Supply) (before : List Line)
    (a : Emitted Unit) (after : List Line) : Prop where
  nested : env.Nested
  below : env.Below s
  ran : stmt env t s = .ok a
  lines : made.lines = before ++ a.code.lines ++ after
  handlers : a.code.handlers <:+: made.handlers

/-- A statement that has code somewhere. -/
def Emits (made : Fragment) (t : Stmt) : Prop :=
  ∃ env s before a after, Emission made env t s before a after

theorem Emits.mono {more : Fragment} (h : Emits made t) (hlines : made.lines <:+: more.lines)
    (hhandlers : made.handlers <:+: more.handlers) : Emits more t := by
  obtain ⟨env, s, before, a, after, hnested, hbelow, hran, hmade, hown⟩ := h
  obtain ⟨front, back, hmore⟩ := hlines
  refine ⟨env, s, front ++ before, a, after ++ back, hnested, hbelow, hran, ?_,
    hown.trans hhandlers⟩
  simp [← hmore, hmade]

/-! ## Twins -/

/-- A run that makes the same as another, or fails since something was asked for. -/
def Twin (x : Lowering α) (s : Supply) (a : Emitted α) (asked : Prop) : Prop :=
  x s = .ok a ∨ (∃ e, x s = .error e) ∧ asked

theorem Twin.bind {x : Lowering α} {f : α → Lowering β} {a : Emitted α} {b : Emitted β}
    {asked asked' asked'' : Prop} (hx : Twin x s a asked)
    (hf : Twin (f a.value) a.supply b asked') (h : asked → asked'') (h' : asked' → asked'') :
    Twin (x >>= f) s ⟨b.value, a.code ++ b.code, a.gaps ++ b.gaps, b.supply⟩ asked'' := by
  rcases hx with hx | ⟨⟨e, hx⟩, hasked⟩
  · rcases hf with hf | ⟨⟨e, hf⟩, hasked⟩
    · exact .inl (by simp [Bind.bind, Except.bind, hx, hf, Pure.pure, Except.pure])
    · exact .inr ⟨⟨e, by simp [Bind.bind, Except.bind, hx, hf]⟩, h' hasked⟩
  · exact .inr ⟨⟨e, by simp [Bind.bind, Except.bind, hx]⟩, h hasked⟩

/-- The code of a final block, without the copy that is made from one supply. -/
def withoutCopy (t : Supply) (final : Lowering Unit) : Lowering Unit := fun s =>
  if s = t then .error (.fault .slotOverflow) else final s

/-- A copy of the final block of a guarded block, from a supply. Without a block there is none. -/
structure Copy where
  scope : Option Label
  final : Lowering Unit
  supply : Supply

/-- The copy stands at the start of a gap of its guarded block. The label of the gap is the last
one before the copy, so there is one copy from a supply. -/
def Copy.InGap (k : Copy) (gaps : List Gap) (lines : List Line) : Prop :=
  ∃ g ∈ gaps, k.scope = some g.scope ∧ g.start.id + 1 = k.supply.labels ∧
    ∃ f rest, k.final k.supply = .ok f ∧
      .mark g.start :: f.code.lines ++ rest ++ [.mark g.stop] <:+: lines

theorem Copy.InGap.mono {k : Copy} (h : k.InGap gaps lines)
    (hgaps : ∀ g ∈ gaps, k.scope = some g.scope → g ∈ more) (hlines : lines <:+: lines') :
    k.InGap more lines' := by
  obtain ⟨g, hg, hscope, hlabel, f, rest, hf, hcopy⟩ := h
  exact ⟨g, hgaps g hg hscope, hscope, hlabel, f, rest, hf, hcopy.trans hlines⟩

/-- What is made from the supply on lies above the copy and the blocks around. -/
def Above (k : Copy) (around : Blocks) (s : Supply) : Prop :=
  (∀ l, k.scope = some l → l.id < s.labels) ∧ ∀ b ∈ around, b.1.id < s.labels

theorem Above.mono {t : Supply} (h : Above k around s) (hle : s.labels ≤ t.labels) :
    Above k around t :=
  ⟨fun l hl => Nat.lt_of_lt_of_le (h.1 l hl) hle, fun b hb => Nat.lt_of_lt_of_le (h.2 b hb) hle⟩

/-- A step beside its twin without a copy, from a supply that has labels above known ones. It makes
code of some statements. -/
structure Orderly (k : Copy) (known : List Label) (around : Blocks) (parts : List Stmt)
    (x x' : Lowering α) : Prop where
  made : ∀ {s a}, x s = .ok a → Above k around s → (∀ l ∈ known, l.id < s.labels) →
    Spaced around s a ∧ Twin x' s a (k.InGap a.gaps a.code.lines) ∧ ∀ t ∈ parts, Emits a.code t

namespace Orderly

variable {k : Copy} {known : List Label} {parts parts' : List Stmt} {x x' : Lowering α}

theorem sub (h : Orderly k known around parts x x') (hsub : parts' ⊆ parts) :
    Orderly k known around parts' x x' := by
  constructor
  intro s a hrun habove hknown
  obtain ⟨hspaced, htwin, hparts⟩ := h.made hrun habove hknown
  exact ⟨hspaced, htwin, fun t ht => hparts t (hsub ht)⟩

theorem quiet (h : Quiet x) : Orderly k known around [] x x := by
  constructor
  intro s a hrun _ _
  obtain ⟨hle, hnone⟩ := h s a hrun
  exact ⟨⟨hle, by simp [hnone], by simp [hnone, gapsOf, ends]⟩, .inl hrun, nofun⟩

theorem fail : Orderly k known around parts (failWith f : Lowering α) x' := ⟨nofun⟩

theorem bind_of_run {f f' : α → Lowering β} (hx : Orderly k known around parts x x')
    (hf : ∀ {s a}, x s = .ok a → Above k around s → (∀ l ∈ known, l.id < s.labels) →
      ∃ more, (∀ l ∈ more, l.id < a.supply.labels) ∧
        Orderly k more around parts' (f a.value) (f' a.value)) :
    Orderly k known around (parts ++ parts') (x >>= f) (x' >>= f') := by
  constructor
  intro s c hrun habove hknown
  obtain ⟨a, b, ha, hb, rfl⟩ := bind_eq_ok hrun
  obtain ⟨hspaced, htwin, hparts⟩ := hx.made ha habove hknown
  obtain ⟨more, hmore, hf⟩ := hf ha habove hknown
  obtain ⟨hspaced', htwin', hparts'⟩ := hf.made hb (habove.mono hspaced.labels) hmore
  refine ⟨hspaced.bind hspaced' rfl rfl rfl, htwin.bind htwin' (fun h => ?_) (fun h => ?_), ?_⟩
  · exact h.mono (fun g hg _ => mem_append_left _ hg) (prefix_append _ _).isInfix
  · exact h.mono (fun g hg _ => mem_append_right _ hg) (suffix_append _ _).isInfix
  · intro t ht
    rcases mem_append.1 ht with ht | ht
    · exact (hparts t ht).mono (prefix_append _ _).isInfix (prefix_append _ _).isInfix
    · exact (hparts' t ht).mono (suffix_append _ _).isInfix (suffix_append _ _).isInfix

theorem bind {f f' : α → Lowering β} (hx : Orderly k known around parts x x')
    (hf : ∀ a, Orderly k known around parts' (f a) (f' a)) :
    Orderly k known around (parts ++ parts') (x >>= f) (x' >>= f') :=
  hx.bind_of_run fun ha habove hknown => ⟨known, fun l hl =>
    Nat.lt_of_lt_of_le (hknown l hl) (hx.made ha habove hknown).1.labels, hf _⟩

theorem after_of_run {f f' : α → Lowering β} (hx : Quiet x)
    (hf : ∀ {s a}, x s = .ok a → Orderly k known around parts (f a.value) (f' a.value)) :
    Orderly k known around parts (x >>= f) (x >>= f') :=
  (quiet hx).bind_of_run fun {s a} ha _ hknown => ⟨known, fun l hl =>
    Nat.lt_of_lt_of_le (hknown l hl) (hx s a ha).1, hf ha⟩

theorem after {f f' : α → Lowering β} (hx : Quiet x)
    (hf : ∀ a, Orderly k known around parts (f a) (f' a)) :
    Orderly k known around parts (x >>= f) (x >>= f') :=
  after_of_run hx fun _ => hf _

theorem before {f : α → Lowering β} (hx : Orderly k known around parts x x')
    (hf : ∀ a, Quiet (f a)) : Orderly k known around parts (x >>= f) (x' >>= f) :=
  (hx.bind fun a => quiet (hf a)).sub (subset_append_left _ _)

theorem newLabel {f f' : Label → Lowering β} (hf : ∀ l, k.scope ≠ some l → l ∉ around.map (·.1) →
      Orderly k (l :: known) around parts (f l) (f' l)) :
    Orderly k known around parts (newLabel >>= f) (newLabel >>= f') := by
  refine (quiet newLabel_quiet).bind_of_run fun {s} _ hrun habove hknown => ?_
  cases hrun
  refine ⟨⟨s.labels⟩ :: known, forall_mem_cons.2 ⟨Nat.lt_succ_self _, fun l hl =>
    Nat.lt_succ_of_lt (hknown l hl)⟩, hf _ ?_ ?_⟩
  · exact fun heq => Nat.lt_irrefl _ (habove.1 _ heq)
  · intro hmem
    obtain ⟨b, hb, heq⟩ := mem_map.1 hmem
    exact Nat.ne_of_lt (habove.2 b hb) (congrArg Label.id heq)

theorem ite {c : Prop} [Decidable c] (hx : Orderly k known around parts x x')
    (hy : Orderly k known around parts y y') :
    Orderly k known around parts (if c then x else y) (if c then x' else y') := by
  split
  · exact hx
  · exact hy

theorem takeGaps {x x' : Lowering Unit} {scope : Label} {final : Option (Lowering Unit)}
    (hscope : scope ∈ known) (hne : k.scope ≠ some scope)
    (h : Orderly k known ((scope, final) :: around) parts x x') :
    Orderly k known around parts (takeGaps scope x) (takeGaps scope x') := by
  constructor
  intro s c hrun habove hknown
  obtain ⟨a, ha, rfl⟩ := takeGaps_eq_ok hrun
  have habove' : Above k ((scope, final) :: around) s :=
    ⟨habove.1, forall_mem_cons.2 ⟨hknown scope hscope, habove.2⟩⟩
  obtain ⟨hspaced, htwin, hparts⟩ := h.made ha habove' hknown
  refine ⟨hspaced.beyond rfl rfl rfl, ?_, hparts⟩
  rcases htwin with htwin | ⟨⟨e, he⟩, hgap⟩
  · refine .inl (Eq.trans ?_ hrun)
    simp only [Lowering.takeGaps, ha, htwin]
  · refine .inr ⟨⟨e, by simp only [Lowering.takeGaps, he]; rfl⟩, ?_⟩
    refine hgap.mono (fun g hg hown => mem_filter.2 ⟨hg, ?_⟩) (infix_refl _)
    have hother : g.scope ≠ scope := fun heq => hne (heq ▸ hown)
    simpa using hother

theorem self {env : Env} (henv : env.Nested)
    (h : Orderly k known (Exit.blocks env.exits) parts (stmt env t) y) :
    Orderly k known (Exit.blocks env.exits) [t] (stmt env t) y := by
  constructor
  intro s a hrun habove hknown
  obtain ⟨hspaced, htwin, -⟩ := h.made hrun habove hknown
  refine ⟨hspaced, htwin, fun t' ht => ?_⟩
  obtain rfl := mem_singleton.1 ht
  exact ⟨env, s, [], a, [], henv, habove.2, hrun, by simp, infix_refl _⟩

end Orderly

end JMinusMinus.Lowering
