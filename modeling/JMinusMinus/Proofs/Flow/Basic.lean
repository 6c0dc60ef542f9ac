import JMinusMinus.Proofs.Labels.Basic
import JMinusMinus.Proofs.Layout

/-!
# Flow of control

Which offsets of code control can come to, and how that is read off the lines of the code.

*Code.*  Control starts at offset zero. It goes on behind an instruction that falls through, to
the labels an instruction jumps to, and from a guarded offset to the handler
(`Code.Edge`, `Code.Reachable`).

*Lines.*  Every label is called *alive* or not, ahead of time. `Flow lives b lines b'` says that
this is right for some lines, if `b` tells whether control comes to the first of them, and that
`b'` tells whether it comes to their end. A flow may call more alive than control can come to,
but never less.

*Handlers.*  The code of a handler is alive, unless the handler guards lines that control does not
come to (`Handler.Calm`).
-/

namespace JMinusMinus

/-! ## Reachable offsets -/

/-- A step of control from one offset to another. Every guarded instruction may throw. -/
inductive Code.Edge (code : Code) : Nat → Nat → Prop
  | next {p : Nat} {i : Instruction} :
      (p, i) ∈ code.instructions → i.opcode.fallsThrough → code.Edge p (p + i.size p)
  | jump {p target : Nat} {i : Instruction} {l : Label} : (p, i) ∈ code.instructions →
      l ∈ i.targets → code.labelOffsets[l.id]? = some target → code.Edge p target
  | raise {p : Nat} {i : Instruction} {r : TableRow} : (p, i) ∈ code.instructions →
      r ∈ code.exceptions → r.start ≤ p → p < r.stop → code.Edge p r.target

/-- The offsets that control can come to. -/
inductive Code.Reachable (code : Code) : Nat → Prop
  | entry : code.Reachable 0
  | step {p q : Nat} : code.Reachable p → code.Edge p q → code.Reachable q

/-! ## Flow through lines -/

/-- A label that control comes to, or does not. -/
def Label.Alive (l : Label) (b : Bool) (lives : List Bool) : Prop := lives[l.id]? = some b

theorem Label.Alive.mono {l : Label} (h : l.Alive b u) (huv : u <+: v) : l.Alive b v := by
  obtain ⟨w, rfl⟩ := huv
  have hlt : l.id < u.length := (List.getElem?_eq_some_iff.1 h).1
  rw [Label.Alive, List.getElem?_append_left hlt]
  exact h

theorem Label.Alive.of_eq {l : Label} (h : l.Alive b lives) (hb : b = c) : l.Alive c lives := hb ▸ h

theorem Label.Alive.unique {l : Label} (hb : l.Alive b lives) (hc : l.Alive c lives) : b = c :=
  Option.some.inj (hb.symm.trans hc)

/-- Lines through which control flows from their start to their end. -/
inductive Flow (lives : List Bool) : Bool → List Line → Bool → Prop
  | nil {b b' : Bool} : (b → b') → Flow lives b [] b'
  | mark {l : Label} {b c b' : Bool} {lines : List Line} : l.Alive c lives → (b → c) →
      Flow lives c lines b' → Flow lives b (.mark l :: lines) b'
  | instr {i : Instruction} {b b' : Bool} {lines : List Line} :
      (b → ∀ l ∈ i.targets, l.Alive true lives) →
      Flow lives (b && i.opcode.fallsThrough) lines b' → Flow lives b (.instr i :: lines) b'

namespace Flow

variable {lives : List Bool} {b c b' c' : Bool} {lines : List Line}

theorem of_imp (h : Flow lives b lines b') (hb : c → b) : Flow lives c lines b' := by
  induction h generalizing c with
  | nil hb' => exact .nil fun hc => hb' (hb hc)
  | mark hl hc' h _ => exact .mark hl (fun hc => hc' (hb hc)) h
  | instr htargets _ ih =>
    refine .instr (fun hc => htargets (hb hc)) (ih ?_)
    simp only [Bool.and_eq_true]
    exact fun h => ⟨hb h.1, h.2⟩

theorem imp (h : Flow lives b lines b') (hb' : b' → c') : Flow lives b lines c' := by
  induction h with
  | nil h => exact .nil fun hb => hb' (h hb)
  | mark hl hc _ ih => exact .mark hl hc (ih hb')
  | instr htargets _ ih => exact .instr htargets (ih hb')

theorem append (ha : Flow lives b a c) (h : Flow lives c lines b') :
    Flow lives b (a ++ lines) b' := by
  induction ha with
  | nil hc => exact h.of_imp hc
  | mark hl hc _ ih => exact .mark hl hc (ih h)
  | instr htargets _ ih => exact .instr htargets (ih h)

theorem mono (h : Flow u b lines b') (huv : u <+: v) : Flow v b lines b' := by
  induction h with
  | nil hb => exact .nil hb
  | mark hl hc _ ih => exact .mark (hl.mono huv) hc ih
  | instr htargets _ ih => exact .instr (fun hb l hl => (htargets hb l hl).mono huv) ih

theorem of_marked (hmarked : ∀ l ∈ marked lines, l.Alive b lives)
    (htargets : b → ∀ i, .instr i ∈ lines → ∀ l ∈ i.targets, l.Alive true lives) :
    Flow lives b lines b := by
  induction lines with
  | nil => exact .nil id
  | cons line lines ih =>
    cases line with
    | mark l =>
      refine .mark (hmarked l (by simp)) id (ih (fun k hk => hmarked k (by simp [hk])) ?_)
      exact fun hb i hi => htargets hb i (by simp [hi])
    | instr i =>
      refine .instr (fun hb => htargets hb i (by simp)) (of_imp (ih hmarked ?_) ?_)
      · exact fun hb j hj => htargets hb j (by simp [hj])
      · simp only [Bool.and_eq_true]
        exact And.left

end Flow

/-! ## Offsets that are alive -/

/-- The offsets that control comes to in lines that start at an offset. -/
@[simp] def AliveAt (lives : List Bool) : Bool → Nat → List Line → Nat → Prop
  | b, start, [], p => b = true ∧ p = start
  | _, start, .mark l :: lines, p => AliveAt lives (lives.getD l.id false) start lines p
  | b, start, .instr i :: lines, p => (b = true ∧ p = start) ∨
      AliveAt lives (b && i.opcode.fallsThrough) (start + i.size start) lines p

section AliveAt

variable {lives : List Bool} {b b' : Bool} {start p : Nat} {lines : List Line}

theorem Label.Alive.getD_eq {l : Label} (h : l.Alive c lives) : lives.getD l.id false = c := by
  rw [List.getD_eq_getElem?_getD, h]
  rfl

theorem endOffset_append (a c : List Line) :
    endOffset start (a ++ c) = endOffset (endOffset start a) c :=
  List.foldl_append

theorem le_endOffset : start ≤ endOffset start lines := by
  induction lines generalizing start with
  | nil => exact Nat.le_refl _
  | cons line lines ih =>
    cases line with
    | mark l => exact ih
    | instr i => exact Nat.le_of_add_right_le ih

theorem AliveAt.le (h : AliveAt lives b start lines p) : start ≤ p := by
  induction lines generalizing b start with
  | nil => exact Nat.le_of_eq h.2.symm
  | cons line lines ih =>
    cases line with
    | mark l => exact ih h
    | instr i =>
      rcases h with ⟨-, rfl⟩ | h
      · exact Nat.le_refl _
      · exact Nat.le_of_add_right_le (ih h)

theorem Flow.aliveAt_start (h : Flow lives b lines b') (hb : b = true) :
    AliveAt lives b start lines start := by
  induction h with
  | nil _ => exact ⟨hb, rfl⟩
  | mark hl hc _ ih =>
    rw [AliveAt, hl.getD_eq]
    exact ih (hc hb)
  | instr _ _ _ => exact .inl ⟨hb, rfl⟩

theorem Flow.of_aliveAt_end (h : Flow lives b lines b')
    (hend : AliveAt lives b start lines (endOffset start lines)) : b' = true := by
  induction h generalizing start with
  | nil hb => exact hb hend.1
  | mark hl _ _ ih =>
    rw [AliveAt, hl.getD_eq] at hend
    exact ih hend
  | @instr i _ _ lines _ _ ih =>
    rcases hend with ⟨-, heq⟩ | hend
    · have hpos := i.size_pos start
      have hle : start + i.size start ≤ endOffset start (.instr i :: lines) := le_endOffset
      omega
    · exact ih hend

theorem Flow.aliveAt_mark (h : Flow lives b lines b') (hm : m ∈ marks start lines)
    (halive : m.1.Alive true lives) : AliveAt lives b start lines m.2 := by
  induction h generalizing start with
  | nil _ => cases hm
  | mark hl _ hrest ih =>
    rw [AliveAt, hl.getD_eq]
    rcases List.mem_cons.1 hm with rfl | hm
    · exact hrest.aliveAt_start (hl.unique halive)
    · exact ih hm
  | instr _ _ ih => exact .inr (ih hm)

theorem Flow.aliveAt_next (h : Flow lives b lines b') (hi : (p, i) ∈ placed start lines)
    (halive : AliveAt lives b start lines p) : (∀ l ∈ i.targets, l.Alive true lives) ∧
      (i.opcode.fallsThrough → AliveAt lives b start lines (p + i.size p)) := by
  induction h generalizing start with
  | nil _ => cases hi
  | mark hl _ _ ih =>
    rw [AliveAt, hl.getD_eq] at halive ⊢
    exact ih hi halive
  | @instr j b b' lines htargets hrest ih =>
    have hpos := j.size_pos start
    rcases List.mem_cons.1 hi with heq | hi
    · cases heq
      rcases halive with ⟨hb, -⟩ | halive
      · exact ⟨htargets hb, fun hfalls => .inr (hrest.aliveAt_start (by simp [hb, hfalls]))⟩
      · -- The rest starts behind the instruction.
        have := halive.le
        omega
    · have hle := le_of_mem_placed hi
      rcases halive with ⟨-, heq⟩ | halive
      · simp only at hle
        omega
      · obtain ⟨hjumps, hnext⟩ := ih hi halive
        exact ⟨hjumps, fun hfalls => .inr (hnext hfalls)⟩

theorem AliveAt.le_of_dead (hdead : ∀ l ∈ marked dead, l.Alive false lives)
    (h : AliveAt lives false start (dead ++ rest) p) : endOffset start dead ≤ p := by
  induction dead generalizing start with
  | nil => exact h.le
  | cons line dead ih =>
    cases line with
    | mark l =>
      rw [List.cons_append, AliveAt, (hdead l (by simp)).getD_eq] at h
      exact ih (fun k hk => hdead k (by simp [hk])) h
    | instr i =>
      rcases h with ⟨hfalse, -⟩ | h
      · cases hfalse
      · exact ih hdead h

theorem AliveAt.lt_or_le_of_dead (hdead : ∀ l ∈ marked (.mark first :: inside), l.Alive false lives)
    (h : AliveAt lives b start (before ++ (.mark first :: inside) ++ after) p) :
    p < endOffset start before ∨ endOffset start (before ++ (.mark first :: inside)) ≤ p := by
  induction before generalizing b start with
  | nil =>
    have hfirst := hdead first (by simp)
    have hinside : ∀ l ∈ marked inside, l.Alive false lives := fun l hl => hdead l (by simp [hl])
    rw [List.nil_append, List.cons_append, AliveAt, hfirst.getD_eq] at h
    have hle : endOffset start inside ≤ p := h.le_of_dead hinside
    exact .inr hle
  | cons line before ih =>
    cases line with
    | mark l => exact ih h
    | instr i =>
      rcases h with ⟨-, rfl⟩ | h
      · have hpos := i.size_pos p
        have hle : p + i.size p ≤ endOffset p (.instr i :: before) := le_endOffset
        exact .inl (by omega)
      · exact ih h

end AliveAt

/-! ## Offsets of marks -/

section Marks

variable {start : Nat} {lines before inside after : List Line} {m : Label × Nat}

theorem marks_append (a c : List Line) :
    marks start (a ++ c) = marks start a ++ marks (endOffset start a) c := by
  induction a generalizing start with
  | nil => rfl
  | cons line a ih =>
    cases line with
    | mark l => exact congrArg _ ih
    | instr i => exact ih

theorem mem_marked_of_mem_marks (h : m ∈ marks start lines) : m.1 ∈ marked lines := by
  induction lines generalizing start with
  | nil => cases h
  | cons line lines ih =>
    cases line with
    | mark l =>
      rcases List.mem_cons.1 h with rfl | h
      · simp
      · simp [ih h]
    | instr i => exact ih h

theorem le_endOffset_of_mem_marks (h : m ∈ marks start lines) : m.2 ≤ endOffset start lines := by
  induction lines generalizing start with
  | nil => cases h
  | cons line lines ih =>
    cases line with
    | mark l =>
      rcases List.mem_cons.1 h with rfl | h
      · exact le_endOffset
      · exact ih h
    | instr i => exact ih h

theorem placed_or_end_of_mem_marks (h : m ∈ marks start lines) :
    (∃ i, (m.2, i) ∈ placed start lines) ∨ m.2 = endOffset start lines := by
  have hstart : ∀ (lines : List Line) (start : Nat),
      (∃ i, (start, i) ∈ placed start lines) ∨ start = endOffset start lines := by
    intro lines
    induction lines with
    | nil => exact fun _ => .inr rfl
    | cons line lines ih =>
      intro start
      cases line with
      | mark l => exact ih start
      | instr i => exact .inl ⟨i, List.mem_cons_self⟩
  induction lines generalizing start with
  | nil => cases h
  | cons line lines ih =>
    cases line with
    | mark l =>
      rcases List.mem_cons.1 h with rfl | h
      · exact hstart lines start
      · exact ih h
    | instr i =>
      rcases ih h with ⟨j, hj⟩ | h
      · exact .inl ⟨j, List.mem_cons_of_mem _ hj⟩
      · exact .inr h

theorem mem_marks_of_nodup (hnodup : (marked (before ++ inside ++ after)).Nodup)
    (hm : m ∈ marks start (before ++ inside ++ after)) (hmem : m.1 ∈ marked inside) :
    m ∈ marks (endOffset start before) inside := by
  simp only [marked_append, List.nodup_append] at hnodup
  obtain ⟨⟨-, -, hbefore⟩, -, hafter⟩ := hnodup
  rw [marks_append, marks_append, List.mem_append, List.mem_append] at hm
  rcases hm with (hm | hm) | hm
  · exact absurd rfl (hbefore _ (mem_marked_of_mem_marks hm) _ hmem)
  · exact hm
  · exact absurd rfl (hafter _ (List.mem_append_right _ hmem) _ (mem_marked_of_mem_marks hm))

end Marks

/-! ## Handlers -/

/-- A handler whose code is alive, or that guards lines to which control does not come. -/
def Handler.Calm (h : Handler) (lives : List Bool) (lines : List Line) : Prop :=
  h.target.Alive true lives ∨
    ∃ before first inside after, lines = before ++ (.mark first :: inside) ++ after ∧
      h.start ∈ marked (.mark first :: inside) ∧ h.stop ∈ marked (.mark first :: inside) ∧
      ∀ l ∈ marked (.mark first :: inside), l.Alive false lives

theorem Handler.Calm.append {h : Handler} (hcalm : h.Calm lives lines) (before after : List Line) :
    h.Calm lives (before ++ lines ++ after) := by
  rcases hcalm with htarget | ⟨outer, first, inside, rest, rfl, hlabels⟩
  · exact .inl htarget
  · exact .inr ⟨before ++ outer, first, inside, rest ++ after, by simp, hlabels⟩

theorem Handler.Calm.mono {h : Handler} (hcalm : h.Calm u lines) (huv : u <+: v) :
    h.Calm v lines := by
  rcases hcalm with htarget | ⟨before, first, inside, after, heq, hstart, hstop, hdead⟩
  · exact .inl (htarget.mono huv)
  · exact .inr ⟨before, first, inside, after, heq, hstart, hstop, fun l hl => (hdead l hl).mono huv⟩

/-! ## Flow through code -/

/-- Code that is laid out from lines through which control flows from the start. -/
structure Code.Flows (code : Code) (lives : List Bool) (b' : Bool) (buffer : Buffer) : Prop where
  layout : buffer.layout = .ok code
  nodup : (marked buffer.code.lines).Nodup
  flow : Flow lives true buffer.code.lines b'
  calm : ∀ h ∈ buffer.code.handlers, h.Calm lives buffer.code.lines

namespace Code.Flows

variable {code : Code} {lives : List Bool} {b' : Bool} {buffer : Buffer}

theorem aliveAt_target (h : code.Flows lives b' buffer) {l : Label} (hl : l.Alive true lives)
    (htarget : code.labelOffsets[l.id]? = some target) :
    AliveAt lives true 0 buffer.code.lines target := by
  obtain ⟨hlocates, -⟩ := layout_eq_ok h.layout
  exact h.flow.aliveAt_mark (hlocates.marked l.id target htarget) hl

theorem aliveAt_handler (h : code.Flows lives b' buffer) (hr : r ∈ code.exceptions)
    (hp : AliveAt lives true 0 buffer.code.lines p) (hstart : r.start ≤ p) (hstop : p < r.stop) :
    AliveAt lives true 0 buffer.code.lines r.target := by
  obtain ⟨hlocates, -, -, -, rows, hrows, hexceptions⟩ := layout_eq_ok h.layout
  rw [hexceptions] at hr
  obtain ⟨g, hg, hrow⟩ := exists_of_mem_mapM hrows (List.mem_filter.1 hr).1
  obtain ⟨hgstart, hgstop, hgtarget, -⟩ := row_eq_ok hrow
  rcases h.calm g hg with htarget | ⟨before, first, inside, after, heq, hmstart, hmstop, hdead⟩
  · exact h.aliveAt_target htarget hgtarget
  · -- The range lies in the dead lines, so that control passes it by.
    have hnodup := h.nodup
    have hmstart' := hlocates.marked _ _ hgstart
    have hmstop' := hlocates.marked _ _ hgstop
    rw [heq] at hnodup hmstart' hmstop' hp
    have hlower := le_of_mem_marks (mem_marks_of_nodup hnodup hmstart' hmstart)
    have hupper := le_endOffset_of_mem_marks (mem_marks_of_nodup hnodup hmstop' hmstop)
    rw [← endOffset_append] at hupper
    simp only at hlower hupper
    rcases hp.lt_or_le_of_dead hdead with hlt | hle <;> omega

theorem aliveAt_of_reachable (h : code.Flows lives b' buffer) (hp : code.Reachable p) :
    AliveAt lives true 0 buffer.code.lines p := by
  have hplaced : code.instructions = placed 0 buffer.code.lines := (layout_eq_ok h.layout).2.1
  induction hp with
  | entry => exact h.flow.aliveAt_start rfl
  | step _ hedge ih =>
    cases hedge with
    | next hi hfalls => exact (h.flow.aliveAt_next (hplaced ▸ hi) ih).2 hfalls
    | jump hi hl htarget =>
      exact h.aliveAt_target ((h.flow.aliveAt_next (hplaced ▸ hi) ih).1 _ hl) htarget
    | raise _ hr hstart hstop => exact h.aliveAt_handler hr ih hstart hstop

theorem not_reachable_length (h : code.Flows lives false buffer) : ¬code.Reachable code.length := by
  intro hend
  have halive := h.aliveAt_of_reachable hend
  rw [(layout_eq_ok h.layout).2.2.1] at halive
  cases h.flow.of_aliveAt_end halive

end Code.Flows

end JMinusMinus
