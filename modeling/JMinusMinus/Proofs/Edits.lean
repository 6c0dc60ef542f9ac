import JMinusMinus.Proofs.Flow.Unit

/-!
# Buffers that are filled

A buffer is filled by *edits* in any order: labels are created and bound, instructions and
handlers are added, local slots are reserved. This module says what the layout of a filled buffer
is in terms of the edits alone (`Code.Lays`).

There is one exactly if every label that was created was bound. The offset of a label is that of
the instruction that was added next after it was bound the last time, so it is found by counting
the instructions before.
-/

namespace JMinusMinus

/-- One call of an assembler. -/
inductive Edit where
  | create
  | bind (l : Label)
  | instr (i : Instruction)
  | access (op : Opcode) (slot : Nat)
  | step (slot : Nat) (delta : Int)
  | guard (h : Handler)
  | reserve (count : Nat)
deriving DecidableEq

namespace Edit

/-- The buffer after a call. -/
def apply (b : Buffer) : Edit → Except Fault Buffer
  | create => .ok b.createLabel.2
  | bind l => .ok (b.bind l)
  | instr i => .ok (b.add (.instr i))
  | access op slot => do return b.add (← Fragment.access op slot)
  | step slot delta => do return b.add (← Fragment.step slot delta)
  | guard h => .ok (b.add (.handler h))
  | reserve count => .ok (b.add (.reserve count))

/-- The labels that a call names. -/
def labels : Edit → List Label
  | bind l => [l]
  | instr i => i.targets
  | guard h => [h.start, h.stop, h.target]
  | create | access .. | step .. | reserve _ => []

/-- The instruction that a call adds. -/
def instruction? : Edit → Option Instruction
  | instr i => some i
  | access op slot => some ((op.shortForm? slot).elim (.localVar op slot) .plain)
  | step slot delta => some (.step slot delta)
  | create | bind _ | guard _ | reserve _ => none

/-- The handler that a call adds. -/
def handler? : Edit → Option Handler
  | guard h => some h
  | _ => none

/-- The line that a call adds. -/
def line? : Edit → Option Line
  | bind l => some (.mark l)
  | a => a.instruction?.map .instr

end Edit

/-- The edits that fill one buffer up to another one, each with labels that were created before
it. -/
inductive Fills : Buffer → List Edit → Buffer → Prop
  | nil (b : Buffer) : Fills b [] b
  | cons {b b' b'' : Buffer} {a : Edit} {as : List Edit} : (∀ l ∈ a.labels, l.id < b.labels) →
      a.apply b = .ok b' → Fills b' as b'' → Fills b (a :: as) b''

/-! ## What edits add -/

/-- The instructions that were added, in order. -/
def addedInstructions (as : List Edit) : List Instruction := as.filterMap Edit.instruction?

/-- The handlers that were added, in order. -/
def addedHandlers (as : List Edit) : List Handler := as.filterMap Edit.handler?

/-- The marks and instructions that were added, in order. -/
def addedLines (as : List Edit) : List Line := as.filterMap Edit.line?

namespace Edit

variable {b b' : Buffer} {a : Edit}

theorem apply_eq_ok (hlabels : ∀ l ∈ a.labels, l.id < b.labels) (h : a.apply b = .ok b') :
    b'.labels = b.labels + [a].count create ∧ b'.code.lines = b.code.lines ++ addedLines [a] ∧
      b'.code.handlers = b.code.handlers ++ addedHandlers [a] := by
  cases a with
  | create =>
    cases h
    exact ⟨rfl, (List.append_nil _).symm, (List.append_nil _).symm⟩
  | bind l =>
    have hl : l.id < b.labels := hlabels l List.mem_cons_self
    simp only [apply, Buffer.bind, hl, if_true, Except.ok.injEq] at h
    subst h
    exact ⟨rfl, rfl, rfl⟩
  | access op slot =>
    obtain ⟨f, hf, h⟩ := exists_of_bind_eq_ok h
    obtain ⟨n, -, hf⟩ := exists_of_bind_eq_ok hf
    cases hf
    cases h
    refine ⟨rfl, ?_, rfl⟩
    simp only [addedLines, List.filterMap_cons, line?, instruction?]
    cases op.shortForm? slot <;> rfl
  | step slot delta =>
    obtain ⟨f, hf, h⟩ := exists_of_bind_eq_ok h
    obtain ⟨n, -, hf⟩ := exists_of_bind_eq_ok hf
    cases hf
    cases h
    exact ⟨rfl, rfl, rfl⟩
  | instr | guard | reserve =>
    cases h
    exact ⟨rfl, rfl, rfl⟩

end Edit

namespace Fills

variable {b b' : Buffer} {as : List Edit}

/-- What some calls add to a buffer. -/
theorem adds (h : Fills b as b') : b'.labels = b.labels + as.count .create ∧
    b'.code.lines = b.code.lines ++ addedLines as ∧
    b'.code.handlers = b.code.handlers ++ addedHandlers as := by
  induction h with
  | nil b => exact ⟨rfl, (List.append_nil _).symm, (List.append_nil _).symm⟩
  | @cons b b' b'' a as hlabels happly _ ih =>
    obtain ⟨hfirst, hlines, hhandlers⟩ := Edit.apply_eq_ok hlabels happly
    have hsplit : a :: as = [a] ++ as := rfl
    refine ⟨?_, ?_, ?_⟩
    · rw [ih.1, hfirst, hsplit, List.count_append, Nat.add_assoc]
    · rw [ih.2.1, hlines, hsplit, addedLines, addedLines, addedLines, List.filterMap_append,
        List.append_assoc]
    · rw [ih.2.2, hhandlers, hsplit, addedHandlers, addedHandlers, addedHandlers,
        List.filterMap_append, List.append_assoc]

theorem labels_lt (h : Fills b as b') (ha : a ∈ as) (hl : l ∈ a.labels) : l.id < b'.labels := by
  induction h with
  | nil b => cases ha
  | cons hlabels happly hrest ih =>
    rcases List.mem_cons.1 ha with rfl | ha
    · have hfirst := (Edit.apply_eq_ok hlabels happly).1
      have hmore := hrest.adds.1
      have := hlabels l hl
      omega
    · exact ih ha

end Fills

theorem addedLines_append (as bs : List Edit) :
    addedLines (as ++ bs) = addedLines as ++ addedLines bs :=
  List.filterMap_append

theorem addedLines_bind (l : Label) (as : List Edit) :
    addedLines (.bind l :: as) = .mark l :: addedLines as := rfl

theorem mem_marked_addedLines : l ∈ marked (addedLines as) ↔ .bind l ∈ as := by
  induction as with
  | nil => simp [addedLines]
  | cons a as ih =>
    have hsplit : addedLines (a :: as) = a.line?.toList ++ addedLines as := by
      rw [addedLines, List.filterMap_cons]
      cases a.line? <;> rfl
    rw [hsplit, marked_append, List.mem_append, ih, List.mem_cons]
    cases a <;> simp [Edit.line?, Edit.instruction?]

theorem map_placed_addedLines (start : Nat) (as : List Edit) :
    (placed start (addedLines as)).map (·.2) = addedInstructions as := by
  induction as generalizing start with
  | nil => rfl
  | cons a as ih =>
    cases a with
    | create | guard | reserve => exact ih start
    | bind l => exact ih start
    | instr | access | step => exact congrArg _ (ih _)

/-! ## Offsets -/

/-- How many bytes placed instructions take. -/
def bytesOf (is : List (Nat × Instruction)) : Nat := (is.map fun p => p.2.size p.1).sum

theorem offset_placed (h : (placed start lines)[k]? = some p) :
    p.1 = start + bytesOf ((placed start lines).take k) := by
  induction lines generalizing start k with
  | nil => cases h
  | cons line lines ih =>
    cases line with
    | mark l => exact ih h
    | instr i =>
      cases k with
      | zero =>
        cases h
        rfl
      | succ k =>
        have hrest := ih h
        simp only [placed, bytesOf, List.take_succ_cons, List.map_cons, List.sum_cons] at hrest ⊢
        omega

theorem endOffset_eq (start : Nat) (lines : List Line) :
    endOffset start lines = start + bytesOf (placed start lines) := by
  induction lines generalizing start with
  | nil => rfl
  | cons line lines ih =>
    cases line with
    | mark l => exact ih start
    | instr i =>
      have hrest := ih (start + i.size start)
      simp only [placed, bytesOf, List.map_cons, List.sum_cons] at hrest ⊢
      exact hrest.trans (Nat.add_assoc _ _ _)

theorem ascending_placed (start : Nat) (lines : List Line) :
    ((placed start lines).map (·.1)).Pairwise (· < ·) := by
  induction lines generalizing start with
  | nil => exact .nil
  | cons line lines ih =>
    cases line with
    | mark l => exact ih start
    | instr i =>
      refine .cons ?_ (ih _)
      intro q hq
      obtain ⟨p, hp, rfl⟩ := List.mem_map.1 hq
      have hle := le_of_mem_placed hp
      have hpos := i.size_pos start
      show start < p.1
      omega

theorem head_placed (start : Nat) (lines : List Line) :
    ((placed start lines)[0]?.map (·.1)).getD (endOffset start lines) = start := by
  induction lines with
  | nil => rfl
  | cons line lines ih =>
    cases line with
    | mark l => exact ih
    | instr i => rfl

/-- The bytes of a jump table without its opcode and padding. -/
def Instruction.operandBytes? : Instruction → Option Nat
  | tableSwitch _ _ _ targets => some (4 * (3 + targets.length))
  | lookupSwitch _ pairs => some (4 * (2 + 2 * pairs.length))
  | _ => none

theorem Instruction.operands_aligned {i : Instruction} (h : i.operandBytes? = some n)
    (offset : Nat) : ∃ start, offset < start ∧ start ≤ offset + 4 ∧ 4 ∣ start ∧
      start + n = offset + i.size offset := by
  refine ⟨offset + 1 + padding offset, by omega, ?_, ?_, ?_⟩
  · unfold padding
    omega
  · unfold padding
    omega
  · cases i <;> cases h <;> simp only [size] <;> omega

/-! ## Labels and handlers -/

theorem markTable_last {m : Label × Nat} (hlt : m.1.id < labels) (hlast : ∀ k ∈ after, k.1 ≠ m.1) :
    (markTable labels (before ++ m :: after))[m.1.id]? = some (some m.2) := by
  have hkeep : ∀ (ms : List (Label × Nat)) (table : Array (Option Nat)), (∀ k ∈ ms, k.1 ≠ m.1) →
        (ms.foldl (fun table k => table.setIfInBounds k.1.id (some k.2)) table)[m.1.id]? =
          table[m.1.id]? := by
    intro ms
    induction ms with
    | nil => exact fun _ _ => rfl
    | cons k ms ih =>
      intro table hne
      obtain ⟨hk, hms⟩ := List.forall_mem_cons.1 hne
      have hid : k.1.id ≠ m.1.id := fun heq => hk (congrArg Label.mk heq)
      rw [List.foldl_cons, ih _ hms, Array.getElem?_setIfInBounds_ne hid]
  have hsize := size_markTable labels before
  unfold markTable at hsize ⊢
  rw [List.foldl_append, List.foldl_cons, hkeep after _ hlast,
    Array.getElem?_setIfInBounds_self_of_lt (by omega)]

theorem labelOffsets_of_layout {b : Buffer} (h : b.layout = .ok code) :
    code.labelOffsets.toList.map some = (markTable b.labels (marks 0 b.code.lines)).toList := by
  obtain ⟨offsets, rows, hbound, -, rfl⟩ := layout_cases h
  exact map_some_of_boundOffsets hbound

/-- The offset that a label is bound to, and 0 for one that is not bound. -/
def Code.offsetOf (code : Code) (l : Label) : Nat := code.labelOffsets.getD l.id 0

/-- The row of the exception table that a handler stands for: its labels as offsets. -/
def Code.rowOf (code : Code) (h : Handler) : TableRow :=
  ⟨code.offsetOf h.start, code.offsetOf h.stop, code.offsetOf h.target, h.catches⟩

/-- The exception table has a row for each handler. -/
theorem rows_eq {code : Code} {handlers : List Handler}
    (h : handlers.mapM (Handler.row code.labelOffsets) = .ok rows) :
    rows = handlers.map code.rowOf := by
  induction handlers generalizing rows with
  | nil =>
    cases h
    rfl
  | cons handler handlers ih =>
    rw [List.mapM_cons] at h
    obtain ⟨row, hrow, h⟩ := exists_of_bind_eq_ok h
    obtain ⟨rest, hrest, heq⟩ := exists_of_bind_eq_ok h
    cases heq
    obtain ⟨hstart, hstop, htarget, hcatches⟩ := row_eq_ok hrow
    have hfirst : row = code.rowOf handler := by
      simp [Code.rowOf, Code.offsetOf, hstart, hstop, htarget, hcatches]
    rw [List.map_cons, ih hrest, hfirst]

/-! ## The layout -/

/-- The offset of an instruction by its number. Behind the last one it is the end of the code. -/
def Code.offsetAt (code : Code) (k : Nat) : Nat :=
  (code.instructions[k]?.map (·.1)).getD code.length

/-- The code that some calls lay out. -/
structure Code.Lays (code : Code) (as : List Edit) : Prop where
  /-- The instructions are those that were added, in order. -/
  added : code.instructions.map (·.2) = addedInstructions as
  /-- An instruction starts behind the bytes of those before it. -/
  offset : ∀ k p, code.instructions[k]? = some p → p.1 = bytesOf (code.instructions.take k)
  length : code.length = bytesOf code.instructions
  ascending : (code.instructions.map (·.1)).Pairwise (· < ·)
  /-- The operands of a switch start at a multiple of four, and reach to its end. -/
  aligned : ∀ p ∈ code.instructions, ∀ n, p.2.operandBytes? = some n →
    ∃ start, p.1 < start ∧ start ≤ p.1 + 4 ∧ 4 ∣ start ∧ start + n = p.1 + p.2.size p.1
  labels : code.labelOffsets.size = as.count .create
  /-- A label has the offset of the instruction that was next when it was bound last. -/
  label : ∀ before l after, as = before ++ .bind l :: after → .bind l ∉ after →
    code.labelOffsets[l.id]? = some (code.offsetAt (addedInstructions before).length)
  /-- Handlers are in order, without those that guard nothing. -/
  exceptions : code.exceptions =
    ((addedHandlers as).map code.rowOf).filter fun r => r.start < r.stop

namespace Fills

variable {n : Nat} {as : List Edit} {b : Buffer}

/-- The lines of a buffer are those that were added. -/
theorem lines_eq (h : Fills (.ofLocals n) as b) : b.code.lines = addedLines as := h.adds.2.1

theorem labels_eq (h : Fills (.ofLocals n) as b) : b.labels = as.count .create := by
  rw [h.adds.1]
  exact Nat.zero_add _

theorem handlers_eq (h : Fills (.ofLocals n) as b) : b.code.handlers = addedHandlers as :=
  h.adds.2.2

theorem exists_layout_iff (h : Fills (.ofLocals n) as b) :
    (∃ code, b.layout = .ok code) ↔ ∀ id < as.count .create, .bind ⟨id⟩ ∈ as := by
  constructor
  · rintro ⟨code, hcode⟩ id hid
    obtain ⟨hlocates, -⟩ := layout_eq_ok hcode
    have hbound : id < code.labelOffsets.size := by rwa [hlocates.size, h.labels_eq]
    have hmark := hlocates.marked id _ (Array.getElem?_eq_getElem hbound)
    rw [h.lines_eq] at hmark
    exact mem_marked_addedLines.1 (mem_marked_of_mem_marks hmark)
  · intro hbound
    refine exists_layout ?_ ?_
    · intro id hid
      obtain ⟨before, after, rfl⟩ := List.append_of_mem (hbound id (h.labels_eq ▸ hid))
      refine ⟨endOffset 0 (addedLines before), ?_⟩
      rw [h.lines_eq, addedLines_append, marks_append, addedLines_bind]
      exact List.mem_append_right _ List.mem_cons_self
    · intro handler hhandler
      rw [h.handlers_eq] at hhandler
      obtain ⟨a, ha, hguard⟩ := List.mem_filterMap.1 hhandler
      obtain rfl : a = .guard handler := by cases a <;> cases hguard; rfl
      have hknown : ∀ l ∈ (Edit.guard handler).labels, l.id < b.labels := fun l hl =>
        h.labels_lt ha hl
      exact ⟨hknown _ (by simp [Edit.labels]), hknown _ (by simp [Edit.labels]),
        hknown _ (by simp [Edit.labels])⟩

theorem offset_bind (h : Fills (.ofLocals n) as b) (hcode : b.layout = .ok code)
    (has : as = before ++ .bind l :: after) (hlast : .bind l ∉ after) :
    code.labelOffsets[l.id]? = some (code.offsetAt (addedInstructions before).length) := by
  obtain ⟨-, hinstructions, hlength, -⟩ := layout_eq_ok hcode
  have hlines : b.code.lines = addedLines before ++ .mark l :: addedLines after := by
    rw [h.lines_eq, has, addedLines_append, addedLines_bind]
  have hlt : l.id < b.labels := h.labels_lt (a := .bind l) (by simp [has]) (by simp [Edit.labels])
  -- The table keeps the offset of the last mark.
  have htable : (markTable b.labels (marks 0 b.code.lines))[l.id]? =
      some (some (endOffset 0 (addedLines before))) := by
    rw [hlines, marks_append]
    refine markTable_last (m := (l, _)) hlt fun k hk (heq : k.1 = l) => hlast ?_
    exact mem_marked_addedLines.1 (heq ▸ mem_marked_of_mem_marks hk)
  have hoffset : code.labelOffsets[l.id]? = some (endOffset 0 (addedLines before)) := by
    rw [← Array.getElem?_toList, ← labelOffsets_of_layout hcode, List.getElem?_map] at htable
    obtain ⟨p, hp, heq⟩ := Option.map_eq_some_iff.1 htable
    rw [← Array.getElem?_toList, hp, Option.some.inj heq]
  -- The next instruction is the first one of the lines behind the mark.
  have hnumber : (placed 0 (addedLines before)).length = (addedInstructions before).length := by
    rw [← map_placed_addedLines 0 before, List.length_map]
  have hnext : code.offsetAt (addedInstructions before).length =
      endOffset 0 (addedLines before) := by
    rw [Code.offsetAt, hinstructions, hlength, hlines, placed_append, endOffset_append, ← hnumber,
      List.getElem?_append_right (Nat.le_refl _), Nat.sub_self]
    exact head_placed _ _
  rw [hoffset, hnext]

end Fills

/-- A filled buffer can be laid out if every label was bound, and then the layout is exact. -/
theorem layout_exact {n : Nat} {as : List Edit} {b : Buffer} (h : Fills (.ofLocals n) as b) :
    ((∃ code, b.layout = .ok code) ↔ ∀ id < as.count .create, .bind ⟨id⟩ ∈ as) ∧
      ∀ code, b.layout = .ok code → code.Lays as := by
  refine ⟨h.exists_layout_iff, fun code hcode => ?_⟩
  obtain ⟨hlocates, hinstructions, hlength, -, rows, hrows, hexceptions⟩ := layout_eq_ok hcode
  rw [h.lines_eq] at hinstructions hlength
  constructor
  case added => rw [hinstructions, map_placed_addedLines]
  case offset =>
    intro k p hp
    rw [hinstructions] at hp ⊢
    rw [offset_placed hp, Nat.zero_add]
  case length => rw [hlength, hinstructions, endOffset_eq, Nat.zero_add]
  case ascending => rw [hinstructions]; exact ascending_placed 0 _
  case aligned => exact fun p _ n hn => Instruction.operands_aligned hn p.1
  case labels => rw [hlocates.size, h.labels_eq]
  case label => exact fun before l after has hlast => h.offset_bind hcode has hlast
  case exceptions => rw [hexceptions, rows_eq hrows, h.handlers_eq]

/-- A label that is bound again behind a switch to it, one at the end, and two handlers, the second
of which guards a reversed range. -/
def reboundEdits : List Edit :=
  [.create, .bind ⟨0⟩, .create, .access .iload 1, .instr (.tableSwitch ⟨1⟩ 0 1 [⟨0⟩, ⟨1⟩]),
    .bind ⟨0⟩, .instr (.plain .return_), .guard ⟨⟨0⟩, ⟨1⟩, ⟨0⟩, none⟩, .bind ⟨1⟩,
    .guard ⟨⟨1⟩, ⟨0⟩, ⟨0⟩, none⟩]

theorem layout_exact_rebound : ∃ b, Fills (.ofLocals 1) reboundEdits b ∧
    ∃ code, b.layout = .ok code ∧ code.Lays reboundEdits := by
  have h : Fills (.ofLocals 1) reboundEdits _ :=
    .cons (by decide) rfl (.cons (by decide) rfl (.cons (by decide) rfl (.cons (by decide) rfl
      (.cons (by decide) rfl (.cons (by decide) rfl (.cons (by decide) rfl (.cons (by decide) rfl
        (.cons (by decide) rfl (.cons (by decide) rfl (.nil _))))))))))
  obtain ⟨code, hcode⟩ := (layout_exact h).1.2 (by decide)
  exact ⟨_, h, code, hcode, (layout_exact h).2 code hcode⟩

end JMinusMinus
