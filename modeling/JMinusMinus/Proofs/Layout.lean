import JMinusMinus.Code.Layout
import JMinusMinus.Proofs.Run

/-!
# Laid out code

What `Buffer.layout` says of the lines it lays out: instructions and marks stand where the lines
before them end, every label that was created has the offset of one of its marks, and the rows of
the exception table are the handlers with offsets for labels.
-/

namespace JMinusMinus

variable {code : Code} {h : Handler} {m : Label × Nat} {ms : List (Label × Nat)}
  {table : List (Option Nat)} {lines : List Line} {start labels : Nat} {α β ε : Type}

theorem exists_of_bind_eq_ok {f : α → Except ε β} (h : x >>= f = .ok b) :
    ∃ a, x = .ok a ∧ f a = .ok b := by
  cases x with
  | error e => cases h
  | ok a => exact ⟨a, rfl, h⟩

/-! ## Offsets of lines -/

theorem le_of_mem_placed (h : p ∈ placed start lines) : start ≤ p.1 := by
  induction lines generalizing start with
  | nil => cases h
  | cons line lines ih =>
    cases line with
    | mark l => exact ih h
    | instr i =>
      rcases List.mem_cons.1 h with rfl | h
      · exact Nat.le_refl _
      · exact Nat.le_of_add_right_le (ih h)

theorem le_of_mem_marks (h : m ∈ marks start lines) : start ≤ m.2 := by
  induction lines generalizing start with
  | nil => cases h
  | cons line lines ih =>
    cases line with
    | mark l =>
      rcases List.mem_cons.1 h with rfl | h
      · exact Nat.le_refl _
      · exact ih h
    | instr i => exact Nat.le_of_add_right_le (ih h)

/-! ## Offsets of labels -/

theorem size_markTable (labels : Nat) (ms : List (Label × Nat)) :
    (markTable labels ms).size = labels := by
  have hfold : ∀ (ms : List (Label × Nat)) (table : Array (Option Nat)),
      (ms.foldl (fun table m => table.setIfInBounds m.1.id (some m.2)) table).size =
        table.size := by
    intro ms
    induction ms with
    | nil => exact fun _ => rfl
    | cons m ms ih => intro table; simp [ih]
  simp [markTable, hfold]

theorem mem_of_markTable {id offset : Nat}
    (h : (markTable labels ms)[id]? = some (some offset)) : (⟨id⟩, offset) ∈ ms := by
  have hfold : ∀ (ms : List (Label × Nat)) (table : Array (Option Nat)),
      (ms.foldl (fun table m => table.setIfInBounds m.1.id (some m.2)) table)[id]? =
        some (some offset) → table[id]? = some (some offset) ∨ (⟨id⟩, offset) ∈ ms := by
    intro ms
    induction ms with
    | nil => exact fun _ h => .inl h
    | cons m ms ih =>
      intro table h
      rcases ih _ h with h | h
      · rw [Array.getElem?_setIfInBounds] at h
        split at h
        next hid =>
          split at h
          · cases h
            exact .inr (by simp [← hid])
          · cases h
        next => exact .inl h
      · exact .inr (List.mem_cons_of_mem _ h)
  rcases hfold ms _ h with h | h
  · simp [Array.getElem?_replicate] at h
  · exact h

theorem exists_of_mem_marks (hm : m ∈ ms)
    (hlt : m.1.id < labels) : ∃ offset, (markTable labels ms)[m.1.id]? = some (some offset) := by
  -- Later marks replace the offset but do not take it away.
  have hkeep : ∀ (ms : List (Label × Nat)) (table : Array (Option Nat)) (id : Nat),
      (∃ offset, table[id]? = some (some offset)) → ∃ offset,
        (ms.foldl (fun table m => table.setIfInBounds m.1.id (some m.2)) table)[id]? =
          some (some offset) := by
    intro ms
    induction ms with
    | nil => exact fun _ _ h => h
    | cons m ms ih =>
      intro table id ⟨offset, h⟩
      refine ih _ id ?_
      rw [Array.getElem?_setIfInBounds]
      split
      · have hsize : id < table.size := (Array.getElem?_eq_some_iff.1 h).1
        exact ⟨m.2, by simp_all⟩
      · exact ⟨offset, h⟩
  obtain ⟨before, after, rfl⟩ := List.append_of_mem hm
  have hsize := size_markTable labels before
  unfold markTable at hsize ⊢
  rw [List.foldl_append, List.foldl_cons]
  refine hkeep after _ _ ⟨m.2, ?_⟩
  rw [Array.getElem?_setIfInBounds_self_of_lt (by omega)]

theorem exists_boundOffsets (h : ∀ entry ∈ table, entry.isSome)
    (first : Nat) : ∃ offsets, boundOffsets first table = .ok offsets := by
  induction table generalizing first with
  | nil => exact ⟨[], rfl⟩
  | cons entry table ih =>
    obtain ⟨hentry, htable⟩ := List.forall_mem_cons.1 h
    obtain ⟨offset, rfl⟩ := Option.isSome_iff_exists.1 hentry
    obtain ⟨rest, hrest⟩ := ih htable (first + 1)
    exact ⟨offset :: rest, by simp [boundOffsets, hrest, bind, Except.bind, pure, Except.pure]⟩

theorem map_some_of_boundOffsets {first : Nat} {offsets : List Nat}
    (h : boundOffsets first table = .ok offsets) : offsets.map some = table := by
  induction table generalizing first offsets with
  | nil =>
    cases h
    rfl
  | cons entry table ih =>
    cases entry with
    | none => cases h
    | some offset =>
      obtain ⟨rest, hrest, heq⟩ := exists_of_bind_eq_ok h
      cases heq
      rw [List.map_cons, ih hrest]

/-- What a layout says of labels: each that was created has an offset, where it is marked. -/
structure Code.Locates (code : Code) (labels : Nat) (lines : List Line) : Prop where
  size : code.labelOffsets.size = labels
  marked : ∀ id offset, code.labelOffsets[id]? = some offset → (⟨id⟩, offset) ∈ marks 0 lines

theorem layout_cases {b : Buffer} (h : b.layout = .ok code) : ∃ offsets rows,
    boundOffsets 0 (markTable b.labels (marks 0 b.code.lines)).toList = .ok offsets ∧
      b.code.handlers.mapM (Handler.row offsets.toArray) = .ok rows ∧
      code = ⟨placed 0 b.code.lines, offsets.toArray, rows.filter fun r => r.start < r.stop,
        b.code.maxLocals, endOffset 0 b.code.lines⟩ := by
  obtain ⟨offsets, hbound, h⟩ := exists_of_bind_eq_ok h
  obtain ⟨rows, hlift, heq⟩ := exists_of_bind_eq_ok h
  cases heq
  cases hrows : b.code.handlers.mapM (Handler.row offsets.toArray) with
  | error f =>
    rw [hrows] at hlift
    cases hlift
  | ok rows' =>
    rw [hrows] at hlift
    cases hlift
    exact ⟨offsets, rows, hbound, hrows, rfl⟩

/-- What laying out a buffer gives, if all labels are bound. -/
theorem layout_eq_ok {b : Buffer} (h : b.layout = .ok code) :
    code.Locates b.labels b.code.lines ∧ code.instructions = placed 0 b.code.lines ∧
      code.length = endOffset 0 b.code.lines ∧ code.maxLocals = b.code.maxLocals ∧
      ∃ rows, b.code.handlers.mapM (Handler.row code.labelOffsets) = .ok rows ∧
        code.exceptions = rows.filter fun r => r.start < r.stop := by
  obtain ⟨offsets, rows, hbound, hrows, rfl⟩ := layout_cases h
  have hmap := map_some_of_boundOffsets hbound
  refine ⟨⟨?_, ?_⟩, rfl, rfl, rfl, rows, hrows, rfl⟩
  · have := congrArg List.length hmap
    simpa [size_markTable] using this
  · intro id offset hid
    apply mem_of_markTable
    rw [← Array.getElem?_toList, ← hmap]
    simpa using hid

theorem forall₂_of_mapM {f : α → Except ε β} {as : List α} (h : as.mapM f = .ok bs) :
    List.Forall₂ (fun a b => f a = .ok b) as bs := by
  induction as generalizing bs with
  | nil =>
    cases h
    exact .nil
  | cons a as ih =>
    rw [List.mapM_cons] at h
    obtain ⟨first, ha, h⟩ := exists_of_bind_eq_ok h
    obtain ⟨rest, has, heq⟩ := exists_of_bind_eq_ok h
    cases heq
    exact .cons ha (ih has)

theorem exists_of_mem_mapM {f : α → Except ε β} {as : List α} (h : as.mapM f = .ok bs)
    (hb : b ∈ bs) : ∃ a ∈ as, f a = .ok b :=
  Analysis.exists_of_mem_forall₂ (R := fun a b => f a = .ok b) (forall₂_of_mapM h) hb

theorem row_eq_ok (hr : h.row offsets = .ok r) :
    offsets[h.start.id]? = some r.start ∧ offsets[h.stop.id]? = some r.stop ∧
      offsets[h.target.id]? = some r.target ∧ h.catches = r.catches := by
  have hoffset : ∀ {l : Label} {p : Nat}, offsetOf offsets l = .ok p → offsets[l.id]? = some p := by
    intro l p hp
    unfold offsetOf at hp
    split at hp
    next heq =>
      cases hp
      exact heq
    next => cases hp
  obtain ⟨start, hstart, hr⟩ := exists_of_bind_eq_ok hr
  obtain ⟨stop, hstop, hr⟩ := exists_of_bind_eq_ok hr
  obtain ⟨target, htarget, heq⟩ := exists_of_bind_eq_ok hr
  cases heq
  exact ⟨hoffset hstart, hoffset hstop, hoffset htarget, rfl⟩

/-! ## Code that is laid out -/

theorem exists_mapM {f : α → Except ε β} {as : List α}
    (h : ∀ a ∈ as, ∃ b, f a = .ok b) : ∃ bs, as.mapM f = .ok bs := by
  induction as with
  | nil => exact ⟨[], rfl⟩
  | cons a as ih =>
    obtain ⟨⟨b, hb⟩, has⟩ := List.forall_mem_cons.1 h
    obtain ⟨bs, hbs⟩ := ih has
    exact ⟨b :: bs, by simp [List.mapM_cons, hb, hbs, bind, Except.bind, pure, Except.pure]⟩

/-- A handler between labels that were created. -/
def Handler.Known (labels : Nat) (h : Handler) : Prop :=
  h.start.id < labels ∧ h.stop.id < labels ∧ h.target.id < labels

theorem Handler.Known.exists_row {offsets : Array Nat}
    (hknown : h.Known offsets.size) : ∃ r, h.row offsets = .ok r := by
  obtain ⟨hstart, hstop, htarget⟩ := hknown
  simp [row, offsetOf, hstart, hstop, htarget, bind, Except.bind, pure, Except.pure]

/-- Lines are laid out if every label that was created is marked, and handlers have only such
labels. -/
theorem exists_layout {b : Buffer} (hmarks : ∀ id < b.labels, ∃ p, (⟨id⟩, p) ∈ marks 0 b.code.lines)
    (hhandlers : ∀ h ∈ b.code.handlers, h.Known b.labels) : ∃ code, b.layout = .ok code := by
  have hbound : ∀ entry ∈ (markTable b.labels (marks 0 b.code.lines)).toList, entry.isSome := by
    intro entry hentry
    obtain ⟨id, hid, rfl⟩ := List.mem_iff_getElem.1 hentry
    rw [Array.length_toList, size_markTable] at hid
    obtain ⟨p, hp⟩ := hmarks id hid
    obtain ⟨offset, hoffset⟩ := exists_of_mem_marks hp hid
    rw [Array.getElem_toList, (Array.getElem?_eq_some_iff.1 hoffset).2]
    rfl
  obtain ⟨offsets, hoffsets⟩ := exists_boundOffsets hbound 0
  have hsize : offsets.toArray.size = b.labels := by
    have := congrArg List.length (map_some_of_boundOffsets hoffsets)
    simpa [size_markTable] using this
  obtain ⟨rows, hrows⟩ := exists_mapM fun h hh => (hsize ▸ hhandlers h hh).exists_row
  simp [Buffer.layout, hoffsets, hrows, Failure.lift, bind, Except.bind, pure, Except.pure]

end JMinusMinus
