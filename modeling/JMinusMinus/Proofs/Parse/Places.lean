import JMinusMinus.Proofs.Parse.Unit
import Mathlib.Data.List.DropRight

/-!
# Places of tokens

A text is cut up without loss, and every slice starts at the place that the text before it ends at.
The place after a text is counted from the text alone (`Location.after`), and advancing over more
text keeps the count (`Location.advanceAll_after`).
-/

namespace JMinusMinus

open List

/-- The place after a text that starts a source. -/
def Location.after (before : List Char) : Location where
  line := 1 + before.count '\n'
  column := 1 + ((before.rtakeWhile (· ≠ '\n')).filter (· ≠ '\r')).length
  offset := (String.ofList before).utf8ByteSize

namespace Location

theorem advance_after (before : List Char) (c : Char) :
    (after before).advance c = after (before ++ [c]) := by
  have hsize : (String.ofList (before ++ [c])).utf8ByteSize =
      (String.ofList before).utf8ByteSize + c.utf8Size := by
    simp [String.ofList_append]
  simp only [advance, after, hsize, rtakeWhile_concat, count_append]
  by_cases hfeed : c = '\n'
  · simp [hfeed, Nat.add_assoc]
  · by_cases hreturn : c = '\r' <;> simp [hfeed, hreturn, Nat.add_assoc]

theorem advanceAll_after (before text : List Char) :
    (after before).advanceAll text = after (before ++ text) := by
  induction text generalizing before with
  | nil => simp [advanceAll]
  | cons c cs ih =>
    calc (after before).advanceAll (c :: cs)
      _ = ((after before).advance c).advanceAll cs := rfl
      _ = after (before ++ c :: cs) := by rw [advance_after, ih]; simp

theorem offset_after_append (before text : List Char) :
    (after (before ++ text)).offset = (after before).offset +
      (String.ofList text).utf8ByteSize := by
  simp [after, String.ofList_append]

theorem offset_after_lt {before text : List Char} (h : text ≠ []) :
    (after before).offset < (after (before ++ text)).offset := by
  obtain ⟨c, cs, rfl⟩ := exists_cons_of_ne_nil h
  rw [offset_after_append, String.ofList_cons]
  have := c.utf8Size_pos
  simp
  omega

end Location

namespace Lexer

/-- Slices that follow a text, none of them empty and each with the place it starts at. -/
def Placed : List Char → List Slice → Prop
  | _, [] => True
  | before, s :: rest =>
    s.text ≠ [] ∧ s.location = .after before ∧ Placed (before ++ s.text) rest

theorem slicesWithin_placed (bound : Nat) (before cs : List Char) (hbound : cs.length ≤ bound) :
    Placed before (slicesWithin bound (.after before) cs).1 ∧
      (slicesWithin bound (.after before) cs).1.flatMap Slice.text = cs ∧
      (slicesWithin bound (.after before) cs).2 = .after (before ++ cs) := by
  induction bound generalizing before cs with
  | zero =>
    obtain rfl := length_eq_zero_iff.1 (Nat.le_zero.1 hbound)
    simp [slicesWithin, Placed]
  | succ bound ih =>
    cases cs with
    | nil => simp [slicesWithin, Placed]
    | cons c cs =>
      let n := (slice c cs).2
      have hrest := ih (before ++ c :: cs.take n) (cs.drop n)
        (by simp only [length_cons, length_drop] at hbound ⊢; omega)
      rw [slicesWithin]
      simp only [Location.advanceAll_after]
      refine ⟨⟨by simp, rfl, hrest.1⟩, ?_, ?_⟩
      · rw [flatMap_cons, hrest.2.1, cons_append, take_append_drop]
      · rw [hrest.2.2, append_assoc, cons_append, take_append_drop]

/-- A slice starts where those before it end. -/
theorem Placed.split (h : Placed before pieces) (hsplit : pieces = front ++ s :: back) :
    s.text ≠ [] ∧ s.location = .after (before ++ front.flatMap Slice.text) := by
  subst hsplit
  induction front generalizing before with
  | nil => exact ⟨h.1, by simpa using h.2.1⟩
  | cons t front ih => simpa using ih h.2.2

/-- The text that slices take up bounds where they start. -/
theorem Placed.offset (h : Placed before pieces) :
    ∀ s ∈ pieces, (Location.after before).offset ≤ s.location.offset ∧
      s.location.offset < (Location.after (before ++ pieces.flatMap Slice.text)).offset := by
  intro s hs
  obtain ⟨front, back, hsplit⟩ := append_of_mem hs
  obtain ⟨htext, hlocation⟩ := h.split hsplit
  rw [hlocation]
  refine ⟨by rw [Location.offset_after_append]; exact Nat.le_add_right .., ?_⟩
  calc (Location.after (before ++ front.flatMap Slice.text)).offset
    _ < (Location.after (before ++ front.flatMap Slice.text ++ s.text)).offset :=
      Location.offset_after_lt htext
    _ ≤ (Location.after (before ++ pieces.flatMap Slice.text)).offset := by
      rw [hsplit, flatMap_append, flatMap_cons, ← append_assoc, ← append_assoc,
        Location.offset_after_append _ (back.flatMap Slice.text)]
      exact Nat.le_add_right ..

theorem Placed.increasing (h : Placed before pieces) :
    pieces.Pairwise fun s t => s.location.offset < t.location.offset := by
  induction pieces generalizing before with
  | nil => exact .nil
  | cons s rest ih =>
    refine .cons (fun t ht => ?_) (ih h.2.2)
    rw [h.2.1]
    exact Nat.lt_of_lt_of_le (Location.offset_after_lt h.1) (Placed.offset h.2.2 t ht).1

theorem Slice.location_of_token? {s : Slice} (h : s.token? = some t) : t.location = s.location := by
  simp only [token?] at h
  split at h
  · split at h <;> cases h
    rfl
  · cases h

/-- A slice is a token if it has a kind that is no trivia. -/
theorem Slice.token?_eq (s : Slice) : s.token? =
    (s.kind.filter (· ∉ [.whitespace, .lineComment, .blockComment])).map
      (⟨·, String.ofList s.text, s.location⟩) := by
  unfold token?
  split
  next k hk => cases k <;> rw [hk] <;> rfl
  next hk => rw [hk]; rfl

/-- Nothing of a source is lost and every place is exact. The slices make up the source, and each
starts where the ones before it end, errors included. The tokens are the slices that are no trivia
and no errors, at increasing offsets up to that of the end of input, which comes once. Every slice
that is an error is reported, on its line. -/
theorem tokenize_places (source : String) :
    (slices source.toList).1.flatMap Slice.text = source.toList ∧
    (∀ front s back, (slices source.toList).1 = front ++ s :: back →
      s.text ≠ [] ∧ s.location = .after (front.flatMap Slice.text)) ∧
    (∃ tokens, (tokenize source).1 = tokens ++ [.endOfInput (.after source.toList)] ∧
      tokens = (slices source.toList).1.filterMap (fun s =>
        (s.kind.filter (· ∉ [.whitespace, .lineComment, .blockComment])).map
          (⟨·, String.ofList s.text, s.location⟩)) ∧
      ∀ t ∈ tokens, t.kind ≠ .endOfInput) ∧
    ((tokenize source).1.Pairwise fun t u => t.location.offset < u.location.offset) ∧
    (tokenize source).2 = ((slices source.toList).1.filter (·.kind.isNone)).map
      fun s => ⟨s.location.line, String.ofList s.text⟩ := by
  obtain ⟨hplaced, htext, hstop⟩ := slicesWithin_placed source.toList.length [] source.toList le_rfl
  change Placed [] (slices source.toList).1 at hplaced
  change (slices source.toList).1.flatMap Slice.text = source.toList at htext
  change (slices source.toList).2 = .after source.toList at hstop
  have htokens : (tokenize source).1 = (slices source.toList).1.filterMap Slice.token? ++
      [.endOfInput (.after source.toList)] := by rw [← hstop]; rfl
  have hends := Grammar.tokenize_endsOnce source
  refine ⟨htext, fun front s back hsplit => by simpa using hplaced.split hsplit,
    ⟨_, htokens, filterMap_congr fun s _ => Slice.token?_eq s, fun t ht => hends t ?_⟩, ?_, ?_⟩
  · rwa [htokens, dropLast_concat]
  · rw [htokens, pairwise_append]
    refine ⟨pairwise_filterMap.2 (hplaced.increasing.imp fun hlt t ht u hu => ?_),
      pairwise_singleton .., fun t ht u hu => ?_⟩
    · rwa [Slice.location_of_token? ht, Slice.location_of_token? hu]
    · obtain rfl := mem_singleton.1 hu
      obtain ⟨s, hs, hst⟩ := mem_filterMap.1 ht
      rw [Slice.location_of_token? hst]
      have hlt := (hplaced.offset s hs).2
      rw [htext] at hlt
      exact hlt
  · change (slices source.toList).1.filterMap Slice.unidentified? = _
    rw [← filterMap_eq_map, filterMap_filter]
    refine filterMap_congr fun s _ => ?_
    cases hkind : s.kind <;> simp [Slice.unidentified?, hkind]

end Lexer

end JMinusMinus
