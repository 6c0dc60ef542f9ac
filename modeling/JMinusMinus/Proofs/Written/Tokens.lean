import JMinusMinus.Proofs.Written.Basic

/-!
# Tokens of a text

What is known of the tokens that were read from a text: an identifier is a word, and the quotes of
a character or a string can be taken off (`tokenize_lexical`).
-/

namespace JMinusMinus.Lexer

variable {c : Char} {k : Kind} {cs : List Char} {n : Nat}

theorem isWordRest_of_isWordStart (h : isWordStart c) : isWordRest c := by
  simp only [isWordStart, isWordRest, Char.isAlphanum, Bool.or_eq_true] at h ⊢
  rcases h with (h | h) | h <;> simp [h]

theorem take_run {p : Char → Bool} (cs : List Char) : cs.take (run p cs) = cs.takeWhile p :=
  (List.prefix_iff_eq_take.1 (List.takeWhile_prefix p)).symm

theorem number_kind (cs : List Char) : (number cs).1 ∈ [Kind.intLiteral, .longLiteral,
    .doubleLiteral] := by
  simp only [number]
  repeat' split
  all_goals simp

theorem mem_of_symbol? (h : symbol? cs = some k) :
    k ∈ Kind.symbols.filter fun k => k.image.toList.isPrefixOf cs := by
  have hlonger : ∀ (ks : List Kind) (best : Option Kind), ks.foldl longer best = some k →
      best = some k ∨ k ∈ ks := by
    intro ks
    induction ks with
    | nil => exact fun _ h => .inl h
    | cons j ks ih =>
      intro best h
      rcases ih _ h with h | h
      · simp only [longer] at h
        repeat' split at h
        all_goals simp_all
      · exact .inr (List.mem_cons_of_mem _ h)
  rcases hlonger _ _ h with h | h
  · cases h
  · exact h

theorem mem_symbols_of_symbol? (h : symbol? cs = some k) : k ∈ Kind.symbols :=
  (List.mem_filter.1 (mem_of_symbol? h)).1

theorem mem_keywords_of_keyword? (h : Kind.keyword? word = some k) : k ∈ Kind.keywords :=
  List.mem_of_find?_eq_some h

theorem word_of_slice (h : (slice c cs).1 = some .identifier) :
    ∀ d ∈ c :: cs.take (slice c cs).2, isWordRest d := by
  by_cases hblank : isBlank c
  · simp [slice, hblank] at h
  by_cases hword : isWordStart c
  · have hn : (slice c cs).2 = run isWordRest cs := by
      simp [slice, hblank, hword]
    rw [hn, take_run]
    intro d hd
    rcases List.mem_cons.1 hd with rfl | hd
    · exact isWordRest_of_isWordStart hword
    · exact List.all_eq_true.1 List.all_takeWhile d hd
  · -- No other rule makes an identifier.
    exfalso
    have hnumber : (number cs).1 ≠ .identifier := fun h => by
      have := number_kind cs
      simp [h] at this
    have hsymbol : symbol? (c :: cs) ≠ some .identifier := fun h =>
      absurd (mem_symbols_of_symbol? h) (by decide)
    simp only [slice, hblank, hword] at h
    repeat' split at h
    all_goals simp_all

/-- A quoted text without its quotes. -/
theorem unquoted_eq_ok (hc : c.utf8Size = 1) (hlast : (c :: cs).getLast? = some last)
    (hl : last.utf8Size = 1) : ∃ text, Literal.unquoted (String.ofList (c :: cs)) = .ok text := by
  unfold Literal.unquoted
  rw [String.toList_ofList, hlast]
  split
  · exact ⟨_, rfl⟩
  · exact ⟨_, if_pos ⟨hc, hl⟩⟩

theorem getLast?_stringItems (h : stringItems cs = (n, true)) :
    (cs.take (n + 1)).getLast? = some '\x22' := by
  fun_induction stringItems cs generalizing n with
  | case2 cs =>
    cases h
    rfl
  | case6 c cs hc m closed hrest ih =>
    cases h
    rw [List.take_succ_cons, List.take_succ_cons, List.getLast?_cons, List.getLast?_cons, ih hrest]
    rfl
  | case7 c cs _ _ _ _ m closed hrest ih =>
    cases h
    rw [List.take_succ_cons, List.getLast?_cons, ih hrest]
    rfl
  | _ => cases h

theorem getLast?_charLength (h : charLength? cs = some n) : (cs.take n).getLast? = some '\x27' := by
  unfold charLength? at h
  split at h
  · split at h
    · cases h
    · cases h
      rfl
  · split at h
    · cases h
    · cases h
      rfl
  · cases h

theorem quote_of_slice (hk : k ∈ [Kind.charLiteral, .stringLiteral]) (h : (slice c cs).1 = some k) :
    c = '\x22' ∨ c = '\x27' := by
  have hword : (Kind.keyword? (c :: cs.take (run isWordRest cs))).getD .identifier ≠ k := by
    intro heq
    cases hkeyword : Kind.keyword? (c :: cs.take (run isWordRest cs)) with
    | none =>
      rw [hkeyword] at heq
      exact absurd (heq ▸ hk) (by decide)
    | some j =>
      rw [hkeyword] at heq
      obtain rfl : j = k := heq
      exact (by decide : ∀ j ∈ Kind.keywords, j ∉ [Kind.charLiteral, .stringLiteral]) j
        (mem_keywords_of_keyword? hkeyword) hk
  have hnumber : (number cs).1 ≠ k := by
    rintro rfl
    exact (by decide : ∀ j ∈ [Kind.intLiteral, .longLiteral, .doubleLiteral],
      j ∉ [Kind.charLiteral, .stringLiteral]) _ (number_kind cs) hk
  have hsymbol : symbol? (c :: cs) ≠ some k := fun hsome =>
    (by decide : ∀ j ∈ Kind.symbols, j ∉ [Kind.charLiteral, .stringLiteral]) k
      (mem_symbols_of_symbol? hsome) hk
  have hblank : k ≠ .whitespace ∧ k ≠ .lineComment ∧ k ≠ .blockComment :=
    (by decide : ∀ j ∈ [Kind.charLiteral, .stringLiteral],
      j ≠ .whitespace ∧ j ≠ .lineComment ∧ j ≠ .blockComment) k hk
  simp only [slice] at h
  repeat' split at h
  all_goals simp_all

theorem quoted_of_slice
    (h : (slice c cs).1 = some .charLiteral ∨ (slice c cs).1 = some .stringLiteral) :
    ∃ text, Literal.unquoted (String.ofList (c :: cs.take (slice c cs).2)) = .ok text := by
  by_cases hstring : c = '\x22'
  · subst hstring
    have hslice : slice '\x22' cs = if (stringItems cs).2 = true then
        (some .stringLiteral, (stringItems cs).1 + 1) else (none, (stringItems cs).1) := by
      simp [slice, isBlank, isWordStart, Char.isDigit]
    rw [hslice] at h ⊢
    cases hclosed : (stringItems cs).2 with
    | false => simp [hclosed] at h
    | true =>
      have hlast := getLast?_stringItems (Prod.ext rfl hclosed : stringItems cs = (_, true))
      have hquote : '\x22'.utf8Size = 1 := rfl
      refine unquoted_eq_ok hquote ?_ hquote
      simp [List.getLast?_cons, hlast]
  by_cases hchar : c = '\x27'
  · subst hchar
    have hslice : slice '\x27' cs =
        (charLength? cs).elim (none, 0) fun n => (some .charLiteral, n) := by
      cases hlength : charLength? cs <;> simp [slice, isBlank, isWordStart, Char.isDigit, hlength]
    rw [hslice] at h ⊢
    cases hlength : charLength? cs with
    | none => simp [hlength] at h
    | some n =>
      have hquote : '\x27'.utf8Size = 1 := rfl
      refine unquoted_eq_ok hquote ?_ hquote
      simp [List.getLast?_cons, getLast?_charLength hlength]
  · exfalso
    rcases h with h | h
    · exact (quote_of_slice (by simp) h).elim hstring hchar
    · exact (quote_of_slice (by simp) h).elim hstring hchar

theorem lexical_of_slice (h : (slice c cs).1 = some k) (location : Location) :
    Token.Lexical ⟨k, String.ofList (c :: cs.take (slice c cs).2), location⟩ := by
  refine ⟨fun hkind => ?_, fun hkind => quoted_of_slice ?_⟩
  · obtain rfl : k = .identifier := hkind
    simpa [IsWord] using word_of_slice h
  · rcases hkind with hkind | hkind
    · obtain rfl : k = .charLiteral := hkind
      exact .inl h
    · obtain rfl : k = .stringLiteral := hkind
      exact .inr h

theorem slicesWithin_lexical : ∀ bound start cs, ∀ s ∈ (slicesWithin bound start cs).1,
      ∀ k, s.kind = some k → Token.Lexical ⟨k, String.ofList s.text, s.location⟩
  | 0, _, _ => by simp [slicesWithin]
  | _ + 1, _, [] => by simp [slicesWithin]
  | bound + 1, start, c :: cs => by
    intro s hs k hkind
    rw [slicesWithin] at hs
    rcases List.mem_cons.1 hs with rfl | hs
    · exact lexical_of_slice hkind _
    · exact slicesWithin_lexical bound _ _ s hs k hkind

/-- The tokens of a text are as the lexer makes them. -/
theorem tokenize_lexical (source : String) : ∀ t ∈ (tokenize source).1, t.Lexical := by
  intro t ht
  simp only [tokenize, List.mem_append, List.mem_filterMap, List.mem_singleton] at ht
  rcases ht with ⟨s, hs, htoken⟩ | rfl
  · simp only [Slice.token?] at htoken
    split at htoken
    case h_1 kind hk =>
      split at htoken
      · cases htoken
      · cases htoken
        exact slicesWithin_lexical _ _ _ s hs kind hk
    case h_2 => cases htoken
  · exact ⟨nofun, fun h => by rcases h with h | h <;> cases h⟩

end JMinusMinus.Lexer
