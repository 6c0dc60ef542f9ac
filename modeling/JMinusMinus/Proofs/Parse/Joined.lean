import JMinusMinus.Proofs.Parse.Unit

/-!
# Reading tokens again

The tokens of a text, written with one blank between them, are read back as they were
(`tokenize_joined`). Every rule ends its token at a blank: on a text that is cut off after what the
rule takes, or later, and goes on with a blank or not at all, the rule takes the same
(`TakesSame`). So every slice that is a token is a slice of the joined text too, and what stands
between is white space.
-/

open List

namespace JMinusMinus.Lexer

variable {c : Char} {k : Kind} {cs rest : List Char} {m n : Nat}

/-- A text that goes on with a blank or not at all. -/
def Parted (rest : List Char) : Prop := ∀ c ∈ rest.head?, c = ' '

/-- A rule takes no more than there is, and does not look past a cut that a blank follows. -/
structure TakesSame (f : List Char → Nat) : Prop where
  le : ∀ cs, f cs ≤ cs.length
  cut : ∀ cs m rest, f cs ≤ m → Parted rest → f (cs.take m ++ rest) = f cs

theorem TakesSame.of_cons {f : List Char → Nat} (hle : ∀ cs, f cs ≤ cs.length)
    (hparted : ∀ rest, Parted rest → f rest = 0)
    (hcons : ∀ c cs m rest, (∀ m, f cs ≤ m → f (cs.take m ++ rest) = f cs) →
      f (c :: cs) ≤ m + 1 → Parted rest → f (c :: (cs.take m ++ rest)) = f (c :: cs)) :
    TakesSame f where
  le := hle
  cut := by
    intro cs m rest hm hrest
    induction cs generalizing m with
    | nil => rw [take_nil, nil_append, hparted rest hrest, hparted [] nofun]
    | cons c cs ih =>
      cases m with
      | zero => rw [take_zero, nil_append, hparted rest hrest, Nat.le_zero.1 hm]
      | succ m => exact hcons c cs m rest ih hm hrest

/-! ## Runs and numbers -/

theorem run_cons (p : Char → Bool) :
    run p (c :: cs) = if p c then run p cs + 1 else 0 := by
  by_cases hc : p c <;> simp [run, hc]

theorem run_takesSame {p : Char → Bool} (hp : p ' ' = false) : TakesSame (run p) := by
  refine .of_cons (fun cs => ( takeWhile_prefix p).length_le) ?_ ?_
  · intro rest hrest
    cases rest with
    | nil => rfl
    | cons d rest =>
      obtain rfl := hrest d rfl
      simp [run_cons, hp]
  · intro d cs m rest ih hm _
    simp only [run_cons] at hm ⊢
    by_cases hd : p d
    · simp only [hd, if_true] at hm ⊢
      rw [ih m (Nat.le_of_succ_le_succ hm)]
    · simp [hd]

theorem digits_takesSame : TakesSame (run Char.isDigit) := run_takesSame rfl

theorem fractionLength_takesSame : TakesSame fractionLength := by
  refine .of_cons (fun cs => ?_) (fun rest hrest => ?_) fun d cs m rest _ hm hrest => ?_
  · unfold fractionLength
    split
    next cs =>
      have := digits_takesSame.le cs
      grind
    next => exact Nat.zero_le _
  · unfold fractionLength
    split
    next => cases hrest '.' rfl
    next => rfl
  · by_cases hd : d = '.'
    · subst hd
      have hdigits : run Char.isDigit cs ≤ m := by
        simp only [fractionLength] at hm
        grind
      simp only [fractionLength, digits_takesSame.cut cs m rest hdigits hrest]
    · simp [fractionLength, hd]

theorem Parted.exponentLength_cons (h : Parted rest) (e : Char) :
    exponentLength (e :: rest) = 0 := by
  cases rest with
  | nil => rfl
  | cons s rest =>
    obtain rfl := h s rfl
    simp [exponentLength, run_cons]

theorem exponentLength_takesSame : TakesSame exponentLength := by
  refine .of_cons (fun cs => ?_) (fun rest hrest => ?_) fun e cs m rest _ hm hrest => ?_
  · unfold exponentLength
    split
    next e s cs =>
      have := digits_takesSame.le cs
      have := digits_takesSame.le (s :: cs)
      grind
    next => exact Nat.zero_le _
  · unfold exponentLength
    split
    next =>
      obtain rfl := hrest _ rfl
      rfl
    next => rfl
  · cases cs with
    | nil => rw [take_nil, nil_append, hrest.exponentLength_cons]; rfl
    | cons s cs =>
      cases m with
      | zero =>
        -- An exponent takes two characters at least.
        have hzero : exponentLength (e :: s :: cs) = 0 := by
          simp only [exponentLength] at hm ⊢
          grind
        rw [hzero]
        exact hrest.exponentLength_cons e
      | succ m =>
        have hdigits := digits_takesSame.cut cs m rest
        have hsdigits := digits_takesSame.cut (s :: cs) (m + 1) rest
        simp only [take_succ_cons, cons_append] at hsdigits ⊢
        simp only [exponentLength] at hm ⊢
        grind

theorem drop_cut {j : Nat} (hm : j ≤ m) (hlength : j ≤ cs.length) :
    (cs.take m ++ rest).drop j = (cs.drop j).take (m - j) ++ rest := by
  rw [drop_append_of_le_length (by simp; omega), drop_take]

/-- What two rules take one after the other. -/
def inTurn (f g : List Char → Nat) (cs : List Char) : Nat := f cs + g (cs.drop (f cs))

theorem TakesSame.inTurn {f g : List Char → Nat} (hf : TakesSame f) (hg : TakesSame g) :
    TakesSame (inTurn f g) where
  le := by
    intro cs
    have hfirst := hf.le cs
    have hsecond := hg.le (cs.drop (f cs))
    rw [length_drop] at hsecond
    simp only [Lexer.inTurn]
    omega
  cut := by
    intro cs m rest hm hrest
    simp only [Lexer.inTurn] at hm ⊢
    rw [hf.cut cs m rest (by omega) hrest, drop_cut (by omega) (hf.le cs),
      hg.cut _ _ rest (by omega) hrest]

/-- What a number takes without the letter at its end. -/
def unmarked : List Char → Nat := inTurn (inTurn (run Char.isDigit) fractionLength) exponentLength

theorem unmarked_takesSame : TakesSame unmarked :=
  (digits_takesSame.inTurn fractionLength_takesSame).inTurn exponentLength_takesSame

theorem number_eq (cs : List Char) : number cs =
    if startsWith 'd' 'D' (cs.drop (unmarked cs)) then (.doubleLiteral, unmarked cs + 1)
    else if unmarked cs ≠ run Char.isDigit cs then (.doubleLiteral, unmarked cs)
    else if startsWith 'l' 'L' (cs.drop (unmarked cs)) then (.longLiteral, unmarked cs + 1)
    else (.intLiteral, unmarked cs) := by
  have hparts : ∀ w f e : Nat, (w + f + e ≠ w) = (f + e ≠ 0) := fun w f e => by
    rw [eq_iff_iff]
    omega
  simp only [unmarked, inTurn, hparts]
  rfl

theorem startsWith_take {lower upper : Char} (h : startsWith lower upper cs = true) :
    cs ≠ [] ∧ ∀ a b rest, startsWith a b (cs.take 1 ++ rest) = startsWith a b cs := by
  cases cs with
  | nil => cases h
  | cons => exact ⟨nofun, fun _ _ _ => rfl⟩

theorem Parted.startsWith {lower upper : Char} (h : Parted rest) (hlower : ' ' ≠ lower)
    (hupper : ' ' ≠ upper) : startsWith lower upper rest = false := by
  cases rest with
  | nil => rfl
  | cons d rest =>
    obtain rfl := h d rfl
    simp [Lexer.startsWith, hlower, hupper]

theorem number_cut (cs : List Char) (hrest : Parted rest) :
    (number cs).2 ≤ cs.length ∧ number (cs.take (number cs).2 ++ rest) = number cs := by
  have hle := unmarked_takesSame.le cs
  have hdigits : run Char.isDigit cs ≤ unmarked cs := by
    simp only [unmarked, inTurn]
    omega
  have hcut (m : Nat) (hm : unmarked cs ≤ m) :
      unmarked (cs.take m ++ rest) = unmarked cs ∧
        run Char.isDigit (cs.take m ++ rest) = run Char.isDigit cs ∧
        (cs.take m ++ rest).drop (unmarked cs) =
          (cs.drop (unmarked cs)).take (m - unmarked cs) ++ rest :=
    ⟨unmarked_takesSame.cut cs m rest hm hrest,
      digits_takesSame.cut cs m rest (Nat.le_trans hdigits hm) hrest, drop_cut hm hle⟩
  -- With a letter at its end the cut is behind the letter, without one a blank follows.
  have hmarked {lower upper : Char} (h : startsWith lower upper (cs.drop (unmarked cs)) = true) :
      unmarked cs + 1 ≤ cs.length ∧ number (cs.take (unmarked cs + 1) ++ rest) = number cs := by
    obtain ⟨hne, hsame⟩ := startsWith_take h
    obtain ⟨hunmarked, hrun, hdrop⟩ := hcut (unmarked cs + 1) (Nat.le_succ _)
    rw [Nat.add_sub_cancel_left] at hdrop
    refine ⟨by simpa using hne, ?_⟩
    simp only [number_eq, hunmarked, hrun, hdrop, hsame]
  have hplain (hd : startsWith 'd' 'D' (cs.drop (unmarked cs)) = false)
      (hl : unmarked cs ≠ run Char.isDigit cs ∨
        startsWith 'l' 'L' (cs.drop (unmarked cs)) = false) :
      number (cs.take (unmarked cs) ++ rest) = number cs := by
    obtain ⟨hunmarked, hrun, hdrop⟩ := hcut (unmarked cs) le_rfl
    rw [Nat.sub_self, take_zero, nil_append] at hdrop
    have hd' : startsWith 'd' 'D' rest = false := hrest.startsWith (by decide) (by decide)
    have hl' : startsWith 'l' 'L' rest = false := hrest.startsWith (by decide) (by decide)
    simp only [number_eq, hunmarked, hrun, hdrop, hd, hd', hl']
    rcases hl with hl | hl <;> simp [hl]
  have hends : (number cs).2 = unmarked cs + 1 ∧
        (∃ lower upper, startsWith lower upper (cs.drop (unmarked cs)) = true) ∨
      (number cs).2 = unmarked cs ∧ startsWith 'd' 'D' (cs.drop (unmarked cs)) = false ∧
        (unmarked cs ≠ run Char.isDigit cs ∨
          startsWith 'l' 'L' (cs.drop (unmarked cs)) = false) := by
    rw [number_eq]
    grind
  rcases hends with ⟨heq, lower, upper, h⟩ | ⟨heq, hd, hl⟩
  · rw [heq]
    exact hmarked h
  · rw [heq]
    exact ⟨hle, hplain hd hl⟩

/-! ## Quoted text and symbols -/

theorem stringItems_cut (h : stringItems cs = (n, true)) :
    n + 1 ≤ cs.length ∧ ∀ rest, stringItems (cs.take (n + 1) ++ rest) = (n, true) := by
  fun_induction stringItems cs generalizing n with
  | case2 cs =>
    cases h
    exact ⟨by simp, fun _ => rfl⟩
  | case6 c cs hc m closed hrest ih =>
    cases h
    obtain ⟨hle, hcut⟩ := ih hrest
    refine ⟨by simpa using hle, fun rest => ?_⟩
    rw [take_succ_cons, take_succ_cons, cons_append, cons_append]
    simp [stringItems, hc, hcut]
  | case7 c cs _ _ _ hescape m closed hrest ih =>
    cases h
    obtain ⟨hle, hcut⟩ := ih hrest
    refine ⟨by simpa using hle, fun rest => ?_⟩
    have hc : c ≠ '\\' := by
      rintro rfl
      obtain ⟨d, cs, rfl⟩ := exists_cons_of_length_pos (Nat.lt_of_lt_of_le (Nat.succ_pos _) hle)
      exact hescape d cs rfl rfl
    rw [take_succ_cons, cons_append]
    simp [stringItems, hc, hcut]
  | _ => cases h

theorem charLength?_cut (h : charLength? cs = some n) :
    n ≤ cs.length ∧ ∀ rest, charLength? (cs.take n ++ rest) = some n := by
  unfold charLength? at h
  split at h
  · split at h <;> cases h
    next hc => exact ⟨by simp, fun _ => by simp [charLength?, hc]⟩
  · split at h <;> cases h
    next hc => exact ⟨by simp, fun _ => by simp_all [charLength?]⟩
  · cases h

theorem Parted.prefix_append_iff {word front : List Char} (h : Parted rest) (hblank : ' ' ∉ word) :
    word <+: front ++ rest ↔ word <+: front := by
  refine ⟨fun hword => ?_, fun hword => hword.trans (prefix_append ..)⟩
  rcases prefix_or_prefix_of_prefix hword (prefix_append front rest) with hle | ⟨more, rfl⟩
  · exact hle
  · have hmore := (prefix_append_right_inj front).1 hword
    cases more with
    | nil => simp
    | cons d more =>
      obtain ⟨after, rfl⟩ := hmore
      obtain rfl := h d rfl
      simp at hblank

theorem symbol?_image (hk : k ∈ Kind.symbols) (hrest : Parted rest) :
    symbol? (k.image.toList ++ rest) = some k := by
  have himage : ∀ k ∈ Kind.symbols, symbol? k.image.toList = some k := by decide +kernel
  have hblank : ∀ j ∈ Kind.symbols, ' ' ∉ j.image.toList := by decide +kernel
  rw [← himage k hk, symbol?, symbol?]
  congr 1
  refine filter_congr fun j hj => Bool.eq_iff_iff.2 ?_
  simpa using hrest.prefix_append_iff (hblank j hj)

theorem symbol?_cut (h : symbol? (c :: cs) = some k) (hrest : Parted rest) :
    k.image.length - 1 ≤ cs.length ∧
      symbol? (c :: (cs.take (k.image.length - 1) ++ rest)) = some k := by
  obtain ⟨hk, hfront⟩ := mem_filter.1 (mem_of_symbol? h)
  obtain ⟨d, tail, htail⟩ := exists_cons_of_ne_nil
    ((by decide +kernel : ∀ j ∈ Kind.symbols, j.image.toList ≠ []) k hk)
  have hlength : k.image.length - 1 = tail.length := by
    rw [← String.length_toList, htail, length_cons, Nat.add_sub_cancel]
  rw [ isPrefixOf_iff_prefix, htail, cons_prefix_cons] at hfront
  obtain ⟨rfl, hfront⟩ := hfront
  rw [hlength, ← prefix_iff_eq_take.1 hfront, ← cons_append, ← htail]
  exact ⟨hfront.length_le, symbol?_image hk hrest⟩

/-! ## Slices -/

/-- What starts no comment starts none after a cut. -/
theorem starts_cut {mark : Char} (hmark : ' ' ≠ mark) (hrest : Parted rest)
    (h : ¬(c = '/' && startsWith mark mark cs) = true) :
    ¬(c = '/' && startsWith mark mark (cs.take n ++ rest)) = true := by
  have hnone : startsWith mark mark rest = false := hrest.startsWith hmark hmark
  cases n with
  | zero => simp [hnone]
  | succ n =>
    cases cs with
    | nil => simp [hnone]
    | cons => exact h

theorem slice_cut (h : slice c cs = (some k, n)) (hk : k.isTrivia = false) (hrest : Parted rest) :
    n ≤ cs.length ∧ slice c (cs.take n ++ rest) = (some k, n) := by
  unfold slice at h ⊢
  split at h
  next hblank =>
    cases h
    cases hk
  next hblank =>
  rw [if_neg hblank]
  split at h
  next hword =>
    have hsame := run_takesSame (p := isWordRest) rfl
    have hle := hsame.le cs
    cases h
    simp only [if_pos hword, hsame.cut cs _ rest le_rfl hrest]
    rw [take_append_of_le_length (by simpa using hle), take_take, Nat.min_self]
    exact ⟨hle, rfl⟩
  next hword =>
  rw [if_neg hword]
  split at h
  next hdigit =>
    obtain ⟨hle, hcut⟩ := number_cut cs hrest
    rcases hnumber : number cs with ⟨kind, m⟩
    rw [hnumber] at h hle hcut
    cases h
    simpa only [if_pos hdigit, hcut, and_true] using hle
  next hdigit =>
  rw [if_neg hdigit]
  split at h
  next hstring =>
    rcases hitems : stringItems cs with ⟨m, closed⟩
    rw [hitems] at h
    cases closed with
    | false => cases h
    | true =>
      cases h
      obtain ⟨hle, hcut⟩ := stringItems_cut hitems
      simp only [if_pos hstring, hcut]
      exact ⟨hle, rfl⟩
  next hstring =>
  rw [if_neg hstring]
  split at h
  next hchar =>
    split at h
    next hlength =>
      cases h
      obtain ⟨hle, hcut⟩ := charLength?_cut hlength
      simpa only [if_pos hchar, hcut, and_true] using hle
    next => cases h
  next hchar =>
  rw [if_neg hchar]
  split at h
  next =>
    cases h
    cases hk
  next hline =>
  split at h
  next =>
    split at h
    · cases h
      cases hk
    · cases h
  next hblock =>
  rw [if_neg (starts_cut (by decide) hrest hline), if_neg (starts_cut (by decide) hrest hblock)]
  split at h
  next hsymbol =>
    cases h
    obtain ⟨hle, hcut⟩ := symbol?_cut hsymbol hrest
    simpa only [hcut, and_true] using hle
  next => cases h

/-- A token that its own text makes, whatever follows after a blank. -/
structure Firm (k : Kind) (text : List Char) : Prop where
  token : k.isTrivia = false
  alone : ∃ c cs, text = c :: cs ∧ ∀ rest, Parted rest → slice c (cs ++ rest) = (some k, cs.length)

theorem firm_of_slice (h : (slice c cs).1 = some k) (hk : k.isTrivia = false) :
    Firm k (c :: cs.take (slice c cs).2) := by
  refine ⟨hk, c, _, rfl, fun rest hrest => ?_⟩
  obtain ⟨hle, hcut⟩ := slice_cut (Prod.ext h rfl : slice c cs = (some k, (slice c cs).2)) hk hrest
  rw [hcut, length_take, Nat.min_eq_left hle]

theorem slicesWithin_firm (bound : Nat) (start : Location) (cs : List Char) :
    ∀ s ∈ (slicesWithin bound start cs).1, ∀ t, s.token? = some t →
      Firm t.kind t.lexeme.toList := by
  induction bound generalizing start cs with
  | zero => simp [slicesWithin]
  | succ bound ih =>
    cases cs with
    | nil => simp [slicesWithin]
    | cons c cs =>
      rw [slicesWithin]
      refine forall_mem_cons.2 ⟨fun t ht => ?_, ih _ _⟩
      simp only [Slice.token?] at ht
      split at ht
      next k hkind =>
        split at ht <;> cases ht
        next htrivia => simpa using firm_of_slice hkind (Bool.eq_false_of_not_eq_true htrivia)
      next => cases ht

/-! ## The joined text -/

/-- A token without its place. -/
def word (t : Token) : Kind × String := (t.kind, t.lexeme)

/-- Tokens with a blank before each. -/
def spaced (tokens : List Token) : List Char := tokens.flatMap fun t => ' ' :: t.lexeme.toList

theorem spaced_parted (tokens : List Token) : Parted (spaced tokens) := by
  intro c hc
  cases tokens with
  | nil => cases hc
  | cons t tokens => exact (Option.some.inj hc).symm

/-- What is read are these tokens, and nothing besides. -/
def Reads (pieces : List Slice) (tokens : List Token) : Prop :=
  (pieces.filterMap Slice.token?).map word = tokens.map word ∧
    pieces.filterMap Slice.unidentified? = []

theorem Reads.cons {t : Token} {pieces : List Slice} {tokens : List Token} {start : Location}
    (hk : t.kind.isTrivia = false) (h : Reads pieces tokens) :
    Reads (⟨some t.kind, t.lexeme.toList, start⟩ :: pieces) (t :: tokens) := by
  refine ⟨?_, h.2⟩
  simp [Slice.token?, hk, h.1, word]

theorem slicesWithin_cons (bound : Nat) (start : Location) (h : slice c cs = (kind, n)) :
    (slicesWithin (bound + 1) start (c :: cs)).1 = ⟨kind, c :: cs.take n, start⟩ ::
      (slicesWithin bound (start.advanceAll (c :: cs.take n)) (cs.drop n)).1 := by
  rw [slicesWithin, h]

theorem reads_text {t : Token} {tokens : List Token} (ht : Firm t.kind t.lexeme.toList)
    (hspaced : ∀ bound start, (spaced tokens).length ≤ bound →
      Reads (slicesWithin bound start (spaced tokens)).1 tokens) (bound : Nat) (start : Location)
    (hbound : (t.lexeme.toList ++ spaced tokens).length ≤ bound) :
    Reads (slicesWithin bound start (t.lexeme.toList ++ spaced tokens)).1 (t :: tokens) := by
  obtain ⟨hk, c, cs, htext, hslice⟩ := ht
  rw [htext, cons_append] at hbound ⊢
  cases bound with
  | zero => cases hbound
  | succ bound =>
    rw [slicesWithin_cons bound start (hslice _ (spaced_parted tokens)), take_left,
      drop_left, ← htext]
    exact .cons hk (hspaced bound _ (by simp at hbound ⊢; omega))

theorem Firm.run_isBlank (h : Firm k text) (rest : List Char) : run isBlank (text ++ rest) = 0 := by
  obtain ⟨hk, c, cs, rfl, hslice⟩ := h
  have hblank : isBlank c = false := by
    by_contra hblank
    have hkind := congrArg Prod.fst (hslice [] nofun)
    simp only [slice, Bool.eq_true_of_not_eq_false hblank, if_true] at hkind
    cases hkind
    cases hk
  simp [run_cons, hblank]

theorem reads_spaced (tokens : List Token) (hfirm : ∀ t ∈ tokens, Firm t.kind t.lexeme.toList) :
    ∀ bound start, (spaced tokens).length ≤ bound →
      Reads (slicesWithin bound start (spaced tokens)).1 tokens := by
  induction tokens with
  | nil =>
    intro bound start _
    cases bound <;> exact ⟨rfl, rfl⟩
  | cons t tokens ih =>
    intro bound start hbound
    obtain ⟨ht, hrest⟩ := forall_mem_cons.1 hfirm
    cases bound with
    | zero => cases hbound
    | succ bound =>
      have hblank : slice ' ' (t.lexeme.toList ++ spaced tokens) = (some .whitespace, 0) := by
        simp [slice, isBlank, ht.run_isBlank]
      change Reads (slicesWithin (bound + 1) start (' ' :: (t.lexeme.toList ++ spaced tokens))).1 _
      rw [slicesWithin_cons bound start hblank]
      exact reads_text ht (ih hrest) bound _ (Nat.le_of_succ_le_succ hbound)

theorem toList_intercalate (t : Token) (tokens : List Token) :
    (" ".intercalate ((t :: tokens).map Token.lexeme)).toList =
      t.lexeme.toList ++ spaced tokens := by
  induction tokens generalizing t with
  | nil => simp [spaced]
  | cons u tokens ih =>
    have hu := ih u
    rw [String.toList_intercalate] at hu ⊢
    simp only [map_cons, intercalate_cons_cons] at hu ⊢
    rw [hu]
    simp [spaced]

/-- The text of some tokens with one blank between them, the end of input left out. -/
def joined (tokens : List Token) : String :=
  " ".intercalate ((tokens.filter (·.kind ≠ .endOfInput)).map Token.lexeme)

theorem reads_joined (tokens : List Token) (hfirm : ∀ t ∈ tokens, Firm t.kind t.lexeme.toList) :
    Reads (slices (" ".intercalate (tokens.map Token.lexeme)).toList).1 tokens := by
  cases tokens with
  | nil => exact ⟨rfl, rfl⟩
  | cons t tokens =>
    obtain ⟨ht, hrest⟩ := forall_mem_cons.1 hfirm
    rw [toList_intercalate]
    exact reads_text ht (reads_spaced tokens hrest) _ _ le_rfl

theorem filter_tokenize (source : String) : (tokenize source).1.filter (·.kind ≠ .endOfInput) =
    (slices source.toList).1.filterMap Slice.token? := by
  have hends := Grammar.tokenize_endsOnce source
  simp only [Grammar.EndsOnce, tokenize, dropLast_concat] at hends
  simp only [tokenize, filter_append]
  rw [filter_eq_self.2 (by simpa using hends)]
  simp [Token.endOfInput]

/-- A text whose slices are read as some tokens has these tokens, and nothing of it is reported. -/
theorem Reads.tokenize {source : String} (h : Reads (slices source.toList).1 tokens) :
    (tokenize source).1.map word = tokens.map word ++ [word (.endOfInput {})] ∧
      (tokenize source).2 = [] :=
  ⟨by rw [Lexer.tokenize, map_append, h.1]; rfl, h.2⟩

/-- The tokens of a text, written with one blank between them, are read back as they were. -/
theorem tokenize_joined (source : String) :
    (tokenize (joined (tokenize source).1)).1.map (fun t => (t.kind, t.lexeme)) =
        (tokenize source).1.map (fun t => (t.kind, t.lexeme)) ∧
      (tokenize (joined (tokenize source).1)).2 = [] := by
  have hreads := reads_joined ((slices source.toList).1.filterMap Slice.token?) fun t ht => by
    obtain ⟨s, hs, hst⟩ := mem_filterMap.1 ht
    exact slicesWithin_firm _ _ _ s hs t hst
  rw [joined, filter_tokenize]
  refine ⟨hreads.tokenize.1.trans ?_, hreads.tokenize.2⟩
  rw [tokenize, map_append]
  rfl

end JMinusMinus.Lexer
