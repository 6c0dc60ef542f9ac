import JMinusMinus.Grammar.Lookahead
import JMinusMinus.Grammar.State

/-!
# What the tests of the grammar accept

The grammar tests the upcoming tokens by functions on lists. Here the same tests are written as
*probes* of a reader with marks: a probe records where the reader stands, takes tokens one by one as
long as they fit, gives up at the first that does not, and goes back.

* A step of a probe moves the reader on to what a function on the upcoming tokens leaves of them,
  and fails where that has no result (`Follows`). No token that is taken is the end of input, at
  which a reader does not move on.
* So a probe answers as the test, and leaves the reader as it was, with its previous token and its
  marks (`rewound_eq`).
* A loop over pairs takes as many as there are, and fails at a pair that is not complete
  (`TakesPairs`). What it accepts are some pairs with no further start of one after them.

The tests for casts and for local variables accept a language of token kinds each
(`lookahead_exact`).
-/

namespace JMinusMinus

namespace Lookahead

/-- The kinds of tokens. -/
def kinds (ts : List Token) : List Kind := ts.map Token.kind

/-- So many pairs of kinds. -/
def pairs (first second : Kind) (n : Nat) : List Kind := (List.replicate n [first, second]).flatten

/-- So many points, each with a name after it. -/
def selections : Nat → List Kind := pairs .dot .identifier

/-- So many pairs of brackets. -/
def dims : Nat → List Kind := pairs .leftBracket .rightBracket

/-- The words of a type without its array levels. -/
inductive IsTypeName : List Kind → Prop
  | name (n : Nat) : IsTypeName (.identifier :: selections n)
  | basic (h : k.isBasicType) : IsTypeName [k]

/-! ## Languages -/

/-- A name with a parenthesis after it. -/
def CallAhead (ts : List Token) : Prop := ∃ rest, kinds ts = .identifier :: .leftParen :: rest

/-- A pair of brackets. -/
def DimsAhead (ts : List Token) : Prop := ∃ rest, kinds ts = .leftBracket :: .rightBracket :: rest

/-- A name, or a basic type with brackets after it. -/
def ReferenceTypeAhead (ts : List Token) : Prop :=
  (∃ rest, kinds ts = .identifier :: rest) ∨
    ∃ k rest, kinds ts = k :: .leftBracket :: .rightBracket :: rest ∧ k.isBasicType

/-- A parenthesis with a basic type after it, or with a type name and a parenthesis. -/
def CastAhead (ts : List Token) : Prop :=
  (∃ k rest, kinds ts = .leftParen :: k :: rest ∧ k.isBasicType) ∨
    ∃ m n rest, kinds ts =
      .leftParen :: .identifier :: (selections m ++ (dims n ++ .rightParen :: rest))

/-- A type and a name with array levels, and no further bracket. -/
def LocalsAhead (ts : List Token) : Prop :=
  ∃ name m n rest, IsTypeName name ∧ rest.head? ≠ some .leftBracket ∧
    kinds ts = name ++ (dims m ++ .identifier :: (dims n ++ rest))

/-! ## Loops over pairs -/

/-- A loop that skips pairs of kinds and fails at a pair that is not complete. -/
structure TakesPairs (first second : Kind) (f : List Token → Option (List Token)) : Prop where
  more : ∀ t u ts, t.kind = first → u.kind = second → f (t :: u :: ts) = f ts
  broken : ∀ t ts, t.kind = first → (kinds ts).head? ≠ some second → f (t :: ts) = none
  stop : ∀ ts, (kinds ts).head? ≠ some first → f ts = some ts

theorem selections_takesPairs : TakesPairs .dot .identifier afterSelections where
  more := by
    rintro ⟨k, _, _⟩ ⟨k', _, _⟩ ts rfl rfl
    rfl
  broken := by
    rintro ⟨k, _, _⟩ ts rfl h
    unfold afterSelections
    split <;> simp_all [kinds]
  stop := by
    intro ts h
    unfold afterSelections
    split <;> simp_all [kinds]

theorem dims_takesPairs : TakesPairs .leftBracket .rightBracket afterDims where
  more := by
    rintro ⟨k, _, _⟩ ⟨k', _, _⟩ ts rfl rfl
    rfl
  broken := by
    rintro ⟨k, _, _⟩ ts rfl h
    unfold afterDims
    split <;> simp_all [kinds]
  stop := by
    intro ts h
    unfold afterDims
    split <;> simp_all [kinds]

variable {first second : Kind} {f : List Token → Option (List Token)}

/-- Where a loop over pairs succeeds, it has skipped some pairs, and no further one starts. -/
theorem TakesPairs.exists_pairs (h : TakesPairs first second f) :
    ∀ ts, f ts = some rest → ∃ n, kinds ts = pairs first second n ++ kinds rest ∧
      (kinds rest).head? ≠ some first
  | [], hrun => by
    rw [h.stop [] nofun] at hrun
    cases hrun
    exact ⟨0, rfl, nofun⟩
  | t :: ts, hrun => by
    by_cases ht : t.kind = first
    · cases ts with
      | nil => simp [h.broken t [] ht nofun] at hrun
      | cons u ts =>
        by_cases hu : u.kind = second
        · rw [h.more t u ts ht hu] at hrun
          obtain ⟨n, hts, hrest⟩ := h.exists_pairs ts hrun
          refine ⟨n + 1, ?_, hrest⟩
          simpa [kinds, pairs, ht, hu, List.replicate_succ] using hts
        · simp [h.broken t (u :: ts) ht (by simpa [kinds] using hu)] at hrun
    · have hhead : (kinds (t :: ts)).head? ≠ some first := by simpa [kinds] using ht
      rw [h.stop _ hhead] at hrun
      cases hrun
      exact ⟨0, rfl, hhead⟩

/-- A loop over pairs skips all pairs in front of what starts none. -/
theorem TakesPairs.run (h : TakesPairs first second f) (hks : ks.head? ≠ some first) :
    ∀ n ts, kinds ts = pairs first second n ++ ks → ∃ rest, f ts = some rest ∧ kinds rest = ks
  | 0, ts, hts => ⟨ts, h.stop ts (by simpa [hts, pairs] using hks), hts⟩
  | n + 1, ts, hts => by
    obtain ⟨t, ts, rfl, ht, hts⟩ := List.map_eq_cons_iff.1 hts
    obtain ⟨u, ts, rfl, hu, hts⟩ := List.map_eq_cons_iff.1 hts
    rw [h.more t u ts ht hu]
    exact h.run hks n ts hts

/-! ## Tests -/

theorem afterName_run (hts : kinds ts = selections m ++ (dims n ++ k :: ks)) (hdot : k ≠ .dot)
    (hbracket : k ≠ .leftBracket) :
    ∃ rest, (afterSelections ts).bind afterDims = some rest ∧ kinds rest = k :: ks := by
  have hhead : (dims n ++ k :: ks).head? ≠ some .dot := by
    cases n <;> simp [dims, pairs, List.replicate_succ, hdot]
  obtain ⟨mid, hmid, hkinds⟩ := selections_takesPairs.run hhead m ts hts
  rw [hmid]
  exact dims_takesPairs.run (by simpa using hbracket) n mid hkinds

theorem exists_of_afterName (h : (afterSelections ts).bind afterDims = some rest) :
    ∃ m n, kinds ts = selections m ++ (dims n ++ kinds rest) := by
  obtain ⟨mid, hmid, hrest⟩ := Option.bind_eq_some_iff.1 h
  obtain ⟨m, hm, -⟩ := selections_takesPairs.exists_pairs ts hmid
  obtain ⟨n, hn, -⟩ := dims_takesPairs.exists_pairs mid hrest
  exact ⟨m, n, by rw [hm, hn]; rfl⟩

theorem afterType_basic {t : Token} (h : t.kind.isBasicType) :
    afterType (t :: ts) = afterDims ts := by
  obtain ⟨k, _, _⟩ := t
  cases k <;> first | rfl | cases h

theorem startsCast_basic {t u : Token} (ht : t.kind = .leftParen) (hu : u.kind.isBasicType) :
    startsCast (t :: u :: ts) = true := by
  obtain ⟨_, _, _⟩ := t
  obtain ⟨k, _, _⟩ := u
  cases ht
  cases k <;> first | rfl | cases hu

theorem afterType_run (hname : IsTypeName name) (hts : kinds ts = name ++ (dims n ++ k :: ks))
    (hdot : k ≠ .dot) (hbracket : k ≠ .leftBracket) :
    ∃ rest, afterType ts = some rest ∧ kinds rest = k :: ks := by
  cases hname with
  | name m =>
    obtain ⟨⟨kind, _, _⟩, ts, rfl, rfl, hrest⟩ := List.map_eq_cons_iff.1 hts
    exact afterName_run hrest hdot hbracket
  | basic hbasic =>
    obtain ⟨t, ts, rfl, rfl, hrest⟩ := List.map_eq_cons_iff.1 hts
    rw [afterType_basic hbasic]
    exact dims_takesPairs.run (by simpa using hbracket) n ts hrest

theorem exists_of_afterType (h : afterType ts = some rest) :
    ∃ name n, IsTypeName name ∧ kinds ts = name ++ (dims n ++ kinds rest) := by
  unfold afterType at h
  split at h
  · obtain ⟨m, n, hts⟩ := exists_of_afterName h
    exact ⟨_, n, .name m, congrArg (_ :: ·) hts⟩
  · split at h
    next t ts _ hbasic =>
      obtain ⟨n, hn, -⟩ := dims_takesPairs.exists_pairs ts h
      exact ⟨_, n, .basic hbasic, congrArg (_ :: ·) hn⟩
    · cases h
  · cases h

theorem not_of_iff {test : Bool} {language : Prop} (h : test = true ↔ language)
    (hno : test = false) : ¬ language :=
  fun hyes => Bool.false_ne_true (hno.symm.trans (h.2 hyes))

/-- The test for calls accepts its language. -/
theorem startsCall_iff (ts : List Token) : startsCall ts = true ↔ CallAhead ts := by
  constructor
  · intro h
    unfold startsCall at h
    split at h
    · exact ⟨_, rfl⟩
    · cases h
  · rintro ⟨rest, hts⟩
    obtain ⟨⟨kind, _, _⟩, ts, rfl, rfl, htail⟩ := List.map_eq_cons_iff.1 hts
    obtain ⟨⟨kind, _, _⟩, ts, rfl, rfl, -⟩ := List.map_eq_cons_iff.1 htail
    rfl

/-- The test for array levels accepts its language. -/
theorem startsDims_iff (ts : List Token) : startsDims ts = true ↔ DimsAhead ts := by
  constructor
  · intro h
    unfold startsDims at h
    split at h
    · exact ⟨_, rfl⟩
    · cases h
  · rintro ⟨rest, hts⟩
    obtain ⟨⟨kind, _, _⟩, ts, rfl, rfl, htail⟩ := List.map_eq_cons_iff.1 hts
    obtain ⟨⟨kind, _, _⟩, ts, rfl, rfl, -⟩ := List.map_eq_cons_iff.1 htail
    rfl

/-- The test for reference types accepts its language. -/
theorem startsReferenceType_iff (ts : List Token) :
    startsReferenceType ts = true ↔ ReferenceTypeAhead ts := by
  constructor
  · intro h
    unfold startsReferenceType at h
    split at h
    · exact .inl ⟨_, rfl⟩
    · obtain ⟨hbasic, hdims⟩ := Bool.and_eq_true_iff.1 h
      obtain ⟨rest, hrest⟩ := (startsDims_iff _).1 hdims
      exact .inr ⟨_, rest, congrArg (_ :: ·) hrest, hbasic⟩
    · cases h
  · rintro (⟨rest, hts⟩ | ⟨k, rest, hts, hbasic⟩)
    all_goals obtain ⟨⟨kind, _, _⟩, ts, rfl, rfl, htail⟩ := List.map_eq_cons_iff.1 hts
    · rfl
    · have hdims : startsDims ts = true := (startsDims_iff _).2 ⟨rest, htail⟩
      cases kind <;> first | exact hdims | cases hbasic

/-- The test for casts accepts its language. -/
theorem startsCast_iff (ts : List Token) : startsCast ts = true ↔ CastAhead ts := by
  constructor
  · intro h
    unfold startsCast at h
    split at h
    · split at h
      next hafter =>
        obtain ⟨m, n, hts⟩ := exists_of_afterName hafter
        exact .inr ⟨m, n, _, congrArg (_ :: _ :: ·) hts⟩
      · cases h
    · exact .inl ⟨_, _, rfl, h⟩
    · cases h
  · rintro (⟨k, rest, hts, hbasic⟩ | ⟨m, n, rest, hts⟩)
    all_goals
      obtain ⟨⟨kind, _, _⟩, ts, rfl, rfl, htail⟩ := List.map_eq_cons_iff.1 hts
      obtain ⟨⟨kind, _, _⟩, ts, rfl, rfl, hrest⟩ := List.map_eq_cons_iff.1 htail
    · exact startsCast_basic rfl hbasic
    · obtain ⟨after, hafter, hkinds⟩ := afterName_run hrest (by decide) (by decide)
      obtain ⟨⟨kind, _, _⟩, after, rfl, rfl, -⟩ := List.map_eq_cons_iff.1 hkinds
      simp [startsCast, hafter]

/-- The test for declarations of variables accepts its language. -/
theorem startsLocals_iff (ts : List Token) : startsLocals ts = true ↔ LocalsAhead ts := by
  constructor
  · intro h
    unfold startsLocals at h
    split at h
    next after hafter =>
      obtain ⟨name, m, hname, hts⟩ := exists_of_afterType hafter
      obtain ⟨rest, hrest⟩ := Option.isSome_iff_exists.1 h
      obtain ⟨n, hn, hhead⟩ := dims_takesPairs.exists_pairs after hrest
      exact ⟨name, m, n, kinds rest, hname, hhead, by rw [hts]; exact congrArg _ (congrArg _
        (congrArg (_ :: ·) hn))⟩
    · cases h
  · rintro ⟨name, m, n, rest, hname, hhead, hts⟩
    obtain ⟨after, hafter, hkinds⟩ := afterType_run hname hts (by decide) (by decide)
    obtain ⟨⟨kind, _, _⟩, after, rfl, rfl, hdims⟩ := List.map_eq_cons_iff.1 hkinds
    obtain ⟨left, hleft, -⟩ := dims_takesPairs.run hhead n after hdims
    simp [startsLocals, hafter, hleft]

/-! ## Probes -/

/-- A walk of a reader, with its success. -/
abbrev Walk := Reader → Bool × Reader

/-- Takes the current token if its kind passes a test. -/
def takes (p : Kind → Bool) : Walk := fun r =>
  if p r.cursor.kind then (true, r.next) else (false, r)

/-- Looks at the current token. -/
def sees (p : Kind → Bool) : Walk := fun r => (p r.cursor.kind, r)

/-- Goes on with a second walk, unless the first fails. -/
def both (x y : Walk) : Walk := fun r => if (x r).1 then y (x r).2 else (false, (x r).2)

/-- Chooses a walk by the current token. -/
def choose (p : Kind → Bool) (x y : Walk) : Walk := fun r => if p r.cursor.kind then x r else y r

/-- Takes pairs as long as there is a `first`, and fails at one without a `second` after it. -/
def pairsWithin (first second : Kind) : Nat → Walk
  | 0 => fun r => (true, r)
  | bound + 1 => choose (· = first)
      (both (takes (· = first)) (both (takes (· = second)) (pairsWithin first second bound)))
      fun r => (true, r)

/-- The current token and those that follow. -/
def ahead (c : Cursor) : List Token := c.token :: c.following

/-- Takes all pairs. Each takes a token at least, so there is an end to them. -/
def takesPairs (first second : Kind) : Walk := fun r =>
  pairsWithin first second (ahead r.cursor).length r

/-- Records the place of the reader, walks, and goes back. -/
def rewound (x : Walk) : Walk := fun r => ((x r.record).1, (x r.record).2.goBack)

/-- Whether a name with a parenthesis after it comes next. -/
def seesCall : Walk := rewound (both (takes (· = .identifier)) (sees (· = .leftParen)))

/-- A bracket that is closed at once. -/
def probeDims : Walk := both (takes (· = .leftBracket)) (sees (· = .rightBracket))

/-- Whether a pair of brackets comes next. -/
def seesDims : Walk := rewound probeDims

/-- An identifier is enough. Otherwise it is a basic type with brackets after it. -/
def seesReferenceType : Walk :=
  choose (· = .identifier) (fun r => (true, r)) (rewound (both (takes Kind.isBasicType) probeDims))

/-- After the parenthesis a basic type is enough. -/
def seesCast : Walk := rewound (both (takes (· = .leftParen)) (choose Kind.isBasicType
  (fun r => (true, r)) (both (takes (· = .identifier)) (both (takesPairs .dot .identifier)
    (both (takesPairs .leftBracket .rightBracket) (takes (· = .rightParen)))))))

/-- Whether a declaration of variables comes next: a type, a name, and complete brackets. -/
def seesLocals : Walk := rewound (both (choose (· = .identifier)
    (both (takes (· = .identifier)) (takesPairs .dot .identifier)) (takes Kind.isBasicType))
  (both (takesPairs .leftBracket .rightBracket)
    (both (takes (· = .identifier)) (takesPairs .leftBracket .rightBracket))))

/-! ## Walks -/

/-- A place in a list that ends with the end of input, as every list that is read does. -/
def Closed (c : Cursor) : Prop := (kinds (ahead c)).getLast? = some .endOfInput

/-- A walk from a reader goes on to what a function on the upcoming tokens leaves of them. It fails
where the function has no result. -/
structure Goes (x : Walk) (f : List Token → Option (List Token)) (r : Reader) : Prop where
  marks : (x r).2.marks = r.marks
  found : (x r).1 = (f (ahead r.cursor)).isSome
  closed : ∀ rest, f (ahead r.cursor) = some rest → Closed (x r).2.cursor
  ahead : ∀ rest, f (ahead r.cursor) = some rest → ahead (x r).2.cursor = rest

/-- A walk that goes as a function says from every place in a closed list. -/
def Follows (x : Walk) (f : List Token → Option (List Token)) : Prop :=
  ∀ r : Reader, Closed r.cursor → Goes x f r

/-- What is left behind a token that passes a test. -/
def after (p : Kind → Bool) : List Token → Option (List Token)
  | t :: ts => if p t.kind then some ts else none
  | [] => none

/-- Whether the next token has a kind that passes a test. -/
def startsBy (p : Kind → Bool) : List Token → Bool
  | t :: _ => p t.kind
  | [] => false

variable {x y : Walk} {g : List Token → Option (List Token)} {r : Reader} {p : Kind → Bool}

theorem Closed.next {c : Cursor} (h : Closed c) : Closed c.next := by
  obtain ⟨previous, t, following, position⟩ := c
  cases following with
  | nil => exact h
  | cons u ts => rwa [Closed, ahead, kinds, List.map_cons, List.map_cons,
      List.getLast?_cons_cons] at h

theorem Closed.seek {c : Cursor} (h : Closed c) (p : Kind → Bool) : Closed (c.seek p) := by
  obtain ⟨previous, t, following, position⟩ := c
  induction following generalizing previous t position with
  | nil => exact h
  | cons u ts ih =>
    simp only [Cursor.seek, Cursor.seekFrom]
    split
    · exact h
    · exact ih _ _ _ h.next

theorem closed_ofTokens (tokens : List Token) : Closed (Cursor.ofTokens tokens) := by
  have hclosed : (kinds (Cursor.closed tokens)).getLast? = some .endOfInput := by
    unfold Cursor.closed
    split
    next last hlast =>
      split
      next hkind => simp [kinds, hlast, hkind]
      · simp [kinds, Token.endOfInput]
    · rfl
  unfold Cursor.ofTokens
  split
  next t ts heq =>
    rw [heq] at hclosed
    exact hclosed
  · rfl

theorem stay_follows : Follows (fun r => (true, r)) some := by
  intro r hr
  refine ⟨rfl, rfl, fun _ _ => hr, ?_⟩
  rintro _ ⟨⟩
  rfl

theorem sees_follows (p : Kind → Bool) :
    Follows (sees p) fun ts => if startsBy p ts then some ts else none := by
  intro r hr
  have hstarts : startsBy p (ahead r.cursor) = p r.cursor.kind := rfl
  refine ⟨rfl, ?_, fun _ _ => hr, ?_⟩
  · cases h : p r.cursor.kind <;> simp [sees, h, hstarts]
  · intro rest hrest
    split at hrest <;> cases hrest
    rfl

/-- A token that is taken is not the last one, so the reader moves on. -/
theorem takes_follows (hp : p .endOfInput = false) : Follows (takes p) (after p) := by
  rintro ⟨⟨previous, t, following, position⟩, marks⟩ hr
  have hnext := hr.next
  cases h : p t.kind with
  | false => constructor <;> simp [takes, Cursor.kind, after, ahead, h]
  | true =>
    cases following with
    | nil =>
      obtain heq : t.kind = .endOfInput := Option.some.inj hr
      rw [heq, hp] at h
      cases h
    | cons u ts =>
      have hrun : takes p ⟨⟨previous, t, u :: ts, position⟩, marks⟩ =
          (true, ⟨⟨t, u, ts, position + 1⟩, marks⟩) := if_pos h
      have hafter : after p (t :: u :: ts) = some (u :: ts) := if_pos h
      exact ⟨by rw [hrun], by rw [hrun]; exact (congrArg Option.isSome hafter).symm,
        fun _ _ => by rw [hrun]; exact hnext,
        fun rest hrest => by rw [hrun]; exact Option.some.inj (hafter.symm.trans hrest)⟩

/-- If the first walk succeeds, the second goes on from where it ended. -/
theorem Goes.both (hx : Goes x f r)
    (hy : ∀ rest, f (Lookahead.ahead r.cursor) = some rest → Goes y g (x r).2) :
    Goes (both x y) (fun ts => (f ts).bind g) r := by
  cases h : f (Lookahead.ahead r.cursor) with
  | none =>
    have hfound := hx.found
    rw [h] at hfound
    constructor <;> simp [Lookahead.both, hfound, h, hx.marks]
  | some rest =>
    have hfound := hx.found
    rw [h] at hfound
    have hrun : Lookahead.both x y r = y (x r).2 := if_pos hfound
    have hbind : (f (Lookahead.ahead r.cursor)).bind g = g (Lookahead.ahead (x r).2.cursor) := by
      rw [h, hx.ahead rest h]
      rfl
    have hgoes := hy rest h
    exact ⟨by rw [hrun, hgoes.marks, hx.marks], by rw [hrun, hbind, hgoes.found],
      fun rest hrest => by rw [hrun]; exact hgoes.closed rest (hbind ▸ hrest),
      fun rest hrest => by rw [hrun]; exact hgoes.ahead rest (hbind ▸ hrest)⟩

theorem Follows.both (hx : Follows x f) (hy : Follows y g) :
    Follows (both x y) fun ts => (f ts).bind g := fun r hr =>
  (hx r hr).both fun rest hrest => hy _ ((hx r hr).closed rest hrest)

/-- A choice goes as the walk that is chosen. -/
theorem Goes.choose (hx : p r.cursor.kind = true → Goes x f r) (hy : Goes y g r) :
    Goes (choose p x y) (fun ts => if startsBy p ts then f ts else g ts) r := by
  have hstarts : startsBy p (Lookahead.ahead r.cursor) = p r.cursor.kind := rfl
  cases h : p r.cursor.kind with
  | false =>
    have hrun : Lookahead.choose p x y r = y r := if_neg (by simp [h])
    constructor <;> simp only [hrun, hstarts, h, Bool.false_eq_true, if_false]
    · exact hy.marks
    · exact hy.found
    · exact hy.closed
    · exact hy.ahead
  | true =>
    have hrun : Lookahead.choose p x y r = x r := if_pos h
    constructor <;> simp only [hrun, hstarts, h, if_true]
    · exact (hx h).marks
    · exact (hx h).found
    · exact (hx h).closed
    · exact (hx h).ahead

theorem Follows.choose (hx : Follows x f) (hy : Follows y g) :
    Follows (choose p x y) fun ts => if startsBy p ts then f ts else g ts := fun r hr =>
  Goes.choose (fun _ => hx r hr) (hy r hr)

/-- A loop over pairs, by its first turn. -/
theorem TakesPairs.eq (h : TakesPairs first second f) : f = fun ts =>
    if startsBy (· = first) ts then
      (after (· = first) ts).bind fun ts => (after (· = second) ts).bind f
    else some ts := by
  funext ts
  cases ts with
  | nil => exact h.stop [] nofun
  | cons t ts =>
    by_cases ht : t.kind = first
    · rw [if_pos (by simpa [startsBy] using ht)]
      cases ts with
      | nil => simpa [after, ht] using h.broken t [] ht nofun
      | cons u ts =>
        by_cases hu : u.kind = second
        · simpa [after, ht, hu] using h.more t u ts ht hu
        · simpa [after, ht, hu] using h.broken t (u :: ts) ht (by simpa [kinds] using hu)
    · rw [if_neg (by simpa [startsBy] using ht)]
      exact h.stop _ (by simpa [kinds] using ht)

theorem length_after {ts rest : List Token} (h : after p ts = some rest) :
    rest.length < ts.length := by
  cases ts with
  | nil => cases h
  | cons t ts =>
    cases hp : p t.kind with
    | false => simp [after, hp] at h
    | true =>
      obtain rfl : ts = rest := by simpa [after, hp] using h
      exact Nat.lt_succ_self _

/-- The induction is on the bound. A turn takes a token, so the bound holds for the next one. -/
theorem pairsWithin_goes (h : TakesPairs first second f) (hfirst : first ≠ .endOfInput)
    (hsecond : second ≠ .endOfInput) (bound : Nat) (r : Reader) (hr : Closed r.cursor)
    (hbound : (ahead r.cursor).length ≤ bound) : Goes (pairsWithin first second bound) f r := by
  induction bound generalizing r with
  | zero => simp [ahead] at hbound
  | succ bound ih =>
    rw [h.eq]
    refine Goes.choose (fun _ => ?_) (stay_follows r hr)
    have htake := takes_follows (p := (· = first)) (by simpa using hfirst.symm) r hr
    refine htake.both fun rest hrest => ?_
    have hclosed := htake.closed rest hrest
    have htake' := takes_follows (p := (· = second)) (by simpa using hsecond.symm) _ hclosed
    refine htake'.both fun rest' hrest' => ih _ (htake'.closed rest' hrest') ?_
    have hlt := length_after hrest
    have hlt' := length_after hrest'
    rw [htake.ahead rest hrest] at hlt'
    rw [htake'.ahead rest' hrest']
    omega

/-- The loop of a probe goes as the loop over the list. -/
theorem takesPairs_follows (h : TakesPairs first second f) (hfirst : first ≠ .endOfInput)
    (hsecond : second ≠ .endOfInput) : Follows (takesPairs first second) f := by
  intro r hr
  have hgoes := pairsWithin_goes h hfirst hsecond _ r hr (Nat.le_refl _)
  exact ⟨hgoes.marks, hgoes.found, hgoes.closed, hgoes.ahead⟩

/-- Whatever a walk takes, the way back leads to the place that was recorded. -/
theorem rewound_eq (h : Follows x f) (hr : Closed r.cursor) :
    rewound x r = ((f (ahead r.cursor)).isSome, r) := by
  have hgoes := h r.record hr
  have hback : (x r.record).2.goBack = r := by
    rw [Reader.goBack, hgoes.marks]
    rfl
  exact Prod.ext hgoes.found hback

/-! ## Probes and tests -/

/-- A probe that answers as a test does and leaves the reader as it was. -/
def Answers (probe : Walk) (test : List Token → Bool) : Prop :=
  ∀ r : Reader, Closed r.cursor → probe r = (test (ahead r.cursor), r)

theorem take_follows (hk : k ≠ Kind.endOfInput) : Follows (takes (· = k)) (after (· = k)) :=
  takes_follows (by simpa using hk.symm)

theorem basic_follows : Follows (takes Kind.isBasicType) (after Kind.isBasicType) :=
  takes_follows rfl

theorem selections_follows : Follows (takesPairs .dot .identifier) afterSelections :=
  takesPairs_follows selections_takesPairs (by decide) (by decide)

theorem dims_follows : Follows (takesPairs .leftBracket .rightBracket) afterDims :=
  takesPairs_follows dims_takesPairs (by decide) (by decide)

theorem rewound_answers (h : Follows x f) {test : List Token → Bool}
    (htest : ∀ ts, test ts = (f ts).isSome) : Answers (rewound x) test := fun r hr => by
  rw [rewound_eq h hr, htest]

theorem isSome_after_sees {t u : Token} : ((after (· = first) (t :: u :: ts)).bind fun ts =>
    if startsBy (· = second) ts then some ts else none).isSome =
      (decide (t.kind = first) && decide (u.kind = second)) := by
  by_cases ht : t.kind = first <;> by_cases hu : u.kind = second <;>
    simp [after, startsBy, ht, hu]

theorem startsCall_eq (ts : List Token) : startsCall ts =
    ((after (· = .identifier) ts).bind fun ts =>
      if startsBy (· = .leftParen) ts then some ts else none).isSome := by
  rcases ts with _ | ⟨⟨k, _, _⟩, _ | ⟨⟨k', _, _⟩, ts⟩⟩
  · rfl
  · simp [startsCall, after, startsBy]
  rw [isSome_after_sees, startsCall.eq_def]
  split
  next heq => simp_all
  next hno => simpa using fun hk hk' => hno _ _ _ _ _ (by rw [hk, hk'])

theorem startsDims_eq (ts : List Token) : startsDims ts =
    ((after (· = .leftBracket) ts).bind fun ts =>
      if startsBy (· = .rightBracket) ts then some ts else none).isSome := by
  rcases ts with _ | ⟨⟨k, _, _⟩, _ | ⟨⟨k', _, _⟩, ts⟩⟩
  · rfl
  · simp [startsDims, after, startsBy]
  rw [isSome_after_sees, startsDims.eq_def]
  split
  next heq => simp_all
  next hno => simpa using fun hk hk' => hno _ _ _ _ _ (by rw [hk, hk'])

theorem seesCall_answers : Answers seesCall startsCall :=
  rewound_answers ((take_follows (by decide)).both (sees_follows _)) startsCall_eq

theorem probeDims_follows : Follows probeDims fun ts => (after (· = .leftBracket) ts).bind fun ts =>
    if startsBy (· = .rightBracket) ts then some ts else none :=
  (take_follows (by decide)).both (sees_follows _)

theorem seesDims_answers : Answers seesDims startsDims :=
  rewound_answers probeDims_follows startsDims_eq

theorem seesReferenceType_answers : Answers seesReferenceType startsReferenceType := by
  rintro ⟨⟨previous, ⟨k, image, location⟩, following, position⟩, marks⟩ hr
  by_cases hk : k = .identifier
  · subst hk
    rfl
  have hbasic := rewound_eq (basic_follows.both probeDims_follows) hr
  have htest : startsReferenceType (⟨k, image, location⟩ :: following) =
      (k.isBasicType && startsDims following) := by
    rw [startsReferenceType]
    simpa using hk
  rw [seesReferenceType, choose, if_neg (by simp [Cursor.kind, hk]), hbasic]
  simp only [ahead, htest, after, startsDims_eq]
  cases k.isBasicType <;> rfl

theorem startsCast_eq (ts : List Token) : startsCast ts =
    ((after (· = .leftParen) ts).bind fun ts => if startsBy Kind.isBasicType ts then some ts else
      (after (· = .identifier) ts).bind fun ts => (afterSelections ts).bind fun ts =>
        (afterDims ts).bind (after (· = .rightParen))).isSome := by
  rcases ts with _ | ⟨⟨k, _, _⟩, _ | ⟨⟨k', _, _⟩, ts⟩⟩
  · rfl
  · simp [startsCast, after, startsBy]
  by_cases hk : k = .leftParen
  · subst hk
    by_cases hk' : k' = .identifier
    · subst hk'
      have hassoc := Option.bind_assoc (afterSelections ts) afterDims (after (· = .rightParen))
      simp only [startsCast, after, startsBy, decide_true, if_true, Option.bind_some,
        show Kind.isBasicType .identifier = false from rfl, Bool.false_eq_true, if_false, ← hassoc]
      split
      next h => simp [h, after]
      next hno =>
        cases hrest : (afterSelections ts).bind afterDims with
        | none => rfl
        | some rest =>
          obtain _ | ⟨⟨k, _, _⟩, rest⟩ := rest
          · rfl
          · have hk : k ≠ .rightParen := fun hk => hno _ _ _ (by rw [hrest, hk])
            simp [after, hk]
    · rw [startsCast.eq_def]
      cases hbasic : k'.isBasicType <;> simp [after, startsBy, hk', hbasic]
  · simp [startsCast, after, hk]

theorem afterType_eq (ts : List Token) : afterType ts =
    (if startsBy (· = .identifier) ts then (after (· = .identifier) ts).bind afterSelections
      else after Kind.isBasicType ts).bind afterDims := by
  rcases ts with _ | ⟨⟨k, _, _⟩, ts⟩
  · rfl
  by_cases hk : k = .identifier
  · subst hk
    rfl
  · rw [afterType.eq_def]
    cases hbasic : k.isBasicType <;> simp [after, startsBy, hk, hbasic]

theorem startsLocals_eq (ts : List Token) : startsLocals ts =
    ((if startsBy (· = .identifier) ts then (after (· = .identifier) ts).bind afterSelections
      else after Kind.isBasicType ts).bind fun ts => (afterDims ts).bind fun ts =>
        (after (· = .identifier) ts).bind afterDims).isSome := by
  rw [← Option.bind_assoc, ← afterType_eq]
  unfold startsLocals
  split
  next h => rw [h]; rfl
  next hno =>
    cases hrest : afterType ts with
    | none => rfl
    | some rest =>
      obtain _ | ⟨⟨k, _, _⟩, rest⟩ := rest
      · rfl
      · have hk : k ≠ .identifier := fun hk => hno _ _ _ (by rw [hrest, hk])
        simp [after, hk]

theorem seesCast_answers : Answers seesCast startsCast :=
  rewound_answers ((take_follows (by decide)).both (stay_follows.choose
    ((take_follows (by decide)).both (selections_follows.both (dims_follows.both
      (take_follows (by decide))))))) startsCast_eq

theorem seesLocals_answers : Answers seesLocals startsLocals :=
  rewound_answers ((((take_follows (by decide)).both selections_follows).choose basic_follows).both
    (dims_follows.both ((take_follows (by decide)).both dims_follows))) startsLocals_eq

/-- A probe that a parse asks, with the marks it has so far. -/
def asks (probe : Walk) (s : Grammar.State) (marks : List Cursor) :
    Bool × Grammar.State × List Cursor :=
  let answer := probe ⟨s.cursor, marks⟩
  (answer.1, { s with cursor := answer.2.cursor }, answer.2.marks)

/-- Each probe with the test that the grammar asks in its place. -/
def probes : List (Walk × (List Token → Bool)) :=
  [(seesCall, startsCall), (seesCast, startsCast), (seesLocals, startsLocals),
    (seesReferenceType, startsReferenceType), (seesDims, startsDims)]

/-- Every probe answers as its test. -/
theorem probes_answer : ∀ probe ∈ probes, Answers probe.1 probe.2 := by
  simp only [probes, List.mem_cons, List.not_mem_nil, or_false, forall_eq_or_imp, forall_eq]
  exact ⟨seesCall_answers, seesCast_answers, seesLocals_answers, seesReferenceType_answers,
    seesDims_answers⟩

/-- A parse that asks a probe goes on as it was. -/
theorem Answers.asks {probe : Walk} {test : List Token → Bool} (h : Answers probe test)
    (s : Grammar.State) (marks : List Cursor) (hs : Closed s.cursor) :
    asks probe s marks = (test (ahead s.cursor), s, marks) := by
  rw [Lookahead.asks, h ⟨s.cursor, marks⟩ hs]

/-- The list that a parse reads ends with the end of input wherever the parse stands in it. There
every probe answers as its test, and leaves the parse and its marks as they were. The tests for
casts and local variables accept exactly their languages. -/
theorem lookahead_exact :
    (∀ tokens, Closed (Cursor.ofTokens tokens)) ∧
    (∀ c, Closed c → Closed c.next ∧ ∀ p, Closed (c.seek p)) ∧
    (∀ probe ∈ probes, ∀ (s : Grammar.State) (marks : List Cursor), Closed s.cursor →
      asks probe.1 s marks = (probe.2 (ahead s.cursor), s, marks) ∧
      (do return probe.2 (← Grammar.upcoming) : Grammar.Parser Bool) s =
        (probe.2 (ahead s.cursor), s)) ∧
    (∀ ts, startsCast ts = true ↔
      (∃ k rest, kinds ts = .leftParen :: k :: rest ∧ k.isBasicType) ∨
        ∃ m n rest, kinds ts =
          .leftParen :: .identifier :: (selections m ++ (dims n ++ .rightParen :: rest))) ∧
    ∀ ts, startsLocals ts = true ↔
      ∃ name m n rest, IsTypeName name ∧ rest.head? ≠ some .leftBracket ∧
        kinds ts = name ++ (dims m ++ .identifier :: (dims n ++ rest)) :=
  ⟨closed_ofTokens, fun _ h => ⟨h.next, h.seek⟩,
    fun probe hprobe s marks hs => ⟨(probes_answer probe hprobe).asks s marks hs, rfl⟩,
    startsCast_iff, startsLocals_iff⟩

/-- A parse of `(A[]) x`, at its start. -/
def castParse : Grammar.State where
  cursor := Cursor.ofTokens [⟨.leftParen, "(", {}⟩, ⟨.identifier, "A", {}⟩,
    ⟨.leftBracket, "[", {}⟩, ⟨.rightBracket, "]", {}⟩, ⟨.rightParen, ")", {}⟩,
    ⟨.identifier, "x", {}⟩]
  log := {}
  maxDepth := 1
  size := 7

theorem lookahead_exact_cast :
    asks seesCast castParse [castParse.cursor.next] =
      (true, castParse, [castParse.cursor.next]) := by
  have hclosed : Closed castParse.cursor := lookahead_exact.1 _
  have htest : startsCast (ahead castParse.cursor) = true :=
    (lookahead_exact.2.2.2.1 _).2 (.inr ⟨0, 1, [.identifier, .endOfInput], rfl⟩)
  have hasks := (lookahead_exact.2.2.1 (seesCast, startsCast) (by simp [probes]) castParse
    [castParse.cursor.next] hclosed).1
  exact hasks.trans (congrArg (·, castParse, [castParse.cursor.next]) htest)

end Lookahead

end JMinusMinus
