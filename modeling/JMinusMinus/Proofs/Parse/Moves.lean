import JMinusMinus.Proofs.Derivation.Basic
import JMinusMinus.Proofs.Recovery.Trace

/-!
# What rules do

`Moves ts P n d K low p x` is about the runs of the rule `x` in the token list `ts` that start on a
kind with `P` and have fewer than `n` tokens after it.

* Whatever the text, such a run only moves on. It is not stuck and takes at least `d` tokens. The
  count `n` is what the bound of a loop or of nested rules is compared with, and a rule that takes a
  token leaves a smaller count to what comes after it (`Moves.bindAfter`).
* The depth before the run and the state after it are related by `K`. Most rules come back to the
  depth they started from (`level`). A chain counts a level for each of its turns and comes up from
  all of them at its end (`chained`).
* How high its trees are depends only on the number of levels that are left, however often loops
  turn. If `q` levels are left, the result satisfies `low q`.
* In a run that ends with an empty log, the tokens `i` at the start, the result `a` and the tokens
  `r` at the end are related by `p i a r`. Nothing is ever taken from the log, so a kind that does
  not match and a level too many never occur in such a run.
* Every rule is made in sequence from the steps of a parse. What follows from that alone, whatever
  the place, needs no count (`Moves.made`).

The relations `low` and `p` are those of the whole rule. A step at the front leaves a rule whose
relations take what the step did as an assumption, so a proof ends at the last step with everything
that was read before it, latest first.
-/

namespace JMinusMinus.Grammar

variable {kind : Kind} {ends : Kind → Bool}

variable {α β : Type} {ts : List Token}

/-! ## Sound states -/

/-- A parse at a place of a token list that ends with the end of input, with nothing run out. -/
structure State.Sound (ts : List Token) (s : State) : Prop where
  free : s.stuck = false
  place : ts.drop s.cursor.position = s.cursor.token :: s.cursor.following
  size : s.size = ts.length
  closed : ts.getLast?.map Token.kind = some .endOfInput

namespace State.Sound

variable {s t : State}

theorem length_eq (h : s.Sound ts) : ts.length = s.cursor.position + s.left + 1 := by
  have hlength := congrArg List.length h.place
  simp only [List.length_drop, List.length_cons] at hlength
  simp only [State.left]
  omega

theorem kind_eq_of_left_eq_zero (h : s.Sound ts) (hleft : s.left = 0) :
    s.cursor.kind = .endOfInput := by
  have hnil : s.cursor.following = [] := List.eq_nil_of_length_eq_zero hleft
  have hlast : ts.getLast? = some s.cursor.token := by
    have hdrop := List.getLast?_drop (l := ts) (i := s.cursor.position)
    have hlt : ¬ ts.length ≤ s.cursor.position := by
      have := h.length_eq
      omega
    rw [if_neg hlt] at hdrop
    rw [← hdrop, h.place, hnil, List.getLast?_singleton]
  have hclosed := h.closed
  rw [hlast] at hclosed
  exact Option.some.inj hclosed

theorem left_pos (h : s.Sound ts) (hk : s.cursor.kind ≠ .endOfInput) : 0 < s.left :=
  Nat.pos_of_ne_zero fun hleft => hk (h.kind_eq_of_left_eq_zero hleft)

theorem kind_eq (h : s.Sound ts) (h' : t.Sound ts) (hleft : t.left = s.left) :
    t.cursor.kind = s.cursor.kind := by
  have hpos : t.cursor.position = s.cursor.position := by
    have := h.length_eq
    have := h'.length_eq
    omega
  have hplace := h'.place
  rw [hpos, h.place] at hplace
  exact congrArg Token.kind (List.cons.inj hplace).1.symm

theorem next (h : s.Sound ts) : s.next.Sound ts := by
  have hplace := h.place
  cases hf : s.cursor.following with
  | nil =>
    rw [hf] at hplace
    exact ⟨h.free, by simpa [State.next, Cursor.next, hf] using hplace, h.size, h.closed⟩
  | cons u us =>
    rw [hf] at hplace
    refine ⟨h.free, ?_, h.size, h.closed⟩
    simp only [State.next, Cursor.next, hf]
    rw [← List.drop_drop, hplace, List.drop_succ_cons, List.drop_zero]

theorem left_next (h : s.Sound ts) (hk : s.cursor.kind ≠ .endOfInput) :
    s.next.left + 1 ≤ s.left := by
  have hpos := h.left_pos hk
  cases hf : s.cursor.following with
  | nil => simp [State.left, hf] at hpos
  | cons u us => simp [State.next, State.left, Cursor.next, hf]

theorem moved {c : Cursor} (h : s.Sound ts)
    (hplace : ts.drop c.position = c.token :: c.following) (recovered : Bool) :
    State.Sound ts { s with cursor := c, recovered } :=
  ⟨h.free, hplace, h.size, h.closed⟩

theorem withDepth (h : s.Sound ts) (depth : Nat) : State.Sound ts { s with depth } :=
  ⟨h.free, h.place, h.size, h.closed⟩

end State.Sound

theorem seekFrom_place (p : Kind → Bool) :
    ∀ (following : List Token) (previous token : Token) (position : Nat),
      ts.drop position = token :: following →
      let c := Cursor.seekFrom p previous token position following
      ts.drop c.position = c.token :: c.following ∧ c.following.length ≤ following.length ∧
        (p c.kind = true ∨ c.following = []) := by
  intro following
  induction following with
  | nil => exact fun _ _ _ hplace => ⟨hplace, Nat.le_refl _, .inr rfl⟩
  | cons t rest ih =>
    intro previous token position hplace
    by_cases hp : p token.kind = true
    · simp only [Cursor.seekFrom, if_pos hp]
      exact ⟨hplace, Nat.le_refl _, .inl hp⟩
    · have hnext : ts.drop (position + 1) = t :: rest := by
        rw [← List.drop_drop, hplace, List.drop_succ_cons, List.drop_zero]
      obtain ⟨hfound, hle, hstop⟩ := ih token t (position + 1) hnext
      simp only [Cursor.seekFrom, if_neg hp]
      exact ⟨hfound, Nat.le_succ_of_le hle, hstop⟩

/-! ## The statement -/

/-- The current token and those after it. -/
def State.upcoming (s : State) : List Token := s.cursor.token :: s.cursor.following

/-- A state in which the next thing that goes wrong is reported. -/
def State.Fresh (s : State) : Prop := s.recovered = true ∧ s.depthReported = false

/-- What a run from `s` to `t` with the result `a` does. -/
structure Ran (ts : List Token) (d : Nat) (K : α → Nat → State → Prop) (low : Nat → α → Prop)
    (p : List Token → α → List Token → Prop) (s : State) (a : α) (t : State) : Prop where
  sound : t.Sound ts
  left : t.left + d ≤ s.left
  limit : t.maxDepth = s.maxDepth
  depth : K a s.depth t
  low : low (s.maxDepth - s.depth) a
  reads : t.log.latest = [] → s.log.latest = [] ∧
    (s.Fresh → t.Fresh ∧ p s.upcoming a t.upcoming)

/-- A rule that is made of steps, and what its runs from a kind with `P` and fewer than `n` tokens
after it do. -/
structure Moves (ts : List Token) (P : Kind → Prop) (n d : Nat) (K : α → Nat → State → Prop)
    (low : Nat → α → Prop) (p : List Token → α → List Token → Prop) (x : Parser α) : Prop where
  made : Made x
  run : ∀ s, s.Sound ts → s.left < n → P s.cursor.kind → Ran ts d K low p s (x s).1 (x s).2

/-- The depth at the end is the one at the start. -/
def level (_ : α) (before : Nat) (t : State) : Prop := t.depth = before

/-- The levels that a chain counts, from a number of them on, are those it is down at its end. -/
def chained (levels : Nat) (r : Expr × Nat) (before : Nat) (t : State) : Prop :=
  t.depth + levels = before + r.2

/-- No demand on the kind at the start. -/
abbrev anywhere (_ : Kind) : Prop := True

/-- No bound by the levels left. -/
abbrev unbounded (_ : Nat) (_ : α) : Prop := True

/-- A rule that comes back to its depth. -/
abbrev Keeps (ts : List Token) (P : Kind → Prop) (n : Nat) (low : Nat → α → Prop)
    (p : List Token → α → List Token → Prop) (x : Parser α) : Prop :=
  Moves ts P n 0 level low p x

/-- A rule that comes back to its depth and reads phrases of a category. -/
abbrev Parses (ts : List Token) (P : Kind → Prop) (n : Nat) (low : Nat → α → Prop)
    (c : Category α) (x : Parser α) : Prop :=
  Keeps ts P n low (Derives c) x

variable {P Q : Kind → Prop} {n k d e : Nat} {K : α → Nat → State → Prop} {x y : Parser α}
  {low low' : Nat → α → Prop} {p p' : List Token → α → List Token → Prop}
  {high : Nat → β → Prop} {q : List Token → β → List Token → Prop}

namespace Ran

variable {s t u : State} {a : α} {b : β}

theorem imp (h : Ran ts d K low p s a t) (hlow : ∀ k, low k a → low' k a)
    (hp : p s.upcoming a t.upcoming → p' s.upcoming a t.upcoming) : Ran ts d K low' p' s a t :=
  ⟨h.sound, h.left, h.limit, h.depth, hlow _ h.low, fun ht =>
    ⟨(h.reads ht).1, fun hs => ⟨((h.reads ht).2 hs).1, hp ((h.reads ht).2 hs).2⟩⟩⟩

theorem reading (h : Ran ts d K low p s a t)
    (hp : p s.upcoming a t.upcoming → p' s.upcoming a t.upcoming) : Ran ts d K low p' s a t :=
  h.imp (fun _ => id) hp

theorem trans (hx : Ran ts e level high q s b t)
    (hf : Ran ts (d - e) K (fun k a => high k b → low k a) (fun j a r => ∀ i, q i b j → p i a r)
      t a u) : Ran ts d K low p s a u := by
  have hdepth : t.depth = s.depth := hx.depth
  refine ⟨hf.sound, ?_, hf.limit.trans hx.limit, hdepth ▸ hf.depth, ?_, fun hu => ?_⟩
  · have := hx.left
    have := hf.left
    omega
  · have hlow := hf.low
    rw [hx.limit, hdepth] at hlow
    exact hlow hx.low
  · obtain ⟨ht, hafter⟩ := hf.reads hu
    obtain ⟨hs, hbefore⟩ := hx.reads ht
    refine ⟨hs, fun hfresh => ?_⟩
    obtain ⟨hfresh', hq⟩ := hbefore hfresh
    obtain ⟨hfresh'', hp⟩ := hafter hfresh'
    exact ⟨hfresh'', hp _ hq⟩

end Ran

namespace Moves

theorem pure {a : α} (hlow : ∀ k, low k a) (hp : ∀ i, p i a i) : Keeps ts P n low p (pure a) :=
  ⟨.pure, fun _ h _ _ => ⟨h, Nat.le_refl _, rfl, rfl, hlow _, fun hs =>
    ⟨hs, fun hfresh => ⟨hfresh, hp _⟩⟩⟩⟩

theorem outOfBound (hn : n = 0) : Moves ts P n d K low p (outOfBound a) :=
  ⟨.outOfBound, fun _ _ hleft => absurd hleft (by omega)⟩

theorem bindAfter {f : β → Parser α} {x : Parser β} (e : Nat) (hx : Moves ts P n e level high q x)
    (hf : ∀ b, Moves ts anywhere (n - e) (d - e) K (fun k a => high k b → low k a)
      (fun j a r => ∀ i, q i b j → p i a r) (f b)) : Moves ts P n d K low p (x >>= f) := by
  refine ⟨.bind hx.made fun b => (hf b).made, fun s h hn hP => ?_⟩
  have hran := hx.run s h hn hP
  have hleft := hran.left
  exact hran.trans ((hf (x s).1).run (x s).2 hran.sound (by omega) trivial)

theorem bind {f : β → Parser α} {x : Parser β} (hx : Keeps ts P n high q x)
    (hf : ∀ b, Moves ts anywhere n d K (fun k a => high k b → low k a)
      (fun j a r => ∀ i, q i b j → p i a r) (f b)) : Moves ts P n d K low p (x >>= f) :=
  .bindAfter 0 hx hf

theorem imp (h : Moves ts P n d K low p x) (hlow : ∀ k a, low k a → low' k a)
    (hp : ∀ i a r, p i a r → p' i a r) : Moves ts P n d K low' p' x :=
  ⟨h.made, fun s hs hn hP => (h.run s hs hn hP).imp (fun k => hlow k _) (hp _ _ _)⟩

theorem reading (h : Moves ts P n d K low p x) (hp : ∀ i a r, p i a r → p' i a r) :
    Moves ts P n d K low p' x :=
  h.imp (fun _ _ => id) hp

theorem skipAfter {f : β → Parser α} {x : Parser β} (e : Nat)
    (hx : Moves ts P n e level unbounded q x)
    (hf : ∀ b, Moves ts anywhere (n - e) (d - e) K low (fun j a r => ∀ i, q i b j → p i a r)
      (f b)) : Moves ts P n d K low p (x >>= f) :=
  .bindAfter e hx fun b => (hf b).imp (fun _ _ h _ => h) fun _ _ _ => id

theorem skip {f : β → Parser α} {x : Parser β} (hx : Keeps ts P n unbounded q x)
    (hf : ∀ b, Moves ts anywhere n d K low (fun j a r => ∀ i, q i b j → p i a r) (f b)) :
    Moves ts P n d K low p (x >>= f) :=
  .skipAfter 0 hx hf

theorem within (h : Moves ts P n d K low p x) (hk : k ≤ n) (hP : ∀ j, Q j → P j) :
    Moves ts Q k d K low p x :=
  ⟨h.made, fun s hs hleft hQ => h.run s hs (Nat.lt_of_lt_of_le hleft hk) (hP _ hQ)⟩

theorem given (h : Moves ts P n d K low p x) (hP : ∀ j, Q j → P j) : Moves ts Q n d K low p x :=
  h.within (Nat.le_refl _) hP

theorem fewer (h : Moves ts anywhere n d K low p x) (hk : k ≤ n) : Moves ts P k d K low p x :=
  h.within hk fun _ _ => trivial

theorem ite (hx : c = true → Moves ts P n d K low p x) (hy : c = false → Moves ts P n d K low p y) :
    Moves ts P n d K low p (if c = true then x else y) := by
  cases c with
  | true => exact hx rfl
  | false => exact hy rfl

theorem join {c : Bool} {x y : Parser β} {f : β → Parser α}
    (hx : c = true → Keeps ts P n unbounded q x) (hy : c = false → Keeps ts P n unbounded q y)
    (hf : ∀ b, Moves ts anywhere n d K low (fun j a r => ∀ i, q i b j → p i a r) (f b)) :
    Moves ts P n d K low p (if c = true then x >>= f else y >>= f) :=
  .ite (fun hc => .skip (hx hc) hf) fun hc => .skip (hy hc) hf

theorem joined {t : Parser Bool} {x y : Parser β} {f : β → Parser α}
    (h : Moves ts P n d K low p ((t >>= fun b => if b = true then x else y) >>= f)) :
    Moves ts P n d K low p (t >>= fun b => if b = true then x >>= f else y >>= f) := by
  have hrun : (t >>= fun b => if b = true then x else y) >>= f =
      (t >>= fun b => if b = true then x >>= f else y >>= f) := by
    rw [bind_assoc]
    congr 1
    funext b
    cases b <;> rfl
  rwa [hrun] at h

theorem map {f : α → β} (h : Keeps ts P n low p x) (hlow : ∀ k a, low k a → high k (f a))
    (hp : ∀ i a r, p i a r → q i (f a) r) : Keeps ts P n high q (f <$> x) := by
  rw [map_eq_pure_bind]
  exact .bind h fun a => .pure (fun k => hlow k a) fun r i => hp i a r

/-! ## Tokens -/

theorem look {x : Parser β} {f : β → Parser α} {g : List Token → β} (hm : Made x)
    (hx : ∀ s, x s = (g s.upcoming, s))
    (hf : ∀ b, Moves ts P n d K low (fun i a r => g i = b → p i a r) (f b)) :
    Moves ts P n d K low p (x >>= f) := by
  refine ⟨.bind hm fun b => (hf b).made, fun s hs hn hP => ?_⟩
  have hrun : (x >>= f) s = f (g s.upcoming) s := by
    change f (x s).1 (x s).2 = _
    rw [hx s]
  rw [hrun]
  exact ((hf _).run s hs hn hP).reading fun hp => hp rfl

theorem currentLine {f : Nat → Parser α}
    (h : ∀ line, Moves ts P n d K low (fun i a r => firstLine i = line → p i a r) (f line)) :
    Moves ts P n d K low p (currentLine >>= f) :=
  .look .currentLine (fun _ => rfl) h

theorem currentKind {f : Kind → Parser α}
    (h : ∀ j, Moves ts (fun k => P k ∧ k = j) n d K low (fun i a r => ahead i = j → p i a r)
      (f j)) : Moves ts P n d K low p (currentKind >>= f) :=
  ⟨.bind .currentKind fun j => (h j).made, fun s hs hn hP =>
    ((h s.cursor.kind).run s hs hn ⟨hP, rfl⟩).reading fun hp => hp rfl⟩

theorem current {f : Token → Parser α}
    (h : ∀ t, Moves ts (· = t.kind) n d K low (fun i a r => i.head? = some t → p i a r) (f t)) :
    Moves ts P n d K low p (current >>= f) :=
  ⟨.bind .current fun t => (h t).made, fun s hs hn _ =>
    ((h s.cursor.token).run s hs hn rfl).reading fun hp => hp rfl⟩

theorem upcoming {f : List Token → Parser α}
    (h : ∀ t rest, Moves ts (· = t.kind) n d K low (fun i a r => i = t :: rest → p i a r)
      (f (t :: rest))) : Moves ts P n d K low p (upcoming >>= f) :=
  ⟨.bind (x := fun s : State => ((s.cursor.token, s.cursor.following), s))
      (.look fun c _ => (c.token, c.following)) fun b => (h b.1 b.2).made,
    fun s hs hn _ =>
      ((h s.cursor.token s.cursor.following).run s hs hn rfl).reading fun hp => hp rfl⟩

theorem remaining {f : Nat → Parser α}
    (h : ∀ bound k, k ≤ n → k ≤ bound → Moves ts P k d K low p (f bound)) :
    Moves ts P n d K low p (remaining >>= f) := by
  refine ⟨.bind .remaining fun bound => (h bound 0 (Nat.zero_le _) (Nat.zero_le _)).made, ?_⟩
  intro s hs hn hP
  have hlength := hs.length_eq
  have hsize := hs.size
  exact (h (s.size - s.cursor.position) (s.left + 1) hn (by omega)).run s hs (Nat.lt_succ_self _) hP

end Moves

theorem State.Sound.upcoming_next {s : State} (h : s.Sound ts) (hk : s.cursor.kind ≠ .endOfInput) :
    s.upcoming = s.cursor.token :: s.next.upcoming := by
  have hpos := h.left_pos hk
  cases hf : s.cursor.following with
  | nil => simp [State.left, hf] at hpos
  | cons t rest => simp [State.upcoming, State.next, Cursor.next, hf]

namespace Moves

theorem advance {f : Unit → Parser α} (hP : ∀ j, P j → j ≠ .endOfInput)
    (hf : Moves ts anywhere (n - 1) (d - 1) K low
      (fun j a r => ∀ t : Token, P t.kind → p (t :: j) a r) (f ())) :
    Moves ts P n d K low p (advance >>= f) := by
  refine ⟨.bind .advance fun _ => hf.made, fun s hs hn hk => ?_⟩
  have hleft := hs.left_next (hP _ hk)
  have hran := hf.run s.next hs.next (by omega) trivial
  refine ⟨hran.sound, ?_, hran.limit, hran.depth, hran.low, fun ht => ?_⟩
  · have := hran.left
    change (f () s.next).2.left + d ≤ s.left
    omega
  · refine ⟨(hran.reads ht).1, fun hfresh => ⟨((hran.reads ht).2 hfresh).1, ?_⟩⟩
    rw [hs.upcoming_next (hP _ hk)]
    exact ((hran.reads ht).2 hfresh).2 _ hk

theorem sees
    (hx : Moves ts (fun j => P j ∧ j = kind) n d K low (fun i a r => ahead i = kind → p i a r) x)
    (hy : Moves ts (fun j => P j ∧ j ≠ kind) n d K low (fun i a r => ahead i ≠ kind → p i a r) y) :
    Moves ts P n d K low p (sees kind >>= fun b => if b = true then x else y) := by
  refine ⟨.bind .sees fun _ => .ite hx.made hy.made, fun s hs hn hP => ?_⟩
  have hrun : (Grammar.sees kind >>= fun b => if b = true then x else y) s =
      (if (s.cursor.kind == kind) = true then x else y) s := rfl
  rw [hrun]
  by_cases hk : s.cursor.kind = kind
  · rw [if_pos (beq_iff_eq.2 hk)]
    exact (hx.run s hs hn ⟨hP, hk⟩).reading fun hp => hp hk
  · rw [if_neg (mt beq_iff_eq.1 hk)]
    exact (hy.run s hs hn ⟨hP, hk⟩).reading fun hp => hp hk

theorem seesEither (hx : Moves ts (fun j => j = j₁ ∨ j = j₂) n d K low
      (fun i a r => ahead i = j₁ ∨ ahead i = j₂ → p i a r) x)
    (hy : Moves ts P n d K low (fun i a r => ahead i ≠ j₁ → ahead i ≠ j₂ → p i a r) y) :
    Moves ts P n d K low p (Grammar.sees j₁ >>= fun a => Grammar.sees j₂ >>= fun b =>
        if (a || b) = true then x else y) := by
  refine ⟨.bind .sees fun _ => .bind .sees fun _ => .ite hx.made hy.made, fun s hs hn hP => ?_⟩
  have hrun : (Grammar.sees j₁ >>= fun a => Grammar.sees j₂ >>= fun b =>
      if (a || b) = true then x else y) s =
      (if (s.cursor.kind == j₁ || s.cursor.kind == j₂) = true then x else y) s := rfl
  rw [hrun]
  by_cases hk : s.cursor.kind = j₁ ∨ s.cursor.kind = j₂
  · rw [if_pos (by simpa using hk)]
    exact (hx.run s hs hn hk).reading fun hp => hp hk
  · rw [if_neg (by simpa using hk)]
    exact (hy.run s hs hn hP).reading fun hp => hp (mt .inl hk) (mt .inr hk)

theorem accept (hk : kind ≠ .endOfInput)
    (hx : Moves ts anywhere (n - 1) (d - 1) K low (fun j a r => ∀ i, Starts kind i j → p i a r) x)
    (hy : Moves ts (fun j => P j ∧ j ≠ kind) n d K low (fun i a r => ahead i ≠ kind → p i a r) y) :
    Moves ts P n d K low p (accept kind >>= fun b => if b = true then x else y) := by
  have hrun : (Grammar.accept kind >>= fun b => if b = true then x else y) =
      (Grammar.sees kind >>= fun b =>
        if b = true then (Grammar.advance >>= fun _ => x) else y) := by
    simp only [Grammar.accept, bind_assoc]
    congr 1
    funext b
    cases b <;> simp
  rw [hrun]
  refine .sees (.advance (fun j hj => hj.2 ▸ hk) (hx.reading ?_)) hy
  exact fun j a r hp t ht _ => hp _ ⟨t, rfl, ht.2⟩

/-! ## Reports and recovery -/

theorem complain {problem : SyntaxProblem} {f : Unit → Parser α}
    (direct : (problem.isMismatch || problem.isTooDeep) = false)
    (hf : Moves ts P n d K low (fun _ _ _ => True) (f ())) :
    Moves ts P n d K low p (complain problem >>= f) := by
  refine ⟨.bind (.complain direct) fun _ => hf.made, fun s h hn hP => ?_⟩
  have hran := hf.run (Grammar.complain problem s).2 ⟨h.free, h.place, h.size, h.closed⟩ hn hP
  refine ⟨hran.sound, hran.left, hran.limit, hran.depth, hran.low, fun ht => ?_⟩
  have hlog := (hran.reads ht).1
  simp [Grammar.complain, modify, modifyGet, MonadStateOf.modifyGet, StateT.modifyGet, Log.add,
    Pure.pure] at hlog

end Moves

/-- A required kind is taken where it stands. Where it does not stand, either tokens are taken or
it still does not stand there. -/
theorem State.Sound.require {s : State} (h : s.Sound ts) (hk : kind ≠ .endOfInput) :
    Ran ts 0 level unbounded (fun i _ r => Starts kind i r) s () (require kind s).2 ∧
      ((require kind s).2.left + 1 ≤ s.left ∨
        s.cursor.kind ≠ kind ∧ (require kind s).2.cursor.kind ≠ kind) := by
  have hreads : (Grammar.require kind s).2.log.latest = [] → s.log.latest = [] ∧ (s.Fresh →
      (Grammar.require kind s).2.Fresh ∧
        Starts kind s.upcoming (Grammar.require kind s).2.upcoming) := by
    intro ht
    obtain ⟨hlog, hrun⟩ := require_run ht
    refine ⟨hlog, fun hfresh => ?_⟩
    obtain ⟨hkind, heq⟩ := hrun hfresh.1
    rw [heq]
    exact ⟨hfresh, s.cursor.token, h.upcoming_next (hkind ▸ hk), hkind⟩
  suffices hmoves : (Grammar.require kind s).2.Sound ts ∧ (Grammar.require kind s).2.left ≤ s.left ∧
      (Grammar.require kind s).2.maxDepth = s.maxDepth ∧
      (Grammar.require kind s).2.depth = s.depth ∧
      ((Grammar.require kind s).2.left + 1 ≤ s.left ∨
        s.cursor.kind ≠ kind ∧ (Grammar.require kind s).2.cursor.kind ≠ kind) by
    obtain ⟨hsound, hle, hlimit, hdepth, htaken⟩ := hmoves
    exact ⟨⟨hsound, hle, hlimit, hdepth, trivial, hreads⟩, htaken⟩
  rw [require_eq]
  by_cases hkind : s.cursor.kind = kind
  · rw [if_pos hkind]
    have hleft := h.left_next (hkind ▸ hk)
    exact ⟨h.next.moved h.next.place true, Nat.le_of_succ_le hleft, rfl, rfl, .inl hleft⟩
  rw [if_neg hkind]
  by_cases hr : s.recovered = true
  · rw [if_pos hr]
    exact ⟨⟨h.free, h.place, h.size, h.closed⟩, Nat.le_refl _, rfl, rfl, .inr ⟨hkind, hkind⟩⟩
  rw [if_neg hr]
  obtain ⟨hplace, hle, -⟩ := seekFrom_place (fun j => j = kind || j = .endOfInput)
    s.cursor.following s.cursor.previous s.cursor.token s.cursor.position h.place
  have hfound := h.moved hplace s.recovered
  split
  · rename_i hc
    have hleft := hfound.left_next fun heof => hk (hc.symm.trans heof)
    refine ⟨hfound.next.moved hfound.next.place true, ?_, rfl, rfl, .inl ?_⟩
    · exact Nat.le_trans (Nat.le_of_succ_le hleft) hle
    · exact Nat.le_trans hleft hle
  · rename_i hc
    exact ⟨hfound, hle, rfl, rfl, .inr ⟨hkind, hc⟩⟩

/-- After `ensureProgress`, a token was taken since a place that was not the end of input. If one
was taken before, nothing is done. -/
theorem State.Sound.ensureProgress {s t : State} (hs : s.Sound ts) (ht : t.Sound ts)
    (hle : t.left ≤ s.left) (hk : s.cursor.kind ≠ .endOfInput) :
    (ensureProgress s.cursor.position t).2.left + 1 ≤ s.left ∧
      ((ensureProgress s.cursor.position t).2 = t ∨
        (ensureProgress s.cursor.position t).2 = t.next ∧ t.left = s.left) := by
  have hrun : Grammar.ensureProgress s.cursor.position t =
      if t.cursor.position = s.cursor.position ∧ t.cursor.kind ≠ .endOfInput then advance t
      else ((), t) := by
    change (if t.cursor.position = s.cursor.position ∧ t.cursor.kind ≠ .endOfInput then advance
      else Pure.pure ()) t = _
    split <;> rfl
  rw [hrun]
  have hlength := hs.length_eq
  have hlength' := ht.length_eq
  by_cases hc : t.cursor.position = s.cursor.position ∧ t.cursor.kind ≠ .endOfInput
  · rw [if_pos hc]
    exact ⟨Nat.le_trans (ht.left_next hc.2) hle, .inr ⟨rfl, by omega⟩⟩
  · rw [if_neg hc]
    refine ⟨Nat.lt_of_le_of_ne hle fun heq => hc ⟨?_, ?_⟩, .inl rfl⟩
    · change t.left = s.left at heq
      omega
    · rw [hs.kind_eq ht heq]
      exact hk

namespace Moves

theorem required (hk : kind ≠ .endOfInput) :
    Keeps ts P n unbounded (fun i _ r => Starts kind i r) (require kind) :=
  ⟨.require, fun _ h _ _ => (h.require hk).1⟩

theorem require {f : Unit → Parser α} (hk : kind ≠ .endOfInput)
    (hf : Moves ts anywhere n d K low (fun j a r => ∀ i, Starts kind i j → p i a r) (f ())) :
    Moves ts P n d K low p (Grammar.require kind >>= f) :=
  .skip (.required hk) fun _ => hf

theorem requiredSeen (hk : kind ≠ .endOfInput) (hP : ∀ j, P j → j = kind) :
    Moves ts P n 1 level unbounded (fun i _ r => Starts kind i r) (Grammar.require kind) := by
  refine ⟨.require, fun s h _ hs => ?_⟩
  obtain ⟨hran, htaken | hnot⟩ := h.require hk
  · exact ⟨hran.sound, htaken, hran.limit, hran.depth, trivial, hran.reads⟩
  · exact absurd (hP _ hs) hnot.1

theorem requireSeen {f : Unit → Parser α} (hk : kind ≠ .endOfInput) (hP : ∀ j, P j → j = kind)
    (hf : Moves ts anywhere (n - 1) (d - 1) K low (fun j a r => ∀ i, Starts kind i j → p i a r)
      (f ())) : Moves ts P n d K low p (Grammar.require kind >>= f) :=
  .skipAfter 1 (.requiredSeen hk hP) fun _ => hf

theorem requireOr {f : Unit → Parser α} (hk : kind ≠ .endOfInput)
    (htaken : Keeps ts anywhere (n - 1) low (fun j a r => ∀ i, Starts kind i j → p i a r) (f ()))
    (hnot : Keeps ts (· ≠ kind) n low (fun j a r => ∀ i, Starts kind i j → p i a r) (f ())) :
    Keeps ts P n low p (Grammar.require kind >>= f) := by
  refine ⟨.bind .require fun _ => hnot.made, fun s h hn _ => ?_⟩
  obtain ⟨hran, htook | hstill⟩ := h.require hk
  · refine hran.trans ((htaken.run _ hran.sound (by omega) trivial).imp (fun _ h _ => h) id)
  · have hleft := hran.left
    exact hran.trans ((hnot.run _ hran.sound (by omega) hstill.2).imp (fun _ h _ => h) id)

theorem word (h : Moves ts P n e level unbounded (fun i _ r => Starts .identifier i r)
    (Grammar.require .identifier)) :
    Moves ts P n e level unbounded (Derives .identifier) identifier := by
  refine ⟨.identifier, fun s hs hn hP => ?_⟩
  have hran := h.run s hs hn hP
  refine ⟨hran.sound, hran.left, hran.limit, hran.depth, trivial, fun ht => ?_⟩
  obtain ⟨hlog, hread⟩ := hran.reads ht
  refine ⟨hlog, fun hfresh => ⟨(hread hfresh).1, ?_⟩⟩
  obtain ⟨hkind, heq⟩ := (require_run ht).2 hfresh.1
  have hprevious : (Grammar.require .identifier s).2.cursor.previous = s.cursor.token := by
    rw [heq]
    simp only [State.next, Cursor.next]
    split <;> rfl
  change Derives .identifier s.upcoming
    (if (Grammar.require .identifier s).2.cursor.previous.kind = .identifier
      then (Grammar.require .identifier s).2.cursor.previous.lexeme else "")
    (Grammar.require .identifier s).2.upcoming
  have hkind' : s.cursor.token.kind = .identifier := hkind
  rw [hprevious, if_pos hkind', heq, hs.upcoming_next (by rw [hkind]; decide)]
  exact .identifier hkind'

theorem identifier : Parses ts P n unbounded .identifier identifier := .word (.required (by decide))

/-- A turn of a loop. If the item took nothing, a token is skipped. An item that was read took
one. -/
theorem turn {f : β → Parser α} (hitem : Keeps ts anywhere n high q item)
    (hP : ∀ j, P j → j ≠ .endOfInput) (hq : ∀ i b j, q i b j → j.length < i.length)
    (hf : ∀ b, Keeps ts anywhere (n - 1) (fun k a => high k b → low k a)
      (fun j a r => ∀ i, q i b j → p i a r) (f b)) :
    Keeps ts P n low p (get >>= fun s => item >>= fun b =>
      ensureProgress s.cursor.position >>= fun _ => f b) := by
  have hmade (c : Cursor) : Made (item >>= fun b => ensureProgress c.position >>= fun _ => f b) :=
    .bind hitem.made fun b => .bind .ensureProgress fun _ => (hf b).made
  refine ⟨.atCursor hmade, fun s h hn hs => ?_⟩
  have hran := hitem.run s h hn trivial
  have hstep : Ran ts 1 level high q s (item s).1
      (ensureProgress s.cursor.position (item s).2).2 := by
    obtain ⟨hleft, hsame | ⟨hnext, hstill⟩⟩ := h.ensureProgress hran.sound hran.left (hP _ hs)
    · rw [hsame] at hleft ⊢
      exact ⟨hran.sound, hleft, hran.limit, hran.depth, hran.low, hran.reads⟩
    · rw [hnext] at hleft ⊢
      refine ⟨hran.sound.next, hleft, hran.limit, hran.depth, hran.low, fun ht =>
        ⟨(hran.reads ht).1, fun hfresh => ?_⟩⟩
      -- What was read is shorter than before, so this is not where a token was skipped.
      have hshort := hq _ _ _ ((hran.reads ht).2 hfresh).2
      simp only [State.upcoming, List.length_cons, State.left] at hshort hstill
      omega
  have hleft := hstep.left
  exact hstep.trans ((hf (item s).1).run _ hstep.sound (by omega) trivial)

end Moves

/-! ## Depth -/

theorem State.Sound.descend {s : State} (h : s.Sound ts) :
    descend s = (true, { s with depth := s.depth + 1 }) ∧ s.depth + 1 ≤ s.maxDepth ∨
      ∃ t : State, descend s = (false, t) ∧ t.Sound ts ∧ t.left ≤ s.left ∧
        t.depth = s.depth + 1 ∧ t.maxDepth = s.maxDepth ∧ s.maxDepth - s.depth = 0 ∧
        (t.log.latest = [] → s.log.latest = [] ∧ ¬s.Fresh) := by
  have hdeep : s.tooDeep.Sound ts ∧ s.tooDeep.left = s.left ∧ s.tooDeep.depth = s.depth + 1 ∧
      s.tooDeep.maxDepth = s.maxDepth := by
    unfold State.tooDeep
    split <;> exact ⟨⟨h.free, h.place, h.size, h.closed⟩, rfl, rfl, rfl⟩
  have hreads : s.tooDeep.log.latest = [] → s.log.latest = [] ∧ ¬s.Fresh := fun ht =>
    ⟨(s.latest_tooDeep ht).1, fun hfresh => absurd (s.latest_tooDeep ht).2 (by simp [hfresh.2])⟩
  rw [descend_eq]
  split
  · rename_i hd
    exact .inl ⟨rfl, hd⟩
  · refine .inr ⟨_, rfl, ?_⟩
    have hzero : s.maxDepth - s.depth = 0 := by omega
    split
    · exact ⟨hdeep.1, Nat.le_of_eq hdeep.2.1, hdeep.2.2.1, hdeep.2.2.2, hzero, hreads⟩
    · exact ⟨hdeep.1.next, hdeep.2.1 ▸ s.tooDeep.left_next_le, hdeep.2.2.1, hdeep.2.2.2, hzero,
        hreads⟩

theorem State.Sound.ascend {s : State} (h : s.Sound ts) (hle : levels ≤ s.depth) :
    (ascend levels s).2.Sound ts := by
  have hfree : (s.stuck || decide (s.depth < levels)) = false := by
    rw [h.free, decide_eq_false (Nat.not_lt.2 hle)]
    rfl
  exact ⟨hfree, h.place, h.size, h.closed⟩

namespace Moves

theorem nested (h : Keeps ts P n low p rule) (hfallback : low' 0 fallback)
    (hlow : ∀ k a, low k a → low' (k + 1) a) : Keeps ts P n low' p (nested fallback rule) := by
  refine ⟨.nested h.made, fun s hs hn hP => ?_⟩
  have hrun : Grammar.nested fallback rule s =
      if (Grammar.descend s).1 = true then
        ((rule (Grammar.descend s).2).1, (Grammar.ascend 1 (rule (Grammar.descend s).2).2).2)
      else (fallback, (Grammar.ascend 1 (Grammar.descend s).2).2) := by
    change (if (Grammar.descend s).1 = true
      then (rule >>= fun a => Grammar.ascend 1 >>= fun _ => Pure.pure a)
      else (Pure.pure fallback >>= fun a => Grammar.ascend 1 >>= fun _ => Pure.pure a))
        (Grammar.descend s).2 = _
    split <;> rfl
  rw [hrun]
  rcases hs.descend with ⟨heq, hd⟩ | ⟨t, heq, ht, hle, hdepth, hlimit, hzero, hreads⟩
  · rw [heq, if_pos rfl]
    have hran := h.run _ (hs.withDepth (s.depth + 1)) hn hP
    have hdepth : _ = s.depth + 1 := hran.depth
    have hlevels : s.maxDepth - s.depth = s.maxDepth - (s.depth + 1) + 1 := by omega
    exact ⟨hran.sound.ascend (by omega), hran.left, hran.limit, congrArg (· - 1) hdepth,
      hlevels ▸ hlow _ _ hran.low, hran.reads⟩
  · rw [heq, if_neg Bool.false_ne_true]
    exact ⟨ht.ascend (by omega), hle, hlimit, congrArg (· - 1) hdepth,
      hzero ▸ hfallback, fun hu => ⟨(hreads hu).1, fun hfresh => absurd hfresh (hreads hu).2⟩⟩

/-! ## Chains -/

section Chains

variable {levels : Nat} {e : Expr} {x : Parser (Expr × Nat)} {L low : Nat → Expr × Nat → Prop}
  {p q : List Token → Expr × Nat → List Token → Prop}

theorem chainStop (hlow : ∀ k, low k (e, levels)) (hp : ∀ i, p i (e, levels) i) :
    Moves ts P n 0 (chained levels) low p (Pure.pure (e, levels)) :=
  ⟨.pure, fun _ h _ _ => ⟨h, Nat.le_refl _, rfl, rfl, hlow _, fun hs =>
    ⟨hs, fun hfresh => ⟨hfresh, hp _⟩⟩⟩⟩

theorem descend (h : Moves ts P n 0 (chained (levels + 1)) L p x)
    (hstop : ∀ k, low k (e, levels + 1)) (hlow : ∀ k r, L k r → low (k + 1) r) :
    Moves ts P n 0 (chained levels) low p
      (descend >>= fun b => if b = true then x else Pure.pure (e, levels + 1)) := by
  refine ⟨.bind .descend fun _ => .ite h.made .pure, fun s hs hn hP => ?_⟩
  have hrun : (Grammar.descend >>= fun b => if b = true then x else Pure.pure (e, levels + 1)) s =
      (if (Grammar.descend s).1 = true then x else Pure.pure (e, levels + 1))
        (Grammar.descend s).2 := rfl
  rw [hrun]
  rcases hs.descend with ⟨heq, hd⟩ | ⟨t, heq, ht, hle, hdepth, hlimit, hzero, hreads⟩
  · rw [heq, if_pos rfl]
    have hran := h.run _ (hs.withDepth (s.depth + 1)) hn hP
    have hlevels : s.maxDepth - s.depth = s.maxDepth - (s.depth + 1) + 1 := by omega
    refine ⟨hran.sound, hran.left, hran.limit, ?_, hlevels ▸ hlow _ _ hran.low, hran.reads⟩
    have hdepth := hran.depth
    simp only [chained] at hdepth ⊢
    omega
  · rw [heq, if_neg Bool.false_ne_true]
    refine ⟨ht, hle, hlimit, ?_, hstop _, fun hu =>
      ⟨(hreads hu).1, fun hfresh => absurd hfresh (hreads hu).2⟩⟩
    change t.depth + levels = s.depth + (levels + 1)
    omega

theorem chainBind {f : Expr × Nat → Parser (Expr × Nat)} (hx : Moves ts P n 0 (chained 0) L q x)
    (hf : ∀ r, Moves ts anywhere n 0 (chained r.2) (fun k a => ∀ l, k ≤ l → L l r → low l a)
      (fun j a s => ∀ i, q i r j → p i a s) (f r)) :
    Moves ts P n 0 (chained 0) low p (x >>= f) := by
  refine ⟨.bind hx.made fun r => (hf r).made, fun s hs hn hP => ?_⟩
  have hran := hx.run s hs hn hP
  have hleft := hran.left
  have hrest := (hf (x s).1).run (x s).2 hran.sound (by omega) trivial
  have hdepth : (x s).2.depth + 0 = s.depth + (x s).1.2 := hran.depth
  refine ⟨hrest.sound, Nat.le_trans hrest.left hleft, hrest.limit.trans hran.limit, ?_, ?_, ?_⟩
  · have hdepth' := hrest.depth
    simp only [chained] at hdepth' ⊢
    change (f (x s).1 (x s).2).2.depth + 0 = s.depth + (f (x s).1 (x s).2).1.2
    omega
  · refine hrest.low _ ?_ hran.low
    rw [hran.limit]
    omega
  · refine fun hu => ⟨(hran.reads (hrest.reads hu).1).1, fun hfresh => ?_⟩
    obtain ⟨hfresh', hq⟩ := (hran.reads (hrest.reads hu).1).2 hfresh
    obtain ⟨hfresh'', hp⟩ := (hrest.reads hu).2 hfresh'
    exact ⟨hfresh'', hp _ hq⟩

theorem chainEnd {low : Nat → Expr → Prop} {p : List Token → Expr → List Token → Prop}
    (h : Moves ts P n 0 (chained 0) (fun k r => low k r.1) (fun i r j => p i r.1 j) x) :
    Keeps ts P n low p (x >>= fun r => Grammar.ascend r.2 >>= fun _ => Pure.pure r.1) := by
  refine ⟨.bind h.made fun _ => .bind .ascend fun _ => .pure, fun s hs hn hP => ?_⟩
  have hran := h.run s hs hn hP
  have hdepth : (x s).2.depth + 0 = s.depth + (x s).1.2 := hran.depth
  refine ⟨hran.sound.ascend (by omega), hran.left, hran.limit, ?_, hran.low, hran.reads⟩
  change (x s).2.depth - (x s).1.2 = s.depth
  omega

end Chains

/-! ## Loops -/

variable {c : Category α}

theorem afterEach (hk : separator ≠ .endOfInput) (h : Parses ts anywhere (n - 1) low c item) :
    ∀ bound k, k ≤ n → k ≤ bound → Parses ts P k (fun q xs => ∀ x ∈ xs, low q x)
      (.each separator c) (afterEach separator item bound) := by
  intro bound
  induction bound generalizing P with
  | zero => exact fun k _ hbound => .outOfBound (by omega)
  | succ bound ih =>
    intro k hn hbound
    rw [Grammar.afterEach]
    refine .accept hk (.bind (h.fewer (by omega)) fun x => ?_)
      (.pure (fun _ => nofun) fun _ stop => .eachNone stop)
    refine .bind (ih (k - 1) (by omega) (by omega)) fun xs => .pure ?_ ?_
    · exact fun q hxs hx => List.forall_mem_cons.2 ⟨hx, hxs⟩
    · exact fun r k tail j head i another => .eachMore another head tail

theorem commaSeparated (h : Parses ts P n low c item) (h' : Parses ts anywhere (n - 1) low c item) :
    Parses ts P n (fun q xs => ∀ x ∈ xs, low q x) (.list c) (commaSeparated item) := by
  refine .bind h fun x => .remaining fun _ k hn hbound => ?_
  refine .bind (.afterEach (by decide) h' _ k hn hbound) fun xs => .pure ?_ ?_
  · exact fun q hxs hx => List.forall_mem_cons.2 ⟨hx, hxs⟩
  · exact fun _ _ tail _ head => .list head tail

theorem itemsWithin (h : Parses ts anywhere n low c item) (hc : c.least = 1) :
    ∀ bound k, k ≤ n → k ≤ bound → Parses ts anywhere k (fun q xs => ∀ x ∈ xs, low q x)
      (.items ends c) (itemsWithin ends item bound) := by
  intro bound
  induction bound with
  | zero => exact fun k _ hbound => .outOfBound (by omega)
  | succ bound ih =>
    intro k hn hbound
    rw [Grammar.itemsWithin]
    refine .currentKind fun j => .ite (fun hend => .pure (fun _ => nofun) ?_) fun hgo => ?_
    · refine fun i hi => .itemsNone ?_
      subst hi
      simpa using hend
    · have hboth : ends j = false ∧ j ≠ .endOfInput := by simpa using hgo
      refine .turn (h.fewer hn) (fun _ hj => hj.2 ▸ hboth.2) (fun i x j hx => ?_) fun x => ?_
      · have := hx.length
        omega
      refine .bind (ih (k - 1) (by omega) (by omega)) fun xs => .pure ?_ ?_
      · exact fun q hxs hx => List.forall_mem_cons.2 ⟨hx, hxs⟩
      · rintro r j' tail i head rfl
        exact .itemsMore hboth.1 hboth.2 head tail

theorem itemsUntil (h : Parses ts anywhere n low c item) (hc : c.least = 1) :
    Parses ts anywhere n (fun q xs => ∀ x ∈ xs, low q x) (.items ends c) (itemsUntil ends item) :=
  .remaining fun _ k hn hbound => .itemsWithin h hc _ k hn hbound

theorem closing (h : Parses ts anywhere n low c item) (hc : c.least = 1) :
    Keeps ts anywhere n (fun q xs => ∀ x ∈ xs, low q x)
      (fun j xs r => ∀ i, Starts .leftBrace i j → Derives (.braced c) i xs r)
      (Grammar.itemsUntil (· = .rightBrace) item >>= fun xs =>
        Grammar.require .rightBrace >>= fun _ => Pure.pure xs) :=
  .bind (.itemsUntil h hc) fun _ => .require (by decide) (.pure (fun _ => id)
    fun _ _ closing _ inner _ opening => .braced opening inner closing)

theorem braced (h : Parses ts anywhere n low c item) (hc : c.least = 1) :
    Parses ts P n (fun q xs => ∀ x ∈ xs, low q x) (.braced c) (braced item) :=
  .require (by decide) (.closing h hc)

theorem bracedSeen (h : Parses ts anywhere (n - 1) low c item) (hc : c.least = 1)
    (hP : ∀ j, P j → j = .leftBrace) :
    Parses ts P n (fun q xs => ∀ x ∈ xs, low q x) (.braced c) (Grammar.braced item) :=
  .requireSeen (by decide) hP (.closing h hc)

/-! ## Optional parts -/

theorem option (hk : kind ≠ .endOfInput) (h : Parses ts anywhere (n - 1) low c item) :
    Parses ts P n (fun k o => ∀ a ∈ o, low k a) (.option kind c) (Grammar.accept kind >>= fun b =>
      if b = true then some <$> item else Pure.pure none) := by
  refine .accept hk (.map h ?_ ?_) (.pure (fun _ => nofun) fun i => .optionNone)
  · exact fun k a ha => by simpa using ha
  · exact fun j a r part i start => .optionSome start part

theorem upTo (habsent : ∀ k, low k absent) (h : Parses ts anywhere n low c part) :
    Parses ts P n low (.upTo kind absent c) (Grammar.sees kind >>= fun b =>
      if b = true then Pure.pure absent else part) := by
  refine .sees (.pure habsent fun i => .upToAbsent) ((h.fewer (Nat.le_refl _)).reading ?_)
  exact fun i a r inner go => .upToPresent go inner

theorem clause (hk : kind ≠ .endOfInput) (h : ∀ {Q m}, Parses ts Q m unbounded c item) :
    Parses ts P n unbounded (.clause kind c) (Grammar.accept kind >>= fun b =>
      if b = true then Grammar.commaSeparated item else Pure.pure []) := by
  refine .accept hk ((Moves.commaSeparated h h).imp (fun _ _ _ => trivial) ?_)
    (.pure (fun _ => trivial) fun i stop => .clauseNone stop)
  exact fun j xs r parts i start => .clauseSome start parts

end Moves

end JMinusMinus.Grammar
