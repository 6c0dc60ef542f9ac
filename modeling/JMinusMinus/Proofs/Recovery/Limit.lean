import JMinusMinus.Proofs.Recovery.Rules

/-!
# The limit on depth and the log

Two things that a parse carries along do not steer it.

* *The log.*  No rule looks at what was reported before, so a parse that starts with reports of
  others takes the same tokens to the same tree and adds the same reports on top of them.
* *The limit.*  A rule asks for it only when it goes a level down. The first level past the limit is
  reported, so a parse without that report never met the limit, and a higher one changes nothing.

Both are one statement about a run (`Made.over`), by induction on how its rule is made.
-/

namespace JMinusMinus.Grammar

variable {α : Type} {x : Parser α}

/-! ## What a run keeps -/

/-- The same parse with another limit, and with its log on top of earlier reports. -/
def State.over (s : State) (limit : Nat) (earlier : List (Report Problem)) : State :=
  { s with maxDepth := limit, log := ⟨s.log.latest ++ earlier⟩ }

/-- A later state of a parse. The limit is kept, the log grows, and the first level past the limit
is among what it grows by. -/
structure State.Later (s t : State) : Prop where
  limit : t.maxDepth = s.maxDepth
  reported : s.depthReported = true → t.depthReported = true
  log : ∃ new, t.log.latest = new ++ s.log.latest ∧
    (t.depthReported = true → s.depthReported = true ∨ new ≠ [])

namespace State.Later

theorem silent {s t : State} (limit : t.maxDepth = s.maxDepth)
    (reported : t.depthReported = s.depthReported) (log : t.log = s.log) : s.Later t :=
  ⟨limit, fun h => reported.trans h, [], by rw [log, List.nil_append],
    fun h => .inl (reported.symm.trans h)⟩

theorem logged {s t : State} (limit : t.maxDepth = s.maxDepth)
    (reported : s.depthReported = true → t.depthReported = true)
    (log : t.log = s.log.add line problem) : s.Later t :=
  ⟨limit, reported, [⟨line, problem⟩], by rw [log]; rfl, fun _ => .inr (List.cons_ne_nil _ _)⟩

theorem trans {s : State} (h : s.Later t) (h' : t.Later u) : s.Later u := by
  obtain ⟨new, hnew, hfirst⟩ := h.log
  obtain ⟨new', hnew', hlast⟩ := h'.log
  refine ⟨h'.limit.trans h.limit, h'.reported ∘ h.reported, new' ++ new, ?_, fun hu => ?_⟩
  · rw [hnew', hnew, List.append_assoc]
  · rcases hlast hu with ht | hne
    · exact (hfirst ht).imp_right fun hne => by simp [hne]
    · exact .inr (by simp [hne])

end State.Later

theorem require_later (sought : Kind) (s : State) : s.Later (require sought s).2 := by
  rw [require_eq]
  split
  · exact .silent rfl rfl rfl
  split
  · exact .logged rfl id rfl
  split
  · exact .silent rfl rfl rfl
  · exact .silent rfl rfl rfl

theorem State.later_tooDeep (s : State) : s.Later s.tooDeep := by
  unfold State.tooDeep
  split
  · exact .silent rfl rfl rfl
  · exact .logged rfl (fun _ => rfl) rfl

theorem descend_later (s : State) : s.Later (descend s).2 := by
  rw [descend_eq]
  split
  · exact .silent rfl rfl rfl
  · change s.Later (if _ then _ else _)
    split
    · exact s.later_tooDeep
    · exact s.later_tooDeep.trans (.silent rfl rfl rfl)

theorem Made.later (h : Made x) : ∀ s : State, s.Later (x s).2 := by
  induction h with
  | bind _ _ hfirst hrest => exact fun s => (hfirst s).trans (hrest _ _)
  | require => exact require_later _
  | complain _ => exact fun s => .logged rfl id rfl
  | descend => exact descend_later
  | _ => exact fun s => .silent rfl rfl rfl

/-! ## Another limit and earlier reports -/

/-- A run from a state is the same from that state with another limit and earlier reports, as long
as the limit is not passed or is the same. -/
def Tracks (x : Parser α) : Prop :=
  ∀ (s : State) (limit : Nat) (earlier : List (Report Problem)), s.maxDepth ≤ limit →
    ((x s).2.depthReported = true → limit = s.maxDepth) →
      x (s.over limit earlier) = ((x s).1, (x s).2.over limit earlier)

theorem require_tracks (sought : Kind) : Tracks (require sought) := by
  intro s limit earlier _ _
  rw [require_eq, require_eq]
  change (if s.cursor.kind = sought then _ else if s.recovered = true then _ else
    if (s.cursor.seek _).kind = sought then _ else _) = _
  split
  · rfl
  split
  · rfl
  split
  · rfl
  · rfl

theorem State.depthReported_tooDeep (s : State) : s.tooDeep.depthReported = true := by
  unfold State.tooDeep
  split
  · assumption
  · rfl

theorem State.tooDeep_over (s : State) (earlier : List (Report Problem)) :
    (s.over s.maxDepth earlier).tooDeep = s.tooDeep.over s.maxDepth earlier := by
  unfold State.tooDeep
  change (if s.depthReported = true then _ else _) = _
  split
  · rfl
  · rfl

theorem descend_tracks : Tracks descend := by
  intro s limit earlier hle hreported
  rw [descend_eq] at hreported ⊢
  rw [descend_eq]
  change (if s.depth + 1 ≤ limit then _ else _) = _
  by_cases hdepth : s.depth + 1 ≤ s.maxDepth
  · rw [if_pos (Nat.le_trans hdepth hle), if_pos hdepth]
    rfl
  · rw [if_neg hdepth] at hreported ⊢
    have hlimit : limit = s.maxDepth := by
      apply hreported
      change (if _ then _ else _ : State).depthReported = true
      split <;> exact s.depthReported_tooDeep
    subst hlimit
    rw [if_neg hdepth, s.tooDeep_over]
    change (_, if s.cursor.kind = .endOfInput then _ else _) =
      (_, (if _ then _ else _ : State).over _ _)
    split <;> rfl

theorem Made.tracks (h : Made x) : Tracks x := by
  induction h with
  | @bind _ _ x f hx hf hfirst hrest =>
    intro s limit earlier hle hreported
    have hlater : s.Later (x s).2 := hx.later s
    have hkept : (f (x s).1 (x s).2).2.depthReported = true → limit = (x s).2.maxDepth :=
      fun h => hlater.limit ▸ hreported h
    have hstart : x (s.over limit earlier) = ((x s).1, (x s).2.over limit earlier) :=
      hfirst s limit earlier hle fun h => hreported (((hf _).later _).reported h)
    rw [run_bind hstart]
    exact hrest _ _ limit earlier (hlater.limit ▸ hle) hkept
  | require => exact require_tracks _
  | descend => exact descend_tracks
  | _ => exact fun _ _ _ _ _ => rfl

/-! ## Higher limits -/

theorem Made.deeper (h : Made x) {s : State} (hunreported : s.depthReported = false)
    (hsilent : (x s).2.log = s.log) (hle : s.maxDepth ≤ limit) :
    x { s with maxDepth := limit } = ((x s).1, { (x s).2 with maxDepth := limit }) := by
  have hmet : (x s).2.depthReported ≠ true := by
    intro hreported
    obtain ⟨new, hnew, hsome⟩ := (h.later s).log
    have hnil : new = [] := by simpa [hsilent] using hnew
    rcases hsome hreported with hbefore | hne
    · rw [hunreported] at hbefore
      cases hbefore
    · exact hne hnil
  have hrun := h.tracks s limit [] hle fun hreported => absurd hreported hmet
  simpa [State.over] using hrun

/-- What parses without a report under a limit is parsed the same under a higher one: to the same
tree, with the same tokens taken and nothing reported. -/
theorem parse_deeper {file : String} {tokens : List Token} {log : Log Problem} {d d' : Nat}
    (hle : d ≤ d') :
    (∀ unit s, compilationUnit file (start tokens log d) = (unit, s) → s.log = log →
      compilationUnit file (start tokens log d') = (unit, { s with maxDepth := d' })) ∧
    (∀ e s, expression (start tokens log d) = (e, s) → s.log = log →
      expression (start tokens log d') = (e, { s with maxDepth := d' })) := by
  constructor
  · intro unit s hrun hsilent
    have hsame := (compilationUnit_made file).deeper (s := start tokens log d) rfl
      (by rw [hrun, hsilent]; rfl) hle
    rwa [hrun] at hsame
  · intro e s hrun hsilent
    have hsame := expression_made.deeper (s := start tokens log d) rfl
      (by rw [hrun, hsilent]; rfl) hle
    rwa [hrun] at hsame

theorem parseUnit_log (file : String) (d : Nat) (tokens : List Token) (log : Log Problem) :
    (parseUnit file d tokens log).2 = (compilationUnit file (start tokens log d)).2.log := rfl

/-- A method with a sign and a difference inside an assignment inside a loop. -/
def nestedTokens : List Token :=
  (readTokens "class A { int m(int i) { while (i > 0) { i = -(i - 1); } return i; } }").1

/-- Ten levels are enough for the method, and nine are not. -/
theorem nestedTokens_deeper :
    (parseUnit "A.java" 9 nestedTokens {}).2 ≠ {} ∧ (parseUnit "A.java" 10 nestedTokens {}).2 = {} ∧
    ∃ unit s, compilationUnit "A.java" (start nestedTokens {} 10) = (unit, s) ∧
      compilationUnit "A.java" (start nestedTokens {} 64) = (unit, { s with maxDepth := 64 }) := by
  have henough : (parseUnit "A.java" 10 nestedTokens {}).2 = {} := by decide +kernel
  refine ⟨by decide +kernel, henough, ?_⟩
  rw [parseUnit_log] at henough
  generalize hrun : compilationUnit "A.java" (start nestedTokens {} 10) = run at henough ⊢
  exact ⟨run.1, run.2, rfl, (parse_deeper (by decide)).1 run.1 run.2 hrun henough⟩

end JMinusMinus.Grammar
