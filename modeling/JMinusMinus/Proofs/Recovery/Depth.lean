import JMinusMinus.Proofs.Recovery.Limit

/-!
# Levels

A rule that goes down comes up again by as many levels, on each of its ways out: a chain counts its
levels one by one and gives them back at once, those past the limit included.

A rule is a function, so what happens between its start and its end is told by a *script*, which is
the rule written out as steps. A script has the states after each of its steps and the answers to
its uses of `descend`. What is proved holds of every script of a rule.

The states of a run are never above the one it starts from. For otherwise the same run, started
from depth zero with as many levels left, would come up a level that it did not go down
(`Script.run_raised`), and no rule does.
-/

namespace JMinusMinus

/-- Whether a problem is nesting past the limit. -/
def Problem.isTooDeep : Problem → Bool
  | .syntactic p => p.isTooDeep
  | _ => false

/-- How often nesting past the limit is reported in a log. -/
def Log.tooDeeps (log : Log Problem) : Nat := log.latest.countP (·.problem.isTooDeep)

namespace Grammar

variable {α : Type}

/-! ## Scripts -/

/-- A rule written out as steps. -/
inductive Script : Type → Type 1
  | pure {α : Type} (a : α) : Script α
  | bind {α β : Type} (first : Script α) (rest : α → Script β) : Script β
  | look {α : Type} (f : Cursor → Nat → α) : Script α
  | advance : Script Unit
  | require (sought : Kind) : Script Unit
  | complain (problem : SyntaxProblem)
      (direct : (problem.isMismatch || problem.isTooDeep) = false) : Script Unit
  | descend : Script Bool
  | ascend (levels : Nat) : Script Unit
  | stick : Script Unit

namespace Script

/-- The rule that a script stands for. -/
def run : {α : Type} → Script α → Parser α
  | _, pure a => Pure.pure a
  | _, bind x f => x.run >>= fun a => (f a).run
  | _, look f => fun s => (f s.cursor s.size, s)
  | _, advance => Grammar.advance
  | _, require sought => Grammar.require sought
  | _, complain problem _ => Grammar.complain problem
  | _, descend => Grammar.descend
  | _, ascend levels => Grammar.ascend levels
  | _, stick => modify fun s => { s with stuck := true }

/-- The states after each step of a run. -/
def states : {α : Type} → Script α → State → List State
  | _, bind x f, s => x.states s ++ (f (x.run s).1).states (x.run s).2
  | _, c, s => [(c.run s).2]

/-- The answers to `descend` in a run: whether the level is within the limit. -/
def answers : {α : Type} → Script α → State → List Bool
  | _, bind x f, s => x.answers s ++ (f (x.run s).1).answers (x.run s).2
  | _, descend, s => [(Grammar.descend s).1]
  | _, _, _ => []

theorem made (c : Script α) : Made c.run := by
  induction c with
  | pure a => exact .pure
  | bind x f hx hf => exact .bind hx hf
  | look f => exact .look f
  | advance => exact .advance
  | require sought => exact .require
  | complain problem direct => exact .complain direct
  | descend => exact .descend
  | ascend levels => exact .ascend
  | stick => exact .stick

end Script

theorem Made.script (h : Made x) : ∃ c : Script α, c.run = x := by
  induction h with
  | @pure _ a => exact ⟨.pure a, rfl⟩
  | bind _ _ hfirst hrest =>
    obtain ⟨c, rfl⟩ := hfirst
    choose f hf using hrest
    exact ⟨.bind c f, congrArg (c.run >>= ·) (funext hf)⟩
  | look f => exact ⟨.look f, rfl⟩
  | advance => exact ⟨.advance, rfl⟩
  | @require sought => exact ⟨.require sought, rfl⟩
  | complain direct => exact ⟨.complain _ direct, rfl⟩
  | descend => exact ⟨.descend, rfl⟩
  | @ascend levels => exact ⟨.ascend levels, rfl⟩
  | stick => exact ⟨.stick, rfl⟩

/-! ## Runs at another depth -/

/-- The same parse further down, with another limit and another log. -/
def State.raised (s : State) (d limit : Nat) (log : Log Problem) : State :=
  { s with depth := s.depth + d, maxDepth := limit, log }

namespace Script

theorem stuck_run (c : Script α) {s : State} (h : s.stuck = true) : (c.run s).2.stuck = true := by
  induction c generalizing s with
  | bind x f hx hf => exact hf _ (hx h)
  | require sought =>
    rw [run, require_eq]
    repeat' split
    all_goals exact h
  | descend =>
    rw [run, descend_eq]
    unfold State.tooDeep
    repeat' split
    all_goals exact h
  | ascend levels => exact Bool.or_eq_true_iff.2 (.inl h)
  | stick => rfl
  | _ => exact h

/-- A run that is not stuck is the same from further down, with as many levels left, and never comes
up from there. -/
theorem run_raised (c : Script α) {s : State} (hlimit : s.maxDepth = limit - d)
    (hfree : (c.run s).2.stuck = false) :
    (∃ log', c.run (s.raised d limit log) = ((c.run s).1, (c.run s).2.raised d limit log')) ∧
      ∀ t ∈ c.states (s.raised d limit log), d ≤ t.depth := by
  have hstep {β : Type} {x : Parser β} {s t : State}
      (h : ∃ log', x s = ((x t).1, (x t).2.raised d limit log')) :
      (∃ log', x s = ((x t).1, (x t).2.raised d limit log')) ∧ ∀ u ∈ [(x s).2], d ≤ u.depth := by
    refine ⟨h, List.forall_mem_singleton.2 ?_⟩
    obtain ⟨log', h⟩ := h
    rw [h]
    exact Nat.le_add_left _ _
  induction c generalizing s log with
  | bind x f hx hf =>
    have hmiddle : (x.run s).2.stuck = false :=
      Bool.eq_false_iff.2 fun h => Bool.eq_false_iff.1 hfree ((f _).stuck_run h)
    obtain ⟨⟨log', hfirst⟩, hbefore⟩ := hx hlimit hmiddle
    obtain ⟨⟨log'', hrest⟩, hafter⟩ := hf _ ((x.made.later s).limit.trans hlimit) hfree
    refine ⟨⟨log'', (run_bind hfirst).trans hrest⟩, fun t ht => ?_⟩
    rw [states, hfirst] at ht
    exact (List.mem_append.1 ht).elim (hbefore t) (hafter t)
  | require sought =>
    refine hstep ?_
    simp only [run, require_eq, State.raised]
    repeat' split
    all_goals exact ⟨_, rfl⟩
  | descend =>
    refine hstep ?_
    have hdepth : s.depth + 1 + d ≤ limit ↔ s.depth + 1 ≤ s.maxDepth := by omega
    simp only [run, descend_eq, State.raised, State.tooDeep, Nat.add_right_comm s.depth d 1, hdepth]
    repeat' split
    all_goals exact ⟨_, rfl⟩
  | ascend levels =>
    refine hstep ⟨log, ?_⟩
    have hlevels : levels ≤ s.depth := by
      have hfree : (s.stuck || decide (s.depth < levels)) = false := hfree
      simpa using (Bool.or_eq_false_iff.1 hfree).2
    have hfar : (s.depth + d < levels) = (s.depth < levels) := by simp; omega
    have hdepth : s.depth + d - levels = s.depth - levels + d := by omega
    change ((), { s.raised d limit log with
      depth := s.depth + d - levels, stuck := s.stuck || decide (s.depth + d < levels) }) = _
    simp only [hfar, hdepth]
    rfl
  | _ => exact hstep ⟨_, rfl⟩

end Script

/-! ## Reports -/

/-- From one state to another nesting past the limit is reported unless it was before, if a level
was refused, and not otherwise. -/
structure State.Counts (s : State) (refused : Bool) (t : State) : Prop where
  reported : t.depthReported = (s.depthReported || refused)
  count : t.log.tooDeeps + s.depthReported.toNat = s.log.tooDeeps + t.depthReported.toNat

theorem State.Counts.quiet {s t : State} (reported : t.depthReported = s.depthReported)
    (count : t.log.tooDeeps = s.log.tooDeeps) : s.Counts false t :=
  ⟨by rw [reported, Bool.or_false], by rw [count, reported]⟩

theorem State.counts_tooDeep (s : State) : s.Counts true s.tooDeep := by
  unfold State.tooDeep
  split
  case isTrue h => exact ⟨by simp [h], rfl⟩
  case isFalse h =>
    refine ⟨by simp, ?_⟩
    simp [h, Log.tooDeeps, Log.add, Problem.isTooDeep, SyntaxProblem.isTooDeep]

theorem Script.counts_run (c : Script α) (s : State) :
    s.Counts (decide (false ∈ c.answers s)) (c.run s).2 := by
  induction c generalizing s with
  | bind x f hx hf =>
    have hfirst := hx s
    have hrest := hf (x.run s).1 (x.run s).2
    refine ⟨hrest.reported.trans ?_, ?_⟩
    · simp [hfirst.reported, answers, Bool.or_assoc]
    · have := hfirst.count
      have := hrest.count
      change ((f _).run _).2.log.tooDeeps + _ = _ + ((f _).run _).2.depthReported.toNat
      omega
  | require sought =>
    rw [run, require_eq]
    repeat' split
    all_goals exact .quiet rfl rfl
  | complain problem direct =>
    have hother : problem.isTooDeep = false := (Bool.or_eq_false_iff.1 direct).2
    refine .quiet rfl ?_
    change Log.tooDeeps ⟨⟨_, .syntactic problem⟩ :: _⟩ = _
    simp [Log.tooDeeps, Problem.isTooDeep, hother]
  | descend =>
    rw [answers, run, descend_eq]
    split
    · exact .quiet rfl rfl
    · have htooDeep := s.counts_tooDeep
      split
      · exact htooDeep
      · exact ⟨htooDeep.reported, htooDeep.count⟩
  | _ => exact .quiet rfl rfl

/-! ## Rules that nest -/

/-- A rule in which levels are taken, by itself or by the rules it uses. It is started on a kind
with `P` and with fewer than `n` tokens after it. -/
inductive Nests (n : Nat) : (Kind → Prop) → {α : Type} → Parser α → Prop
  | expression : Nests n anywhere expression
  | nestedExpression : Nests n anywhere (rules n).expressionRule
  | assignment : Nests n anywhere (rules n).assignment
  | conditional : Nests n anywhere (rules n).conditionalRule
  | binary (i : Nat) : Nests n anywhere ((rules n).binaryFrom (Rules.looseLevels.drop i))
  | relational : Nests n anywhere (rules n).relational
  | shift : Nests n anywhere (rules n).shift
  | additive : Nests n anywhere (rules n).additive
  | multiplicative : Nests n anywhere (rules n).multiplicative
  | unary : Nests n anywhere (rules n).unaryRule
  | simpleUnary : Nests n anywhere (rules n).simpleUnaryRule
  | cast (line : Nat) : Nests n (· = .leftParen) ((rules n).castOf line)
  | postfixed : Nests n anywhere (rules n).postfixed
  | selector (target : Expr) :
      Nests n (fun j => j = .dot ∨ j = .leftBracket) ((rules n).selector target)
  | primary : Nests n anywhere (rules n).primary
  | arguments : Nests n anywhere (rules (n + 1)).arguments
  | creator : Nests n anywhere (rules (n + 1)).creator
  | newArray (line : Nat) (ty : Ty) : Nests n anywhere ((rules (n + 1)).newArray line ty)
  | arrayInit (ty : Ty) : Nests n anywhere ((rules n).arrayInitRule ty)
  | initializer (ty : Ty) : Nests n anywhere (initializer ty)
  | declarator (ty : Ty) : Nests n anywhere (declarator ty)
  | declarators (ty : Ty) : Nests n anywhere (declarators ty)
  | locals : Nests n anywhere locals
  | statementExpression : Nests n anywhere statementExpression
  | statementExpressions : Nests n anywhere statementExpressions
  | condition : Nests n anywhere condition
  | statement : Nests n anywhere (statementWithin n)
  | form (line : Nat) : Nests n anywhere (statementForm (statementWithin n) line)
  | blockStatement : Nests n anywhere (blockStatement (statementWithin n))
  | block : Nests n anywhere block
  | forInit : Nests n anywhere forInit
  | forStatement (line : Nat) : Nests n anywhere (forStatement (statementWithin n) line)
  | switchLabel : Nests n anywhere switchLabel
  | switchGroup : Nests n anywhere (switchGroup (statementWithin n))
  | tryStatement (line : Nat) : Nests n anywhere (tryStatement (statementWithin n) line)
  | classMember : Nests n anywhere classMember
  | classRest (mods : List Modifier) : Nests n anywhere (classRest mods)
  | typeDeclaration : Nests n anywhere typeDeclaration
  | unit (file : String) : Nests n anywhere (compilationUnit file)

/-- What a rule does about levels when it is started in a state. -/
structure Balanced (x : Parser α) (s : State) : Prop where
  free : (x s).2.stuck = false
  depth : (x s).2.depth = s.depth
  script : ∃ c : Script α, c.run = x
  floor : ∀ c : Script α, c.run = x → ∀ t ∈ c.states s, s.depth ≤ t.depth

variable {P : Kind → Prop} {n : Nat} {x : Parser α} {ts : List Token} {s : State}

theorem Moves.balanced {K : α → Nat → State → Prop} {low : Nat → α → Prop}
    {p : List Token → α → List Token → Prop} (h : Moves ts P n d K low p x)
    (hK : ∀ a depth t, K a depth t → t.depth = depth) (hs : s.Sound ts) (hn : s.left < n)
    (hP : P s.cursor.kind) : Balanced x s := by
  have hran := h.run s hs hn hP
  refine ⟨hran.sound.free, hK _ _ _ hran.depth, h.made.script, ?_⟩
  rintro c rfl t ht
  -- The same run from depth zero, with as many levels left, is not stuck either.
  let low : State := { s with depth := 0, maxDepth := s.maxDepth - s.depth }
  have hfree := (h.run low ⟨hs.free, hs.place, hs.size, hs.closed⟩ hn hP).sound.free
  have hraised : low.raised s.depth s.maxDepth s.log = s := by
    simp only [low, State.raised, Nat.zero_add]
  rw [← hraised] at ht
  exact (c.run_raised rfl hfree).2 t ht

/-- A rule comes back to the depth it started from. -/
theorem Nests.balanced (h : Nests n P x) (hs : s.Sound ts) (hn : s.left < n)
    (hP : P s.cursor.kind) : Balanced x s := by
  have hof {d : Nat} {low : Nat → α → Prop} {p : List Token → α → List Token → Prop}
      (h : Moves ts P n d level low p x) : Balanced x s := h.balanced (fun _ _ _ => id) hs hn hP
  have hr : (rules n).Moving ts n := rules_moving n
  have hr' : (rules (n + 1)).Moving ts (n + 1) := rules_moving (n + 1)
  have hinner : Parses ts anywhere n StmtLow .statement (statementWithin n) := .statementWithin n
  cases h with
  | expression => exact hof .expression
  | nestedExpression => exact hof hr.expressionRule
  | assignment => exact hof hr.assignment
  | conditional => exact hof hr.conditionalRule
  | binary i =>
    have hend : ∀ ops ∈ Rules.looseLevels, ops.lookup .endOfInput = none := by decide
    exact hof (hr.binaryFrom _ fun ops hops => hend ops (List.mem_of_mem_drop hops))
  | relational => exact hof hr.relational
  | shift => exact hof hr.shift
  | additive => exact hof hr.additive
  | multiplicative => exact hof hr.multiplicative
  | unary => exact hof hr.unaryRule
  | simpleUnary => exact hof hr.simpleUnaryRule
  | cast line => exact hof (hr.castOf line fun _ => id)
  | postfixed => exact hof hr.postfixed
  | selector target => exact hof (hr.selector target)
  | primary => exact hof hr.primary
  | arguments => exact hof hr'.arguments
  | creator => exact hof hr'.creator
  | newArray line ty => exact hof (hr'.newArray line ty)
  | arrayInit ty => exact hof (hr.arrayInitRule ty)
  | initializer ty => exact hof (.initializer ty)
  | declarator ty => exact hof (.declarator ty)
  | declarators ty => exact hof (.declarators ty)
  | locals => exact hof .locals
  | statementExpression => exact hof .statementExpression
  | statementExpressions => exact hof .statementExpressions
  | condition => exact hof .condition
  | statement => exact hof hinner
  | form line => exact hof (.statementForm (hinner.fewer (Nat.sub_le _ _)) line)
  | blockStatement => exact hof (.blockStatement hinner)
  | block => exact hof .block
  | forInit => exact hof .forInit
  | forStatement line => exact hof (.forStatement hinner line)
  | switchLabel => exact hof (.labelFrom (Nat.zero_le 1) (.required (by decide)))
  | switchGroup => exact hof (.switchGroup hinner)
  | tryStatement line => exact hof (.tryStatement hinner line)
  | classMember => exact hof .classMember
  | classRest mods => exact hof (.classRest mods)
  | typeDeclaration => exact hof .typeDeclaration
  | unit file => exact (compilationUnit_moves file).balanced (fun _ _ _ => And.left) hs hn hP

/-! ## Parses -/

/-- Over a run nesting past the limit is reported once if a level is refused, else not at all. -/
def ReportsOnce (x : Parser α) (s : State) : Prop :=
  ∀ c : Script α, c.run = x →
    (x s).2.log.tooDeeps = s.log.tooDeeps + if false ∈ c.answers s then 1 else 0

theorem reportsOnce (hs : s.depthReported = false) : ReportsOnce x s := by
  rintro c rfl
  obtain ⟨hreported, hcount⟩ := c.counts_run s
  rw [hs, Bool.false_or] at hreported
  rw [hs, hreported] at hcount
  simpa [Bool.toNat, Bool.cond_decide] using hcount

/-- A rule comes up to the depth it starts from and is never above it in between. In a whole parse
nesting past the limit is reported once if a level is refused, else not at all. -/
theorem parse_levels (file : String) (maxDepth : Nat) (tokens : List Token) (log : Log Problem) :
    (∀ {α : Type} {P : Kind → Prop} {n : Nat} {x : Parser α}, Nests n P x →
      ∀ {ts : List Token} {s : State}, s.Sound ts → s.left < n → P s.cursor.kind → Balanced x s) ∧
    ReportsOnce (compilationUnit file) (start tokens log maxDepth) ∧
    ReportsOnce expression (start tokens log maxDepth) :=
  ⟨fun h => h.balanced, reportsOnce rfl, reportsOnce rfl⟩

/-- Nine levels are not enough for the method of `nestedTokens`, and that is said once. -/
theorem parse_levels_nested : Balanced (compilationUnit "A.java") (start nestedTokens {} 9) ∧
    (parseUnit "A.java" 9 nestedTokens {}).2.tooDeeps = 1 ∧
    ∃ c : Script CompilationUnit, c.run = compilationUnit "A.java" ∧
      false ∈ c.answers (start nestedTokens {} 9) := by
  obtain ⟨hrules, hreports, -⟩ := parse_levels "A.java" 9 nestedTokens {}
  have hsound := start_sound nestedTokens {} 9
  have hbalanced := hrules (.unit "A.java") hsound (Nat.lt_succ_self _) trivial
  have honce : (parseUnit "A.java" 9 nestedTokens {}).2.tooDeeps = 1 := by decide +kernel
  obtain ⟨c, hc⟩ := hbalanced.script
  refine ⟨hbalanced, honce, c, hc, ?_⟩
  by_contra hgranted
  have htotal := hreports c hc
  rw [if_neg hgranted, ← parseUnit_log, honce] at htotal
  cases htotal

end Grammar

end JMinusMinus
