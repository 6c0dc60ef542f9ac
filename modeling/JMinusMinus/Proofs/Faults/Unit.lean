import JMinusMinus.Proofs.Faults.Expr
import JMinusMinus.Proofs.Faults.Stmt

/-!
# Slots of units

Analysis of a written unit has one fault, and that exactly if some method or constructor has more
variables than slots (`analyze_fault`). Otherwise every body knows how many slots it uses, and no
first value of a field uses a local variable (`analyze_sized`).
-/

namespace JMinusMinus

/-! ## Counting -/

/-- How many slots parameters take. -/
def paramSlots (params : List Param) : Nat := (params.map (·.ty.slots)).sum

/-- The slots of a member: the current object, the parameters and the variables of the body. -/
def Member.slots : Member → Nat
  | .ctor c => 1 + (paramSlots c.params + stmtsSlots c.body.stmts)
  | .method m =>
    (if Analysis.isStatic m.modifiers then 0 else 1) + (paramSlots m.params + finalSlots m.body)
  | .field _ => 0

/-- The slots that the variables of each member take. -/
def TypeDecl.slots : TypeDecl → List Nat
  | .classDecl d => d.members.map Member.slots
  | .interfaceDecl d => d.members.map Member.slots

/-- A unit none of whose members has more variables than there are slots. -/
def CompilationUnit.Fits (u : CompilationUnit) : Prop :=
  ∀ d ∈ u.types, ∀ n ∈ d.slots, n ≤ maxSlots

/-- A member whose slots were counted, with plain loops, and with first values that use no local
variable. -/
def Member.Sized : Member → Prop
  | .ctor c => c.locals ≤ maxSlots ∧ StmtsPlain c.body.stmts
  | .method m => m.locals ≤ maxSlots ∧ ∀ b ∈ m.body, StmtsPlain b.stmts
  | .field f => ∀ d ∈ f.vars, ∀ e ∈ d.init, e.Clean [[]]

/-- Statements that start with a call of another constructor and have no other one. -/
def StartDelegating (ss : List Stmt) : Prop :=
  ∃ line n target args ref rest, ss = .exprStmt line (.delegate n target args ref) :: rest ∧
    (∀ e ∈ args, e.Barred) ∧ ∀ s ∈ rest, s.Barred

/-- A member that calls another constructor only where it may: a constructor once, in its first
statement, and others nowhere. -/
def Member.Delegates : Member → Prop
  | .ctor c => StartDelegating c.body.stmts
  | .method m => ∀ b ∈ m.body, ∀ s ∈ b.stmts, s.Barred
  | .field f => ∀ d ∈ f.vars, ∀ e ∈ d.init, e.Barred

/-- What analysis makes of a member. The call that a constructor gets is two nodes high. -/
structure Member.Counted (q S : Prop) (m m' : Member) : Prop where
  sized : S → m'.Sized
  inRow : m'.InRow
  delegates : q → m'.Delegates
  low : ∀ words n, 1 ≤ words → 2 ≤ n → m.rank (· + 1) Expr.height ≤ n →
    m.rank id Expr.longestName ≤ words → m'.rank (· + 1) Expr.height ≤ Analysis.stretch words n

theorem Member.WrittenBody.of_bodiless {m : Member} (h : m.Bodiless) : m.WrittenBody := by
  obtain ⟨decl, rfl, hbody⟩ := h
  show FinalWritten decl.body
  rw [hbody]
  trivial

/-! ## Resolved members -/

theorem paramSlots_eq {ps ps' : List Param}
    (h : List.Forall₂ Ty.Resolves (ps.map Param.ty) (ps'.map Param.ty)) :
    paramSlots ps' = paramSlots ps := by
  have hslots := Analysis.map_eq_of_forall₂ h (f := Ty.slots) (g := Ty.slots) fun _ _ h => h.2
  simpa [paramSlots, Function.comp_def] using congrArg List.sum hslots

theorem Member.Resolves.slots : ∀ {m m' : Member}, m.Resolves m' → m'.slots = m.slots
  | .field _, _, .field _ => rfl
  | .method _, _, .method h => by simp only [Member.slots, paramSlots_eq h]
  | .ctor _, _, .ctor h => by simp only [Member.slots, paramSlots_eq h]

theorem Member.Resolves.rank {m m' : Member} (h : m.Resolves m') (node : Nat → Nat)
    (leaf : Expr → Nat) : m'.rank node leaf = m.rank node leaf := by
  cases h with
  | field hinit =>
    have hinits (ds : List Declarator) :
        ds.filterMap Declarator.init = (ds.map Declarator.init).filterMap id := by
      simp [List.filterMap_map]
    simp only [Member.rank, hinits, hinit]
  | _ => rfl

theorem TypeDecl.Resolves.slots {d d' : TypeDecl} (h : d.Resolves d') : d'.slots = d.slots := by
  have hslots := Analysis.map_eq_of_forall₂ h.members fun _ _ h => h.slots
  cases h <;> exact hslots

namespace Analysis

variable {α β : Type} {q S : Prop}

/-! ## Steps -/

/-- A step that has a fault exactly if some slots cannot be counted. -/
def Counts (q S P : Prop) (x : Analysis α) (p : α → Prop) : Prop :=
  ∀ c, (q → c.mayDelegate = false) → (∀ f, x c = .error f → S → f = .slotOverflow ∧ ¬P) ∧
    ∀ a c', x c = .ok (a, c') → P ∧ (q → c'.mayDelegate = false) ∧
      c.log.latest <:+ c'.log.latest ∧ ((q → S ∧ c'.log.latest = []) → p a)

section

variable {x : Analysis α} {p p' : α → Prop} {P Q : Prop} {n : Nat}

theorem Counts.bind_of_returns {f : α → Analysis β} {r : β → Prop} (hx : Counts q S P x p)
    (h : Returns x p') (hf : ∀ a, p' a → Counts q S Q (f a) fun b => p a → r b) :
    Counts q S (P ∧ Q) (x >>= f) r := by
  intro c hmay
  obtain ⟨herror, hok⟩ := hx c hmay
  rcases bind_cases x f c with ⟨e, hrun, hbind⟩ | ⟨a, c', hrun, hbind⟩
  · rw [hbind]
    refine ⟨fun e' heq hS => ?_, nofun⟩
    cases heq
    obtain ⟨rfl, hP⟩ := herror _ hrun hS
    exact ⟨rfl, fun h => hP h.1⟩
  · obtain ⟨hP, hmay', hlog, ha⟩ := hok a c' hrun
    obtain ⟨herror', hok'⟩ := hf a (h c a c' hrun) c' hmay'
    rw [hbind]
    refine ⟨fun e he hS => ?_, fun b c'' hrun' => ?_⟩
    · obtain ⟨rfl, hQ⟩ := herror' e he hS
      exact ⟨rfl, fun h => hQ h.2⟩
    · obtain ⟨hQ, hmay'', hlog', hb⟩ := hok' b c'' hrun'
      exact ⟨⟨hP, hQ⟩, hmay'', hlog.trans hlog', fun hquiet =>
        hb hquiet (ha fun hq => ⟨(hquiet hq).1, eq_nil_of_suffix hlog' (hquiet hq).2⟩)⟩

theorem Counts.bind {f : α → Analysis β} {r : β → Prop} (hx : Counts q S P x p)
    (hf : ∀ a, Counts q S Q (f a) fun b => p a → r b) : Counts q S (P ∧ Q) (x >>= f) r :=
  hx.bind_of_returns .any fun a _ => hf a

theorem Counts.imp (h : Counts q S P x p) (hp : ∀ a, p a → p' a) : Counts q S P x p' := by
  intro c hmay
  obtain ⟨herror, hok⟩ := h c hmay
  refine ⟨herror, fun a c' hrun => ?_⟩
  obtain ⟨hP, hmay', hlog, ha⟩ := hok a c' hrun
  exact ⟨hP, hmay', hlog, fun hquiet => hp a (ha hquiet)⟩

theorem Counts.iff (h : Counts q S P x p) (hPQ : P ↔ Q) : Counts q S Q x p := by
  rwa [← propext hPQ]

theorem Counts.after {f : α → Analysis β} {r : β → Prop} (hx : Counts q S True x p)
    (hf : ∀ a, Counts q S P (f a) fun b => p a → r b) : Counts q S P (x >>= f) r :=
  (hx.bind hf).iff (by simp)

theorem Counts.andThen {f : α → Analysis β} {r : β → Prop} (hx : Counts q S True x p)
    (hf : ∀ a, Counts q S P (f a) r) : Counts q S P (x >>= f) r :=
  hx.after fun a => (hf a).imp fun _ h _ => h

theorem Counts.before {f : α → Analysis β} {r : β → Prop} (hx : Counts q S P x p)
    (hf : ∀ a, Counts q S True (f a) fun b => p a → r b) : Counts q S P (x >>= f) r :=
  (hx.bind hf).iff (by simp)

theorem Proceeds.counts (h : Proceeds x) : Counts q S True x fun _ => True := by
  intro c hmay
  obtain ⟨a, c', hrun, hlog, hsame⟩ := h c
  rw [hrun]
  refine ⟨nofun, fun a c' heq => ?_⟩
  cases heq
  exact ⟨trivial, fun hq => hsame.trans (hmay hq), hlog, fun _ => trivial⟩

theorem Reads.counts {R : Context → Context → Prop} (h : Reads R x x p) (hR : ∀ c, R c c) :
    Counts q S True x p := by
  intro c hmay
  obtain ⟨a, new, -, hrun, -, ha⟩ := h c c (hR c)
  rw [hrun]
  refine ⟨nofun, fun a' c' heq => ?_⟩
  cases heq
  exact ⟨trivial, hmay, List.suffix_append new _, fun _ => ha⟩

theorem Counts.pure {a : α} (h : p a) : Counts q S True (pure a) p :=
  Reads.counts (R := Context.Similar) (.ret h) .refl

theorem Counts.ite {b : Prop} [Decidable b] (hx : Counts q S P x p) (hy : Counts q S P y p) :
    Counts q S P (if b then x else y) p := by
  split
  · exact hx
  · exact hy

theorem Counts.get_bind {f : Context → Analysis α} (h : ∀ c, Counts q S P (f c) p) :
    Counts q S P (get >>= f) p :=
  fun c => h c c

theorem Counts.modify {f : Context → Context} (h : ∀ c, (f c).mayDelegate = c.mayDelegate ∧
    (f c).log = c.log := by exact fun _ => ⟨rfl, rfl⟩) :
    Counts q S True (modify f : Analysis PUnit) fun _ => True :=
  Proceeds.counts fun c => ⟨(), f c, rfl, (h c).2 ▸ List.suffix_refl _, (h c).1⟩

theorem Counts.mapM {f : β → Analysis α} {P : β → Prop} {r : β → α → Prop} : ∀ {bs : List β},
    (∀ b ∈ bs, Counts q S (P b) (f b) (r b)) →
      Counts q S (∀ b ∈ bs, P b) (bs.mapM f) fun as => ∀ a ∈ as, ∃ b ∈ bs, r b a
  | [], _ => (Counts.pure nofun).iff (by simp)
  | b :: bs, h => by
    rw [List.mapM_cons]
    refine Counts.iff (.bind (h b (by simp)) fun a => ?_) List.forall_mem_cons.symm
    refine .before (mapM fun b' hb' => h b' (List.mem_cons_of_mem b hb')) fun as => .pure ?_
    refine fun has ha => List.forall_mem_cons.2 ⟨⟨b, by simp, ha⟩, fun a' ha' => ?_⟩
    obtain ⟨b', hb', h'⟩ := has a' ha'
    exact ⟨b', List.mem_cons_of_mem b hb', h'⟩

/-- A method from its start to its end has all slots that its body takes. -/
theorem enterMethod_counts (isStatic isCtor : Bool) (result : Ty) (g : α → Nat → β) {r : β → Prop}
    (hx : Takes q S (if isStatic then 0 else 1) n x p)
    (hg : ∀ a, p a → (if isStatic then 0 else 1) + n ≤ maxSlots →
      r (g a ((if isStatic then 0 else 1) + n))) :
    Counts q S ((if isStatic then 0 else 1) + n ≤ maxSlots) (do
      enterMethod isStatic isCtor result
      let a ← x
      let k ← leaveMethod
      return g a k) r := by
  intro c hmay
  have hfirst : (if isStatic then 0 else 1) ≤ maxSlots := by
    unfold maxSlots
    split <;> omega
  obtain ⟨herror, hok⟩ := hx { c with
    method := some ⟨isStatic, isCtor, result, if isStatic then 0 else 1⟩
    scopes := [[]]
    jumps := [] } _ rfl rfl hmay
  rw [bind_run rfl]
  rcases bind_cases x (fun a => leaveMethod >>= fun k => pure (g a k)) _ with
    ⟨e, hrun, hbind⟩ | ⟨a, c', hrun, hbind⟩
  · rw [hbind]
    refine ⟨fun e' heq hS => ?_, nofun⟩
    cases heq
    obtain ⟨rfl, hover⟩ := herror _ hrun hS
    exact ⟨rfl, Nat.not_le.2 hover⟩
  · obtain ⟨hmoved, ha⟩ := hok a c' hrun
    have hleave : (leaveMethod >>= fun k => pure (g a k)) c' =
        .ok (g a ((if isStatic then 0 else 1) + n), { c' with method := none, scopes := [] }) := by
      show Except.ok (g a ((c'.method.map MethodScope.nextSlot).getD 0), _) = _
      rw [hmoved.method]
      rfl
    rw [hbind, hleave]
    refine ⟨nofun, fun b c'' heq => ?_⟩
    cases heq
    exact ⟨hmoved.fits hfirst, hmoved.mayDelegate, hmoved.log, fun hquiet =>
      hg a (ha hquiet) (hmoved.fits hfirst)⟩

end

theorem Counts.reportIf {b P : Prop} [Decidable b] {f : Unit → Analysis α} {p : α → Prop}
    (h : Counts q S P (f ()) p) : Counts q S P (if b then report line problem >>= f else f ()) p :=
  .ite (.andThen (Proceeds.counts fun _ => ⟨(), _, rfl, List.suffix_cons _ _, rfl⟩) fun _ => h) h

/-! ## Members -/

theorem declareParams_takes (params : List Param) :
    Takes q S first (paramSlots params) (declareParams params) fun params' =>
      Row first (params'.map Param.variable) (first + paramSlots params) := by
  refine (Takes.mapM (p := fun _ _ => True) fun p _ first => ?_).imp fun _ h => h.1
  refine .before (declareLocal_takes p.line p.name p.ty) fun slot => .pure ?_
  rintro rfl
  exact ⟨⟨rfl, rfl⟩, trivial⟩

theorem method_counts (m : MethodDecl) (h : S → FinalWritten m.body) :
    Counts q S (Member.slots (.method m) ≤ maxSlots) (method m)
      fun m' => Member.Counted q S (.method m) (.method m') := by
  have hrun {first : Nat} : Takes q S first (paramSlots m.params + finalSlots m.body) (do
      let params ← declareParams m.params
      let body ← m.body.elim (pure none) fun body => do pure (some (← methodBody m body))
      return (params, body)) fun res => (∀ b ∈ res.2, ∀ s ∈ b.stmts, s.Tidy q S) ∧
        Row first (res.1.map Param.variable ++ finalVariables res.2)
          (first + (paramSlots m.params + finalSlots m.body)) ∧
            Lows Stmt.rankBlock? m.body res.2 := by
    refine .bind (declareParams_takes m.params) fun params => ?_
    cases hbody : m.body with
    | none =>
      exact .pure fun hparams => ⟨by simp, by simpa [finalVariables, finalSlots] using hparams,
        fun _ _ _ _ _ => Nat.zero_le _⟩
    | some body =>
      rw [hbody] at h
      have hblock {first : Nat} : Takes q S first (blockSlots body) (methodBody m body) fun b =>
          (∀ s ∈ b.stmts, s.Tidy q S) ∧ Row first (blockVariables b) (first + blockSlots body) ∧
            Lows Stmt.rankBlock body b :=
        .before (block_takes body h) fun _ => .reportIf rfl (.pure id)
      simp only [Option.elim_some, bind_assoc, pure_bind]
      refine .before hblock fun b => .pure fun hb hparams => ?_
      exact ⟨by simpa using hb.1, hparams.append hb.2.1, hb.2.2⟩
  have hcounts := enterMethod_counts (isStatic m.modifiers) false m.result
    (fun (res : List Param × Option (Block Stmt)) locals =>
      ({ m with params := res.1, body := res.2, locals } : MethodDecl))
    (r := fun m' => Member.Counted q S (.method m) (.method m')) hrun fun res hres hfree =>
      ⟨fun hS => ⟨hfree, fun b hb s hs => (hres.1 b hb s hs).1 hS⟩, hres.2.1,
        fun hq b hb s hs => (hres.1 b hb s hs).2 hq, fun words n hwords _ =>
          hres.2.2 words n hwords⟩
  rw [Member.slots]
  refine .andThen ((checkBody_reads m).counts Context.Similar.refl) fun _ => ?_
  cases hbody : m.body <;>
    simp only [hbody, Option.elim, bind_assoc, pure_bind] at hcounts ⊢ <;> exact hcounts

theorem withDelegation_slots (line : Nat) (ss : List Stmt) :
    stmtsSlots (withDelegation line ss) = stmtsSlots ss := by
  unfold withDelegation
  split
  · rfl
  · split
    · rfl
    · simp [stmtsSlots, implicitSuper, Stmt.slots]

theorem withDelegation_eq (line : Nat) (ss : List Stmt) : ∃ k n target args ref rest,
    withDelegation line ss = .exprStmt k (.delegate n target args ref) :: rest := by
  unfold withDelegation
  split
  · exact ⟨_, _, _, _, _, _, rfl⟩
  · rename_i s ss
    split
    · rename_i h
      cases s with
      | exprStmt k e =>
        cases e with
        | delegate n target args ref => exact ⟨_, _, _, _, _, _, rfl⟩
        | _ => cases h
      | _ => cases h
    · exact ⟨_, _, _, _, _, _, rfl⟩

theorem withDelegation_low (hn : 2 ≤ n) (hh : Stmt.rankOf (· + 1) Expr.height ss ≤ n) :
    Stmt.rankOf (· + 1) Expr.height (withDelegation line ss) ≤ n := by
  unfold withDelegation
  split
  · exact hn
  · split
    · exact hh
    · exact Nat.max_le.2 ⟨hn, hh⟩

theorem withDelegation_longestName (hw : Stmt.rankOf id Expr.longestName ss ≤ n) :
    Stmt.rankOf id Expr.longestName (withDelegation line ss) ≤ n := by
  unfold withDelegation
  split
  · exact Nat.zero_le _
  · split
    · exact hw
    · exact Nat.max_le.2 ⟨Nat.zero_le _, hw⟩

/-- The call at the start of a constructor is the one place where a constructor call is allowed, and
what follows has no permission for another one. -/
theorem delegation_takes {first k : Nat} {n : Note} {target : Delegation} {args : List Expr}
    {ref : Option MethodRef} (h : S → AllWritten false args) : Takes q S first 0 (do
      modify fun c : Context => { c with mayDelegate := true }
      let s ← stmt (.exprStmt k (.delegate n target args ref))
      modify fun c : Context => { c with mayDelegate := false }
      return s) fun s => (∃ n' args' ref', s = .exprStmt k (.delegate n' target args' ref') ∧
        (q → ∀ e ∈ args', e.Barred)) ∧
          Lows Stmt.rank (.exprStmt k (.delegate n target args ref)) s := by
  intro c m hm _ _
  have hrest : Elabs c.local? q _ _ _ := .bind (exprs_elabs .value args false) fun args' =>
    settled_elabs .value (delegate_reads n.line target args').elabs
  rw [bind_run rfl]
  rcases delegationAllowed_bind n.line target hrest (c := { c with mayDelegate := true }) rfl with
    ⟨hnot, f, hrun⟩ | ⟨e, c', hrun, hstays, hlog, he, -⟩
  · rw [bind_error (show stmt _ _ = .error f from bind_error hrun)]
    exact ⟨fun _ _ hS => absurd (h hS) hnot, nofun⟩
  rw [bind_run (show stmt _ _ = .ok (.exprStmt k e.asStatement, c') from bind_run hrun)]
  refine ⟨nofun, fun s c'' heq => ?_⟩
  cases heq
  refine ⟨⟨hstays.method.trans hm, id, fun _ => rfl, hlog⟩, fun hquiet => ?_⟩
  obtain ⟨args', ⟨mids, hargs, hsame⟩, _, ⟨n', es, r, rfl, hes⟩, hsettles⟩ :=
    he fun hq => ⟨h (hquiet hq).1, (hquiet hq).2⟩
  obtain rfl := eq_of_settles_value hsame
  cases (show _ = _ from hsettles)
  refine ⟨⟨_, es, r, rfl, fun hq e he => ?_⟩, lows_node fun words b hwords hh hw => ?_⟩
  · obtain ⟨mid, hmid, hconverts⟩ := exists_of_mem_forall₂ hes he
    obtain ⟨_, -, hmade⟩ := exists_of_mem_forall₂ hargs hmid
    exact hconverts.barred (hmade.2 hq)
  · have hmade : Made c.local? (.delegate n target args ref) (.delegate n' target es r) :=
      .node rfl (hargs.imp fun _ _ h => h.1) hes (.inl rfl) rfl
    rw [Stmt.rank, Expr.asStatement, Expr.height_withNote]
    exact Nat.le_succ_of_le (hmade.height hwords ⟨Nat.le_of_succ_le_succ hh, hw⟩)

theorem ctorStmts_eq (s : Stmt) (ss : List Stmt) : ctorStmts (s :: ss) = (do
      modify fun c : Context => { c with mayDelegate := true }
      let s ← stmt s
      modify fun c : Context => { c with mayDelegate := false }
      return s : Analysis Stmt) >>= fun s => stmts ss >>= fun ss => pure (s :: ss) := by
  simp only [ctorStmts, bind_assoc, pure_bind]

theorem ctorStmts_takes (line : Nat) (h : S → StmtsWritten ss) :
    Takes q S first (stmtsSlots (withDelegation line ss)) (ctorStmts (withDelegation line ss))
      fun ss' => (S → StmtsPlain ss') ∧
        Row first (stmtsVariables ss') (first + stmtsSlots (withDelegation line ss)) ∧
        (q → StartDelegating ss') ∧ Lows Stmt.rankOf (withDelegation line ss) ss' := by
  have hwritten (hS : S) := withDelegation_written line (h hS)
  obtain ⟨k, n, target, args, ref, rest, heq⟩ := withDelegation_eq line ss
  rw [heq] at hwritten ⊢
  rw [ctorStmts_eq]
  refine .bind (delegation_takes fun hS => (hwritten hS).1) fun s => ?_
  refine .before (stmts_takes rest fun hS => (hwritten hS).2) fun rest' => .pure ?_
  rintro hrest ⟨⟨n', args', ref', rfl, hargs⟩, hlow⟩
  refine ⟨fun hS => List.forall_mem_cons.2 ⟨.of_children nofun nofun,
    fun s hs => (hrest.tidy s hs).1 hS⟩, (show Row _ [] _ from rfl).append hrest.row, fun hq => ?_,
    fun words n hwords hh hw => ?_⟩
  · exact ⟨k, n', target, args', ref', rest', rfl, hargs hq, fun s hs => (hrest.tidy s hs).2 hq⟩
  · simp only [Stmt.rankOf, Nat.max_le] at hh hw ⊢
    exact ⟨hlow words n hwords hh.1 hw.1, hrest.low words n hwords hh.2 hw.2⟩

theorem ctor_counts (class_ : String) (c : ConstructorDecl) (h : S → BlockWritten c.body) :
    Counts q S (Member.slots (.ctor c) ≤ maxSlots) (ctor class_ c)
      fun c' => Member.Counted q S (.ctor c) (.ctor c') := by
  rw [Member.slots, ← withDelegation_slots c.body.line]
  unfold ctor
  have hrun {first : Nat} : Takes q S first
      (paramSlots c.params + stmtsSlots (withDelegation c.body.line c.body.stmts)) (do
      let params ← declareParams c.params
      pushScope
      let body ← ctorStmts (withDelegation c.body.line c.body.stmts)
      popScope
      return (params, body)) fun res => (S → StmtsPlain res.2) ∧
        Row first (res.1.map Param.variable ++ stmtsVariables res.2)
          (first + (paramSlots c.params + stmtsSlots (withDelegation c.body.line c.body.stmts))) ∧
        (q → StartDelegating res.2) ∧
        Lows Stmt.rankOf (withDelegation c.body.line c.body.stmts) res.2 := by
    refine .bind (declareParams_takes c.params) fun params => .after modify_takes fun _ => ?_
    refine .before (ctorStmts_takes c.body.line fun hS => blockWritten_iff.1 (h hS)) fun body => ?_
    refine .after modify_takes fun _ => .pure fun _ hbody _ hparams => ?_
    exact ⟨hbody.1, hparams.append hbody.2.1, hbody.2.2⟩
  have hcounts := enterMethod_counts false true .void (fun (res : List Param × List Stmt) locals =>
      ({ c with params := res.1, body := ⟨c.body.line, res.2⟩, locals } : ConstructorDecl))
    (r := fun c' => Member.Counted q S (.ctor c) (.ctor c')) hrun fun res hres hfree =>
      ⟨fun hS => ⟨hfree, hres.1 hS⟩, hres.2.1, hres.2.2.1, fun words n hwords hn hh hw =>
        hres.2.2.2 words n hwords
          (withDelegation_low hn (Stmt.rankOf_le_iff.2 (Stmt.rankBlock_le_iff.1 hh)))
          (withDelegation_longestName (Stmt.rankOf_le_iff.2 (Stmt.rankBlock_le_iff.1 hw)))⟩
  simp only [bind_assoc, pure_bind] at hcounts
  exact .reportIf hcounts

theorem fieldVar_counts (isStatic : Bool) (d : Declarator) (h : S → InitWritten d.init) :
    Counts q S True (fieldVar isStatic d) fun d' => (S → ∀ e ∈ d'.init, e.Clean [[]]) ∧
      ∃ look, List.Forall₂ (Turns look q) d.init.toList d'.init.toList := by
  cases hinit : d.init with
  | none =>
    simp only [fieldVar, hinit]
    exact .pure ⟨by simp [hinit], fun _ => none, by simp [hinit]⟩
  | some e =>
    have he (hS : S) : e.Written true := by simpa [InitWritten, hinit] using h hS
    intro c hmay
    obtain ⟨inner, henter, hscopes, hlog, hdelegate⟩ : ∃ inner,
        enterMethod isStatic false .void c = .ok ((), inner) ∧ inner.scopes = [[]] ∧
          inner.log = c.log ∧ inner.mayDelegate = c.mayDelegate := ⟨_, rfl, rfl, rfl, rfl⟩
    simp only [fieldVar, hinit]
    rw [bind_run henter]
    rcases expr_turns (.initial d.ty) e true inner rfl (hdelegate ▸ hmay) with
      ⟨hnot, f, hrun⟩ | ⟨e', c', hrun, hstays, hlog', hturns⟩
    · rw [bind_error hrun]
      exact ⟨fun _ _ hS => absurd (he hS) hnot, fun a c' hrun => (by cases hrun)⟩
    · rw [bind_run hrun]
      refine ⟨fun f hf => (by cases hf), fun b c'' heq => ?_⟩
      cases heq
      refine ⟨trivial, hstays.barred (hdelegate ▸ hmay), hlog ▸ hlog', fun hquiet =>
        ⟨?_, inner.local?, ?_⟩⟩
      · simpa using fun hS => hscopes ▸ expr_clean (he hS) hrun
      · exact .cons (hturns fun hq => ⟨he (hquiet hq).1, (hquiet hq).2⟩) .nil

theorem member_counts (class_ : String) : ∀ m : Member, (S → m.WrittenBody) →
    Counts q S (m.slots ≤ maxSlots) (member class_ m) (Member.Counted q S m)
  | .field f, h => by
    refine .iff (.before (.mapM fun d hd => fieldVar_counts _ d fun hS => h hS d hd) fun vars =>
      .pure fun hvars => ⟨fun hS d hd => ?_, trivial, fun hq d hd e he => ?_, ?_⟩) ?_
    · obtain ⟨_, _, hclean, -⟩ := hvars d hd
      exact hclean hS
    · obtain ⟨_, _, -, _, hturns⟩ := hvars d hd
      exact turns_barred hturns hq e (Option.mem_toList.2 he)
    · intro words n hwords _
      refine inits_lows (q := q) (fun d' hd' => ?_) words n hwords
      obtain ⟨d, hd, -, hturns⟩ := hvars d' hd'
      exact ⟨d, hd, hturns⟩
    · simp [Member.slots]
  | .method m, h => .before (method_counts m h) fun _ => .pure id
  | .ctor c, h => .before (ctor_counts class_ c h) fun _ => .pure id

/-! ## Units -/

/-- What analysis makes of a type. A class may get a constructor. -/
def MembersCounted (q S : Prop) (ms ms' : List Member) : Prop :=
  ∀ m' ∈ ms', ∃ m, m.Counted q S m' ∧ (m ∈ ms ∨ ∃ line name, m = .ctor (implicitCtor line name))

theorem classBody_counts (d : ClassDecl) (h : S → ∀ m ∈ d.members, m.WrittenBody) :
    Counts q S (∀ n ∈ TypeDecl.slots (.classDecl d), n ≤ maxSlots) (classBody d)
      fun d' => MembersCounted q S d.members d'.members := by
  -- The constructor that a class without one gets needs no slots but the one of the object.
  have hfits : (∀ m ∈ withCtor d.line d.name d.members, m.slots ≤ maxSlots) ↔
      ∀ n ∈ TypeDecl.slots (.classDecl d), n ≤ maxSlots := by
    unfold withCtor TypeDecl.slots
    split
    · simp
    · simp [or_imp, forall_and, implicitCtor, Member.slots, paramSlots, stmtsSlots, maxSlots]
  refine .get_bind fun c => .andThen .modify fun _ => ?_
  have hmembers : Counts q S (∀ n ∈ TypeDecl.slots (.classDecl d), n ≤ maxSlots) (do
      let members ← (withCtor d.line d.name d.members).mapM (member d.name)
      leaveClass
      return { d with members }) fun d' => MembersCounted q S d.members d'.members := by
    refine .iff (.before (.mapM fun m hm => member_counts d.name m fun hS => ?_) fun members => ?_)
      hfits
    · exact withCtor_forall d.line d.name trivial (h hS) m hm
    · refine .after .modify fun _ => .pure fun _ hmembers m' hm' => ?_
      obtain ⟨m, hm, hcounted⟩ := hmembers m' hm'
      refine ⟨m, hcounted, withCtor_forall (P := fun m => m ∈ d.members ∨
        ∃ line name, m = .ctor (implicitCtor line name)) _ _ (.inr ⟨_, _, rfl⟩)
          (fun _ => .inl) m hm⟩
  split
  · exact hmembers
  · have hconcrete := checkConcrete_reads (Q := Context.Similar) fun _ _ h => h.hierarchy
    exact .andThen ((hconcrete _ d).counts .refl) fun _ => hmembers

theorem interfaceBody_counts (d : InterfaceDecl) (h : S → ∀ m ∈ d.members, m.Bodiless) :
    Counts q S (∀ n ∈ TypeDecl.slots (.interfaceDecl d), n ≤ maxSlots) (interfaceBody d)
      fun d' => MembersCounted q S d.members d'.members := by
  refine .get_bind fun c => .andThen .modify fun _ => ?_
  refine .iff (.before (.mapM fun m hm => member_counts d.name m fun hS => .of_bodiless (h hS m hm))
    fun members => .after .modify fun _ => .pure fun _ hmembers m' hm' => ?_) ?_
  · obtain ⟨m, hm, hcounted⟩ := hmembers m' hm'
    exact ⟨m, hcounted, .inl hm⟩
  · simp [TypeDecl.slots]

theorem typeBody_counts : ∀ d : TypeDecl, (S → d.WrittenBody) →
    Counts q S (∀ n ∈ d.slots, n ≤ maxSlots) (typeBody d)
      fun d' => MembersCounted q S d.members d'.members
  | .classDecl d, h => .before (classBody_counts d h) fun _ => .pure id
  | .interfaceDecl d, h => .before (interfaceBody_counts d h) fun _ => .pure id

/-- What analysis makes of a unit. Resolved members are as high as before. -/
def UnitCounted (q S : Prop) (u u' : CompilationUnit) : Prop :=
  ∀ d ∈ u'.types, ∀ m' ∈ d.members, ∃ m : Member, m.Counted q S m' ∧
    ∀ node leaf n, u.rank node leaf ≤ n → m.rank node leaf ≤ n

theorem unit_counts {u : CompilationUnit} (hu : S → u.Written) :
    Counts q S u.Fits (unit u) (UnitCounted q S u) := by
  refine Counts.iff ((unitHeaders_proceeds u).counts.bind_of_returns (unitHeaders_resolve u)
    (Q := u.Fits) ?_) (by simp)
  rintro _ ⟨ds, rfl, hresolves⟩
  have hwritten (hS : S) : ∀ d' ∈ ds, d'.WrittenBody := fun d' hd' => by
    obtain ⟨d, hd, hr⟩ := exists_of_mem_forall₂ hresolves hd'
    exact hr.writtenBody ((hu hS).types d hd)
  refine .iff (.before (.mapM fun d hd => typeBody_counts d fun hS => hwritten hS d hd) fun types =>
    .pure fun htypes _ d' hd' m' hm' => ?_) ?_
  · obtain ⟨d₁, hd₁, hmembers⟩ := htypes d' hd'
    obtain ⟨m, hcounted, hm | ⟨line, name, rfl⟩⟩ := hmembers m' hm'
    · refine ⟨m, hcounted, fun node leaf n hn => ?_⟩
      obtain ⟨d, hd, hr⟩ := exists_of_mem_forall₂ hresolves hd₁
      obtain ⟨w, hw, hr⟩ := exists_of_mem_forall₂ hr.members hm
      exact hr.rank node leaf ▸ CompilationUnit.rank_le_iff.1 hn d hd w hw
    · exact ⟨_, hcounted, fun node leaf n _ => Nat.zero_le n⟩
  · have hfits : ∀ v : CompilationUnit, (∀ d ∈ v.types, ∀ n ∈ d.slots, n ≤ maxSlots) ↔
          ∀ ns ∈ v.types.map TypeDecl.slots, ∀ n ∈ ns, n ≤ maxSlots := by simp
    rw [CompilationUnit.Fits, hfits, hfits]
    rw [map_eq_of_forall₂ hresolves fun _ _ h => h.slots]

end Analysis

/-- Analysis of a parsed unit stops only if the variables of a member do not fit. -/
theorem analyze_fault {u : CompilationUnit} (hu : u.Written) (h : analyze u log = .error f) :
    f = .slotOverflow ∧ ¬u.Fits := by
  cases hrun : Analysis.unit u { log } with
  | error e =>
    have hsame : e = f := by simpa [analyze, StateT.run, hrun, bind, Except.bind] using h
    exact (Analysis.unit_counts (q := False) (fun _ => hu) { log } nofun).1 f (hsame ▸ hrun) trivial
  | ok res => simp [analyze, StateT.run, hrun, bind, Except.bind, pure, Except.pure] at h

theorem analyze_counted {q S : Prop} {u : CompilationUnit} (hu : S → u.Written)
    (h : analyze u log = .ok a) (hquiet : q → S ∧ a.log.latest = []) :
    u.Fits ∧ Analysis.UnitCounted q S u a.unit := by
  obtain ⟨c, hrun, ha⟩ := unit_of_analyze h
  rw [ha] at hquiet
  obtain ⟨hfits, -, -, hcounted⟩ :=
    (Analysis.unit_counts (q := q) hu { log } fun _ => rfl).2 _ c hrun
  exact ⟨hfits, hcounted hquiet⟩

theorem analyze_sized {u : CompilationUnit} (hu : u.Written) (h : analyze u log = .ok a) :
    u.Fits ∧ ∀ m ∈ a.unit.members, m.Sized := by
  obtain ⟨hfits, hcounted⟩ := analyze_counted (q := False) (fun _ : True => hu) h nofun
  refine ⟨hfits, fun m hm => ?_⟩
  obtain ⟨d, hd, hm⟩ := List.mem_flatMap.1 hm
  cases d with
  | classDecl d =>
    obtain ⟨_, hcounted, -⟩ := hcounted _ hd m hm
    exact hcounted.sized trivial
  | interfaceDecl d => cases hm

end JMinusMinus
