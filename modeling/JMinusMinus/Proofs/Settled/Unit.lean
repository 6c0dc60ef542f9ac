import JMinusMinus.Proofs.Agree.Unit
import JMinusMinus.Proofs.Headers.Recorded
import JMinusMinus.Proofs.Layout
import JMinusMinus.Proofs.Settled.Stmt
import JMinusMinus.Proofs.Written.Unit

/-!
# Analysis settles units

A source that is parsed and analyzed without a report is settled.

* Headers come first. Every type of the unit gets a proper header under a name of its own, and a
  class has a superclass (`Recorded.proper`).
* Then bodies are analyzed against headers that no longer change. A body starts without
  variables (`enterMethod_bind`), and the slots that it counts bound those of its variables
  (`leaveMethod_bind`).
-/

namespace JMinusMinus

/-! ## Names -/

theorem isProperName_append : isProperName (a ++ b) ↔ isProperName a ∧ isProperName b := by
  simp [isProperName]

theorem isProperName_of_isWord (h : IsWord name) : isProperName name := by
  simp only [isProperName, Bool.not_eq_true', List.contains_eq_mem, decide_eq_false_iff_not]
  intro hmem
  exact absurd (h ';' hmem) (by decide)

theorem slashed_append (a b : String) : slashed (a ++ b) = slashed a ++ slashed b := by
  apply String.toList_injective
  simp [slashed]

theorem slashed_eq_of_isWord (h : IsWord name) : slashed name = name := by
  apply String.toList_injective
  rw [slashed, String.toList_map]
  conv => rhs; rw [← List.map_id name.toList]
  refine List.map_congr_left fun c hc => ?_
  have : c ≠ '.' := by
    rintro rfl
    exact absurd (h '.' hc) (by decide)
  simp [this]

theorem slashed_intercalate : ∀ {segments : List String}, (∀ s ∈ segments, IsWord s) →
      slashed (".".intercalate segments) = "/".intercalate segments
  | [], _ => by simp [slashed]
  | [s], h => by
    simpa [String.intercalate_singleton] using slashed_eq_of_isWord (h s (by simp))
  | s :: t :: segments, h => by
    rw [String.intercalate_cons_cons, String.intercalate_cons_cons, slashed_append,
      slashed_append, slashed_eq_of_isWord (h s (by simp)),
      slashed_intercalate fun s hs => h s (List.mem_cons_of_mem _ hs),
      show slashed "." = "/" from String.toList_injective (by simp [slashed])]

theorem isProperName_intercalate : ∀ {segments : List String}, (∀ s ∈ segments, IsWord s) →
      isProperName ("/".intercalate segments)
  | [], _ => by decide
  | [s], h => by
    simpa [String.intercalate_singleton] using isProperName_of_isWord (h s (by simp))
  | s :: t :: segments, h => by
    rw [String.intercalate_cons_cons, isProperName_append, isProperName_append]
    exact ⟨⟨isProperName_of_isWord (h s (by simp)), by decide⟩,
      isProperName_intercalate fun s hs => h s (List.mem_cons_of_mem _ hs)⟩

theorem qualify_eq_internalName {u : CompilationUnit} (hu : u.Written) {c : Context}
    (hc : c.package = u.package.map QualifiedName.text) (name : String) :
    c.qualify name = u.internalName name := by
  unfold Context.qualify CompilationUnit.internalName
  rw [hc]
  cases hp : u.package with
  | none => rfl
  | some q =>
    simp only [Option.map_some, QualifiedName.text, QualifiedName.internalName]
    rw [slashed_intercalate (hu.package q hp)]

theorem internalName_isProper {u : CompilationUnit} (hu : u.Written) (hname : IsWord name) :
    isProperName (u.internalName name) := by
  unfold CompilationUnit.internalName
  cases hp : u.package with
  | none => exact isProperName_of_isWord hname
  | some q =>
    simp only [isProperName_append]
    exact ⟨⟨isProperName_intercalate (hu.package q hp), by decide⟩, isProperName_of_isWord hname⟩

theorem internalName_injective {u : CompilationUnit} (h : u.internalName a = u.internalName b) :
    a = b := by
  unfold CompilationUnit.internalName at h
  split at h
  · exact String.append_right_inj _ |>.1 h
  · exact h

/-! ## Bodies after headers -/

/-- A member whose body is as parsed. -/
def Member.WrittenBody : Member → Prop
  | .ctor c => BlockWritten c.body
  | .method m => FinalWritten m.body
  | .field f => ∀ d ∈ f.vars, InitWritten d.init

/-- A method without a body. -/
def Member.Bodiless (m : Member) : Prop := ∃ decl, m = .method decl ∧ decl.body = none

/-- A type whose bodies are as parsed. -/
def TypeDecl.WrittenBody : TypeDecl → Prop
  | .classDecl d => ∀ m ∈ d.members, m.WrittenBody
  | .interfaceDecl d => ∀ m ∈ d.members, m.Bodiless

theorem blockWritten_iff {b : Block Stmt} : BlockWritten b ↔ StmtsWritten b.stmts := by
  cases b
  exact Iff.rfl

theorem Member.Resolves.writtenBody : ∀ {m m' : Member}, m.Resolves m' → m.Written → m'.WrittenBody
  | .field f, _, .field hinit, hm => by
    intro d hd
    obtain ⟨d', hd', heq⟩ := List.mem_map.1 (hinit ▸ List.mem_map_of_mem hd)
    exact heq ▸ (hm d' hd').init
  | .method _, _, .method _, hm => hm.2.2.1
  | .ctor _, _, .ctor _, hm => hm.2

theorem Member.Resolves.bodiless {m : Member} (h : m.Resolves m') (hm : m.WrittenHeader) :
    m'.Bodiless := by
  cases h with
  | method => exact ⟨_, rfl, hm.2.2.1⟩
  | _ => cases hm

theorem TypeDecl.Resolves.writtenBody {d d' : TypeDecl} (h : d.Resolves d') (hd : d.Written) :
    d'.WrittenBody := by
  cases h with
  | classDecl h =>
    intro m' hm'
    obtain ⟨m, hm, hr⟩ := Analysis.exists_of_mem_forall₂ h hm'
    exact hr.writtenBody (hd.2 m hm)
  | interfaceDecl h =>
    intro m' hm'
    obtain ⟨m, hm, hr⟩ := Analysis.exists_of_mem_forall₂ h hm'
    exact hr.bodiless (hd.2 m hm)

namespace Analysis

variable {u : CompilationUnit} {F : Vars → Prop}

/-! ## Recorded headers -/

theorem bindImports_proper :
    ∀ {qs : List QualifiedName} {c c'}, qs.forM bindImport c = .ok ((), c') → c.Proper → c'.Proper
  | [], _, _, hrun, hc => by
    cases hrun
    exact hc
  | q :: qs, c, c'', hrun, hc => by
    obtain ⟨_, c', hhead, htail⟩ := runs_of_bind (x := bindImport q) hrun
    refine bindImports_proper htail ?_
    obtain ⟨b, names, hbind, hnames⟩ := bindName_run q.simpleName q.internalName c
    rw [bindImport_eq] at hhead
    split at hhead
    · cases hhead
      exact ⟨hc.hierarchy, hc.names⟩
    · rename_i hknown
      have hname := Hierarchy.isProperName_of_contains hc.hierarchy (by simpa using hknown)
      have hproper : ∀ p ∈ names, isProperName p.2 := by
        rcases hnames with rfl | rfl
        · exact hc.names
        · exact List.forall_mem_cons.2 ⟨hname, hc.names⟩
      rw [bind_run hbind] at hhead
      split at hhead <;> cases hhead <;> exact ⟨hc.hierarchy, hproper⟩

section

variable {log : Log Problem} {base : Context}

theorem Recorded.package (h : Recorded u log base) :
    base.package = u.package.map QualifiedName.text := by
  obtain ⟨names, -, new, hrun, -⟩ := bindImports_sameNames u.imports (.refl (declaredTypes u log))
  rw [h.imports] at hrun
  cases hrun
  rfl

theorem Recorded.qualify (hu : u.Written) (h : Recorded u log base) (name : String) :
    base.qualify name = u.internalName name :=
  qualify_eq_internalName hu h.package name

theorem Recorded.properName (hu : u.Written) (h : Recorded u log base) {d : TypeDecl}
    (hd : d ∈ u.types) : isProperName (base.qualify d.name) := by
  rw [h.qualify hu]
  refine internalName_isProper hu ?_
  cases d <;> exact (hu.types _ hd).1

theorem emptyHeader_isProper (hname : isProperName name) (d : TypeDecl) :
    (emptyHeader name d).isProper := by
  cases d <;> simp [emptyHeader, ClassHeader.isProper, hname]

theorem Recorded.base_proper (hu : u.Written) (h : Recorded u log base) : base.Proper := by
  have hname {d : TypeDecl} (hd : d ∈ u.types) :
      isProperName ((declaredTypes u log).qualify d.name) := by
    have := h.properName hu hd
    rwa [Context.qualify, h.package] at this
  refine bindImports_proper h.imports ⟨fun c hc => ?_, fun p hp => ?_⟩
  · obtain ⟨d, hd, rfl⟩ := List.mem_map.1 hc
    exact emptyHeader_isProper (hname hd) d
  · obtain ⟨d, hd, rfl⟩ := List.mem_map.1 (List.mem_reverse.1 hp)
    exact hname hd

theorem Recorded.written (hu : u.Written) (h : Recorded u log base) {d : TypeDecl}
    (hd : d ∈ u.types) :
    (∀ m ∈ (resolvedIn base d).1.members, m.Resolved) ∧ (resolvedIn base d).2.isProper ∧
      ∃ header header', Grows header ((resolvedIn base d).1.members.flatMap Member.keys) header' :=
  described_written (hu.types d hd) (h.base_proper hu) (h.properName hu hd) h.silent
    (h.described d hd)

theorem Recorded.proper (hu : u.Written) (h : Recorded u log base) :
    (withHeaders base u.types).Proper := by
  refine ⟨fun c hc => ?_, (h.base_proper hu).names⟩
  obtain ⟨d, hd, rfl⟩ := List.mem_map.1 hc
  exact (h.written hu hd).2.1

theorem Recorded.superclass (hu : u.Written) (h : Recorded u log base) {d : ClassDecl}
    (hd : .classDecl d ∈ u.types) :
    ((withHeaders base u.types).hierarchy.superclass? (u.internalName d.name)).isSome := by
  have hname : ∀ d ∈ u.types, (resolvedIn base d).2.name = base.qualify d.name :=
    fun d hd => (described_of_run h.silent (h.described d hd)).1.name
  have hdeclared : (withHeaders base u.types).hierarchy.isDeclared (base.qualify d.name) := by
    rw [withHeaders, isDeclared_map hname]
    exact decide_eq_true (List.mem_map_of_mem hd)
  rw [← h.qualify hu]
  obtain ⟨header, hfound⟩ := Option.isSome_iff_exists.1 hdeclared
  -- Names are different, so the header that is found is that of the class.
  obtain ⟨d', hd', rfl⟩ := List.mem_map.1 (List.mem_of_find?_eq_some hfound)
  have hsame : d'.name = d.name := base.qualify_injective
    ((hname d' hd').symm.trans (by simpa using List.find?_some hfound))
  obtain rfl := List.inj_on_of_nodup_map h.distinct hd' hd hsame
  obtain ⟨hdescribed, -⟩ := described_of_run h.silent (h.described _ hd)
  have hlookup : (withHeaders base u.types).hierarchy.lookup (base.qualify d.name) =
      some (resolvedIn base (.classDecl d)).2 := by
    rw [Hierarchy.lookup, hfound, Option.some_or]
  rw [Hierarchy.superclass?, hlookup]
  exact hdescribed.rooted.resolve_left (by simp [hdescribed.kind, emptyHeader])

end

/-! ## Members -/

/-- A context outside of classes, with the headers of the unit. -/
structure InUnit (u : CompilationUnit) (h : Hierarchy) (c : Context) : Prop where
  hierarchy : c.hierarchy = h
  package : c.package = u.package.map QualifiedName.text
  names : ∀ p ∈ c.names, isProperName p.2

/-- A context inside a class of the unit. -/
structure InClass (u : CompilationUnit) (h : Hierarchy) (name : String) (c : Context) : Prop
    extends InUnit u h c where
  className : c.className = some (u.internalName name)

section

variable {h : Hierarchy} {name : String} {α : Type}

/-- What is known at the start of a member follows from its frame, and from the facts. -/
theorem enterMember_bind {isStatic isCtor : Bool} {result : Ty} {g : Unit → Analysis α}
    {q : α → Prop} {P : Prop} {K : Known} (hctor : isCtor → isStatic = false)
    (hK : P → ∀ c, InMember (u.frame h name isStatic result []) [] [] c → K [] c)
    (hg : Settles K (fun _ => P) (g ()) (fun _ => InClass u h name) fun _ => q) :
    Settles (fun _ => InClass u h name) (fun _ => P) (enterMethod isStatic isCtor result >>= g)
      (fun _ => InClass u h name) fun _ => q := by
  intro c a c' hrun hlog
  obtain ⟨hstart, hafter⟩ := hg _ a c' hrun hlog
  refine ⟨hstart, fun v hc hP => ?_⟩
  have hP := hP v fun _ => id
  obtain ⟨v', -, hc', hq⟩ := hafter [] (hK hP _ ⟨hc.hierarchy, hc.package, hc.names,
    hc.className, ⟨_, rfl, rfl, rfl, hctor, ⟨Nat.le_refl _, nofun, nofun, nofun, .nil⟩⟩, by simp,
    rfl⟩) fun _ _ => hP
  exact ⟨v, fun _ => id, hc', fun _ _ => hq v' fun _ => id⟩

theorem enterMethod_bind {isStatic isCtor : Bool} {result : Ty} {g : Unit → Analysis α}
    {q : α → Prop} {P : Prop} (hctor : isCtor → isStatic = false)
    (hgood : P → (u.frame h name isStatic result []).Good)
    (hg : Settles (InFrame (u.frame h name isStatic result []) []) (fun _ => P) (g ())
      (fun _ => InClass u h name) fun _ => q) :
    Settles (fun _ => InClass u h name) (fun _ => P) (enterMethod isStatic isCtor result >>= g)
      (fun _ => InClass u h name) fun _ => q :=
  enterMember_bind hctor (fun hP _ hc => ⟨hc, hgood hP⟩) hg

theorem leaveMethod_inMember {isStatic : Bool} {result : Ty} {vars : Vars} {jumps : List JumpTarget}
    {f : Nat → α} :
    Settles (InMember (u.frame h name isStatic result vars) jumps) F
      (leaveMethod >>= fun n => pure (f n)) (fun _ => InClass u h name)
      fun _ a => ∃ n vars, a = f n ∧ vars.Within (u.frame h name isStatic result vars) n ∧
        F vars := by
  intro c a c' hrun hlog
  cases hrun
  refine ⟨hlog, fun v hc hF => ⟨v, fun _ => id, ?_, fun _ _ => ?_⟩⟩
  · exact ⟨⟨hc.hierarchy, hc.package, hc.names⟩, hc.className⟩
  · obtain ⟨m, hm, -, -, -, hwithin⟩ := hc.method
    exact ⟨m.nextSlot, v, by simp [hm], hwithin.over v, hF v fun _ => id⟩

theorem leaveMethod_bind {isStatic : Bool} {result : Ty} {vars : Vars} {jumps : List JumpTarget}
    {f : Nat → α} :
    Settles (InFrame (u.frame h name isStatic result vars) jumps) F
      (leaveMethod >>= fun n => pure (f n)) (fun _ => InClass u h name)
      fun _ a => ∃ n vars, a = f n ∧ vars.Within (u.frame h name isStatic result vars) n ∧
        F vars :=
  leaveMethod_inMember.knowing fun _ _ hc => hc.toInMember

/-- Every parameter gets a slot of the frame. -/
theorem declareParams_inMember {fr : Frame} {jumps : List JumpTarget} (params : List Param) :
    Settles (InMember fr jumps) (fun _ => ∀ p ∈ params, p.ty.isProper) (declareParams params)
      (InMember fr jumps) fun w params' => ∀ p ∈ params', p.Placed (fr.over w) := by
  refine (mapM_settles (r := fun w _ p' => p'.Placed (fr.over w)) fun p hp => ?_).imp
    (fun _ h => h) fun w params' _ hall p hp => ?_
  · refine .bind ((declareLocal_inMember p.line p.name p.ty).given fun _ hw => hw p hp)
      fun slot => .pure fun w hw => ⟨slot, rfl, hw.2⟩
  · obtain ⟨_, -, hplaced⟩ := hall p hp
    exact hplaced

theorem declareParams_settles {fr : Frame} {jumps : List JumpTarget} (params : List Param) :
    SettlesIn fr jumps (fun _ => ∀ p ∈ params, p.ty.isProper) (declareParams params)
      fun w params' => ∀ p ∈ params', p.Placed (fr.over w) :=
  (declareParams_inMember params).inFrame

theorem methodBody_settles {fr : Frame} (m : MethodDecl) (body : Block Stmt)
    (hbody : BlockWritten body) :
    Settles (InFrame fr []) F (methodBody m body) (InFrame fr []) fun w body' =>
      BlockSettled (fr.over w) [] body' ∧
        (m.result ≠ .void → Stmt.blockCanComplete body' = false) := by
  refine .bind (block_settles body hbody) fun body' => reportIf_bind (.pure fun w hw => ?_)
  refine ⟨hw.1.2, fun hresult => ?_⟩
  simpa [hresult] using hw.2

/-- What bodies of a class are analyzed against. -/
structure Ready (u : CompilationUnit) (h : Hierarchy) (name : String) : Prop where
  proper : h.Proper
  superclass : (h.superclass? (u.internalName name)).isSome

theorem fieldVar_settles (isStatic : Bool) (d : Declarator) (hinit : InitWritten d.init) :
    Settles (fun _ => InClass u h name) (fun _ => Ready u h name ∧ d.ty.isProper)
      (fieldVar isStatic d) (fun _ => InClass u h name)
      fun _ d' => d'.ty.isProper ∧ ∀ e ∈ d'.init, ∃ vars bound,
        let fr := u.frame h name isStatic .void vars
        vars.Within fr bound ∧ e.SettledAs fr d'.ty := by
  unfold fieldVar
  split
  case h_1 hnone => exact .pure fun _ hw => ⟨hw.2, by simp [hnone]⟩
  case h_2 e he =>
    have hwritten : e.Written true := by simpa [InitWritten, he] using hinit
    refine enterMethod_bind (by simp)
      (fun hP => ⟨hP.1.proper, rfl, hP.1.superclass⟩)
      (.bind (expr_settles (.initial d.ty) e hwritten fun _ hP => hP.2) fun e' => ?_)
    refine (leaveMethod_bind (f := fun _ => { d with init := some e' })).imp (fun _ h => h) ?_
    rintro _ d' - ⟨n, vars, rfl, hwithin, hP, hmet⟩
    refine ⟨hP.2, fun x hx => ?_⟩
    cases hx
    exact ⟨vars, n, hwithin, hmet⟩

/-- Analysis of a method settles it. -/
theorem method_settles (m : MethodDecl) (hm : FinalWritten m.body) :
    Settles (fun _ => InClass u h name)
      (fun _ => Ready u h name ∧ Member.Resolved (.method m)) (method m)
      (fun _ => InClass u h name) fun _ m' => Member.Settled h u name (.method m') := by
  unfold method
  refine .bind ((checkBody_reads m).settles Context.Similar.refl .any) fun _ => .given
    (enterMethod_bind nofun (fun hP => ⟨hP.1.proper, hP.2.1, hP.1.superclass⟩) ?_)
    fun _ hw => hw.1
  refine .bind ((declareParams_settles m.params).given fun _ hP => hP.2.2) fun params => ?_
  cases hbody : m.body with
  | none =>
    refine (leaveMethod_bind (f := fun locals => { m with params, body := none, locals })).imp
      (fun _ h => h) ?_
    rintro _ m' - ⟨n, vars, rfl, hwithin, hP, hplaced⟩
    exact ⟨hP.2.1, ⟨vars, hwithin, hplaced, trivial⟩, nofun⟩
  | some body =>
    rw [hbody] at hm
    refine .bind (methodBody_settles m body hm) fun body' => ?_
    refine (leaveMethod_bind (f := fun locals =>
      { m with params, body := some body', locals })).imp (fun _ h => h) ?_
    rintro _ m' - ⟨n, vars, rfl, hwithin, ⟨hP, hplaced⟩, hsettled, hreturns⟩
    refine ⟨hP.2.1, ⟨vars, hwithin, hplaced, hsettled⟩, fun hvoid b hb => ?_⟩
    cases hb
    exact hreturns hvoid

/-- A method without a body asks nothing of its class. -/
theorem bodiless_settles (class_ : String) {m : Member} (hm : m.Bodiless) :
    Settles (fun _ => InClass u h name) (fun _ => m.Resolved) (member class_ m)
      (fun _ => InClass u h name) fun _ m' => m'.Settled h u name ∧ m'.Bodiless := by
  obtain ⟨decl, rfl, hnone⟩ := hm
  refine .bind (p := fun _ decl' => Member.Settled h u name (.method decl') ∧ decl'.body = none)
    ?_ fun decl' => .pure fun _ hw => ⟨hw.2.1, decl', rfl, hw.2.2⟩
  simp only [method, hnone]
  refine .bind ((checkBody_reads decl).settles Context.Similar.refl .any) fun _ => .given
    (enterMember_bind nofun (fun _ _ hc => hc) ?_) fun _ hw => hw.1
  refine .bind ((declareParams_inMember decl.params).given fun _ hP => hP.2) fun params => ?_
  refine (leaveMethod_inMember (f := fun locals => { decl with params, body := none, locals })).imp
    (fun _ h => h) ?_
  rintro _ m' - ⟨n, vars, rfl, hwithin, hP, hplaced⟩
  exact ⟨⟨hP.1, ⟨vars, hwithin, hplaced, trivial⟩, nofun⟩, rfl⟩

theorem withDelegation_written (line : Nat) {ss : List Stmt} (h : StmtsWritten ss) :
    StmtsWritten (withDelegation line ss) := by
  cases ss with
  | nil => exact ⟨trivial, trivial⟩
  | cons s ss =>
    simp only [withDelegation]
    split
    · exact h
    · exact ⟨trivial, h⟩

theorem ctorStmts_settles {fr : Frame} : ∀ (ss : List Stmt), StmtsWritten ss →
      Settles (InFrame fr []) F (ctorStmts ss) (InFrame fr [])
        fun w ss' => StmtsSettled (fr.over w) [] ss'
  | [], _ => .pure fun _ _ => trivial
  | s :: ss, h => by
    have hmay : ∀ {F : Vars → Prop} (b : Bool), Settles (InFrame fr []) F
        (modify fun c => { c with mayDelegate := b } : Analysis PUnit) (InFrame fr [])
        fun _ _ => True := fun b => modify_settles (fun _ => rfl) fun v c hc => hc.congr rfl
    refine .bind (hmay true) fun _ => .bind (stmt_settles s h.1) fun s' => ?_
    refine .bind (hmay false) fun _ => .bind (stmts_settles ss h.2) fun ss' => ?_
    exact .pure fun w hw => ⟨hw.1.1.2, hw.2⟩

/-- Analysis of a constructor settles it. -/
theorem ctor_settles (class_ : String) (c : ConstructorDecl) (hc : BlockWritten c.body) :
    Settles (fun _ => InClass u h name)
      (fun _ => Ready u h name ∧ Member.Resolved (.ctor c)) (ctor class_ c)
      (fun _ => InClass u h name) fun _ c' => Member.Settled h u name (.ctor c') := by
  have hbody : StmtsWritten c.body.stmts := blockWritten_iff.1 hc
  unfold ctor
  refine reportIf_bind (.given (enterMethod_bind (fun _ => rfl)
    (fun hP => ⟨hP.1.proper, rfl, hP.1.superclass⟩) ?_) fun _ hw => hw.1)
  refine .bind ((declareParams_settles c.params).given fun _ hP => hP.2) fun params => ?_
  refine .bind pushScope_settles fun _ => ?_
  refine .bind (ctorStmts_settles _ (withDelegation_written c.body.line hbody)) fun body => ?_
  refine .bind popScope_settles fun _ => ?_
  refine (leaveMethod_bind (f := fun locals =>
    { c with params, body := ⟨c.body.line, body⟩, locals })).imp (fun _ h => h) ?_
  rintro _ c' - ⟨n, vars, rfl, hwithin, ⟨⟨⟨-, hplaced⟩, -⟩, hsettled⟩, -⟩
  exact ⟨vars, hwithin, hplaced, hsettled⟩

/-- Analysis of a member of a class settles it. -/
theorem member_settles (class_ : String) :
    ∀ (m : Member), m.WrittenBody → Settles (fun _ => InClass u h name)
      (fun _ => Ready u h name ∧ m.Resolved) (member class_ m)
      (fun _ => InClass u h name) fun _ m' => m'.Settled h u name
  | .field f, hf => by
    refine .bind (mapM_settles fun d hd => (fieldVar_settles (isStatic f.modifiers) d
      (hf d hd)).given fun _ hw => ⟨hw.1, hw.2 d hd⟩) fun vars => .pure fun w hw d hd => ?_
    obtain ⟨_, -, hd'⟩ := hw.2 d hd
    exact hd'
  | .method m, hm => .bind (method_settles m hm) fun _ => .pure fun _ hw => hw.2
  | .ctor c, hc => .bind (ctor_settles class_ c hc) fun _ => .pure fun _ hw => hw.2

end

/-! ## Types -/

theorem withCtor_forall {P : Member → Prop} (line : Nat) (name : String)
    (himplicit : P (.ctor (implicitCtor line name))) (h : ∀ m ∈ members, P m) :
    ∀ m ∈ withCtor line name members, P m := by
  intro m hm
  unfold withCtor at hm
  split at hm
  · exact h m hm
  · rcases List.mem_append.1 hm with hm | hm
    · exact h m hm
    · rw [List.mem_singleton.1 hm]
      exact himplicit

variable {h : Hierarchy}

theorem enterClass_settles (name internal : String) :
    Settles (fun _ => InUnit u h) (fun _ => internal = u.internalName name) (enterClass internal)
      (fun _ => InClass u h name) fun _ _ => True := by
  intro c a c' hrun hlog
  cases hrun
  refine ⟨hlog, fun v hc hF => ⟨v, fun _ => id, ⟨⟨hc.hierarchy, hc.package, hc.names⟩, ?_⟩,
    fun _ _ => trivial⟩⟩
  rw [hF v fun _ => id]

theorem leaveClass_settles (name : String) :
    Settles (fun _ => InClass u h name) F leaveClass (fun _ => InUnit u h) fun _ _ => True :=
  modify_settles (fun _ => rfl) fun _ _ hc => ⟨hc.hierarchy, hc.package, hc.names⟩

/-- Analysis of a class settles its members. -/
theorem classBody_settles (hu : u.Written) (d : ClassDecl) (hd : ∀ m ∈ d.members, m.WrittenBody) :
    Settles (fun _ => InUnit u h)
      (fun _ => Ready u h d.name ∧ ∀ m ∈ d.members, m.Resolved) (classBody d)
      (fun _ => InUnit u h) fun _ d' => TypeDecl.Settled h u (.classDecl d') := by
  have hrest : Settles (fun _ => InClass u h d.name)
      (fun _ => Ready u h d.name ∧ ∀ m ∈ d.members, m.Resolved) (do
      let members ← (withCtor d.line d.name d.members).mapM (member d.name)
      leaveClass
      return { d with members }) (fun _ => InUnit u h)
      fun _ d' => TypeDecl.Settled h u (.classDecl d') := by
    refine .bind (mapM_settles fun m hm => (member_settles d.name m
      (withCtor_forall d.line d.name trivial hd m hm)).given fun w hw =>
        ⟨hw.1, withCtor_forall d.line d.name nofun hw.2 m hm⟩) fun members => ?_
    refine .bind (leaveClass_settles d.name) fun _ => .pure fun w hw m hm => ?_
    obtain ⟨_, -, hm'⟩ := hw.1.2 m hm
    exact hm'
  refine get_bind fun c => .bind ((enterClass_settles d.name _).given ?_) fun _ => ?_
  · rintro w ⟨-, v, -, hc⟩
    exact qualify_eq_internalName hu hc.package d.name
  have hconcrete := checkConcrete_reads (Q := Context.Similar) (fun _ _ h => h.hierarchy)
  exact .ite (fun _ => hrest.given fun _ hw => hw.1.1) fun _ =>
    .bind ((hconcrete _ d).settles .refl .any) fun _ => hrest.given fun _ hw => hw.1.1.1

/-- Analysis of an interface settles its methods, which have no bodies. -/
theorem interfaceBody_settles (hu : u.Written) (d : InterfaceDecl)
    (hd : ∀ m ∈ d.members, m.Bodiless) :
    Settles (fun _ => InUnit u h) (fun _ => ∀ m ∈ d.members, m.Resolved) (interfaceBody d)
      (fun _ => InUnit u h) fun _ d' => TypeDecl.Settled h u (.interfaceDecl d') := by
  refine get_bind fun c => .bind ((enterClass_settles d.name _).given ?_) fun _ => ?_
  · rintro w ⟨-, v, -, hc⟩
    exact qualify_eq_internalName hu hc.package d.name
  refine .bind (mapM_settles fun m hm => (bodiless_settles d.name (hd m hm)).given fun w hw =>
    hw.1.1 m hm) fun members => ?_
  refine .bind (leaveClass_settles d.name) fun _ => .pure fun w hw m hm => ?_
  obtain ⟨_, -, hm'⟩ := hw.1.2 m hm
  exact hm'

/-- Analysis of a type settles it. -/
theorem typeBody_settles (hu : u.Written) : ∀ (d : TypeDecl), d.WrittenBody →
    Settles (fun _ => InUnit u h) (fun _ => (∀ m ∈ d.members, m.Resolved) ∧ h.Proper ∧
        ∀ e, d = .classDecl e → (h.superclass? (u.internalName e.name)).isSome)
      (typeBody d) (fun _ => InUnit u h) fun _ d' => d'.Settled h u
  | .classDecl d, hd => .bind ((classBody_settles hu d hd).given fun _ hw =>
    ⟨⟨hw.2.1, hw.2.2 d rfl⟩, hw.1⟩) fun _ => .pure fun _ hw => hw.2
  | .interfaceDecl d, hd => .bind ((interfaceBody_settles hu d hd).given fun _ hw => hw.1) fun _ =>
    .pure fun _ hw => hw.2

end Analysis

/-- What is settled depends only on the package of the unit. -/
theorem TypeDecl.Settled.congr {u' : CompilationUnit} {d : TypeDecl} (hd : d.Settled h u)
    (hu : u'.package = u.package) : d.Settled h u' := by
  have hname : u'.internalName = u.internalName := by
    funext name
    simp [CompilationUnit.internalName, hu]
  have hframe : u'.frame = u.frame := by
    funext h name isStatic result vars
    simp [CompilationUnit.frame, hu, hname]
  have hmember : ∀ {name : String} {m : Member}, m.Settled h u name → m.Settled h u' name := by
    intro name m hm
    cases m <;> simpa only [Member.Settled, hframe] using hm
  cases d with
  | classDecl d => exact fun m hm => hmember (hd m hm)
  | interfaceDecl d => exact fun m hm => ⟨hmember (hd m hm).1, (hd m hm).2⟩

theorem unit_of_analyze (h : analyze u log = .ok a) :
    ∃ c, Analysis.unit u { log } = .ok (a.unit, c) ∧ a = ⟨a.unit, c.hierarchy, c.log⟩ := by
  obtain ⟨res, hrun, h⟩ := exists_of_bind_eq_ok h
  cases h
  exact ⟨res.2, hrun, rfl⟩

theorem analyze_eq_ok (hrun : analyze u log = .ok a) :
    ∃ u' c types c', Analysis.unitHeaders u { log } = .ok (u', c) ∧
      u'.types.mapM Analysis.typeBody c = .ok (types, c') ∧
      a = ⟨{ u' with types }, c'.hierarchy, c'.log⟩ := by
  obtain ⟨c'', hunit, ha⟩ := unit_of_analyze hrun
  obtain ⟨u', c, hheaders, hrest⟩ := Analysis.runs_of_bind hunit
  obtain ⟨types, c', hbodies, heq⟩ := Analysis.runs_of_bind hrest
  obtain ⟨hsame, rfl⟩ := Prod.mk.inj (Except.ok.inj heq)
  exact ⟨u', c, types, c', hheaders, hbodies, hsame ▸ ha⟩

/-- What analysis of a written unit comes to when it reports nothing: headers are recorded, and then
bodies are settled against headers that do not change. -/
theorem analyze_silent {u : CompilationUnit} (hu : u.Written) {log : Log Problem} {a : Analyzed}
    (hrun : analyze u log = .ok a) (hlog : a.log.failed = false) :
    ∃ base types c', Analysis.Recorded u log base ∧
      (u.types.map fun d => (Analysis.resolvedIn base d).1).mapM Analysis.typeBody
        (Analysis.withHeaders base u.types) = .ok (types, c') ∧ c'.log.latest = [] ∧
      a = ⟨{ u with types }, (Analysis.withHeaders base u.types).hierarchy, c'.log⟩ ∧
      ∀ d ∈ types, d.Settled (Analysis.withHeaders base u.types).hierarchy u := by
  obtain ⟨u', c, types, c', hheaders, hbodies, rfl⟩ := analyze_eq_ok hrun
  have hsilent : c'.log.latest = [] := by simpa [Log.failed] using hlog
  obtain ⟨ds, rfl, hresolves⟩ := Analysis.unitHeaders_resolve u _ _ _ hheaders
  -- What is said of the bodies holds against any headers, so also against those recorded.
  have hbody := Analysis.mapM_settles (F := fun _ => ∀ d ∈ ds, (∀ m ∈ d.members, m.Resolved) ∧
      c.hierarchy.Proper ∧ ∀ e, d = .classDecl e →
        (c.hierarchy.superclass? (u.internalName e.name)).isSome)
    fun d' hd' => by
      obtain ⟨d, hd, hr⟩ := Analysis.exists_of_mem_forall₂ hresolves hd'
      exact (Analysis.typeBody_settles (h := c.hierarchy) hu d'
        (hr.writtenBody (hu.types d hd))).given fun _ hw => hw d' hd'
  obtain ⟨hmid, hafter⟩ := hbody c types c' hbodies hsilent
  obtain ⟨base, hrecorded, rfl, hunit⟩ := Analysis.unitHeaders_silent hheaders hmid
  obtain rfl := congrArg CompilationUnit.types hunit
  obtain ⟨v', -, hunit, hsettled⟩ := hafter [] ⟨rfl, hrecorded.package,
    (hrecorded.proper hu).names⟩ (by
      intro w _ d' hd'
      obtain ⟨d, hd, rfl⟩ := List.mem_map.1 hd'
      refine ⟨(hrecorded.written hu hd).1, (hrecorded.proper hu).hierarchy, fun e he => ?_⟩
      have hr : d.Resolves (Analysis.resolvedIn base d).1 :=
        Analysis.describe_resolves d _ _ _ (hrecorded.described d hd)
      rw [he] at hr
      cases hr with
      | classDecl =>
        have hsuper := hrecorded.superclass hu hd
        exact hsuper)
  refine ⟨base, types, c', hrecorded, hbodies, hsilent, by rw [hunit.hierarchy], fun d hd => ?_⟩
  obtain ⟨_, -, hd'⟩ := hsettled v' (fun _ => id) d hd
  exact hd'

/-- A parsed unit that is analyzed without a report is settled. -/
theorem analyze_settled {u : CompilationUnit} (hu : u.Written) (hrun : analyze u log = .ok a)
    (hlog : a.log.failed = false) : a.Settled := by
  obtain ⟨base, types, c', -, -, -, rfl, hsettled⟩ := analyze_silent hu hrun hlog
  exact fun d hd => (hsettled d hd).congr rfl

/-! ## Accepted sources -/

/-- A source that is parsed and analyzed without a report, and what analysis makes of it. -/
structure Accepted (file : String) (maxDepth : Nat) (source : String) (a : Analyzed) : Prop where
  parsed : (Grammar.parseSource file maxDepth source).2.failed = false
  analyzed : analyze (Grammar.parseSource file maxDepth source).1
    (Grammar.parseSource file maxDepth source).2 = .ok a
  silent : a.log.failed = false

/-- Whether a source is parsed and analyzed without a report. -/
def accepts (file : String) (maxDepth : Nat) (source : String) : Bool :=
  let (parsed, log) := Grammar.parseSource file maxDepth source
  !log.failed && match analyze parsed log with
    | .ok a => !a.log.failed
    | .error _ => false

/-- A source that passes the test is accepted. -/
theorem exists_accepted (h : accepts file maxDepth source) :
    ∃ a, Accepted file maxDepth source a := by
  simp only [accepts, Bool.and_eq_true, Bool.not_eq_true'] at h
  obtain ⟨hparsed, hanalyzed⟩ := h
  split at hanalyzed
  case h_1 a ha => exact ⟨a, hparsed, ha, by simpa using hanalyzed⟩
  case h_2 => cases hanalyzed

/-- The tree of an accepted source is settled: it has no unknown type and no unclassified name,
calls and selections carry their members, variables their slots, and every value has the type
that its place asks for. -/
theorem accepted_settled {file : String} {maxDepth : Nat} {source : String} {a : Analyzed}
    (h : Accepted file maxDepth source a) : a.Settled :=
  analyze_settled (Grammar.parseSource_written h.parsed) h.analyzed h.silent

/-- An interface, and a class with an initialized field, conversions, a call and a final block. -/
def counterSource : String :=
  "interface Named \x7b String name(int n, long k); \x7d " ++
  "class Counter \x7b long n = 1; int id(char c) \x7b return c; \x7d " ++
  "int next(int k) \x7b try \x7b n += k << 2L; \x7d finally \x7b id('x'); \x7d return k; \x7d \x7d"

theorem counterSource_accepted : accepts "Counter.java" 100 counterSource := by decide +kernel

theorem accepted_settled_counter :
    ∃ a, Accepted "Counter.java" 100 counterSource a ∧ a.Settled := by
  obtain ⟨a, ha⟩ := exists_accepted counterSource_accepted
  exact ⟨a, ha, accepted_settled ha⟩

end JMinusMinus
