import JMinusMinus.Analysis.Unit
import JMinusMinus.Proofs.Agree.Hierarchy
import JMinusMinus.Proofs.Run

/-!
# Steps in contexts that are alike

What a step of analysis does depends on less than its whole context: not on what was reported
before, and on the hierarchy only up to the order of its headers. So it does the same in two
contexts that are related.

* `Reads Q x y` is about steps that only look at the context. In contexts related by `Q` they have
  the same result and report the same. They have no fault and change nothing else.
* `Agrees Q Q' x y` is about steps that change the context: they have the same result and report
  the same, and take contexts related by `Q` to contexts related by `Q'`. They leave headers and
  bound names alone, and never allow a constructor call where none was allowed (`Context.Kept`).

With `x` for `y` both say that a step cannot tell related contexts apart. They also say that
no report is ever taken back (`Agrees.quiet`), so a step that leaves an empty log only read
(`Reads.silent`).
-/

namespace JMinusMinus

variable {b c' : Context} {line : Nat} {p : Prop} {problem : SemanticProblem}

/-! ## Contexts -/

namespace Context

/-- A context with further reports. -/
def logged (c : Context) (new : List (Report Problem)) : Context :=
  { c with log := ⟨new ++ c.log.latest⟩ }

theorem logged_logged (c : Context) (new later : List (Report Problem)) :
    (c.logged new).logged later = c.logged (later ++ new) := by
  simp [logged]

theorem eq_nil_of_logged_eq {c : Context} {new : List (Report Problem)} (h : c.logged new = c) :
    new = [] := by
  have hlatest := congrArg (fun c => c.log.latest) h
  simpa [logged] using hlatest

/-- Contexts in which simple names stand for the same classes. -/
structure SameNames (c d : Context) : Prop where
  package : d.package = c.package
  names : ∀ simple, d.names.lookup simple = c.names.lookup simple
  contains : d.hierarchy.contains = c.hierarchy.contains
  isInterface : d.hierarchy.isInterface = c.hierarchy.isInterface

/-- Contexts between types that agree but for the order of headers and of bound names. -/
structure AlikeOutside (c d : Context) : Prop where
  hierarchy : c.hierarchy.Alike d.hierarchy
  package : d.package = c.package
  names : ∀ simple, d.names.lookup simple = c.names.lookup simple
  mayDelegate : d.mayDelegate = c.mayDelegate

/-- Contexts that agree in all that members see of a class, its own name included. -/
structure AlikeInClass (c d : Context) : Prop extends AlikeOutside c d where
  className : d.className = c.className

/-- Contexts that agree but for the order of headers and of bound names. -/
structure Alike (c d : Context) : Prop extends AlikeInClass c d where
  method : d.method = c.method
  scopes : d.scopes = c.scopes
  jumps : d.jumps = c.jumps

/-- Contexts that agree but for what `Alike` leaves open and whether another constructor may be
called. -/
structure Similar (c d : Context) : Prop where
  hierarchy : c.hierarchy.Alike d.hierarchy
  package : d.package = c.package
  names : ∀ simple, d.names.lookup simple = c.names.lookup simple
  className : d.className = c.className
  method : d.method = c.method
  scopes : d.scopes = c.scopes
  jumps : d.jumps = c.jumps

/-- What analysis of bodies leaves alone. -/
structure Kept (c c' : Context) : Prop where
  hierarchy : c'.hierarchy = c.hierarchy
  package : c'.package = c.package
  names : c'.names = c.names
  mayDelegate : c'.mayDelegate → c.mayDelegate

theorem Kept.refl (c : Context) : c.Kept c := ⟨rfl, rfl, rfl, id⟩

theorem Kept.trans {a : Context} (h : a.Kept b) (h' : b.Kept c) : a.Kept c :=
  ⟨h'.hierarchy.trans h.hierarchy, h'.package.trans h.package, h'.names.trans h.names,
    h.mayDelegate ∘ h'.mayDelegate⟩

theorem Kept.sameNames {c : Context} (h : c.Kept c') : c.SameNames c' :=
  ⟨h.package, fun _ => by rw [h.names], by rw [h.hierarchy], by rw [h.hierarchy]⟩

/-- The same point of the same body, where no more may be done than before. -/
structure Stays (c c' : Context) : Prop extends c.Kept c' where
  className : c'.className = c.className
  method : c'.method = c.method
  scopes : c'.scopes = c.scopes
  jumps : c'.jumps = c.jumps

/-- What stays the same over two steps stays the same over both. -/
theorem Stays.trans {a : Context} (h : a.Stays b) (h' : b.Stays c) : a.Stays c :=
  ⟨h.toKept.trans h'.toKept, h'.className.trans h.className, h'.method.trans h.method,
    h'.scopes.trans h.scopes, h'.jumps.trans h.jumps⟩

theorem stays_logged (c : Context) (new : List (Report Problem)) : c.Stays (c.logged new) :=
  ⟨⟨rfl, rfl, rfl, id⟩, rfl, rfl, rfl, rfl⟩

theorem SameNames.refl (c : Context) : c.SameNames c := ⟨rfl, fun _ => rfl, rfl, rfl⟩

theorem SameNames.symm {c : Context} (h : c.SameNames d) : d.SameNames c :=
  ⟨h.package.symm, fun simple => (h.names simple).symm, h.contains.symm, h.isInterface.symm⟩

theorem AlikeOutside.refl (c : Context) : c.AlikeOutside c := ⟨.refl _, rfl, fun _ => rfl, rfl⟩

theorem AlikeOutside.symm {c : Context} (h : c.AlikeOutside d) : d.AlikeOutside c :=
  ⟨h.hierarchy.symm, h.package.symm, fun simple => (h.names simple).symm, h.mayDelegate.symm⟩

theorem AlikeOutside.trans {a : Context} (h : a.AlikeOutside b) (h' : b.AlikeOutside c) :
    a.AlikeOutside c :=
  ⟨h.hierarchy.trans h'.hierarchy, h'.package.trans h.package,
    fun simple => (h'.names simple).trans (h.names simple), h'.mayDelegate.trans h.mayDelegate⟩

/-- What bodies leave alone is all that other bodies depend on, where no constructor call is
allowed. -/
theorem Kept.alikeOutside {c : Context} (h : c.Kept c') (hmay : c.mayDelegate = false) :
    c.AlikeOutside c' := by
  refine ⟨h.hierarchy ▸ .refl _, h.package, fun _ => by rw [h.names], ?_⟩
  cases hc' : c'.mayDelegate with
  | false => exact hmay.symm
  | true => exact (h.mayDelegate hc').symm

theorem Alike.refl (c : Context) : c.Alike c := ⟨⟨.refl c, rfl⟩, rfl, rfl, rfl⟩

theorem Alike.similar {c : Context} (h : c.Alike d) : c.Similar d :=
  ⟨h.hierarchy, h.package, h.names, h.className, h.method, h.scopes, h.jumps⟩

theorem Similar.refl (c : Context) : c.Similar c := (Alike.refl c).similar

theorem Similar.sameNames {c : Context} (h : c.Similar d) : c.SameNames d :=
  ⟨h.package, h.names, h.hierarchy.contains, h.hierarchy.isInterface⟩

theorem AlikeOutside.sameNames {c : Context} (h : c.AlikeOutside d) : c.SameNames d :=
  ⟨h.package, h.names, h.hierarchy.contains, h.hierarchy.isInterface⟩

theorem SameNames.qualify {c : Context} (h : c.SameNames d) : d.qualify = c.qualify := by
  funext simple
  simp only [Context.qualify, h.package]

theorem SameNames.resolveClass? {c : Context} (h : c.SameNames d) :
    d.resolveClass? = c.resolveClass? := by
  funext name
  simp only [Context.resolveClass?, Context.known?, h.contains, h.names]

theorem SameNames.isInterfaceType {c : Context} (h : c.SameNames d) :
    d.hierarchy.isInterfaceType = c.hierarchy.isInterfaceType := by
  funext t
  cases t <;> simp only [Hierarchy.isInterfaceType, h.isInterface]

namespace Similar

variable {c d : Context} (h : c.Similar d)

include h

theorem classType : d.classType = c.classType := by
  simp only [Context.classType, h.className]

theorem superclass? : d.superclass? = c.superclass? := by
  simp only [Context.superclass?, h.className, h.hierarchy.superclass?]

theorem isStatic : d.isStatic = c.isStatic := by
  simp only [Context.isStatic, h.method]

theorem local? : d.local? = c.local? := by
  funext name
  simp only [Context.local?, h.scopes]

theorem canBreak : d.canBreak = c.canBreak := by
  simp only [Context.canBreak, h.jumps]

theorem canContinue : d.canContinue = c.canContinue := by
  simp only [Context.canContinue, h.jumps]

end Similar

end Context

/-- Whether a report is about a cycle. -/
def Problem.isCycle : Problem → Bool
  | .semantic (.cyclicInheritance _) => true
  | _ => false

namespace Analysis

variable {α β : Type}

/-- A relation between contexts that does not look at their logs. -/
class LogFree (Q : Context → Context → Prop) : Prop where
  logged : ∀ {c d : Context} (new later : List (Report Problem)),
    Q c d → Q (c.logged new) (d.logged later)

instance : LogFree Context.SameNames where
  logged _ _ h := ⟨h.package, h.names, h.contains, h.isInterface⟩

instance : LogFree Context.AlikeOutside where
  logged _ _ h := ⟨h.hierarchy, h.package, h.names, h.mayDelegate⟩

instance : LogFree Context.AlikeInClass where
  logged new later h := ⟨LogFree.logged new later h.toAlikeOutside, h.className⟩

instance : LogFree Context.Alike where
  logged new later h :=
    ⟨LogFree.logged new later h.toAlikeInClass, h.method, h.scopes, h.jumps⟩

instance : LogFree Context.Similar where
  logged _ _ h :=
    ⟨h.hierarchy, h.package, h.names, h.className, h.method, h.scopes, h.jumps⟩

/-! ## Steps that read -/

/-- Steps that have the same result and reports in related contexts and change nothing else. No
report is about a cycle, and of the result something may be known. -/
def Reads (Q : Context → Context → Prop) (x y : Analysis α)
    (p : α → Prop := fun _ => True) : Prop :=
  ∀ c d, Q c d → ∃ a new, (∀ r ∈ new, r.problem.isCycle = false) ∧ x c = .ok (a, c.logged new) ∧
    y d = .ok (a, d.logged new) ∧ p a

/-- A step that cannot tell related contexts apart. -/
abbrev ReadsSame (Q : Context → Context → Prop) (x : Analysis α) (p : α → Prop := fun _ => True) :
    Prop :=
  Reads Q x x p

namespace Reads

variable {Q : Context → Context → Prop} {x y : Analysis α} {f g : α → Analysis β} {p : α → Prop}
  {r : β → Prop} {b : Prop}

theorem ret (h : p a) : Reads Q (pure a) (pure a) p := fun _ _ _ => ⟨a, [], nofun, rfl, rfl, h⟩

theorem pure {a : α} : Reads Q (pure a) (pure a) := .ret trivial

theorem andThen [LogFree Q] (hx : Reads Q x y p) (hf : ∀ a, p a → Reads Q (f a) (g a) r) :
    Reads Q (x >>= f) (y >>= g) r := by
  intro c d hcd
  obtain ⟨a, new, hnew, hxc, hyd, ha⟩ := hx c d hcd
  obtain ⟨b, later, hlater, hfc, hgd, hb⟩ := hf a ha _ _ (LogFree.logged new new hcd)
  refine ⟨b, later ++ new, List.forall_mem_append.2 ⟨hlater, hnew⟩, ?_, ?_, hb⟩
  · rw [bind_run hxc, hfc, Context.logged_logged]
  · rw [bind_run hyd, hgd, Context.logged_logged]

theorem bind [LogFree Q] (hx : Reads Q x y p) (hf : ∀ a, Reads Q (f a) (g a) r) :
    Reads Q (x >>= f) (y >>= g) r :=
  .andThen hx fun a _ => hf a

theorem get_bind {f g : Context → Analysis α} (h : ∀ c d, Q c d → Reads Q (f c) (g d) p) :
    Reads Q (get >>= f) (get >>= g) p :=
  fun c d hcd => h c d hcd c d hcd

theorem report (h : (Problem.semantic problem).isCycle = false) :
    Reads Q (report line problem) (report line problem) :=
  fun _ _ _ => ⟨(), [⟨line, .semantic problem⟩], List.forall_mem_singleton.2 h, rfl, rfl, trivial⟩

theorem ite [Decidable b] (h : Reads Q x y p) (h' : Reads Q x' y' p) :
    Reads Q (if b then x else x') (if b then y else y') p := by
  split
  · exact h
  · exact h'

theorem reportIf [LogFree Q] [Decidable b] {f g : Unit → Analysis α}
    (hr : (Problem.semantic problem).isCycle = false) (h : Reads Q (f ()) (g ()) p) :
    Reads Q (if b then Analysis.report line problem >>= f else f ())
      (if b then Analysis.report line problem >>= g else g ()) p :=
  .ite (.bind (.report hr) fun _ => h) h

theorem reportUnless [LogFree Q] [Decidable b] {f g : Unit → Analysis α}
    (hr : (Problem.semantic problem).isCycle = false) (h : Reads Q (f ()) (g ()) p) :
    Reads Q (if b then f () else Analysis.report line problem >>= f)
      (if b then g () else Analysis.report line problem >>= g) p :=
  .ite h (.bind (.report hr) fun _ => h)

theorem mapM [LogFree Q] {f g : β → Analysis α} :
    ∀ {bs : List β}, (∀ b ∈ bs, Reads Q (f b) (g b) p) → Reads Q (bs.mapM f) (bs.mapM g)
  | [], _ => .pure
  | b :: bs, h => by
    rw [List.mapM_cons, List.mapM_cons]
    exact .bind (h b (by simp)) fun _ => .bind (mapM fun b' hb' => h b' (by simp [hb'])) fun _ =>
      .pure

theorem forM [LogFree Q] {f g : β → Analysis PUnit} :
    ∀ {bs : List β}, (∀ b ∈ bs, Reads Q (f b) (g b)) → Reads Q (bs.forM f) (bs.forM g)
  | [], _ => .pure
  | b :: bs, h => .bind (h b (by simp)) fun _ => forM fun b' hb' => h b' (by simp [hb'])

theorem of_imp {Q' : Context → Context → Prop} (h : Reads Q x y p) (hQ : ∀ c d, Q' c d → Q c d) :
    Reads Q' x y p :=
  fun c d hcd => h c d (hQ c d hcd)

theorem imp {q : α → Prop} (h : Reads Q x y p) (hpq : ∀ a, p a → q a) : Reads Q x y q := by
  intro c d hcd
  obtain ⟨a, new, hnew, hx, hy, ha⟩ := h c d hcd
  exact ⟨a, new, hnew, hx, hy, hpq a ha⟩

theorem any (h : Reads Q x y p) : Reads Q x y := h.imp fun _ _ => trivial

theorem transfer (h : Reads Q x y p) {c d : Context} (hcd : Q c d) {a : α}
    (hrun : x c = .ok (a, c)) : y d = .ok (a, d) := by
  obtain ⟨a', new, -, hx, hy, -⟩ := h c d hcd
  rw [hx, Except.ok.injEq, Prod.mk.injEq] at hrun
  obtain ⟨rfl, hlogged⟩ := hrun
  obtain rfl := Context.eq_nil_of_logged_eq hlogged
  exact hy

theorem silent (h : Reads Q x x p) (hc : Q c c) (hrun : x c = .ok (a, c'))
    (hlog : c'.log.latest = []) : c' = c := by
  obtain ⟨a', new, -, hx, -⟩ := h c c hc
  rw [hx] at hrun
  cases hrun
  obtain ⟨rfl, -⟩ := List.append_eq_nil_iff.1 hlog
  rfl

end Reads

/-! ## Steps that change the context -/

/-- Steps that have the same result and reports in related contexts and keep them related. -/
def Agrees (Q Q' : Context → Context → Prop) (x y : Analysis α) : Prop :=
  ∀ c d, Q c d →
    (∃ a c' d' new, x c = .ok (a, c') ∧ y d = .ok (a, d') ∧ Q' c' d' ∧
      c'.log.latest = new ++ c.log.latest ∧ d'.log.latest = new ++ d.log.latest ∧ c.Kept c') ∨
      ∃ f, x c = .error f ∧ y d = .error f

/-- A step that runs the same in contexts that are alike. -/
abbrev AgreesAlike (x : Analysis α) : Prop := Agrees Context.Alike Context.Alike x x

theorem Reads.agrees {Q : Context → Context → Prop} [LogFree Q] {p : α → Prop} (h : Reads Q x y p) :
    Agrees Q Q x y := by
  intro c d hcd
  obtain ⟨a, new, -, hx, hy, -⟩ := h c d hcd
  exact .inl ⟨a, _, _, new, hx, hy, LogFree.logged new new hcd, rfl, rfl, ⟨rfl, rfl, rfl, id⟩⟩

theorem Reads.alike {p : α → Prop} (h : Reads Context.Similar x y p) :
    Agrees Context.Alike Context.Alike x y :=
  (h.of_imp fun _ _ hcd => hcd.similar).agrees

namespace Agrees

variable {Q Q' Q'' : Context → Context → Prop} {x y : Analysis α} {f g : α → Analysis β}

theorem pure {a : α} : Agrees Q Q (pure a) (pure a) :=
  fun c _ hcd => .inl ⟨a, _, _, [], rfl, rfl, hcd, rfl, rfl, .refl c⟩

theorem bind (hx : Agrees Q Q' x y) (hf : ∀ a, Agrees Q' Q'' (f a) (g a)) :
    Agrees Q Q'' (x >>= f) (y >>= g) := by
  intro c d hcd
  rcases hx c d hcd with ⟨a, c', d', new, hxc, hyd, hcd', hc', hd', hkept⟩ | ⟨e, hxc, hyd⟩
  · rw [bind_run hxc, bind_run hyd]
    rcases hf a c' d' hcd' with
      ⟨b, c'', d'', later, hfc, hgd, hcd'', hc'', hd'', hkept'⟩ | ⟨e, hfc, hgd⟩
    · refine .inl ⟨b, c'', d'', later ++ new, hfc, hgd, hcd'', ?_, ?_, hkept.trans hkept'⟩
      · rw [hc'', hc', List.append_assoc]
      · rw [hd'', hd', List.append_assoc]
    · exact .inr ⟨e, hfc, hgd⟩
  · exact .inr ⟨e, bind_error hxc, bind_error hyd⟩

theorem lift {e : Except Fault α} : Agrees Q Q (liftM e : Analysis α) (liftM e) := by
  cases e with
  | error f => exact fun _ _ _ => .inr ⟨f, rfl, rfl⟩
  | ok a => exact .pure

theorem discarded (h : Agrees Q Q' x y) : Agrees Q Q' (discard x : Analysis PUnit) (discard y) := by
  rw [discard_eq, discard_eq]
  exact .bind h fun _ => .pure

theorem get_bind {f g : Context → Analysis α} (h : ∀ c d, Q c d → Agrees Q Q' (f c) (g d)) :
    Agrees Q Q' (get >>= f) (get >>= g) :=
  fun c d hcd => h c d hcd c d hcd

theorem modify {f : Context → Context} (hf : ∀ c, (f c).log = c.log)
    (hkept : ∀ c : Context, c.Kept (f c)) (h : ∀ c d, Q c d → Q' (f c) (f d)) :
    Agrees Q Q' (modify f : Analysis PUnit) (modify f) :=
  fun c d hcd => .inl ⟨_, f c, f d, [], rfl, rfl, h c d hcd, by rw [hf]; rfl, by rw [hf]; rfl,
    hkept c⟩

theorem ite [Decidable p] (h : Agrees Q Q' x y) (h' : Agrees Q Q' x' y') :
    Agrees Q Q' (if p then x else x') (if p then y else y') := by
  split
  · exact h
  · exact h'

theorem reportIf [LogFree Q] [Decidable p] {f g : Unit → Analysis α}
    (hr : (Problem.semantic problem).isCycle = false) (h : Agrees Q Q' (f ()) (g ())) :
    Agrees Q Q' (if p then report line problem >>= f else f ())
      (if p then report line problem >>= g else g ()) :=
  .ite (.bind (Reads.report hr).agrees fun _ => h) h

theorem reportUnless [LogFree Q] [Decidable p] {f g : Unit → Analysis α}
    (hr : (Problem.semantic problem).isCycle = false) (h : Agrees Q Q' (f ()) (g ())) :
    Agrees Q Q' (if p then f () else report line problem >>= f)
      (if p then g () else report line problem >>= g) :=
  .ite h (.bind (Reads.report hr).agrees fun _ => h)

theorem mapM {f g : β → Analysis α} :
    ∀ {bs : List β}, (∀ b ∈ bs, Agrees Q Q (f b) (g b)) → Agrees Q Q (bs.mapM f) (bs.mapM g)
  | [], _ => .pure
  | b :: bs, h => by
    rw [List.mapM_cons, List.mapM_cons]
    exact .bind (h b (by simp)) fun _ => .bind (mapM fun b' hb' => h b' (by simp [hb'])) fun _ =>
      .pure

theorem quiet (h : Agrees Q Q' x x) (hc : Q c c) (hrun : x c = .ok (a, c'))
    (hlog : c'.log.latest = []) : c.log.latest = [] := by
  rcases h c c hc with ⟨a', c₁, -, new, hx, -, -, hc₁, -⟩ | ⟨e, hx, -⟩
  · rw [hx] at hrun
    cases hrun
    rw [hc₁] at hlog
    exact (List.append_eq_nil_iff.1 hlog).2
  · rw [hx] at hrun
    cases hrun

theorem kept (h : Agrees Q Q' x x) (hc : Q c c) (hrun : x c = .ok (a, c')) : c.Kept c' := by
  rcases h c c hc with ⟨a', c₁, -, -, hx, -, -, -, -, hkept⟩ | ⟨e, hx, -⟩
  · rw [hx] at hrun
    cases hrun
    exact hkept
  · rw [hx] at hrun
    cases hrun

end Agrees

end Analysis

end JMinusMinus
