import JMinusMinus.Proofs.Agree.Expr
import JMinusMinus.Proofs.Settled.Basic

/-!
# What becomes of expressions

Analysis keeps the shape of an expression. Between a node and each of its parts it puts at most one
conversion, and in front of the arguments of a call maybe the current object. A dotted name becomes
a chain of selections, which starts from a local variable exactly if its first word is in scope
(`Named`). `Made` says so, with one rule for each way in which a node comes about.

`expr_elabs` goes through an expression once. It tells when analysis has a fault, what it leaves
alone, and what it makes. Where no constructor call is allowed and nothing is reported it makes none
(`Expr.Barred`).
-/

namespace JMinusMinus

variable {look : String → Option LocalVar}

namespace Expr

/-- A node that can have parts. -/
def isInner : Expr → Bool
  | literal .. | name .. | localVar .. | thisRef _ | superRef _ | typeName .. | wild _ => false
  | _ => true

/-- A node that analysis takes over with all its parts. The grammar builds none of them. -/
def isRaw : Expr → Bool
  | localVar .. | typeName .. | concat .. => true
  | _ => false

/-- A property of all nodes is one of the node itself and of all nodes of its parts. -/
theorem forall_nodes_iff {p : Expr → Prop} :
    (∀ x ∈ e.nodes, p x) ↔ p e ∧ ∀ c ∈ e.children, ∀ x ∈ c.nodes, p x := by
  rw [nodes, List.forall_mem_cons, descendants_eq]
  simp only [List.mem_flatMap]
  refine and_congr_right fun _ => ⟨fun h c hc x hx => h x ⟨c, hc, hx⟩, fun h => ?_⟩
  rintro x ⟨c, hc, hx⟩
  exact h c hc x hx

/-- An expression without a call of another constructor. -/
def Barred (e : Expr) : Prop := ∀ x ∈ e.nodes, x.isDelegation = false

theorem barred_iff {e : Expr} : e.Barred ↔ e.isDelegation = false ∧ ∀ c ∈ e.children, c.Barred :=
  forall_nodes_iff

theorem barred_leaf {e : Expr} (he : e.isDelegation = false := by rfl)
    (hchildren : e.children = [] := by rfl) : e.Barred :=
  barred_iff.2 ⟨he, by simp [hchildren]⟩

theorem Barred.withNote {e : Expr} (h : e.Barred) : (e.withNote n).Barred := by
  rw [barred_iff] at h ⊢
  cases e <;> exact h

theorem Written.child {e c : Expr} {placed : Bool} (h : e.Written placed) (hc : c ∈ e.children) :
    ∃ placed, c.Written placed := by
  have hall {es : List Expr} {placed : Bool} (h : AllWritten placed es) (hc : c ∈ es) :
      ∃ placed, c.Written placed := ⟨placed, allWritten_iff.1 h c hc⟩
  cases e with
  | send n target name args ref =>
    rcases List.mem_append.1 hc with hc | hc
    · obtain rfl := Option.mem_toList.1 hc
      exact ⟨false, h.1⟩
    · exact hall h.2 hc
  | delegate => exact hall h hc
  | newObject => exact hall h.2 hc
  | newArray => exact hall h.2.2.2 hc
  | arrayInit => exact hall h.2 hc
  | _ => simp only [children, List.mem_cons, List.not_mem_nil, or_false] at hc <;> grind [Written]

end Expr

/-! ## Literals -/

namespace Literal

variable {l : Literal}

theorem IsReadable.intValue (h : l.IsReadable) : ∃ value, l.intValue = .ok value := by
  cases l with
  | char image =>
    obtain ⟨text, htext⟩ := h
    exact ⟨_, by simp only [Literal.intValue, decoded, htext]; rfl⟩
  | _ => exact ⟨_, rfl⟩

theorem IsReadable.isValid (h : l.IsReadable) : ∃ b, l.isValid = .ok b := by
  cases l with
  | char image =>
    obtain ⟨value, hvalue⟩ := h.intValue
    exact ⟨_, by simp only [Literal.isValid, hvalue]; rfl⟩
  | string image =>
    obtain ⟨text, htext⟩ := h
    exact ⟨_, by simp only [Literal.isValid, stringValue, decoded, htext]; rfl⟩
  | _ => exact ⟨_, rfl⟩

theorem isReadable_of_negated? (h : l.negated? = some l') : l'.IsReadable := by
  cases l with
  | int image | long image | double image =>
    obtain ⟨_, -, rfl⟩ := Option.map_eq_some_iff.1 h
    trivial
  | _ => cases h

end Literal

theorem Context.Stays.barred {c : Context} {q : Prop} (h : c.Stays c')
    (hmay : q → c.mayDelegate = false) (hq : q) : c'.mayDelegate = false :=
  Bool.eq_false_iff.2 fun h' => by simpa [hmay hq] using h.mayDelegate h'

namespace Analysis

/-- What analysis makes of an expression, given the variables in scope, before its role asks for
anything. -/
inductive Made (look : String → Option LocalVar) : Expr → Expr → Prop
  | name {n : Note} : Named look n.line segments e → Made look (.name n segments) e
  | literal {l : Literal} : Made look (.literal n l) (.literal n' l)
  | negated {l l' : Literal} : l.negated? = some l' →
      Made look (.unary n op (.literal m l)) (.literal n' l')
  | thisRef : Made look (.thisRef n) (.thisRef n')
  | superRef : Made look (.superRef n) (.superRef n')
  | wild : Made look (.wild n) (.wild n')
  | raw {e : Expr} : e.isRaw → Made look e e
  | node {e e' : Expr} {mids front rest : List Expr} : e'.isInner →
      List.Forall₂ (Made look) e.children mids → List.Forall₂ Converts mids rest →
      (front = [] ∨ ∃ n, front = [.thisRef n]) → e'.children = front ++ rest → Made look e e'

/-- What is made of an expression. In case `q` it has no call of another constructor. -/
def MadeIn (look : String → Option LocalVar) (q : Prop) (e m : Expr) : Prop :=
  Made look e m ∧ (q → m.Barred)

/-- What analysis makes of an expression, converted or not. -/
def Turns (look : String → Option LocalVar) (q : Prop) (e e' : Expr) : Prop :=
  ∃ m, MadeIn look q e m ∧ Converts m e'

/-- What analysis makes of an expression in a role. -/
def Becomes (look : String → Option LocalVar) (q : Prop) (role : Role) (e e' : Expr) : Prop :=
  ∃ m, MadeIn look q e m ∧ role.Settles m e'

theorem Role.Settles.converts {role : Role} (h : role.Settles e e') : Converts e e' := by
  cases role with
  | value | selected => exact .inl h
  | _ => exact h

theorem Selected.barred {base e : Expr} {k : Nat} (h : Selected base k e) (hbase : base.Barred) :
    e.Barred := by
  induction h with
  | base => exact hbase
  | field | arrayLength => exact Expr.barred_iff.2 ⟨rfl, by simpa [Expr.children]⟩

theorem Named.barred {line : Nat} {segments : List String} {e : Expr}
    (h : Named look line segments e) : e.Barred := by
  cases h with
  | declared _ he => exact he.barred Expr.barred_leaf
  | @other _ base _ _ _ hbase _ he =>
    refine he.barred ?_
    cases base with
    | thisRef | typeName | wild => exact Expr.barred_leaf
    | _ => cases hbase

theorem Converts.barred (h : Converts e e') (he : e.Barred) : e'.Barred := by
  rcases h with rfl | ⟨t, rfl⟩
  · exact he
  · exact Expr.barred_iff.2 ⟨rfl, by simpa [convert, Expr.children] using he⟩

variable {q : Prop} {e m : Expr} {mids front rest : List Expr}

theorem madeIn_node (hm : m.isInner) (hmade : List.Forall₂ (MadeIn look q) e.children mids)
    (hparts : List.Forall₂ Converts mids rest) (hfront : front = [] ∨ ∃ n, front = [.thisRef n])
    (hchildren : m.children = front ++ rest) (hq : q → m.isDelegation = false) :
    MadeIn look q e m := by
  refine ⟨.node hm (hmade.imp fun _ _ h => h.1) hparts hfront hchildren,
    fun h => Expr.barred_iff.2 ⟨hq h, fun c hc => ?_⟩⟩
  rw [hchildren] at hc
  rcases List.mem_append.1 hc with hc | hc
  · rcases hfront with rfl | ⟨_, rfl⟩
    · cases hc
    · obtain rfl := List.mem_singleton.1 hc
      exact Expr.barred_leaf
  · obtain ⟨mid, hmid, hconverts⟩ := exists_of_mem_forall₂ hparts hc
    obtain ⟨_, _, hmade⟩ := exists_of_mem_forall₂ hmade hmid
    exact hconverts.barred (hmade.2 h)

theorem MadeIn.same (hmade : List.Forall₂ (MadeIn look q) e.children mids)
    (hparts : List.Forall₂ Converts mids m.children) (hm : m.isInner := by rfl)
    (hm' : m.isDelegation = false := by rfl) : MadeIn look q e m :=
  madeIn_node hm hmade hparts (.inl rfl) rfl fun _ => hm'

/-! ## Steps -/

variable {α β : Type} {x : Analysis α} {S : Prop} {p : α → Prop}

/-- A step of an expression, where some variables are in scope. It stays at its point and takes no
report back, and has no fault if `S` holds. In case `q` no constructor call is allowed, and the
result is only spoken of if `S` holds and nothing is reported. -/
def Elabs (look : String → Option LocalVar) (q S : Prop) (x : Analysis α) (p : α → Prop) : Prop :=
  ∀ c, c.local? = look → (q → c.mayDelegate = false) →
    (¬S ∧ ∃ f, x c = .error f) ∨ ∃ a c', x c = .ok (a, c') ∧ c.Stays c' ∧
      c.log.latest <:+ c'.log.latest ∧ ((q → S ∧ c'.log.latest = []) → p a)

theorem eq_nil_of_suffix {γ : Type} {l l' : List γ} (h : l <:+ l') (h' : l' = []) : l = [] :=
  List.suffix_nil.1 (h' ▸ h)

namespace Elabs

theorem bind_of_run {f : α → Analysis β} {r : α → β → Prop} (hx : Elabs look q S x p)
    (hf : ∀ c a c', c.local? = look → x c = .ok (a, c') → Elabs look q S (f a) (r a)) :
    Elabs look q S (x >>= f) fun b => ∃ a, p a ∧ r a b := by
  intro c hlook hmay
  rcases hx c hlook hmay with ⟨hS, e, hrun⟩ | ⟨a, c', hrun, hstays, hlog, ha⟩
  · exact .inl ⟨hS, e, bind_error hrun⟩
  · have hlook' : c'.local? = look := by
      rw [← hlook]
      exact funext fun _ => by simp only [Context.local?, hstays.scopes]
    rw [bind_run hrun]
    rcases hf c a c' hlook hrun c' hlook' (hstays.barred hmay) with
      herror | ⟨b, c'', hrun', hstays', hlog', hb⟩
    · exact .inl herror
    · refine .inr ⟨b, c'', hrun', hstays.trans hstays', hlog.trans hlog', fun h => ⟨a, ha ?_, hb h⟩⟩
      exact fun hq => ⟨(h hq).1, eq_nil_of_suffix hlog' (h hq).2⟩

theorem bind {f : α → Analysis β} {r : α → β → Prop} (hx : Elabs look q S x p)
    (hf : ∀ a, Elabs look q S (f a) (r a)) :
    Elabs look q S (x >>= f) fun b => ∃ a, p a ∧ r a b :=
  hx.bind_of_run fun _ a _ _ _ => hf a

theorem get_bind {f : Context → Analysis α} (h : ∀ c, Elabs look q S (f c) p) :
    Elabs look q S (get >>= f) p :=
  fun c => h c c

theorem imp {p' : α → Prop} (h : Elabs look q S x p) (hp : ∀ a, (q → S) → p a → p' a) :
    Elabs look q S x p' := by
  intro c hlook hmay
  rcases h c hlook hmay with herror | ⟨a, c', hrun, hstays, hlog, ha⟩
  · exact .inl herror
  · exact .inr ⟨a, c', hrun, hstays, hlog, fun h => hp a (fun hq => (h hq).1) (ha h)⟩

theorem of_imp {S' : Prop} (h : Elabs look q S x p) (hS : S' → S) : Elabs look q S' x p := by
  intro c hlook hmay
  rcases h c hlook hmay with ⟨hnot, herror⟩ | ⟨a, c', hrun, hstays, hlog, ha⟩
  · exact .inl ⟨fun h => hnot (hS h), herror⟩
  · exact .inr ⟨a, c', hrun, hstays, hlog, fun h => ha fun hq => ⟨hS (h hq).1, (h hq).2⟩⟩

theorem of_run {c : Context} (h : Elabs c.local? False S x p) (hrun : x c = .ok (a, c')) :
    c.Stays c' ∧ p a := by
  rcases h c rfl nofun with ⟨-, f, herror⟩ | ⟨a', c'', hok, hstays, -, ha⟩
  · rw [herror] at hrun
    cases hrun
  · rw [hok] at hrun
    cases hrun
    exact ⟨hstays, ha nofun⟩

end Elabs

theorem Reads.elabsAt (h : Reads (SimilarAt look) x x p) : Elabs look q S x p := by
  intro c hlook _
  obtain ⟨a, new, -, hrun, -, ha⟩ := h c c ⟨.refl c, hlook⟩
  exact .inr ⟨a, _, hrun, c.stays_logged new, List.suffix_append new _, fun _ => ha⟩

theorem Reads.elabs (h : Reads Context.Similar x x p) : Elabs look q S x p :=
  (h.of_imp fun _ _ h => h.1).elabsAt

theorem settled_elabs (role : Role) {x : Analysis Expr} {p : Expr → Prop}
    (hx : Elabs look q S x p) :
    Elabs look q S (x >>= role.settle) fun e => ∃ m, p m ∧ role.Settles m e :=
  .bind hx fun e => (settle_reads role e).elabs

theorem eq_of_settles_value (h : List.Forall₂ (Role.Settles .value) mids es) : es = mids := by
  induction h with
  | nil => rfl
  | cons he _ ih => rw [ih, show _ = _ from he]

theorem lift_elabs {r : Except Fault α} (hS : S → ∃ a, r = .ok a) :
    Elabs look q S (liftM r : Analysis α) fun _ => True := by
  cases r with
  | error f =>
    refine fun _ _ _ => .inl ⟨fun h => ?_, f, rfl⟩
    obtain ⟨_, ha⟩ := hS h
    cases ha
  | ok a => exact (Reads.ret trivial).elabs

theorem literal_elabs (line : Nat) (l : Literal) (hS : S → l.IsReadable) :
    Elabs look q S (literal line l) fun e => ∃ n, e = .literal n l := by
  refine (Elabs.bind (lift_elabs fun h => (hS h).isValid) fun b => (?_ : Elabs look q S _ fun e =>
    ∃ n, e = .literal n l)).imp ?_
  · exact Reads.elabs (.reportUnless rfl (.ret ⟨_, rfl⟩))
  · rintro e - ⟨_, -, he⟩
    exact he

theorem literal_of_negated (h : negatedLiteral? op e = some l) :
    ∃ n k, e = .literal n k ∧ k.negated? = some l := by
  unfold negatedLiteral? at h
  split at h
  · exact ⟨_, _, rfl, h⟩
  · cases h

/-- A call of another constructor takes back the permission for it, and is reported without. -/
theorem delegationAllowed_run (line : Nat) (target : Delegation) (c : Context) :
    ∃ new, delegationAllowed line target c = .ok ((), { c with mayDelegate := false }.logged new) ∧
      (c.mayDelegate = false → new ≠ []) := by
  have hrun : delegationAllowed line target c =
      (if c.mayDelegate && (c.method.map MethodScope.isCtor).getD false then pure ()
        else report line (.delegationNotFirst target)) { c with mayDelegate := false } := rfl
  by_cases hallowed : c.mayDelegate && (c.method.map MethodScope.isCtor).getD false
  · exact ⟨[], by rw [hrun, if_pos hallowed]; rfl, fun h => by simp [h] at hallowed⟩
  · exact ⟨[⟨line, .semantic (.delegationNotFirst target)⟩],
      by rw [hrun, if_neg hallowed]; rfl, by simp⟩

/-- What follows a call of another constructor goes on without permission for one. -/
theorem delegationAllowed_bind (line : Nat) (target : Delegation) {q' : Prop}
    (hx : Elabs look q' S x p) {c : Context} (hlook : c.local? = look) :
    (¬S ∧ ∃ e, (delegationAllowed line target >>= fun _ => x) c = .error e) ∨ ∃ a c',
      (delegationAllowed line target >>= fun _ => x) c = .ok (a, c') ∧ c.Stays c' ∧
      c.log.latest <:+ c'.log.latest ∧ ((q' → S ∧ c'.log.latest = []) → p a) ∧
      (c'.log.latest = [] → c.mayDelegate) := by
  obtain ⟨new, hrun, hnew⟩ := delegationAllowed_run line target c
  rw [bind_run hrun]
  rcases hx ({ c with mayDelegate := false }.logged new) hlook fun _ => rfl with
    herror | ⟨a, c', hrun', hstays, hlog, ha⟩
  · exact .inl herror
  · refine .inr ⟨a, c', hrun', ⟨⟨hstays.hierarchy, hstays.package, hstays.names, ?_⟩,
      hstays.className, hstays.method, hstays.scopes, hstays.jumps⟩,
      (List.suffix_append new _).trans hlog, ha, fun hquiet => ?_⟩
    · exact fun h => absurd (hstays.mayDelegate h) nofun
    · by_contra hmay
      exact hnew (by simpa using hmay) (List.append_eq_nil_iff.1 (eq_nil_of_suffix hlog hquiet)).1

mutual

theorem expr_elabs : ∀ (role : Role) (e : Expr) (placed : Bool),
    Elabs look q (e.Written placed) (expr role e) (Becomes look q role e)
  | role, .literal n l, _ => by
    refine (settled_elabs role (literal_elabs n.line l id)).imp ?_
    rintro e' - ⟨_, ⟨n', rfl⟩, hsettles⟩
    exact ⟨_, ⟨.literal, fun _ => Expr.barred_leaf⟩, hsettles⟩
  | role, .name n segments, _ => by
    refine (settled_elabs role (classify_named look n.line segments _).elabsAt).imp ?_
    rintro e' - ⟨m, hm, hsettles⟩
    exact ⟨m, ⟨.name hm, fun _ => hm.barred⟩, hsettles⟩
  | role, .localVar .., _ =>
    (settle_reads role _).elabs.imp fun _ hS h => ⟨_, ⟨.raw rfl, fun hq => (hS hq).elim⟩, h⟩
  | role, .typeName .., _ =>
    (settle_reads role _).elabs.imp fun _ hS h => ⟨_, ⟨.raw rfl, fun hq => (hS hq).elim⟩, h⟩
  | role, .concat .., _ =>
    (settle_reads role _).elabs.imp fun _ hS h => ⟨_, ⟨.raw rfl, fun hq => (hS hq).elim⟩, h⟩
  | role, .wild _, _ =>
    (settle_reads role _).elabs.imp fun _ _ h => ⟨_, ⟨.wild, fun _ => Expr.barred_leaf⟩, h⟩
  | role, .thisRef n, _ => by
    have hreads : ReadsSame Context.Similar (expr role (.thisRef n)) fun e' =>
        ∃ m, (∃ n', m = .thisRef n') ∧ role.Settles m e' := by
      refine .get_bind fun c d h => ?_
      rw [h.isStatic]
      exact .reportIf rfl (.andThen (thisRef_reads n.line) fun m hm =>
        (settle_reads role m).imp fun _ he => ⟨m, hm, he⟩)
    refine hreads.elabs.imp ?_
    rintro e' - ⟨_, ⟨n', rfl⟩, hsettles⟩
    exact ⟨_, ⟨.thisRef, fun _ => Expr.barred_leaf⟩, hsettles⟩
  | role, .superRef n, _ => by
    refine (settled_elabs role (superRef_reads n.line).elabs).imp ?_
    rintro e' - ⟨_, ⟨n', rfl⟩, hsettles⟩
    exact ⟨_, ⟨.superRef, fun _ => Expr.barred_leaf⟩, hsettles⟩
  | role, .field n target name _, _ => by
    refine (Elabs.bind (expr_elabs .selected target _) fun target' =>
      settled_elabs role (selectField_reads n.line target' name).elabs).imp ?_
    rintro e' - ⟨_, ⟨_, htarget, rfl⟩, m, hm, hsettles⟩
    refine ⟨m, ?_, hsettles⟩
    cases hm with
    | field _ _ _ hm =>
      cases hm
      exact .same (.cons htarget .nil) (forall₂_converts _)
    | arrayLength _ hm =>
      cases hm
      exact .same (.cons htarget .nil) (forall₂_converts _)
  | role, .arrayLength n array, _ => by
    refine (Elabs.bind ((expr_elabs .value array false).of_imp fun h => h.elim) fun _ =>
      (settle_reads role _).elabs).imp ?_
    rintro e' - ⟨_, ⟨_, ha, rfl⟩, hsettles⟩
    exact ⟨_, .same (.cons ha .nil) (forall₂_converts _), hsettles⟩
  | role, .element n array index, _ => by
    refine (Elabs.bind ((expr_elabs .value array _).of_imp fun h => h.1) fun array' =>
      .bind ((expr_elabs .index index _).of_imp fun h => h.2) fun index' =>
      settled_elabs role (element_reads n.line array' index').elabs).imp ?_
    rintro e' - ⟨_, ⟨_, ha, rfl⟩, index', ⟨i, hi, hconverts⟩, _, ⟨n', rfl⟩, hsettles⟩
    refine ⟨_, ?_, hsettles⟩
    exact .same (.cons ha (.cons hi .nil)) (.cons (.refl _) (.cons hconverts .nil))
  | role, .send n target name args _, _ => by
    refine (Elabs.bind ((optional_elabs target).of_imp fun h => h.1) fun target' =>
      .bind ((exprs_elabs .value args _).of_imp fun h => h.2) fun args' =>
      settled_elabs role (send_reads n.line target' name args').elabs).imp ?_
    rintro e' - ⟨target', ht, args', ⟨mids, hargs, hsame⟩, _, ⟨n', t, es, r, rfl, hes, hfront⟩,
      hsettles⟩
    obtain rfl := eq_of_settles_value hsame
    refine ⟨_, ?_, hsettles⟩
    rcases hfront with rfl | ⟨rfl, n'', rfl⟩
    · exact .same (List.rel_append ht hargs) (List.rel_append (forall₂_converts _) hes)
    · cases target with
      | some e => cases ht
      | none => exact madeIn_node rfl hargs hes (.inr ⟨n'', rfl⟩) rfl fun _ => rfl
  | role, .delegate n target args ctor, _ => by
    have hrest := Elabs.bind (exprs_elabs .value args false)
      fun args' => settled_elabs role (delegate_reads n.line target args').elabs
    intro c hlook hmay
    rcases delegationAllowed_bind _ _ hrest hlook with herror |
      ⟨e', c', hrun, hstays, hlog, he', hq⟩
    · exact .inl herror
    refine .inr ⟨e', c', hrun, hstays, hlog, fun h => ?_⟩
    obtain ⟨args', ⟨mids, hargs, hsame⟩, _, ⟨n', es, r, rfl, hes⟩, hsettles⟩ := he' h
    obtain rfl := eq_of_settles_value hsame
    refine ⟨_, ?_, hsettles⟩
    refine madeIn_node rfl hargs hes (.inl rfl) rfl fun hbarred => absurd (hmay hbarred) ?_
    simp [hq (h hbarred).2]
  | role, .newObject n type args _, _ => by
    refine (Elabs.bind (resolveType_similar n.line type).elabs fun type' =>
      .bind ((exprs_elabs .value args _).of_imp fun h => h.2) fun args' =>
      settled_elabs role (newObject_reads n.line type' args').elabs).imp ?_
    rintro e' - ⟨type', -, args', ⟨mids, hargs, hsame⟩, _, ⟨n', es, r, rfl, hes⟩, hsettles⟩
    obtain rfl := eq_of_settles_value hsame
    refine ⟨_, ?_, hsettles⟩
    exact .same hargs hes
  | role, .newArray n type dims, _ => by
    refine (Elabs.bind (resolveType_similar n.line type).elabs fun type' =>
      .bind ((exprs_elabs .index dims _).of_imp fun h => h.2.2.2) fun dims' =>
      (settle_reads role _).elabs).imp ?_
    rintro e' - ⟨type', -, dims', ⟨mids, hdims, hsettle⟩, hsettles⟩
    exact ⟨_, .same hdims (hsettle.imp fun _ _ h => h.converts), hsettles⟩
  | role, .arrayInit n type elements, _ => by
    refine (Elabs.bind (resolveType_similar n.line _).elabs fun type' =>
      .bind (componentType_reads n.line type').elabs fun component =>
      .bind ((exprs_elabs (.initial component) elements _).of_imp fun h => h.2) fun elements' =>
      (settle_reads role _).elabs).imp ?_
    rintro e' - ⟨type', -, component, -, elements', ⟨mids, hdims, hsettle⟩, hsettles⟩
    exact ⟨_, .same hdims (hsettle.imp fun _ _ h => h.converts), hsettles⟩
  | role, .binary n op lhs rhs, _ => by
    refine (Elabs.bind ((expr_elabs .value lhs _).of_imp fun h => h.1) fun lhs' =>
      .bind ((expr_elabs .value rhs _).of_imp fun h => h.2) fun rhs' =>
      settled_elabs role (binary_reads n.line op lhs' rhs').elabs).imp ?_
    rintro e' - ⟨_, ⟨l, hl, rfl⟩, _, ⟨r, hr, rfl⟩, m, ⟨n', r', hm, hconverts⟩, hsettles⟩
    refine ⟨m, ?_, hsettles⟩
    rcases hm with rfl | rfl <;>
      exact .same (.cons hl (.cons hr .nil)) (.cons (.refl _) (.cons hconverts .nil))
  | role, .instanceOf n operand target, _ => by
    refine (Elabs.bind ((expr_elabs .value operand _).of_imp fun h => h.1) fun operand' =>
      .bind (resolveType_similar n.line target).elabs fun target' =>
      settled_elabs role (instanceOf_reads n.line operand' target').elabs).imp ?_
    rintro e' - ⟨_, ⟨o, ho, rfl⟩, target', -, _, ⟨n', rfl⟩, hsettles⟩
    exact ⟨_, .same (.cons ho .nil) (forall₂_converts _), hsettles⟩
  | role, .unary n op operand, _ => by
    rw [expr]
    split
    case h_1 l hl =>
      obtain ⟨m, k, rfl, hk⟩ := literal_of_negated hl
      refine (settled_elabs role (literal_elabs n.line l fun _ =>
        Literal.isReadable_of_negated? hk)).imp ?_
      rintro e' - ⟨_, ⟨n', rfl⟩, hsettles⟩
      exact ⟨_, ⟨.negated hk, fun _ => Expr.barred_leaf⟩, hsettles⟩
    case h_2 =>
      refine (Elabs.bind (expr_elabs .value operand _) fun operand' =>
        settled_elabs role (unary_reads n.line op operand').elabs).imp ?_
      rintro e' - ⟨_, ⟨o, ho, rfl⟩, _, ⟨n', rfl⟩, hsettles⟩
      exact ⟨_, .same (.cons ho .nil) (forall₂_converts _), hsettles⟩
  | role, .step n op operand, _ => by
    refine (Elabs.bind (expr_elabs .value operand _) fun operand' =>
      settled_elabs role (step_reads n.line op operand').elabs).imp ?_
    rintro e' - ⟨_, ⟨o, ho, rfl⟩, _, ⟨n', rfl⟩, hsettles⟩
    exact ⟨_, .same (.cons ho .nil) (forall₂_converts _), hsettles⟩
  | role, .cast n target operand, _ => by
    refine (Elabs.bind (resolveType_similar n.line target).elabs fun target' =>
      .bind ((expr_elabs .value operand _).of_imp fun h => h.2) fun operand' =>
      settled_elabs role (castTo_reads n.line target' operand').elabs).imp ?_
    rintro e' - ⟨target', -, _, ⟨o, ho, rfl⟩, _, rfl, hsettles⟩
    exact ⟨_, .same (.cons ho .nil) (forall₂_converts _), hsettles⟩
  | role, .assign n op lhs rhs, _ => by
    refine (Elabs.bind ((expr_elabs .value lhs _).of_imp fun h => h.1) fun lhs' =>
      .bind ((expr_elabs .value rhs _).of_imp fun h => h.2) fun rhs' =>
      settled_elabs role (assign_reads n.line op lhs' rhs').elabs).imp ?_
    rintro e' - ⟨_, ⟨l, hl, rfl⟩, _, ⟨r, hr, rfl⟩, _, ⟨n', r', rfl, hconverts⟩, hsettles⟩
    exact ⟨_, .same (.cons hl (.cons hr .nil)) (.cons (.refl _) (.cons hconverts .nil)), hsettles⟩
  | role, .conditional n test thenExpr elseExpr, _ => by
    refine (Elabs.bind ((expr_elabs .condition test _).of_imp fun h => h.1) fun test' =>
      .bind ((expr_elabs .value thenExpr _).of_imp fun h => h.2.1) fun then' =>
      .bind ((expr_elabs .value elseExpr _).of_imp fun h => h.2.2) fun else' =>
      settled_elabs role (conditional_reads n.line test' then' else').elabs).imp ?_
    rintro e' - ⟨test', ⟨t, ht, htest⟩, _, ⟨a, ha, rfl⟩, _, ⟨b, hb, rfl⟩, _,
      ⟨n', a', b', rfl, hthen, helse⟩, hsettles⟩
    refine ⟨_, ?_, hsettles⟩
    exact .same (.cons ht (.cons ha (.cons hb .nil))) (.cons htest (.cons hthen (.cons helse .nil)))

theorem optional_elabs : ∀ target : Option Expr,
    Elabs look q (TargetWritten target) (optional target) fun target' =>
      List.Forall₂ (MadeIn look q) target.toList target'.toList
  | some e => by
    refine (Elabs.bind (expr_elabs .selected e _) fun e' => (Reads.ret rfl).elabs).imp ?_
    rintro target' - ⟨_, ⟨m, hm, rfl⟩, rfl⟩
    exact .cons hm .nil
  | none => (Reads.ret .nil).elabs

theorem exprs_elabs :
    ∀ role es placed, Elabs look q (AllWritten placed es) (exprs role es) fun es' =>
      ∃ mids, List.Forall₂ (MadeIn look q) es mids ∧ List.Forall₂ role.Settles mids es'
  | role, e :: es, _ => by
    refine (Elabs.bind ((expr_elabs role e _).of_imp fun h => h.1) fun e' =>
      .bind ((exprs_elabs role es _).of_imp fun h => h.2) fun es' => (Reads.ret rfl).elabs).imp ?_
    rintro _ - ⟨e', ⟨m, hm, he⟩, es', ⟨mids, hmids, hes⟩, rfl⟩
    exact ⟨m :: mids, .cons hm hmids, .cons he hes⟩
  | _, [], _ => (Reads.ret ⟨[], .nil, .nil⟩).elabs

end

theorem expr_stays (hrun : expr role e c = .ok (e', c')) : c.Stays c' :=
  ((expr_elabs role e false).of_run hrun).1

theorem exprs_stays (hrun : exprs role es c = .ok (es', c')) : c.Stays c' :=
  ((exprs_elabs role es false).of_run hrun).1

/-! ## Parts of statements -/

theorem expr_turns (role : Role) (e : Expr) (placed : Bool) :
    Elabs look q (e.Written placed) (expr role e) (Turns look q e) := by
  refine (expr_elabs role e placed).imp ?_
  rintro e' - ⟨m, hm, hsettles⟩
  exact ⟨m, hm, hsettles.converts⟩

theorem returnValue_elabs (line : Nat) (value : Option Expr) :
    Elabs look q (TargetWritten value) (returnValue line value) fun value' =>
      List.Forall₂ (Turns look q) value.toList value'.toList := by
  refine .get_bind fun c => ?_
  cases value with
  | none => exact Reads.elabs (.reportIf rfl (.ret .nil))
  | some e =>
    refine (Elabs.bind (expr_elabs .value e false) fun e' => (?_ : Elabs look q _ _ fun value' =>
      ∃ e'', Converts e' e'' ∧ value' = some e'')).imp ?_
    · refine Reads.elabs (.ite (.bind (.report rfl) fun _ => .ret ⟨_, .refl _, rfl⟩) ?_)
      exact .andThen (coerce_reads _ e') fun e'' he => .ret ⟨e'', he, rfl⟩
    · rintro _ - ⟨e', ⟨m, hm, rfl⟩, e'', hconverts, rfl⟩
      exact .cons ⟨_, hm, hconverts⟩ .nil

/-- What becomes of a label of a switch. -/
def LabelTurns (look : String → Option LocalVar) (q : Prop) : SwitchLabel → SwitchLabel → Prop
  | .case e, .case e' => Turns look q e e'
  | .otherwise l, .otherwise l' => l = l'
  | _, _ => False

theorem Made.readable {placed : Bool} (h : Made look e (.literal n l)) (he : e.Written placed) :
    l.IsReadable := by
  have hsame {base : Expr} {k : Nat} (h : Selected base k (.literal n l)) :
      base = .literal n l := by
    cases h
    rfl
  cases h with
  | name h =>
    cases h with
    | declared _ h => cases hsame h
    | other _ hbase _ h =>
      cases hsame h
      cases hbase
  | literal => exact he
  | negated h => exact Literal.isReadable_of_negated? h
  | raw h => cases h
  | node h => cases h

theorem caseValue_elabs (hS : S → ∀ n l, e = .literal n l → l.IsReadable) :
    Elabs look q S (caseValue e) fun _ => True := by
  unfold caseValue
  split
  · exact lift_elabs fun h => (hS h _ _ rfl).intValue
  · exact lift_elabs fun h => (hS h _ _ rfl).intValue
  · exact (Reads.ret trivial).elabs

theorem switchLabel_elabs (cases : Cases) (l : SwitchLabel) :
    Elabs look q l.Written (switchLabel cases l) fun r => LabelTurns look q l r.1 := by
  cases l with
  | case e =>
    refine (Elabs.bind_of_run (expr_turns .value e false) fun c e' c' hlook hrun =>
      Elabs.bind (caseValue_elabs fun he n l heq => ?_) fun value =>
      (?_ : Elabs look q _ _ fun r : SwitchLabel × Cases => r.1 = .case e')).imp ?_
    · subst hlook heq
      obtain ⟨m, hm, hsettles⟩ := ((expr_elabs .value e false).of_run hrun).2
      cases (show _ = _ from hsettles)
      exact hm.1.readable he
    · cases value with
      | some value => exact Reads.elabs (.ite (.bind (.report rfl) fun _ => .ret rfl) (.ret rfl))
      | none => exact Reads.elabs (.reportUnless rfl (.ret rfl))
    · rintro ⟨_, _⟩ - ⟨e', he, _, -, rfl⟩
      exact he
  | otherwise line =>
    refine Elabs.imp (p := fun r => r.1 = .otherwise line) ?_ ?_
    · unfold switchLabel
      exact Reads.elabs (.reportIf rfl (.ret rfl))
    · rintro ⟨_, _⟩ - rfl
      rfl

theorem switchLabels_elabs :
    ∀ cases ls, Elabs look q (∀ l ∈ ls, l.Written) (switchLabels cases ls) fun r =>
      List.Forall₂ (LabelTurns look q) ls r.1
  | _, [] => (Reads.ret .nil).elabs
  | cases, l :: ls => by
    refine (Elabs.bind ((switchLabel_elabs cases l).of_imp fun h => h l (.head _)) fun r =>
      .bind ((switchLabels_elabs r.2 ls).of_imp fun h l hl => h l (.tail _ hl)) fun r' =>
      (Reads.ret rfl).elabs).imp ?_
    rintro _ - ⟨r, hl, r', hls, rfl⟩
    exact .cons hl hls

theorem selector_elabs (e : Expr) :
    Elabs look q (e.Written false) (selector e) (Turns look q e) := by
  refine (Elabs.bind (expr_turns .value e false) fun e' =>
    (?_ : Elabs look q _ _ fun b => b = e')).imp ?_
  · exact Reads.elabs (.reportUnless rfl (.ret rfl))
  · rintro _ - ⟨e', he, rfl⟩
    exact he

theorem condition?_elabs (test : Option Expr) :
    Elabs look q (TargetWritten test) (condition? test) fun test' =>
      List.Forall₂ (Turns look q) test.toList test'.toList := by
  cases test with
  | none => exact (Reads.ret .nil).elabs
  | some e =>
    refine (Elabs.bind (expr_turns .condition e false) fun e' => (Reads.ret rfl).elabs).imp ?_
    rintro _ - ⟨e', he, rfl⟩
    exact .cons he .nil

end Analysis

end JMinusMinus
