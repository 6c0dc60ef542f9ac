import JMinusMinus.Proofs.Faults.Unit
import JMinusMinus.Proofs.Headers.Cycles
import Mathlib

/-!
# Repaired cycles

After the headers of a unit are recorded, a class that is its own ancestor is given the root class
as its superclass. This happens for one class after the other, while the superclasses of the
others stay as they are.

* A class has one superclass, so a class that can be reached from a cycle is on it, and a class is
  on one cycle at most (`back_of_cycle`).
* One step takes away the cycle that the class is on, and no other (`cycles_setSuperclass`). The
  root class ends the chain, as long as the unit does not declare it.
* So there are as many reports as there were cycles, and none is left at the end
  (`breakCycles_repair`).
-/

namespace JMinusMinus

open List

open Relation (TransGen ReflTransGen)

namespace Hierarchy

variable {h : Hierarchy} {name x y : String}

/-! ## Cycles of superclasses -/

theorem reflTransGen_of_chainMeets : ∀ {bound seen next},
    h.chainMeets name bound seen next = true → ∃ x, next = some x ∧ ReflTransGen h.Superclass x name
  | 0, _, none, hmeets => by cases hmeets
  | 0, _, some _, hmeets => by cases hmeets
  | _ + 1, _, none, hmeets => by cases hmeets
  | bound + 1, seen, some x, hmeets => by
    rw [chainMeets] at hmeets
    refine ⟨x, rfl, ?_⟩
    split at hmeets
    next heq => exact heq ▸ .refl
    next =>
      split at hmeets
      · cases hmeets
      · obtain ⟨y, hy, hback⟩ := reflTransGen_of_chainMeets hmeets
        exact .head hy hback

theorem isCyclic_iff : h.isCyclic name ↔ TransGen h.Superclass name name := by
  refine ⟨fun hcyclic => ?_, isCyclic_of_transGen⟩
  obtain ⟨x, hx, hback⟩ := reflTransGen_of_chainMeets hcyclic
  exact .head' hx hback

theorem back_of_cycle (hcycle : TransGen h.Superclass x x) (hxy : ReflTransGen h.Superclass x y) :
    ReflTransGen h.Superclass y x := by
  induction hxy with
  | refl => exact .refl
  | @tail y z _ hyz ih =>
    have hback : TransGen h.Superclass y x := by
      rcases ih.cases_head with rfl | ⟨w, hyw, hwx⟩
      · exact hcycle
      · exact .head' hyw hwx
    obtain ⟨w, hyw, hwx⟩ := TransGen.head'_iff.1 hback
    obtain rfl : w = z := Option.some.inj (hyw.symm.trans hyz)
    exact hwx

/-- The names up the superclass chain from a name. -/
def above (h : Hierarchy) (name : String) : Set String := {x | TransGen h.Superclass name x}

/-- The cycles of superclasses, each as the set of its names. -/
def cycles (h : Hierarchy) : Set (Set String) :=
  {s | ∃ name, TransGen h.Superclass name name ∧ s = h.above name}

theorem above_eq_of_mem (hcycle : TransGen h.Superclass x x) (hy : y ∈ h.above x) :
    h.above y = h.above x := by
  have hback : ReflTransGen h.Superclass y x := back_of_cycle hcycle hy.to_reflTransGen
  ext z
  exact ⟨fun hz => TransGen.trans hy hz, fun hz => TransGen.trans_right hback hz⟩

theorem finite_cycles (h : Hierarchy) : h.cycles.Finite := by
  refine ((h.declared.map ClassHeader.name).toFinset.finite_toSet.image h.above).subset ?_
  rintro s ⟨name, hcycle, rfl⟩
  obtain ⟨c, hc, hup, -⟩ := exists_declared_of_cycle hcycle
  refine ⟨c.name, by simpa using ⟨c, hc, rfl⟩, above_eq_of_mem hcycle hup⟩

/-! ## A new superclass -/

theorem isDeclared_iff : h.isDeclared name ↔ ∃ c ∈ h.declared, c.name = name := by
  simp [isDeclared, declared?, find?_isSome]

theorem lookup_setSuperclass (hname : h.isDeclared name) (s : Option String) (x : String) :
    (h.setSuperclass name s).lookup x =
      (h.lookup x).map fun c => if x = name then { c with superclass := s } else c := by
  let f (c : ClassHeader) : ClassHeader := if c.name = name then { c with superclass := s } else c
  have hkeeps : ∀ c, (f c).name = c.name := fun c => by
    dsimp only [f]
    split <;> rfl
  have hfind : (h.setSuperclass name s).declared? x = (h.declared? x).map f := by
    rw [declared?, setSuperclass, find?_map, declared?]
    congr 2
    funext c
    change decide ((f c).name = x) = decide (c.name = x)
    rw [hkeeps]
  rw [lookup, lookup, hfind]
  cases hx : h.declared? x with
  | none =>
    have hne : x ≠ name := by
      rintro rfl
      simp [isDeclared, hx] at hname
    simp [hne]
  | some c =>
    have hc : c.name = x := by simpa using find?_some hx
    simp [f, hc]

theorem superclass?_setSuperclass (hname : h.isDeclared name) (s : Option String) (x : String) :
    (h.setSuperclass name s).superclass? x = if x = name then s else h.superclass? x := by
  rw [superclass?, lookup_setSuperclass hname, superclass?]
  split
  next heq =>
    subst heq
    obtain ⟨c, hc⟩ := Option.isSome_iff_exists.1 hname
    simp [lookup, hc]
  next => cases h.lookup x <;> rfl

theorem above_congr {k : Hierarchy}
    (hsame : ∀ y, ReflTransGen h.Superclass x y → k.superclass? y = h.superclass? y) :
    k.above x = h.above x := by
  ext z
  constructor
  · intro hz
    induction hz with
    | single hstep => exact .single ((hsame x .refl).symm.trans hstep)
    | @tail y z _ hstep ih => exact ih.tail ((hsame y ih.to_reflTransGen).symm.trans hstep)
  · intro hz
    induction hz with
    | single hstep => exact .single ((hsame x .refl).trans hstep)
    | @tail y z hy hstep ih => exact ih.tail ((hsame y hy.to_reflTransGen).trans hstep)

section

variable (hname : h.isDeclared name) (hne : name ≠ objectClass)
  (hroot : h.superclass? objectClass = none)

include hname hne hroot

theorem not_cycle_setSuperclass :
    ¬TransGen (h.setSuperclass name (some objectClass)).Superclass name name := by
  intro hcycle
  obtain ⟨y, hy, hback⟩ := TransGen.head'_iff.1 hcycle
  rw [Superclass, superclass?_setSuperclass hname, if_pos rfl] at hy
  cases hy
  rcases hback.cases_head with heq | ⟨z, hz, -⟩
  · exact hne heq.symm
  · rw [Superclass, superclass?_setSuperclass hname, if_neg hne.symm, hroot] at hz
    cases hz

theorem cycles_setSuperclass (hcycle : TransGen h.Superclass name name) :
    (h.setSuperclass name (some objectClass)).cycles = h.cycles \ {h.above name} := by
  have hstep : ∀ y, y ≠ name →
      (h.setSuperclass name (some objectClass)).superclass? y = h.superclass? y := fun y hy => by
    rw [superclass?_setSuperclass hname, if_neg hy]
  ext s
  constructor
  · rintro ⟨x, hx, rfl⟩
    have haway : ∀ y, ReflTransGen (h.setSuperclass name (some objectClass)).Superclass x y →
        y ≠ name := by
      rintro y hy rfl
      refine not_cycle_setSuperclass hname hne hroot ?_
      exact (TransGen.trans_right (back_of_cycle hx hy) hx).trans_left hy
    have habove := above_congr fun y hy => (hstep y (haway y hy)).symm
    refine ⟨⟨x, ?_, habove.symm⟩, fun heq => ?_⟩
    · exact habove.symm.subset hx
    · have hmem : name ∈ (h.setSuperclass name (some objectClass)).above x := by
        rw [Set.mem_singleton_iff.1 heq]
        exact hcycle
      exact haway name hmem.to_reflTransGen rfl
  · rintro ⟨⟨x, hx, rfl⟩, hother⟩
    have haway : ∀ y, ReflTransGen h.Superclass x y → y ≠ name := by
      rintro y hy rfl
      refine hother (above_eq_of_mem hx ?_).symm
      exact TransGen.trans_left hx hy
    have habove := above_congr fun y hy => hstep y (haway y hy)
    exact ⟨x, habove.symm.subset hx, habove.symm⟩

end

theorem isDeclared_setSuperclass : (h.setSuperclass name s).isDeclared x = h.isDeclared x := by
  rw [Bool.eq_iff_iff, isDeclared_iff, isDeclared_iff]
  simp only [setSuperclass, mem_map]
  constructor
  · rintro ⟨_, ⟨c, hc, rfl⟩, hx⟩
    refine ⟨c, hc, ?_⟩
    split at hx <;> exact hx
  · rintro ⟨c, hc, hx⟩
    refine ⟨_, ⟨c, hc, rfl⟩, ?_⟩
    split <;> exact hx

theorem superclass?_root (hroot : ¬h.isDeclared objectClass) :
    h.superclass? objectClass = none := by
  have hnone : h.declared? objectClass = none := by simpa [isDeclared] using hroot
  rw [superclass?, lookup, hnone, Option.none_or]
  decide +kernel

theorem isDeclared_declare : (h.declare c).isDeclared x ↔ h.isDeclared x ∨ x = c.name := by
  rw [isDeclared_iff, isDeclared_iff, declare]
  split
  next hany =>
    obtain ⟨d, hd, hname⟩ := any_eq_true.1 hany
    rw [decide_eq_true_eq] at hname
    simp only [mem_map]
    constructor
    · rintro ⟨_, ⟨e, he, rfl⟩, hx⟩
      split at hx
      · exact .inr hx.symm
      · exact .inl ⟨e, he, hx⟩
    · rintro (⟨e, he, rfl⟩ | rfl)
      · refine ⟨_, ⟨e, he, rfl⟩, ?_⟩
        split
        next heq => exact heq.symm
        next => rfl
      · exact ⟨_, ⟨d, hd, rfl⟩, by rw [if_pos hname]⟩
  next =>
    simp only [mem_append, mem_singleton]
    constructor
    · rintro ⟨e, he | rfl, hx⟩
      · exact .inl ⟨e, he, hx⟩
      · exact .inr hx.symm
    · rintro (⟨e, he, hx⟩ | rfl)
      · exact ⟨e, .inl he, hx⟩
      · exact ⟨c, .inr rfl, rfl⟩

/-! ## Chains that end -/

theorem transGen_of_chain : ∀ {n y}, h.chain x (n + 1) = some y → TransGen h.Superclass x y
  | 0, _, hy => .single hy
  | n + 1, _, hy => by
    obtain ⟨z, hz, hstep⟩ := Option.bind_eq_some_iff.1 hy
    exact (transGen_of_chain hz).tail hstep

theorem exists_chain_eq_none (hcycles : ∀ x, ¬TransGen h.Superclass x x) (name : String) :
    ∃ n, h.chain name n = none := by
  by_contra hnever
  -- Names with a header are finitely many, so a chain without an end would meet one of them twice.
  have hnames : ∀ n, ∃ x, h.chain name n = some x ∧
      x ∈ (h.declared ++ Builtin.classes).map ClassHeader.name := by
    intro n
    obtain ⟨y, hy⟩ := Option.ne_none_iff_exists'.1 (not_exists.1 hnever (n + 1))
    obtain ⟨x, hx, hstep⟩ := Option.bind_eq_some_iff.1 hy
    obtain ⟨c, hc, -⟩ := Option.bind_eq_some_iff.1 hstep
    exact ⟨x, hx, mem_map.2 ⟨c, mem_headers_of_lookup hc, (lookup_cases hc).1⟩⟩
  choose f hchain hmem using hnames
  obtain ⟨i, j, hne, heq⟩ := Finite.exists_ne_map_eq_of_infinite
    fun n => (⟨f n, mem_toFinset.2 (hmem n)⟩ :
      ((h.declared ++ Builtin.classes).map ClassHeader.name).toFinset)
  have hf : f i = f j := congrArg Subtype.val heq
  have hback : ∀ {i j}, i < j → f i = f j → False := by
    intro i j hij hf
    obtain ⟨k, rfl⟩ : ∃ k, j = i + (k + 1) := ⟨j - i - 1, by omega⟩
    have hj := hchain (i + (k + 1))
    rw [chain_add, hchain i, Option.bind_some, ← hf] at hj
    exact hcycles (f i) (transGen_of_chain hj)
  rcases Nat.lt_or_gt_of_ne hne with hij | hij
  · exact hback hij hf
  · exact hback hij hf.symm

end Hierarchy

/-! ## Headers with their members -/

/-- How many reports are about a class that is its own ancestor. -/
def Log.cycles (log : Log Problem) : Nat := log.latest.countP (·.problem.isCycle)

namespace Analysis

/-- A context in which, compared to another one, some names of the package are declared too and no
cycle was reported. -/
structure Entered (names : List String) (c c' : Context) : Prop where
  package : c'.package = c.package
  declared : ∀ x, c'.hierarchy.isDeclared x ↔
    c.hierarchy.isDeclared x ∨ x ∈ names.map c.qualify
  cycles : c'.log.cycles = c.log.cycles

/-- A step that declares some names and reports no cycle. -/
def Enters {α : Type} (names : List String) (x : Analysis α) : Prop :=
  ∀ c, ∃ a c', x c = .ok (a, c') ∧ Entered names c c'

theorem qualify_congr {c c' : Context} (h : c'.package = c.package) : c'.qualify = c.qualify := by
  funext name
  rw [Context.qualify, Context.qualify, h]

namespace Enters

variable {α β : Type} {ns ms : List String} {x : Analysis α}

theorem entered (h : Enters ns x) (hrun : x c = .ok (a, c')) : Entered ns c c' := by
  obtain ⟨a', c'', hrun', hentered⟩ := h c
  rw [hrun] at hrun'
  cases hrun'
  exact hentered

theorem pure {a : α} : Enters [] (pure a) := fun c => ⟨a, c, rfl, rfl, by simp, rfl⟩

theorem append {f : α → Analysis β} (hx : Enters ns x) (hf : ∀ a, Enters ms (f a)) :
    Enters (ns ++ ms) (x >>= f) := by
  intro c
  obtain ⟨a, c', hrun, hfirst⟩ := hx c
  obtain ⟨b, c'', hrun', hsecond⟩ := hf a c'
  refine ⟨b, c'', (bind_run hrun).trans hrun', hsecond.package.trans hfirst.package, fun y => ?_,
    hsecond.cycles.trans hfirst.cycles⟩
  rw [hsecond.declared, hfirst.declared, qualify_congr hfirst.package, map_append,
    mem_append, or_assoc]

theorem bind {f : α → Analysis β} (hx : Enters [] x) (hf : ∀ a, Enters ns (f a)) :
    Enters ns (x >>= f) :=
  hx.append hf

theorem last {f : α → Analysis β} (hx : Enters ns x) (hf : ∀ a, Enters [] (f a)) :
    Enters ns (x >>= f) := by
  simpa using hx.append hf

theorem get_bind {f : Context → Analysis α} (h : ∀ c, Enters ns (f c)) : Enters ns (get >>= f) :=
  fun c => h c c

theorem of_reads {p : α → Prop} (h : Reads Context.SameNames x x p) : Enters [] x := by
  intro c
  obtain ⟨a, new, hnew, hrun, -⟩ := h c c (.refl c)
  refine ⟨a, _, hrun, rfl, by simp [Context.logged], ?_⟩
  have hnone : new.countP (·.problem.isCycle) = 0 := countP_eq_zero.2 (by simpa using hnew)
  simp [Log.cycles, Context.logged, hnone]

theorem ite {b : Prop} [Decidable b] (hx : Enters ns x) (hy : Enters ns y) :
    Enters ns (if b then x else y) := by
  split
  · exact hx
  · exact hy

theorem mapM {f : β → Analysis α} {name : β → List String} (hf : ∀ b, Enters (name b) (f b)) :
    ∀ bs : List β, Enters (bs.flatMap name) (bs.mapM f)
  | [] => .pure
  | b :: bs => by
    rw [mapM_cons, flatMap_cons]
    exact .append (hf b) fun _ => .last (mapM hf bs) fun _ => .pure

theorem forM {f : β → Analysis PUnit} {name : β → List String} (hf : ∀ b, Enters (name b) (f b)) :
    ∀ bs : List β, Enters (bs.flatMap name) (bs.forM f)
  | [] => .pure
  | b :: bs => by
    rw [flatMap_cons]
    exact .append (hf b) fun _ => forM hf bs

theorem forM_nil {f : β → Analysis PUnit} (hf : ∀ b, Enters [] (f b)) (bs : List β) :
    Enters [] (bs.forM f) := by
  have h := forM hf bs
  rwa [flatMap_eq_nil_iff.2 fun _ _ => rfl] at h

end Enters

theorem bindName_enters (simple internal : String) : Enters [] (bindName simple internal) := by
  intro c
  obtain ⟨b, names, hrun, -⟩ := bindName_run simple internal c
  exact ⟨b, _, hrun, rfl, by simp, rfl⟩

theorem bindImport_enters (q : QualifiedName) : Enters [] (bindImport q) := by
  refine .get_bind fun _ => .ite (.of_reads (.report rfl)) (.bind (bindName_enters _ _) fun _ => ?_)
  exact .ite (.of_reads (.report rfl)) .pure

theorem declareHeader_enters {d : TypeDecl} {header : ClassHeader} {c : Context}
    (hname : header.name = c.qualify d.name) :
    ∃ c', declareHeader header c = .ok ((), c') ∧ Entered [d.name] c c' := by
  refine ⟨_, rfl, rfl, fun x => ?_, rfl⟩
  rw [Hierarchy.isDeclared_declare, hname, map_singleton, mem_singleton]

theorem declareType_enters (d : TypeDecl) : Enters [d.name] (declareType d) := by
  intro c
  rw [declareType_eq]
  split
  next hdeclared =>
    have hreport : Enters [] (report d.line (.typeRedeclared d.name)) := .of_reads (.report rfl)
    obtain ⟨_, c', hrun, hentered⟩ := hreport c
    refine ⟨(), c', hrun, hentered.package, fun x => ?_, hentered.cycles⟩
    have hx : x ∈ [d.name].map c.qualify → c.hierarchy.isDeclared x := by
      rw [map_singleton, mem_singleton]
      exact fun heq => heq ▸ hdeclared
    rw [hentered.declared, map_nil, or_iff_left not_mem_nil]
    exact ⟨.inl, fun h => h.elim id hx⟩
  next =>
    obtain ⟨b, names, hrun, -⟩ := bindName_run d.name (c.qualify d.name) c
    rw [bind_run (discard_run hrun)]
    obtain ⟨c', hrun', hentered⟩ :=
      declareHeader_enters (c := { c with names }) (emptyHeader_name (c.qualify d.name) d)
    exact ⟨(), c', hrun', hentered.package, hentered.declared, hentered.cycles⟩

theorem describe_name {d : TypeDecl} {res : TypeDecl × ClassHeader}
    (hrun : describe d c = .ok (res, c')) : res.2.name = c.qualify d.name := by
  cases d with
  | classDecl d =>
    obtain ⟨_, _, hclass, ⟨⟩⟩ := runs_of_bind (x := describeClass d) hrun
    obtain ⟨superclass, c₁, hsuper, hclass⟩ :=
      runs_of_bind (x := resolveSuperclass d.line d.superclass) hclass
    obtain ⟨interfaces, c₂, hinterfaces, hclass⟩ :=
      runs_of_bind (x := resolveInterfaces d.line d.interfaces) hclass
    obtain ⟨_, _, ⟨⟩, hclass⟩ := runs_of_bind (x := get) hclass
    obtain ⟨⟨members, header⟩, _, hmembers, ⟨⟩⟩ := runs_of_bind hclass
    have hpackage :=
      ((Enters.of_reads (resolveInterfaces_reads _ _)).entered hinterfaces).package.trans
        ((Enters.of_reads (resolveSuperclass_reads _ _)).entered hsuper).package
    rw [← qualify_congr hpackage]
    exact ((memberHeaders_resolve _ _ _ _ _ hmembers).2.trans
      (withDefaultCtor_sameParents header)).name
  | interfaceDecl d =>
    obtain ⟨_, _, hinterface, ⟨⟩⟩ := runs_of_bind (x := describeInterface d) hrun
    obtain ⟨parents, c₁, hparents, hinterface⟩ :=
      runs_of_bind (x := resolveInterfaces d.line d.parents) hinterface
    obtain ⟨_, _, ⟨⟩, hinterface⟩ := runs_of_bind (x := get) hinterface
    obtain ⟨⟨members, header⟩, _, hmembers, ⟨⟩⟩ := runs_of_bind hinterface
    rw [← qualify_congr ((Enters.of_reads (resolveInterfaces_reads _ _)).entered hparents).package]
    exact (memberHeaders_resolve _ _ _ _ _ hmembers).2.name

theorem typeHeader_enters (d : TypeDecl) : Enters [d.name] (typeHeader d) := by
  intro c
  obtain ⟨res, c', hrun, hentered⟩ := Enters.of_reads (describe_reads d) c
  have hname : res.2.name = c'.qualify d.name := by
    rw [qualify_congr hentered.package]
    exact describe_name hrun
  obtain ⟨c'', hrun', hdeclared⟩ := declareHeader_enters hname
  refine ⟨res.1, c'', ?_, ?_⟩
  · rw [typeHeader_eq, bind_run hrun, bind_run hrun']
    rfl
  · refine ⟨hdeclared.package.trans hentered.package, fun x => ?_,
      hdeclared.cycles.trans hentered.cycles⟩
    rw [hdeclared.declared, hentered.declared, qualify_congr hentered.package, map_nil,
      or_iff_left not_mem_nil]

/-- Records the headers of a unit with their members, without a look at cycles. -/
def recordMembers (u : CompilationUnit) : Analysis (List TypeDecl) := do
  modify fun c => { c with package := u.package.map QualifiedName.text }
  u.types.forM declareType
  u.imports.forM bindImport
  u.types.mapM typeHeader

theorem unitHeaders_split (u : CompilationUnit) :
    unitHeaders u = (do
      let types ← recordMembers u
      types.forM breakCycle
      return { u with types }) := by
  simp only [unitHeaders, recordMembers, bind_assoc]

theorem recordMembers_run (u : CompilationUnit) (log : Log Problem) :
    ∃ types c, recordMembers u { log } = .ok (types, c) ∧
      types.map TypeDecl.name = u.types.map TypeDecl.name ∧
      Entered (u.types.map TypeDecl.name)
        { log, package := u.package.map QualifiedName.text } c := by
  have henters : Enters (u.types.flatMap (fun d => [d.name]) ++ u.types.flatMap fun d => [d.name])
      (do
        u.types.forM declareType
        u.imports.forM bindImport
        u.types.mapM typeHeader) := by
    refine .append (.forM declareType_enters u.types) fun _ => ?_
    exact .bind (.forM_nil bindImport_enters u.imports) fun _ => .mapM typeHeader_enters u.types
  obtain ⟨types, c, hrun, hentered⟩ := henters { log, package := u.package.map QualifiedName.text }
  refine ⟨types, c, hrun, ?_, hentered.package, fun x => ?_, hentered.cycles⟩
  · have htype (d : TypeDecl) : Returns (typeHeader d) fun d' => d'.name = d.name := by
      rw [typeHeader_eq]
      exact .bind (describe_resolves d) fun _ h => .skip fun _ => .pure h.name
    obtain ⟨_, _, -, hrun⟩ := runs_of_bind hrun
    obtain ⟨_, _, -, hrun⟩ := runs_of_bind hrun
    exact Returns.mapM_map htype u.types _ _ _ hrun
  · rw [hentered.declared, map_append, mem_append, or_self, ← map_eq_flatMap]

/-! ## Repairs -/

/-- A context in which, compared to another one, some cycles were reported and are gone. -/
structure Repaired (c c' : Context) : Prop where
  package : c'.package = c.package
  declared : ∀ x, c'.hierarchy.isDeclared x = c.hierarchy.isDeclared x
  cycles : c'.hierarchy.cycles ⊆ c.hierarchy.cycles
  reported : c'.log.cycles + c'.hierarchy.cycles.ncard = c.log.cycles + c.hierarchy.cycles.ncard

theorem Repaired.refl (c : Context) : Repaired c c := ⟨rfl, fun _ => rfl, .rfl, rfl⟩

theorem Repaired.trans (h : Repaired a b) (h' : Repaired b c) : Repaired a c :=
  ⟨h'.package.trans h.package, fun x => (h'.declared x).trans (h.declared x),
    h'.cycles.trans h.cycles, h'.reported.trans h.reported⟩

theorem breakCycle_repairs {d : TypeDecl} {c : Context}
    (hdeclared : c.hierarchy.isDeclared (c.qualify d.name))
    (hroot : ¬c.hierarchy.isDeclared objectClass) :
    ∃ c', breakCycle d c = .ok ((), c') ∧ Repaired c c' ∧
      ∀ s ∈ c'.hierarchy.cycles, c.qualify d.name ∉ s := by
  have hne : c.qualify d.name ≠ objectClass := fun heq => hroot (heq ▸ hdeclared)
  rw [breakCycle_eq]
  split
  next hcyclic =>
    have hcycle := Hierarchy.isCyclic_iff.1 hcyclic
    have hcycles := Hierarchy.cycles_setSuperclass hdeclared hne (Hierarchy.superclass?_root hroot)
      hcycle
    refine ⟨_, rfl, ⟨rfl, fun x => Hierarchy.isDeclared_setSuperclass, ?_, ?_⟩, ?_⟩
    · exact hcycles.subset.trans Set.sdiff_subset
    · have hmem : c.hierarchy.above (c.qualify d.name) ∈ c.hierarchy.cycles := ⟨_, hcycle, rfl⟩
      have hcard := Set.ncard_sdiff_singleton_add_one hmem c.hierarchy.finite_cycles
      rw [← hcycles] at hcard
      have hlog : (c.log.add d.line (.semantic (.cyclicInheritance d.name))).cycles =
          c.log.cycles + 1 := by
        simp [Log.cycles, Log.add, Problem.isCycle]
      change (c.log.add d.line (.semantic (.cyclicInheritance d.name))).cycles +
        (c.hierarchy.setSuperclass (c.qualify d.name) (some objectClass)).cycles.ncard = _
      omega
    · rintro s hs hname
      obtain ⟨⟨x, hx, rfl⟩, hother⟩ := hcycles.subset hs
      exact hother (Hierarchy.above_eq_of_mem hx hname).symm
  next hacyclic =>
    refine ⟨c, rfl, .refl c, ?_⟩
    rintro s ⟨x, hx, rfl⟩ hname
    refine hacyclic (Hierarchy.isCyclic_iff.2 ?_)
    have hback := (Hierarchy.above_eq_of_mem hx hname).symm.subset hname
    exact hback

theorem breakCycles_repair : ∀ {ds : List TypeDecl} {c : Context},
    (∀ d ∈ ds, c.hierarchy.isDeclared (c.qualify d.name)) → ¬c.hierarchy.isDeclared objectClass →
      ∃ c', ds.forM breakCycle c = .ok ((), c') ∧ Repaired c c' ∧
        ∀ d ∈ ds, ∀ s ∈ c'.hierarchy.cycles, c.qualify d.name ∉ s
  | [], c, _, _ => ⟨c, rfl, .refl c, nofun⟩
  | d :: ds, c, hdeclared, hroot => by
    obtain ⟨c', hrun, hrepaired, hgone⟩ := breakCycle_repairs (hdeclared d (by simp)) hroot
    have hqualify := qualify_congr hrepaired.package
    have hlater : ∀ e ∈ ds, c'.hierarchy.isDeclared (c'.qualify e.name) := fun e he => by
      rw [hrepaired.declared, hqualify]
      exact hdeclared e (by simp [he])
    obtain ⟨c'', hrun', hrepaired', hgone'⟩ :=
      breakCycles_repair hlater (by rwa [hrepaired.declared])
    refine ⟨c'', (bind_run hrun).trans hrun', hrepaired.trans hrepaired', ?_⟩
    intro e he s hs
    rcases mem_cons.1 he with rfl | he
    · exact hgone s (hrepaired'.cycles hs)
    · exact hqualify ▸ hgone' e he s hs

end Analysis

/-- The internal name that a type of the unit has. -/
def CompilationUnit.qualify (u : CompilationUnit) (name : String) : String :=
  ({ package := u.package.map QualifiedName.text } : Context).qualify name

/-- A chain leads back exactly for the names on a cycle of superclasses. Of a unit that does not
declare the root class, one report is made for each cycle that there is when its members are
recorded, and in the end no chain leads back and each one ends. -/
theorem unitHeaders_repairs (u : CompilationUnit) (log : Log Problem)
    (hroot : ∀ d ∈ u.types, u.qualify d.name ≠ objectClass) :
    (∀ (h : Hierarchy) (name : String), h.isCyclic name ↔ TransGen h.Superclass name name) ∧
    ∃ types c c', Analysis.recordMembers u { log } = .ok (types, c) ∧
      Analysis.unitHeaders u { log } = .ok ({ u with types }, c') ∧
      (∀ name, c'.hierarchy.isCyclic name = false) ∧
      (∀ name, ∃ n, c'.hierarchy.chain name n = none) ∧
      c.hierarchy.cycles.Finite ∧ c'.log.cycles = log.cycles + c.hierarchy.cycles.ncard := by
  refine ⟨fun h name => Hierarchy.isCyclic_iff, ?_⟩
  obtain ⟨types, c, hrun, hnames, hentered⟩ := Analysis.recordMembers_run u log
  have hdeclared : ∀ x, c.hierarchy.isDeclared x ↔ ∃ d ∈ types, c.qualify d.name = x := by
    intro x
    rw [hentered.declared, ← hnames, Analysis.qualify_congr hentered.package]
    simp [Hierarchy.isDeclared, Hierarchy.declared?]
  have hfree : ¬c.hierarchy.isDeclared objectClass := by
    rw [hdeclared]
    rintro ⟨d, hd, hobject⟩
    have hmem := hnames ▸ mem_map_of_mem (f := TypeDecl.name) hd
    obtain ⟨e, he, hname⟩ := mem_map.1 hmem
    rw [← hname, Analysis.qualify_congr hentered.package] at hobject
    exact hroot e he hobject
  obtain ⟨c', hrun', hrepaired, hgone⟩ := Analysis.breakCycles_repair
    (fun d hd => (hdeclared _).2 ⟨d, hd, rfl⟩) hfree
  -- A cycle that is left would have a type of the unit on it.
  have hcycles : c'.hierarchy.cycles = ∅ := by
    refine Set.eq_empty_of_forall_notMem ?_
    rintro s ⟨x, hx, rfl⟩
    obtain ⟨header, hmem, hup, -⟩ := Hierarchy.exists_declared_of_cycle hx
    have hheader : c.hierarchy.isDeclared header.name := by
      rw [← hrepaired.declared]
      exact Hierarchy.isDeclared_iff.2 ⟨header, hmem, rfl⟩
    obtain ⟨d, hd, hname⟩ := (hdeclared _).1 hheader
    exact hgone d hd _ ⟨x, hx, rfl⟩ (hname ▸ hup)
  have hacyclic : ∀ x, ¬TransGen c'.hierarchy.Superclass x x := fun x hx =>
    (Set.eq_empty_iff_forall_notMem.1 hcycles) _ ⟨x, hx, rfl⟩
  refine ⟨types, c, c', hrun, ?_, fun name => ?_, Hierarchy.exists_chain_eq_none hacyclic,
    c.hierarchy.finite_cycles, ?_⟩
  · rw [Analysis.unitHeaders_split, Analysis.bind_run hrun, Analysis.bind_run hrun']
    rfl
  · rw [Bool.eq_false_iff]
    exact fun hcyclic => hacyclic name (Hierarchy.isCyclic_iff.1 hcyclic)
  · have hreported := hrepaired.reported
    rwa [hcycles, Set.ncard_empty, Nat.add_zero, hentered.cycles] at hreported

/-- Two classes that extend each other, and a class below them. -/
def mutualClasses : CompilationUnit :=
  (Grammar.parseSource "T.java" 64
    "class A extends B \x7b\x7d class B extends A \x7b\x7d class C extends A \x7b\x7d").1

theorem unitHeaders_repairs_mutual :
    (∀ d ∈ mutualClasses.types, mutualClasses.qualify d.name ≠ objectClass) ∧
    ∃ types c c', Analysis.recordMembers mutualClasses {} = .ok (types, c) ∧
      Analysis.unitHeaders mutualClasses {} = .ok ({ mutualClasses with types }, c') ∧
      (∀ name, c'.hierarchy.isCyclic name = false) ∧ c.hierarchy.cycles.ncard = 1 := by
  have hroot : ∀ d ∈ mutualClasses.types, mutualClasses.qualify d.name ≠ objectClass := by
    decide +kernel
  obtain ⟨-, types, c, c', hrun, hrun', hacyclic, -, -, hreports⟩ :=
    unitHeaders_repairs mutualClasses {} hroot
  refine ⟨hroot, types, c, c', hrun, hrun', hacyclic, ?_⟩
  have hcount : (Analysis.unitHeaders mutualClasses {}).toOption.all
      fun res => decide (res.2.log.cycles = 1) := by decide +kernel
  rw [hrun'] at hcount
  have hone : c'.log.cycles = 1 := by simpa [Except.toOption] using hcount
  rw [hone] at hreports
  simpa [Log.cycles] using hreports.symm

end JMinusMinus
