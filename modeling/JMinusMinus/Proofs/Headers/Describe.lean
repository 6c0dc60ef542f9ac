import JMinusMinus.Proofs.Agree.Expr
import JMinusMinus.Proofs.Settled.Expr

/-!
# Headers before they are recorded

Resolving the header of a type only reads the context, so it can be told apart from recording it
(`typeHeader_eq`). What `describe` finds depends on what written names mean and on nothing else
(`describe_reads`). So it does not matter which other headers are already recorded.

* Types are resolved and bodies are left alone, whether or not something is reported
  (`TypeDecl.Resolves`).
* Where nothing is reported, the superclass of a class is no interface and what a type implements or
  extends is one (`Described`).
* The header of a type takes a member in only if nothing in it clashes with the member, by name or
  by name and parameter types (`Grows`). Otherwise it is reported.
-/

namespace JMinusMinus

/-- A type in which the string class is not named as a class. -/
def Ty.isCanonical : Ty → Bool
  | .named name => name ≠ stringClass
  | .array component => component.isCanonical
  | _ => true

/-! ## Resolved declarations -/

/-- A type that a written type may be resolved to. -/
def Ty.Resolves (t t' : Ty) : Prop := t'.isCanonical ∧ t'.slots = t.slots

/-- A member after its types have been resolved. Bodies and first values stay as they are. -/
inductive Member.Resolves : Member → Member → Prop
  | field {f : FieldDecl} {vars : List Declarator}
      (h : vars.map Declarator.init = f.vars.map Declarator.init) :
      Resolves (.field f) (.field { f with vars })
  | method {m : MethodDecl} {result : Ty} {params : List Param} {throws : List Ty}
      (h : List.Forall₂ Ty.Resolves (m.params.map Param.ty) (params.map Param.ty)) :
      Resolves (.method m) (.method { m with result, params, throws })
  | ctor {c : ConstructorDecl} {params : List Param} {throws : List Ty}
      (h : List.Forall₂ Ty.Resolves (c.params.map Param.ty) (params.map Param.ty)) :
      Resolves (.ctor c) (.ctor { c with params, throws })

/-- A type after the types in its header have been resolved. -/
inductive TypeDecl.Resolves : TypeDecl → TypeDecl → Prop
  | classDecl {d : ClassDecl} {superclass : Option Ty} {interfaces : List Ty}
      {members : List Member} (h : List.Forall₂ Member.Resolves d.members members) :
      Resolves (.classDecl d) (.classDecl { d with superclass, interfaces, members })
  | interfaceDecl {d : InterfaceDecl} {parents : List Ty} {members : List Member}
      (h : List.Forall₂ Member.Resolves d.members members) :
      Resolves (.interfaceDecl d) (.interfaceDecl { d with parents, members })

theorem TypeDecl.Resolves.name {d d' : TypeDecl} (h : d.Resolves d') : d'.name = d.name := by
  cases h <;> rfl

theorem TypeDecl.Resolves.members {d d' : TypeDecl} (h : d.Resolves d') :
    List.Forall₂ Member.Resolves d.members d'.members := by
  cases h <;> assumption

/-- A member whose types are known. -/
def Member.Resolved : Member → Prop
  | .ctor c => ∀ p ∈ c.params, p.ty.isProper
  | .method m => m.result.isProperResult ∧ ∀ p ∈ m.params, p.ty.isProper
  | .field f => ∀ d ∈ f.vars, d.ty.isProper

theorem Member.WrittenHeader.written : ∀ {m : Member}, m.WrittenHeader → m.Written
  | .method m, ⟨hresult, hparams, hbody, hname⟩ =>
    ⟨hresult, hparams, by rw [hbody]; trivial, hname⟩

theorem TypeDecl.Written.members : ∀ {d : TypeDecl}, d.Written → ∀ m ∈ d.members, m.Written
  | .classDecl _, h => h.2
  | .interfaceDecl _, h => fun m hm => (h.2 m hm).written

/-! ## Keys of members -/

/-- What tells members of a type apart. -/
inductive MemberKey where
  | field (name : String)
  | method (name : String) (params : List Ty) (result : Ty)
  | ctor (params : List Ty)

namespace MemberKey

/-- Members that cannot stand in one type. -/
def Clashes : MemberKey → MemberKey → Prop
  | .field x, .field y => x = y
  | .method x ps _, .method y qs _ => x = y ∧ ps = qs
  | .ctor ps, .ctor qs => ps = qs
  | _, _ => False

/-- The parameter types of a method or constructor. -/
def params : MemberKey → List Ty
  | .field _ => []
  | .method _ ps _ | .ctor ps => ps

/-- A method has a word for its name. -/
def IsNamed : MemberKey → Prop
  | .method x _ _ => IsWord x
  | _ => True

/-- The name of a field. -/
def fieldName? : MemberKey → Option String
  | .field x => some x
  | _ => none

/-- The name and the descriptor under which a method or constructor is filed. -/
def file? : MemberKey → Option (String × String)
  | .field _ => none
  | .method x ps r => some (x, Ty.methodDescriptor ps r)
  | .ctor ps => some (ctorName, Ty.methodDescriptor ps .void)

end MemberKey

/-- The keys of a member. A declaration of fields has one for each variable. -/
def Member.keys : Member → List MemberKey
  | .field f => f.vars.map fun d => .field d.name
  | .method m => [.method m.name (m.params.map Param.ty) m.result]
  | .ctor c => [.ctor (c.params.map Param.ty)]

/-- A header has a member that clashes with the key. -/
def ClassHeader.Has (header : ClassHeader) : MemberKey → Prop
  | .field x => header.fields.any (·.name = x)
  | .method x ps _ => header.methods.any fun m => m.name = x && m.params = ps
  | .ctor ps => header.ctors.contains ps

theorem ClassHeader.Has.congr {header : ClassHeader} :
    ∀ {a b}, header.Has a → a.Clashes b → header.Has b
  | .field _, .field _, h, rfl => h
  | .method .., .method .., h, ⟨rfl, rfl⟩ => h
  | .ctor _, .ctor _, h, rfl => h

/-- A header that takes in members none of which clashes with another one or with what was in it. -/
structure Grows (header : ClassHeader) (keys : List MemberKey) (header' : ClassHeader) : Prop where
  fresh : ∀ k ∈ keys, ¬ header.Has k
  apart : keys.Pairwise fun a b => ¬ a.Clashes b
  has : ∀ k, header.Has k ∨ k ∈ keys → header'.Has k
  proper : header.isProper → header'.isProper

namespace Grows

variable {a b c : ClassHeader} {k : MemberKey} {keys keys' : List MemberKey}

theorem nil (a : ClassHeader) : Grows a [] a := ⟨nofun, .nil, fun _ h => h.resolve_right nofun, id⟩

theorem single (hfresh : ¬ a.Has k) (hhas : b.Has k) (hmono : ∀ j, a.Has j → b.Has j)
    (hproper : a.isProper → b.isProper) : Grows a [k] b := by
  refine ⟨by simpa using hfresh, by simp, ?_, hproper⟩
  rintro j (hj | hj)
  · exact hmono j hj
  · rwa [List.mem_singleton.1 hj]

theorem append (h : Grows a keys b) (h' : Grows b keys' c) : Grows a (keys ++ keys') c := by
  refine ⟨?_, List.pairwise_append.2 ⟨h.apart, h'.apart, ?_⟩, ?_, h'.proper ∘ h.proper⟩
  · intro k hk hold
    rcases List.mem_append.1 hk with hk | hk
    · exact h.fresh k hk hold
    · exact h'.fresh k hk (h.has k (.inl hold))
  · intro x hx y hy hclash
    exact h'.fresh y hy ((h.has x (.inr hx)).congr hclash)
  · intro k hk
    rw [List.mem_append, ← or_assoc] at hk
    exact h'.has k (hk.imp_left (h.has k))

end Grows

namespace Analysis

open Context (SameNames)

/-! ## Describing -/

/-- Resolves the header of a class, without recording it. -/
def describeClass (d : ClassDecl) : Analysis (ClassDecl × ClassHeader) := do
  let superclass ← resolveSuperclass d.line d.superclass
  let interfaces ← resolveInterfaces d.line d.interfaces
  let header : ClassHeader :=
    { emptyHeader ((← get).qualify d.name) (.classDecl d) with
      superclass := some ((superclass.bind className?).getD objectClass)
      interfaces := interfaces.filterMap className? }
  let (members, header) ← memberHeaders header d.members
  return ({ d with superclass, interfaces, members }, withDefaultCtor header)

/-- Resolves the header of an interface, without recording it. -/
def describeInterface (d : InterfaceDecl) : Analysis (InterfaceDecl × ClassHeader) := do
  let parents ← resolveInterfaces d.line d.parents
  let header : ClassHeader :=
    { emptyHeader ((← get).qualify d.name) (.interfaceDecl d) with
      interfaces := parents.filterMap className? }
  let (members, header) ← memberHeaders header d.members
  return ({ d with parents, members }, header)

/-- Resolves the header of a type, without recording it. -/
def describe : TypeDecl → Analysis (TypeDecl × ClassHeader)
  | .classDecl d => do
    let (d, header) ← describeClass d
    return (.classDecl d, header)
  | .interfaceDecl d => do
    let (d, header) ← describeInterface d
    return (.interfaceDecl d, header)

theorem typeHeader_eq (d : TypeDecl) :
    typeHeader d = describe d >>= fun res => declareHeader res.2 >>= fun _ => pure res.1 := by
  cases d with
  | classDecl d =>
    simp only [typeHeader, classHeader, describe, describeClass, bind_assoc, pure_bind]
  | interfaceDecl d =>
    simp only [typeHeader, interfaceHeader, describe, describeInterface, bind_assoc, pure_bind]

/-! ## Reading -/

theorem resolveParams_reads (params : List Param) : ReadsSame SameNames (resolveParams params) :=
  .mapM fun p _ => .bind (resolveType_reads p.line p.ty) fun _ => .pure

theorem resolveTypes_reads (line : Nat) (types : List Ty) :
    ReadsSame SameNames (types.mapM (resolveType line)) :=
  .mapM fun t _ => (resolveType_reads line t).any

theorem fieldHeader_reads (mods : List Modifier) (header : ClassHeader) (d : Declarator) :
    ReadsSame SameNames (fieldHeader mods header d) :=
  .bind (resolveType_reads d.line d.ty) fun _ => .ite (.bind (.report rfl) fun _ => .pure) .pure

theorem fieldHeaders_reads (mods : List Modifier) :
    ∀ header ds, ReadsSame SameNames (fieldHeaders mods header ds)
  | _, [] => .pure
  | header, d :: ds => .bind (fieldHeader_reads mods header d) fun res =>
    .bind (fieldHeaders_reads mods res.2 ds) fun _ => .pure

theorem methodHeader_reads (header : ClassHeader) (m : MethodDecl) :
    ReadsSame SameNames (methodHeader header m) :=
  .bind (resolveType_reads m.line m.result) fun _ => .bind (resolveParams_reads m.params) fun _ =>
    .bind (resolveTypes_reads m.line m.throws) fun _ =>
    .ite (.bind (.report rfl) fun _ => .pure) .pure

theorem ctorHeader_reads (header : ClassHeader) (c : ConstructorDecl) :
    ReadsSame SameNames (ctorHeader header c) :=
  .bind (resolveParams_reads c.params) fun _ => .bind (resolveTypes_reads c.line c.throws) fun _ =>
    .ite (.bind (.report rfl) fun _ => .pure) .pure

theorem memberHeader_reads (header : ClassHeader) :
    ∀ m : Member, ReadsSame SameNames (memberHeader header m)
  | .field f => .bind (fieldHeaders_reads f.modifiers header f.vars) fun _ => .pure
  | .method m => .bind (methodHeader_reads header m) fun _ => .pure
  | .ctor c => .bind (ctorHeader_reads header c) fun _ => .pure

theorem memberHeaders_reads : ∀ (header : ClassHeader) (ms : List Member),
    ReadsSame SameNames (memberHeaders header ms)
  | _, [] => .pure
  | header, m :: ms => .bind (memberHeader_reads header m) fun res =>
    .bind (memberHeaders_reads res.2 ms) fun _ => .pure

theorem resolveSuperclass_reads (line : Nat) (t : Option Ty) :
    ReadsSame SameNames (resolveSuperclass line t) := by
  cases t with
  | none => exact .pure
  | some written =>
    refine .bind (resolveType_reads line written) fun t => ?_
    split
    · refine .get_bind fun c d h => ?_
      rw [h.isInterface]
      exact .reportIf rfl .pure
    · exact .pure
    · exact .bind (.report rfl) fun _ => .pure

theorem resolveInterface_reads (line : Nat) (t : Ty) : ReadsSame SameNames
      (do
        let ty ← resolveType line t
        unless ty.isAny || (← get).hierarchy.isInterfaceType ty do report line (.notInterface ty)
        return ty) := by
  refine .bind (resolveType_reads line t) fun t' => .get_bind fun c d h => ?_
  rw [h.isInterfaceType]
  exact .reportUnless rfl .pure

theorem resolveInterfaces_reads (line : Nat) (types : List Ty) :
    ReadsSame SameNames (resolveInterfaces line types) :=
  .mapM fun t _ => resolveInterface_reads line t

theorem describe_reads (d : TypeDecl) : ReadsSame SameNames (describe d) := by
  cases d with
  | classDecl d =>
    refine .bind (p := fun _ => True) ?_ fun _ => .pure
    refine .bind (resolveSuperclass_reads d.line d.superclass) fun superclass => ?_
    refine .bind (resolveInterfaces_reads d.line d.interfaces) fun interfaces =>
      .get_bind fun c c' h => ?_
    rw [h.qualify]
    exact .bind (memberHeaders_reads _ d.members) fun _ => .pure
  | interfaceDecl d =>
    refine .bind (p := fun _ => True) ?_ fun _ => .pure
    refine .bind (resolveInterfaces_reads d.line d.parents) fun parents =>
      .get_bind fun c c' h => ?_
    rw [h.qualify]
    exact .bind (memberHeaders_reads _ d.members) fun _ => .pure

/-! ## What is kept -/

/-- A header with other members. -/
structure SameParents (header header' : ClassHeader) : Prop where
  name : header'.name = header.name
  superclass : header'.superclass = header.superclass
  interfaces : header'.interfaces = header.interfaces
  isInterface : header'.isInterface = header.isInterface

theorem SameParents.refl (header : ClassHeader) : SameParents header header := ⟨rfl, rfl, rfl, rfl⟩

theorem SameParents.trans {a b c : ClassHeader} (h : SameParents a b) (h' : SameParents b c) :
    SameParents a c :=
  ⟨h'.name.trans h.name, h'.superclass.trans h.superclass, h'.interfaces.trans h.interfaces,
    h'.isInterface.trans h.isInterface⟩

theorem resolveType_resolves (line : Nat) : ∀ t : Ty, Returns (resolveType line t) t.Resolves
  | .named name => by
    refine .skip fun c => ?_
    split
    · refine .pure ?_
      unfold Ty.ofClass
      split
      · exact ⟨rfl, rfl⟩
      · exact ⟨by simpa [Ty.isCanonical] using ‹¬_›, rfl⟩
    · exact .skip fun _ => .pure ⟨rfl, rfl⟩
  | .array component => .bind (resolveType_resolves line component) fun t ht => by
    split
    · exact .pure ⟨rfl, rfl⟩
    · exact .pure ⟨ht.1, rfl⟩
  | .int | .long | .double | .boolean | .char | .string | .void | .null | .any => .pure ⟨rfl, rfl⟩

theorem resolveParams_resolves (params : List Param) : Returns (resolveParams params) fun params' =>
    List.Forall₂ Ty.Resolves (params.map Param.ty) (params'.map Param.ty) := by
  refine (Returns.mapM_forall₂ (r := fun p p' => p.ty.Resolves p'.ty) fun p _ => ?_).imp
    fun _ h => ?_
  · exact .bind (resolveType_resolves p.line p.ty) fun _ ht => .pure ht
  · simpa [List.forall₂_map_left_iff, List.forall₂_map_right_iff] using h

theorem fieldHeaders_resolves (mods : List Modifier) :
    ∀ header ds, Returns (fieldHeaders mods header ds)
      fun res => res.1.map Declarator.init = ds.map Declarator.init ∧ SameParents header res.2
  | header, [] => .pure ⟨rfl, .refl header⟩
  | header, d :: ds => by
    refine .bind (q := fun res => res.1.init = d.init ∧ SameParents header res.2)
      (.skip fun _ => ?_) fun res hres => .bind (fieldHeaders_resolves mods res.2 ds) fun _ h =>
      .pure ⟨by simp [hres.1, h.1], hres.2.trans h.2⟩
    exact .ite (.skip fun _ => .pure ⟨rfl, .refl header⟩) (.pure ⟨rfl, rfl, rfl, rfl, rfl⟩)

theorem memberHeader_resolves (header : ClassHeader) : ∀ m : Member,
    Returns (memberHeader header m) fun res => m.Resolves res.1 ∧ SameParents header res.2
  | .field f => .bind (fieldHeaders_resolves f.modifiers header f.vars) fun _ h =>
    .pure ⟨.field h.1, h.2⟩
  | .method m => by
    refine .bind (q := fun res => Member.Resolves (.method m) (.method res.1) ∧
      SameParents header res.2) ?_ fun _ h => .pure h
    refine .skip fun _ => .bind (resolveParams_resolves m.params) fun _ h => .skip fun _ => ?_
    exact .ite (.skip fun _ => .pure ⟨.method h, .refl header⟩)
      (.pure ⟨.method h, rfl, rfl, rfl, rfl⟩)
  | .ctor c => by
    refine .bind (q := fun res => Member.Resolves (.ctor c) (.ctor res.1) ∧
      SameParents header res.2) ?_ fun _ h => .pure h
    refine .bind (resolveParams_resolves c.params) fun _ h => .skip fun _ => ?_
    exact .ite (.skip fun _ => .pure ⟨.ctor h, .refl header⟩) (.pure ⟨.ctor h, rfl, rfl, rfl, rfl⟩)

theorem memberHeaders_resolve : ∀ (header : ClassHeader) (ms : List Member),
    Returns (memberHeaders header ms) fun res =>
      List.Forall₂ Member.Resolves ms res.1 ∧ SameParents header res.2
  | header, [] => .pure ⟨.nil, .refl header⟩
  | header, m :: ms => .bind (memberHeader_resolves header m) fun res hres =>
    .bind (memberHeaders_resolve res.2 ms) fun _ h => .pure ⟨.cons hres.1 h.1, hres.2.trans h.2⟩

/-- Resolving a header changes only the types in it. -/
theorem describe_resolves : ∀ d : TypeDecl, Returns (describe d) fun res => d.Resolves res.1
  | .classDecl d => .bind (q := fun res => TypeDecl.Resolves (.classDecl d) (.classDecl res.1))
      (.skip fun _ => .skip fun _ => .skip fun _ =>
        .bind (memberHeaders_resolve _ d.members) fun _ h => .pure (.classDecl h.1))
      fun _ h => .pure h
  | .interfaceDecl d =>
    .bind (q := fun res => TypeDecl.Resolves (.interfaceDecl d) (.interfaceDecl res.1))
      (.skip fun _ => .skip fun _ =>
        .bind (memberHeaders_resolve _ d.members) fun _ h => .pure (.interfaceDecl h.1))
      fun _ h => .pure h

theorem unitHeaders_resolve (u : CompilationUnit) : Returns (unitHeaders u) fun u' =>
    ∃ types, u' = { u with types } ∧ List.Forall₂ TypeDecl.Resolves u.types types := by
  have htype (d : TypeDecl) : Returns (typeHeader d) d.Resolves := by
    rw [typeHeader_eq]
    exact .bind (describe_resolves d) fun _ h => .skip fun _ => .pure h
  refine .skip fun _ => .skip fun _ => .skip fun _ => ?_
  exact .bind (.mapM_forall₂ fun d _ => htype d) fun _ h => .skip fun _ => .pure ⟨_, rfl, h⟩

/-! ## What is described -/

/-- What a header without a report says about its type. -/
structure Described (c : Context) (d : TypeDecl) (header : ClassHeader) : Prop where
  name : header.name = c.qualify d.name
  kind : header.isInterface = (emptyHeader header.name d).isInterface
  superclass : ∀ s ∈ header.superclass, header.isInterface = false ∧
    (s = objectClass ∨ c.hierarchy.isInterface s = false ∧ s ≠ stringClass)
  rooted : header.isInterface ∨ header.superclass.isSome
  interfaces : ∀ i ∈ header.interfaces, c.hierarchy.isInterface i ∧ i ≠ stringClass

theorem withDefaultCtor_sameParents (header : ClassHeader) :
    SameParents header (withDefaultCtor header) := by
  unfold withDefaultCtor
  split
  · exact ⟨rfl, rfl, rfl, rfl⟩
  · exact .refl header

theorem className?_eq_some (h : className? t = some name) : t = .named name := by
  cases t <;> simp_all [className?]

theorem Reads.settles {α : Type} {Q : Context → Context → Prop} (hQ : ∀ c, Q c c) {x : Analysis α}
    {p : α → Prop} (hx : Reads Q x x p) {q : α → Prop} (hq : Returns x q) {K : Known}
      {F : Vars → Prop} :
    Settles K F x K fun _ => q := by
  intro c a c' hrun hlog
  obtain rfl := hx.silent (hQ c) hrun hlog
  exact ⟨hlog, fun v hK _ => ⟨v, fun _ => id, hK, fun _ _ => hq _ a _ hrun⟩⟩

theorem Reads.finds {α : Type} {Q : Context → Context → Prop} (hQ : ∀ c, Q c c) {x : Analysis α}
    {p : α → Prop} (hx : Reads Q x x p) {c₀ : Context} {F : Vars → Prop} :
    Settles (fun _ c => c = c₀) F x (fun _ c => c = c₀) fun _ a => x c₀ = .ok (a, c₀) := by
  intro c a c' hrun hlog
  obtain rfl := hx.silent (hQ c) hrun hlog
  refine ⟨hlog, fun v hK _ => ⟨v, fun _ => id, hK, fun _ _ => ?_⟩⟩
  rwa [← hK]

section

variable {c₀ : Context} {F : Vars → Prop}

theorem resolveType_settlesAt (line : Nat) (t : Ty) {K : Known} :
    Settles K F (resolveType line t) K fun _ t' => t'.isCanonical :=
  (resolveType_reads line t).settles .refl ((resolveType_resolves line t).imp fun _ h => h.1)

theorem resolveSuperclass_settlesAt (line : Nat) (t : Option Ty) :
    Settles (fun _ c => c = c₀) F (resolveSuperclass line t) (fun _ c => c = c₀)
      fun _ t' => ∀ s ∈ t'.bind className?,
        c₀.hierarchy.isInterface s = false ∧ s ≠ stringClass := by
  cases t with
  | none => exact .pure fun _ _ => nofun
  | some written =>
    refine .bind (resolveType_settlesAt line written) fun t' => ?_
    split
    · refine get_bind fun c => reportIf_bind (.pure ?_)
      rintro w ⟨⟨⟨-, hstring⟩, v, -, rfl⟩, hclass⟩ s hs
      cases hs
      exact ⟨by simpa using hclass, by simpa [Ty.isCanonical] using hstring⟩
    · exact .pure fun _ _ => nofun
    · exact report_bind .pure

theorem resolveInterfaces_settlesAt (line : Nat) (types : List Ty) :
    Settles (fun _ c => c = c₀) F (resolveInterfaces line types) (fun _ c => c = c₀)
      fun _ types' => ∀ i ∈ types'.filterMap className?,
        c₀.hierarchy.isInterface i ∧ i ≠ stringClass := by
  refine (mapM_settles (r := fun _ _ t' => ∀ i ∈ className? t',
    c₀.hierarchy.isInterface i ∧ i ≠ stringClass) fun t _ => ?_).imp (fun _ h => h) ?_
  · refine .bind (resolveType_settlesAt line t) fun t' => get_bind fun c =>
      reportUnless_bind (.pure ?_)
    rintro w ⟨⟨⟨-, hstring⟩, v, -, rfl⟩, hinterface⟩ i hi
    obtain rfl := className?_eq_some hi
    exact ⟨by simpa [Ty.isAny, Hierarchy.isInterfaceType] using hinterface,
      by simpa [Ty.isCanonical] using hstring⟩
  · intro _ types' _ hall i hi
    obtain ⟨t', ht', hi⟩ := List.mem_filterMap.1 hi
    obtain ⟨_, -, h⟩ := hall t' ht'
    exact h i hi

/-- The headers of a type before its members, with them, and as it is recorded. -/
structure Framed (c : Context) (d : TypeDecl) (header grown recorded : ClassHeader) : Prop where
  proper : isProperName (c.qualify d.name) → header.isProper
  recorded : grown.isProper → recorded.isProper

theorem describe_settles (c₀ : Context) (d : TypeDecl) :
    Settles (fun _ c => c = c₀) F (describe d) (fun _ c => c = c₀) fun _ res =>
      Described c₀ d res.2 ∧ ∃ header header', Framed c₀ d header header' res.2 ∧
        memberHeaders header d.members c₀ = .ok ((res.1.members, header'), c₀) := by
  have hmembers : ∀ (header : ClassHeader) (ms : List Member) {F : Vars → Prop},
      Settles (fun _ c => c = c₀) F (memberHeaders header ms) (fun _ c => c = c₀)
        fun _ res => memberHeaders header ms c₀ = .ok (res, c₀) := fun header ms _ =>
    (memberHeaders_reads header ms).finds .refl
  cases d with
  | classDecl d =>
    refine .bind (p := fun _ res => Described c₀ (.classDecl d) res.2 ∧ ∃ header header',
      Framed c₀ (.classDecl d) header header' res.2 ∧
        memberHeaders header d.members c₀ = .ok ((res.1.members, header'), c₀)) ?_ fun _ =>
      .pure fun _ hw => hw.2
    refine .bind (resolveSuperclass_settlesAt d.line d.superclass) fun superclass => ?_
    refine .bind (resolveInterfaces_settlesAt d.line d.interfaces) fun interfaces =>
      get_bind fun c => .bind (hmembers _ d.members) fun res => .pure ?_
    rintro w ⟨⟨⟨⟨-, hsuper⟩, hinterfaces⟩, v, -, rfl⟩, hrun⟩
    have hparents := (memberHeaders_resolve _ _ _ _ _ hrun).2.trans
      (withDefaultCtor_sameParents res.2)
    refine ⟨⟨hparents.name, hparents.isInterface, ?_, ?_, ?_⟩, _, _, ⟨?_, ?_⟩, hrun⟩
    · rw [hparents.superclass, hparents.isInterface]
      intro s hs
      cases hbind : superclass.bind className? with
      | none => exact ⟨rfl, .inl (by simpa [hbind] using hs.symm)⟩
      | some s' =>
        obtain rfl : s' = s := by simpa [hbind] using hs
        exact ⟨rfl, .inr (hsuper s' hbind)⟩
    · exact .inr (by rw [hparents.superclass]; rfl)
    · rw [hparents.interfaces]
      exact hinterfaces
    · intro h
      simpa [ClassHeader.isProper, emptyHeader, TypeDecl.name] using h
    · intro h
      unfold withDefaultCtor
      split
      · simp only [ClassHeader.isProper, Bool.and_eq_true] at h ⊢
        exact ⟨h.1, by simp⟩
      · exact h
  | interfaceDecl d =>
    refine .bind (p := fun _ res => Described c₀ (.interfaceDecl d) res.2 ∧ ∃ header header',
      Framed c₀ (.interfaceDecl d) header header' res.2 ∧
        memberHeaders header d.members c₀ = .ok ((res.1.members, header'), c₀)) ?_ fun _ =>
      .pure fun _ hw => hw.2
    refine .bind (resolveInterfaces_settlesAt d.line d.parents) fun parents =>
      get_bind fun c => .bind (hmembers _ d.members) fun res => .pure ?_
    rintro w ⟨⟨⟨-, hinterfaces⟩, v, -, rfl⟩, hrun⟩
    have hparents := (memberHeaders_resolve _ _ _ _ _ hrun).2
    refine ⟨⟨hparents.name, hparents.isInterface, ?_, ?_, ?_⟩, _, _, ⟨?_, id⟩, hrun⟩
    · rw [hparents.superclass]
      nofun
    · exact .inl hparents.isInterface
    · rw [hparents.interfaces]
      exact hinterfaces
    · intro h
      simpa [ClassHeader.isProper, emptyHeader, TypeDecl.name] using h

end

theorem described_of_run {d : TypeDecl} {c : Context} (hlog : c.log.latest = [])
    {res : TypeDecl × ClassHeader} (hrun : describe d c = .ok (res, c)) :
    Described c d res.2 ∧ ∃ header header', Framed c d header header' res.2 ∧
      memberHeaders header d.members c = .ok ((res.1.members, header'), c) := by
  obtain ⟨-, hafter⟩ := describe_settles (F := fun _ => True) c d c res c hrun hlog
  obtain ⟨v, -, -, hdescribed⟩ := hafter [] rfl fun _ _ => trivial
  exact hdescribed v fun _ => id

/-! ## Members without a clash -/

section

variable {K : Known} {F : Vars → Prop} (hK : ∀ v c, K v c → c.Proper)

include hK

theorem resolveParams_settles (params : List Param) (h : ParamsWritten params) :
    Settles K F (resolveParams params) K fun _ params' => ∀ p ∈ params', p.ty.isProper := by
  have hparam : ∀ p ∈ params, Settles K F
      (do return { p with ty := ← resolveType p.line p.ty } : Analysis Param) K
      fun _ p' => p'.ty.isProper := by
    intro p hp
    exact .bind ((resolveType_settles hK p.line p.ty).given fun _ _ => h p hp) fun t =>
      .pure fun _ hw => hw.2.1
  refine (mapM_settles (r := fun _ _ p' => p'.ty.isProper) hparam).imp (fun _ h => h) ?_
  intro w params' _ hall p hp
  obtain ⟨_, -, hp'⟩ := hall p hp
  exact hp'

theorem fieldHeaders_settles (mods : List Modifier) : ∀ header ds, (∀ d ∈ ds, d.Written) →
      ∀ {F : Vars → Prop}, Settles K F (fieldHeaders mods header ds) K fun _ res =>
        (∀ d ∈ res.1, d.ty.isProper) ∧ Grows header (res.1.map fun d => .field d.name) res.2
  | header, [], _, _ => .pure fun _ _ => ⟨nofun, .nil header⟩
  | header, d :: ds, h, _ => by
    refine .bind (p := fun _ res => res.1.ty.isProper ∧ Grows header [.field res.1.name] res.2) ?_
      fun res => .bind (fieldHeaders_settles mods res.2 ds fun d' hd' => h d' (by simp [hd']))
      fun res' => .pure fun w hw => ⟨by simpa using ⟨hw.1.2.1, hw.2.1⟩, hw.1.2.2.append hw.2.2⟩
    refine .bind ((resolveType_settles hK d.line d.ty).given fun _ _ => (h d (by simp)).storable)
      fun t => .ite (fun _ => report_bind .pure) fun hfresh => .pure fun w hw => ⟨hw.2.1, ?_⟩
    refine .single hfresh (by simp [ClassHeader.Has]) ?_ fun hp => ?_
    · rintro (x | ⟨x, ps, r⟩ | ps) hj
      · simp only [ClassHeader.Has, List.any_append] at hj ⊢
        simp [hj]
      · exact hj
      · exact hj
    · simpa [ClassHeader.isProper, hw.2.1] using hp

theorem resolveResult_settles (line : Nat) (t : Ty) (ht : t.isResult) :
    Settles K F (resolveType line t) K fun _ t' => t'.isProperResult := by
  simp only [Ty.isResult, Bool.or_eq_true, decide_eq_true_eq] at ht
  rcases ht with rfl | ht
  · exact .pure fun _ _ => rfl
  · exact (resolveType_settles hK line t).imp (fun _ _ => ht) fun _ t' _ h => by
      simp [Ty.isProperResult, h.1]

theorem methodHeader_settles (header : ClassHeader) (m : MethodDecl)
    (hresult : m.result.isResult) (hparams : ParamsWritten m.params) :
    Settles K F (methodHeader header m) K fun _ res =>
      Member.Resolved (.method res.1) ∧ Grows header (Member.method res.1).keys res.2 := by
  refine .bind (resolveResult_settles hK m.line m.result hresult) fun result => ?_
  refine .bind (resolveParams_settles hK m.params hparams) fun params => ?_
  refine .bind ((resolveTypes_reads m.line m.throws).settles .refl .any) fun throws => ?_
  refine .ite (fun _ => report_bind .pure) fun hfresh => .pure fun w hw => ?_
  obtain ⟨⟨⟨-, hres⟩, hps⟩, -⟩ := hw
  refine ⟨⟨hres, hps⟩, .single hfresh (by simp [ClassHeader.Has]) ?_ fun hp => ?_⟩
  · rintro (x | ⟨x, ps, r⟩ | ps) hj
    · exact hj
    · simp only [ClassHeader.Has, List.any_append] at hj ⊢
      simp [hj]
    · exact hj
  · simp only [ClassHeader.isProper, Bool.and_eq_true, List.all_append, List.all_cons, List.all_nil,
      List.all_map, List.all_eq_true, Function.comp] at hp ⊢
    exact ⟨⟨hp.1.1, hp.1.2, ⟨hps, hres⟩, trivial⟩, hp.2⟩

theorem ctorHeader_settles (header : ClassHeader) (c : ConstructorDecl)
    (hparams : ParamsWritten c.params) :
    Settles K F (ctorHeader header c) K fun _ res =>
      Member.Resolved (.ctor res.1) ∧ Grows header (Member.ctor res.1).keys res.2 := by
  refine .bind (resolveParams_settles hK c.params hparams) fun params => ?_
  refine .bind ((resolveTypes_reads c.line c.throws).settles .refl .any) fun throws => ?_
  refine .ite (fun _ => report_bind .pure) fun hfresh => .pure fun w hw => ?_
  obtain ⟨⟨-, hps⟩, -⟩ := hw
  refine ⟨hps, .single hfresh (by simp [ClassHeader.Has]) ?_ fun hp => ?_⟩
  · rintro (x | ⟨x, ps, r⟩ | ps) hj
    · exact hj
    · exact hj
    · simp only [ClassHeader.Has, List.contains_append] at hj ⊢
      rw [hj, Bool.true_or]
  · simp only [ClassHeader.isProper, Bool.and_eq_true, List.all_append, List.all_cons, List.all_nil,
      List.all_map, List.all_eq_true, Function.comp] at hp ⊢
    exact ⟨hp.1, hp.2, hps, trivial⟩

theorem memberHeader_settles (header : ClassHeader) :
    ∀ (m : Member), m.Written → Settles K F (memberHeader header m) K fun _ res =>
      res.1.Resolved ∧ Grows header res.1.keys res.2
  | .field f, h => .bind (fieldHeaders_settles hK f.modifiers header f.vars h) fun _ =>
    .pure fun _ hw => hw.2
  | .method m, h => .bind (methodHeader_settles hK header m h.1 h.2.1) fun _ =>
    .pure fun _ hw => hw.2
  | .ctor c, h => .bind (ctorHeader_settles hK header c h.1) fun _ => .pure fun _ hw => hw.2

theorem memberHeaders_settles : ∀ header ms, (∀ m ∈ ms, m.Written) → ∀ {F : Vars → Prop},
      Settles K F (memberHeaders header ms) K fun _ res =>
        (∀ m ∈ res.1, m.Resolved) ∧ Grows header (res.1.flatMap Member.keys) res.2
  | header, [], _, _ => .pure fun _ _ => ⟨nofun, .nil header⟩
  | header, m :: ms, h, _ => by
    refine .bind (memberHeader_settles hK header m (h m (by simp))) fun res => ?_
    refine .bind (memberHeaders_settles res.2 ms fun m' hm' => h m' (by simp [hm']))
      fun res' => .pure fun w hw => ?_
    exact ⟨by simpa using ⟨hw.1.2.1, hw.2.1⟩, hw.1.2.2.append hw.2.2⟩

end

/-- What a written type is when it is described without a report: its types are resolved, its header
is proper, and its members do not clash. -/
theorem described_written {d : TypeDecl} (hd : d.Written) {c : Context} (hc : c.Proper)
    (hname : isProperName (c.qualify d.name)) (hlog : c.log.latest = [])
    {res : TypeDecl × ClassHeader} (hrun : describe d c = .ok (res, c)) :
    (∀ m ∈ res.1.members, m.Resolved) ∧ res.2.isProper ∧
      ∃ header header', Grows header (res.1.members.flatMap Member.keys) header' := by
  obtain ⟨-, header, header', hframed, hmembers⟩ := described_of_run hlog hrun
  have hsettles := memberHeaders_settles (K := fun _ c' => c' = c) (F := fun _ => True)
    (fun _ _ h => h ▸ hc) header d.members hd.members _ _ _ hmembers hlog
  obtain ⟨v, -, -, hfacts⟩ := hsettles.2 [] rfl fun _ _ => trivial
  obtain ⟨hresolved, hgrows⟩ := hfacts v fun _ => id
  exact ⟨hresolved, hframed.recorded (hgrows.proper (hframed.proper hname)), header, header',
    hgrows⟩

end Analysis

end JMinusMinus
