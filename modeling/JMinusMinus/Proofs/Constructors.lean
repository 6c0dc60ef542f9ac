import JMinusMinus.Proofs.Faults.Unit
import JMinusMinus.Proofs.Headers.Distinct
import JMinusMinus.Proofs.Steps

/-!
# Constructors

The first values of a class are those of its declarators, in the order of the text
(`ClassDecl.firstValues`). The generator collects them field by field, and finds the same list
(`initsOf_eq`). What is stored, and in what order, is said of the instructions of the class file.

Constructors delegate once and initialize once (`accepted_constructors`).
-/

namespace JMinusMinus

namespace Analysis

theorem member_isCtor (class_ : String) : ∀ m : Member,
    Returns (member class_ m) fun m' => m'.isCtor = m.isCtor
  | .field _ | .method _ | .ctor _ => .skip fun _ => .pure rfl

theorem typeBody_ctor : ∀ d : TypeDecl, Returns (typeBody d) fun d' =>
    ∀ cls, d' = .classDecl cls → cls.members.any Member.isCtor
  | .interfaceDecl d => .skip fun _ => .pure nofun
  | .classDecl d => .bind (classBody_returns (member_isCtor d.name)) fun d' h => .pure <| by
    rintro _ ⟨⟩
    have hany : (withCtor d.line d.name d.members).any Member.isCtor := by
      unfold withCtor
      split <;> simp_all [Member.isCtor]
    obtain ⟨m, hm, hctor⟩ := List.any_eq_true.1 hany
    obtain ⟨m', hm', hsame⟩ := exists_of_mem_forall₂_left h.2 hm
    exact List.any_eq_true.2 ⟨m', hm', hsame.trans hctor⟩

end Analysis

/-! ## First values -/

/-- The first values that a member gives to static or to instance fields, in order. -/
def Member.firstValues (isStatic : Bool) : Member → List (Declarator × Expr)
  | .field f =>
    if f.modifiers.contains .static = isStatic then f.vars.filterMap fun v => v.init.map (v, ·)
    else []
  | _ => []

/-- The first values of the static or of the instance fields of a class, in the order in which they
are declared. -/
def ClassDecl.firstValues (d : ClassDecl) (isStatic : Bool) : List (Declarator × Expr) :=
  d.members.flatMap (Member.firstValues isStatic)

namespace Lowering

/-- Lines that a step emits, from some labels and slots on. -/
def EmitsLines (x : Lowering Unit) (lines : List Line) : Prop :=
  ∃ s a, x s = .ok a ∧ a.code.lines = lines

/-- Lines that compute a first value and store it to its field. -/
def StoresFirst (h : Hierarchy) (owner : String) (isStatic : Bool) (p : Declarator × Expr)
    (lines : List Line) : Prop :=
  ∃ value, EmitsLines (expr h .value p.2) value ∧ lines =
    if isStatic then value ++ [.instr (.member .putstatic owner p.1.name p.1.ty.descriptor)]
    else .instr (.plain .aload_0) ::
      (value ++ [.instr (.member .putfield owner p.1.name p.1.ty.descriptor)])

/-- The code of a constructor: the call of another one, the first values of all instance fields if
that is one of the superclass, each of them once and in order, and then the rest. -/
def CtorCode (h : Hierarchy) (owner : String) (d : ClassDecl) (c : ConstructorDecl) (code : Code) :
    Prop :=
  ∃ line n target args ref rest call stores tail close,
    c.body.stmts = .exprStmt line (.delegate n target args ref) :: rest ∧
    EmitsLines (stmt { hierarchy := h, result := .void }
      (.exprStmt line (.delegate n target args ref))) call ∧
    List.Forall₂ (StoresFirst h owner false)
      (if target = .toSuper then d.firstValues false else []) stores ∧
    EmitsLines (stmts { hierarchy := h, result := .void } rest) tail ∧
    EmitsLines (closeBody .void c.body.stmts) close ∧
    code.instructions = placed 0 (call ++ (stores.flatten ++ (tail ++ close)))

/-- The code of a class initializer: the first values of all static fields, each of them once and in
order. -/
def ClassInitCode (h : Hierarchy) (owner : String) (d : ClassDecl) (code : Code) : Prop :=
  ∃ stores, List.Forall₂ (StoresFirst h owner true) (d.firstValues true) stores ∧
    code.instructions = placed 0 (stores.flatten ++ [.instr (.plain .return_)])

variable {h : Hierarchy} {owner : String} {isStatic : Bool} {s : Supply} {a : Emitted Unit}

/-- What the generator stores for a first value. -/
def initOf (owner : String) (isStatic : Bool) (p : Declarator × Expr) : FieldInit :=
  ⟨⟨owner, p.1.name, p.1.ty.descriptor, isStatic⟩, p.2⟩

theorem filter_fieldInits (f : FieldDecl) :
    (fieldInits owner f).filter (·.ref.isStatic = isStatic) =
    (Member.firstValues isStatic (.field f)).map (initOf owner isStatic) := by
  simp only [fieldInits, Member.firstValues]
  by_cases hstatic : f.modifiers.contains .static = isStatic
  · subst hstatic
    rw [if_pos rfl]
    induction f.vars with
    | nil => rfl
    | cons v vars ih => cases hinit : v.init <;> simp_all [initOf]
  · rw [if_neg hstatic]
    refine List.filter_eq_nil_iff.2 fun init hinit => ?_
    obtain ⟨v, -, hv⟩ := List.mem_filterMap.1 hinit
    obtain ⟨e, -, rfl⟩ := Option.map_eq_some_iff.1 hv
    simpa using hstatic

/-- What the generator collects are the first values, in order of declaration. -/
theorem initsOf_eq (d : ClassDecl) :
    initsOf owner d isStatic = (d.firstValues isStatic).map (initOf owner isStatic) := by
  unfold initsOf ClassDecl.firstValues fieldsOf
  induction d.members with
  | nil => rfl
  | cons m members ih =>
    cases m with
    | field f =>
      simp only [List.filterMap_cons, List.flatMap_cons, List.filter_append, List.map_append, ih,
        filter_fieldInits]
    | _ => exact ih

/-- A first value is evaluated and stored in its field, and nothing else is done. -/
theorem fieldInit_lines {p : Declarator × Expr}
    (hrun : fieldInit h (initOf owner isStatic p) s = .ok a) :
    StoresFirst h owner isStatic p a.code.lines := by
  cases isStatic with
  | true =>
    obtain ⟨x, y, hx, hy, rfl⟩ := bind_eq_ok hrun
    cases hy
    exact ⟨_, ⟨s, x, hx, rfl⟩, rfl⟩
  | false =>
    obtain ⟨this, rest, hthis, hrest, rfl⟩ := bind_eq_ok hrun
    obtain ⟨x, y, hx, hy, rfl⟩ := bind_eq_ok hrest
    cases hthis
    cases hy
    exact ⟨_, ⟨_, x, hx, rfl⟩, rfl⟩

/-- First values are stored one after another. -/
theorem inits_lines {ps : List (Declarator × Expr)}
    (hrun : (ps.map (initOf owner isStatic)).forM (fieldInit h) s = .ok a) :
    ∃ stores, List.Forall₂ (StoresFirst h owner isStatic) ps stores ∧
      a.code.lines = stores.flatten := by
  induction ps generalizing s a with
  | nil =>
    cases hrun
    exact ⟨[], .nil, rfl⟩
  | cons p ps ih =>
    obtain ⟨x, y, hx, hy, rfl⟩ := bind_eq_ok hrun
    obtain ⟨stores, hstores, hlines⟩ := ih hy
    exact ⟨_ :: stores, .cons (fieldInit_lines hx) hstores, congrArg (x.code.lines ++ ·) hlines⟩

/-- The code of a constructor: delegation, first values where they belong, and its body. -/
theorem ctorCode_of_assemble {d : ClassDecl} {c : ConstructorDecl} {code : Code}
    (hc : StartDelegating c.body.stmts)
    (hrun : assemble c.locals (do
      ctorBody { hierarchy := h, result := .void } (initsOf owner d false) c.body.stmts
      closeBody .void c.body.stmts) = .ok code) : CtorCode h owner d c code := by
  obtain ⟨line, n, target, args, ref, rest, hstmts, -⟩ := hc
  obtain ⟨a, hrun, hlayout⟩ := exists_of_bind_eq_ok hrun
  obtain ⟨-, hinstructions, -⟩ := layout_eq_ok hlayout
  obtain ⟨body, close, hbody, hclose, rfl⟩ := bind_eq_ok hrun
  rw [hstmts] at hbody
  obtain ⟨call, after, hcall, hafter, rfl⟩ := bind_eq_ok hbody
  obtain ⟨inits, tail, hinits, htail, rfl⟩ : ∃ inits tail,
      ((if target = .toSuper then d.firstValues false else []).map (initOf owner false)).forM
        (fieldInit h) call.supply = .ok inits ∧
      stmts { hierarchy := h, result := .void } rest inits.supply = .ok tail ∧
      after = ⟨tail.value, inits.code ++ tail.code, inits.gaps ++ tail.gaps, tail.supply⟩ := by
    cases target with
    | toSuper =>
      rw [initsOf_eq] at hafter
      exact bind_eq_ok hafter
    | toThis =>
      exact ⟨⟨(), {}, [], call.supply⟩, after, rfl, hafter, by rw [Fragment.empty_append]; rfl⟩
  obtain ⟨stores, hstores, hlines⟩ := inits_lines hinits
  refine ⟨line, n, target, args, ref, rest, _, stores, _, _, hstmts, ⟨_, call, hcall, rfl⟩, hstores,
    ⟨_, tail, htail, rfl⟩, ⟨_, close, hclose, rfl⟩, ?_⟩
  rw [hinstructions, ← hlines]
  simp only [Fragment.append_def, List.append_assoc]
  rfl

/-- The code that sets static fields: their first values, in order. -/
theorem classInitCode_of_assemble {d : ClassDecl} {code : Code}
    (hrun : assemble 0 (do
      (initsOf owner d true).forM (fieldInit h)
      closeBody .void []) = .ok code) : ClassInitCode h owner d code := by
  obtain ⟨a, hrun, hlayout⟩ := exists_of_bind_eq_ok hrun
  obtain ⟨-, hinstructions, -⟩ := layout_eq_ok hlayout
  obtain ⟨inits, close, hinits, hclose, rfl⟩ := bind_eq_ok hrun
  rw [initsOf_eq] at hinits
  obtain ⟨stores, hstores, hlines⟩ := inits_lines hinits
  cases hclose
  exact ⟨stores, hstores, by rw [hinstructions, ← hlines]; rfl⟩

theorem names_inits_sublist (vars : List Declarator) :
    ((vars.filterMap fun v => v.init.map (v, ·)).map (·.1.name)).Sublist
      (vars.map Declarator.name) := by
  induction vars with
  | nil => exact .slnil
  | cons v vars ih =>
    cases hinit : v.init with
    | none => simpa [List.filterMap_cons, hinit] using ih.cons v.name
    | some e => simpa [List.filterMap_cons, hinit] using ih

/-- The fields with first values are among the fields of the class file, in the same order. -/
theorem names_firstValues_sublist (members : List Member) :
    ((members.flatMap (Member.firstValues isStatic)).map (·.1.name)).Sublist
      (((fieldsOf members).flatMap fieldFiles).map FieldFile.name) := by
  induction members with
  | nil => exact .slnil
  | cons m members ih =>
    cases m with
    | field f =>
      have hfiles : (fieldFiles f).map FieldFile.name = f.vars.map Declarator.name := by
        simp [fieldFiles]
      simp only [fieldsOf, List.filterMap_cons, List.flatMap_cons, List.map_append, hfiles]
      refine .append ?_ ih
      simp only [Member.firstValues]
      split
      · exact names_inits_sublist f.vars
      · exact List.nil_sublist _
    | _ => exact ih

end Lowering

/-! ## Accepted sources -/

open Lowering

/-- How the constructors and the class initializer of a class come out in its class file. -/
structure ClassFile.Constructs (h : Hierarchy) (d : ClassDecl) (f : ClassFile) : Prop where
  ctors : ∀ c, .ctor c ∈ d.members → ∃ code,
    ⟨ctorName, c.descriptor, Flag.ofModifiers c.modifiers, some code⟩ ∈ f.methods ∧
    CtorCode h f.name d c code
  classInit : d.firstValues true ≠ [] → ∃ code,
    ⟨classInitName, Ty.methodDescriptor [] .void, [.static], some code⟩ ∈ f.methods ∧
    ClassInitCode h f.name d code
  /-- No field is given a first value twice. -/
  once : ∀ isStatic, ((d.firstValues isStatic).map (·.1.name)).Nodup

/-- The file of a class whose constructors delegate at their start, and whose fields have names of
their own. -/
theorem constructs_of_classFile {h : Hierarchy} {name : String} {d : ClassDecl} {f : ClassFile}
    (hdelegates : ∀ m ∈ d.members, m.Delegates) (hdistinct : f.Distinct)
    (hrun : classFile h name d = .ok f) : f.Constructs h d := by
  obtain ⟨rfl, hfields, methods, classInit, hmethods, heq, hclassInit⟩ := classFile_parts hrun
  refine ⟨fun c hc => ?_, fun hinits => ?_, fun isStatic => ?_⟩
  · obtain ⟨own, hown, hrun⟩ := Analysis.exists_of_mem_forall₂_left (forall₂_of_mapM hmethods) hc
    obtain ⟨_, hfile, heq'⟩ := exists_of_bind_eq_ok hrun
    cases heq'
    obtain ⟨code, hcode, heq'⟩ := exists_of_bind_eq_ok hfile
    cases heq'
    refine ⟨code, ?_, ctorCode_of_assemble (hdelegates _ hc) hcode⟩
    rw [heq]
    exact List.mem_append_left _ (List.mem_flatten.2 ⟨_, hown, .head _⟩)
  · obtain ⟨hnone, -⟩ | ⟨_, hfile, rfl⟩ := hclassInit
    · rw [initsOf_eq] at hnone
      exact absurd (List.map_eq_nil_iff.1 hnone) hinits
    · obtain ⟨code, hcode, heq'⟩ := exists_of_bind_eq_ok hfile
      cases heq'
      exact ⟨code, by simp [heq], classInitCode_of_assemble hcode⟩
  · refine List.Nodup.sublist (names_firstValues_sublist d.members) ?_
    rw [← hfields]
    exact hdistinct.fields

/-- A class of an accepted source has a constructor. Each calls another one once, at its start, and
no other member does. Its code is that of the call, the stores of the first values of all instance
fields in the order of their declaration if the superclass is called, and the rest. The stores of
those of the static fields make up the class initializer. -/
theorem accepted_constructors {file : String} {maxDepth : Nat} {source : String} {a : Analyzed}
    (h : Accepted file maxDepth source a) {d : ClassDecl} (hd : .classDecl d ∈ a.unit.types) :
    d.members.any Member.isCtor ∧ (∀ m ∈ d.members, m.Delegates) ∧
    ∀ files, generate a.unit a.hierarchy = .ok files → ∃ f ∈ files,
      f.name = a.unit.internalName d.name ∧ f.Constructs a.hierarchy d := by
  have hu := Grammar.parseSource_written h.parsed
  have hdelegates : ∀ m ∈ d.members, m.Delegates := fun m hm => by
    obtain ⟨_, hcounted, -⟩ := (analyze_counted (q := True) (fun _ : True => hu) h.analyzed
      fun _ => ⟨trivial, by simpa [Log.failed] using h.silent⟩).2 _ hd m hm
    exact hcounted.delegates trivial
  refine ⟨?_, hdelegates, fun files hfiles => ?_⟩
  · obtain ⟨_, _, types, _, -, hbodies, rfl⟩ := analyze_eq_ok h.analyzed
    obtain ⟨_, -, hctor⟩ :=
      Analysis.Returns.mapM (fun d _ => Analysis.typeBody_ctor d) _ _ _ hbodies _ hd
    exact hctor d rfl
  · obtain ⟨f, hf, hrun⟩ := Analysis.exists_of_mem_forall₂_left (forall₂_of_mapM hfiles) hd
    have hsettled := analyze_settled hu h.analyzed h.silent _ hd
    obtain ⟨hname, hdistinct⟩ := typeFile_distinct hsettled (h.apart.2 _ hd) hrun
    exact ⟨f, hf, hname, constructs_of_classFile hdelegates hdistinct hrun⟩

/-- A class with first values between its constructors, of which one calls the other. -/
def initialSource : String :=
  "class A \x7b int x = 1; A() \x7b this(2); \x7d static int s = 4; int y, z = 3; " ++
  "A(int k) \x7b x = k; \x7d \x7d"

/-- Whether an accepted class has fields of these names with first values. -/
def hasFirstValues (file : String) (maxDepth : Nat) (source : String)
    (instances statics : List String) : Bool :=
  let (parsed, log) := Grammar.parseSource file maxDepth source
  !log.failed && match analyze parsed log with
    | .ok a => !a.log.failed && (generate a.unit a.hierarchy).isOk && a.unit.types.any fun
        | .classDecl d => (d.firstValues false).map (·.1.name) = instances ∧
          (d.firstValues true).map (·.1.name) = statics
        | .interfaceDecl _ => false
    | .error _ => false

theorem accepted_constructors_initial : ∃ a files d f, Accepted "A.java" 64 initialSource a ∧
    generate a.unit a.hierarchy = .ok files ∧ .classDecl d ∈ a.unit.types ∧
    (d.firstValues false).map (·.1.name) = ["x", "z"] ∧
    (d.firstValues true).map (·.1.name) = ["s"] ∧ d.members.any Member.isCtor ∧
    (∀ m ∈ d.members, m.Delegates) ∧ f ∈ files ∧ f.Constructs a.hierarchy d := by
  have h : hasFirstValues "A.java" 64 initialSource ["x", "z"] ["s"] := by decide +kernel
  simp only [hasFirstValues, Bool.and_eq_true, Bool.not_eq_true'] at h
  obtain ⟨hparsed, hanalyzed⟩ := h
  split at hanalyzed
  case h_1 a ha =>
    simp only [Bool.and_eq_true, Bool.not_eq_true', List.any_eq_true] at hanalyzed
    obtain ⟨⟨hsilent, hgenerated⟩, type, htype, hvalues⟩ := hanalyzed
    have haccepted : Accepted "A.java" 64 initialSource a := ⟨hparsed, ha, hsilent⟩
    cases hfiles : generate a.unit a.hierarchy with
    | error e => simp [hfiles, Except.isOk, Except.toBool] at hgenerated
    | ok files =>
      cases type with
      | classDecl d =>
        obtain ⟨hinstances, hstatics⟩ := of_decide_eq_true hvalues
        obtain ⟨hctor, hdelegates, hcode⟩ := accepted_constructors haccepted htype
        obtain ⟨f, hf, -, hconstructs⟩ := hcode files hfiles
        exact ⟨a, files, d, f, haccepted, hfiles, htype, hinstances, hstatics, hctor,
          hdelegates, hf, hconstructs⟩
      | interfaceDecl d => cases hvalues
  case h_2 => cases hanalyzed

end JMinusMinus
