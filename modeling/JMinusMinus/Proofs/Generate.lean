import JMinusMinus.Lowering.Unit
import JMinusMinus.Proofs.Layout
import JMinusMinus.Proofs.Settled.Unit

/-!
# Codes of a unit

The code of a class file comes from a method with a body, from a constructor, or from the first
values of static fields (`codeOf_of_generate`).
-/

namespace JMinusMinus.Lowering

/-- What the generator collects as first values of a class, static or not. -/
def initsOf (name : String) (d : ClassDecl) (isStatic : Bool) : List FieldInit :=
  ((fieldsOf d.members).flatMap (fieldInits name)).filter (·.ref.isStatic = isStatic)

theorem exists_of_mem_initsOf (hf : f ∈ initsOf name d isStatic) :
    ∃ decl, .field decl ∈ d.members ∧ ∃ v ∈ decl.vars, ∃ value, v.init = some value ∧
        f = ⟨⟨name, v.name, v.ty.descriptor, decl.modifiers.contains .static⟩, value⟩ := by
  obtain ⟨decl, hdecl, hf⟩ := List.mem_flatMap.1 (List.mem_filter.1 hf).1
  obtain ⟨m, hm, hmdecl⟩ := List.mem_filterMap.1 hdecl
  cases m with
  | field decl' =>
    cases hmdecl
    obtain ⟨v, hv, hf⟩ := List.mem_filterMap.1 hf
    obtain ⟨value, hvalue, rfl⟩ := Option.map_eq_some_iff.1 hf
    exact ⟨decl, hm, v, hv, value, hvalue, rfl⟩
  | _ => cases hmdecl

/-- Where the code of a class comes from: a method, a constructor, or its static first values. -/
inductive CodeOf (h : Hierarchy) (name : String) (d : ClassDecl) (code : Code) : Prop
  | method {m : MethodDecl} {body : Block Stmt} : .method m ∈ d.members → m.body = some body →
      assemble m.locals (do
        block { hierarchy := h, result := m.result } body
        closeBody m.result body.stmts) = .ok code → CodeOf h name d code
  | ctor {c : ConstructorDecl} : .ctor c ∈ d.members →
      assemble c.locals (do
        ctorBody { hierarchy := h, result := .void } (initsOf name d false) c.body.stmts
        closeBody .void c.body.stmts) = .ok code → CodeOf h name d code
  | classInit :
      assemble 0 (do
        (initsOf name d true).forM (fieldInit h)
        closeBody .void []) = .ok code → CodeOf h name d code

/-- The code of a method is assembled from its body. -/
theorem code_of_methodFile {h : Hierarchy} {m : MethodDecl} {file : MethodFile}
    (hfile : methodFile h m = .ok file) {code : Code} (hcode : file.code = some code) :
    ∃ body, m.body = some body ∧ assemble m.locals (do
      block { hierarchy := h, result := m.result } body
      closeBody m.result body.stmts) = .ok code := by
  unfold methodFile at hfile
  split at hfile
  next body hbody =>
    obtain ⟨code', hrun, heq⟩ := exists_of_bind_eq_ok hfile
    cases heq
    cases hcode
    exact ⟨body, hbody, hrun⟩
  next =>
    cases hfile
    cases hcode

/-- The code of a constructor is assembled from its body and the first values. -/
theorem code_of_ctorFile {h : Hierarchy} {inits : List FieldInit} {c : ConstructorDecl}
    {file : MethodFile} (hfile : ctorFile h inits c = .ok file) {code : Code}
    (hcode : file.code = some code) : assemble c.locals (do
      ctorBody { hierarchy := h, result := .void } inits c.body.stmts
      closeBody .void c.body.stmts) = .ok code := by
  obtain ⟨code', hrun, heq⟩ := exists_of_bind_eq_ok hfile
  cases heq
  cases hcode
  exact hrun

theorem partition_inits (name : String) (d : ClassDecl) :
    ((fieldsOf d.members).flatMap (fieldInits name)).partition (·.ref.isStatic) =
      (initsOf name d true, initsOf name d false) := by
  simp [initsOf, List.partition_eq_filter_filter, Function.comp_def]

/-- A class file has the files of the members, and a class initializer if there is anything to
initialize. -/
theorem classFile_parts (hfile : classFile h name d = .ok file) :
    file.name = name ∧ file.fields = (fieldsOf d.members).flatMap fieldFiles ∧ ∃ methods classInit,
        d.members.mapM (memberFiles h (initsOf name d false)) = .ok methods ∧
        file.methods = methods.flatten ++ classInit ∧ (initsOf name d true = [] ∧ classInit = [] ∨
          ∃ m, classInitFile h (initsOf name d true) = .ok m ∧ classInit = [m]) := by
  unfold classFile at hfile
  simp only [partition_inits] at hfile
  obtain ⟨methods, hmethods, hfile⟩ := exists_of_bind_eq_ok hfile
  split at hfile
  next hnone =>
    cases hfile
    exact ⟨rfl, rfl, methods, [], hmethods, rfl, .inl ⟨by simpa using hnone, rfl⟩⟩
  next =>
    obtain ⟨m, hm, heq⟩ := exists_of_bind_eq_ok hfile
    cases heq
    exact ⟨rfl, rfl, methods, [m], hmethods, rfl, .inr ⟨m, hm, rfl⟩⟩

theorem codeOf_of_classFile (hfile : classFile h name d = .ok file) (hm : m ∈ file.methods)
    (hcode : m.code = some code) : CodeOf h name d code := by
  obtain ⟨-, -, methods, classInit, hmethods, hfiles, hclassInit⟩ := classFile_parts hfile
  rcases List.mem_append.1 (hfiles ▸ hm) with hm | hm
  · obtain ⟨own, hown, hm⟩ := List.mem_flatten.1 hm
    obtain ⟨member, hmember, hrun⟩ := exists_of_mem_mapM hmethods hown
    cases member with
    | ctor c =>
      obtain ⟨file, hctor, heq⟩ := exists_of_bind_eq_ok hrun
      cases heq
      obtain rfl := List.mem_singleton.1 hm
      exact .ctor hmember (code_of_ctorFile hctor hcode)
    | method decl =>
      obtain ⟨file, hmethod, heq⟩ := exists_of_bind_eq_ok hrun
      cases heq
      obtain rfl := List.mem_singleton.1 hm
      obtain ⟨body, hbody, hcode⟩ := code_of_methodFile hmethod hcode
      exact .method hmember hbody hcode
    | field f =>
      cases hrun
      cases hm
  · obtain ⟨-, rfl⟩ | ⟨_, hrun, rfl⟩ := hclassInit
    · cases hm
    · obtain ⟨_, hassemble, heq⟩ := exists_of_bind_eq_ok hrun
      cases heq
      obtain rfl := List.mem_singleton.1 hm
      cases hcode
      exact .classInit hassemble

theorem codeOf_of_generate (hfiles : generate u h = .ok files) (hfile : file ∈ files)
    (hm : m ∈ file.methods) (hcode : m.code = some code) :
    ∃ d, .classDecl d ∈ u.types ∧ CodeOf h (u.internalName d.name) d code := by
  obtain ⟨type, htype, hrun⟩ := exists_of_mem_mapM hfiles hfile
  cases type with
  | classDecl d => exact ⟨d, htype, codeOf_of_classFile hrun hm hcode⟩
  | interfaceDecl d =>
    cases hrun
    obtain ⟨member, -, hmember⟩ := List.mem_filterMap.1 hm
    cases member with
    | method decl =>
      cases hmember
      cases hcode
    | _ => cases hmember

end JMinusMinus.Lowering

namespace JMinusMinus

/-- Whether a source is accepted and has code. -/
def generates (file : String) (maxDepth : Nat) (source : String) : Bool :=
  let (parsed, log) := Grammar.parseSource file maxDepth source
  !log.failed && match analyze parsed log with
    | .ok a => !a.log.failed && (generate a.unit a.hierarchy).isOk
    | .error _ => false

/-- A source that passes the test is accepted and made into class files. -/
theorem exists_generated (h : generates file maxDepth source) :
    ∃ a files, Accepted file maxDepth source a ∧ generate a.unit a.hierarchy = .ok files := by
  simp only [generates, Bool.and_eq_true, Bool.not_eq_true'] at h
  obtain ⟨hparsed, hanalyzed⟩ := h
  split at hanalyzed
  case h_1 a ha =>
    simp only [Bool.and_eq_true, Bool.not_eq_true'] at hanalyzed
    cases hfiles : generate a.unit a.hierarchy with
    | ok files => exact ⟨a, files, ⟨hparsed, ha, hanalyzed.1⟩, hfiles⟩
    | error e => simp [hfiles, Except.isOk, Except.toBool] at hanalyzed
  case h_2 => cases hanalyzed

theorem counterSource_generates : generates "Counter.java" 100 counterSource := by decide +kernel

end JMinusMinus
