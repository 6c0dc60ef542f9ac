import JMinusMinus.Proofs.Agree.Lowering
import JMinusMinus.Proofs.Settled.Unit
import Mathlib.Data.List.Perm.Basic

/-!
# The order of declarations

The types of a unit may be declared in any order.

* Headers are described in a base in which all types are declared, so another order gives the same
  headers in another order (`Recorded.perm`), and the hierarchies are alike (`alike_of_perm`).
* The bodies of a type are analyzed alike in contexts that are alike, and when nothing is reported
  they leave the context alike. So each type has one result, wherever it stands
  (`typeBodies_run`).
-/

namespace JMinusMinus

/-! ## Headers in another order -/

theorem Hierarchy.alike_of_perm {l : List ClassHeader} (hperm : l.Perm l')
    (hnames : (l.map ClassHeader.name).Nodup) : Hierarchy.Alike ⟨l⟩ ⟨l'⟩ := by
  refine ⟨funext fun name => ?_, ?_⟩
  · have hunique : {c ∈ l | decide (c.name = name)}.Subsingleton := by
      rintro c ⟨hc, hcname⟩ c' ⟨hc', hcname'⟩
      exact List.inj_on_of_nodup_map hnames hc hc'
        ((of_decide_eq_true hcname).trans (of_decide_eq_true hcname').symm)
    simp only [lookup, declared?, List.find?_eq_find?_of_perm hperm hunique]
  · have hcomm : LeftCommutative fun (c : ClassHeader) (n : Nat) => c.parents.length + 1 + n :=
      ⟨fun a b n => by omega⟩
    exact ((hperm.append_right Builtin.classes).symm.foldr_eq 1)

namespace Analysis

open Context (SameNames AlikeOutside)

variable {u : CompilationUnit} {types : List TypeDecl}

theorem nodup_headerNames {c : Context} {f : TypeDecl → ClassHeader}
    (hnames : (types.map TypeDecl.name).Nodup)
    (hf : ∀ d ∈ types, (f d).name = c.qualify d.name) :
    ((types.map f).map ClassHeader.name).Nodup := by
  have hmap : (types.map f).map ClassHeader.name = (types.map TypeDecl.name).map c.qualify := by
    simp only [List.map_map]
    exact List.map_congr_left hf
  rw [hmap]
  exact hnames.map fun _ _ => c.qualify_injective

theorem sameNames_declaredTypes (hperm : u.types.Perm types)
    (hnames : (u.types.map TypeDecl.name).Nodup) (log : Log Problem) :
    SameNames (declaredTypes u log) (declaredTypes { u with types } log) := by
  have halike : (declaredTypes u log).hierarchy.Alike
      (declaredTypes { u with types } log).hierarchy :=
    Hierarchy.alike_of_perm (hperm.map _) (nodup_headerNames hnames fun d _ => emptyHeader_name _ d)
  refine ⟨rfl, fun simple => ?_, halike.contains, halike.isInterface⟩
  rw [declaredTypes, declaredTypes, lookup_withTypes, lookup_withTypes]
  simp only [(hperm.map TypeDecl.name).mem_iff]

theorem alike_withHeaders (h : Recorded u log base) (hperm : u.types.Perm types)
    (hsame : ∀ d ∈ u.types, resolvedIn base' d = resolvedIn base d) :
    (withHeaders base u.types).hierarchy.Alike (withHeaders base' types).hierarchy := by
  have hheaders : (types.map fun d => (resolvedIn base' d).2) =
      types.map fun d => (resolvedIn base d).2 :=
    List.map_congr_left fun d hd => by rw [hsame d (hperm.mem_iff.2 hd)]
  rw [withHeaders, withHeaders, hheaders]
  exact Hierarchy.alike_of_perm (hperm.map _) (nodup_headerNames h.distinct fun d hd =>
    (described_of_run h.silent (h.described d hd)).1.name)

/-- The headers of a unit are recorded the same in any order of its types. -/
theorem Recorded.perm {log : Log Problem} {base : Context} (h : Recorded u log base)
    (hperm : u.types.Perm types) :
    ∃ base', Recorded { u with types } log base' ∧
      (∀ d ∈ u.types, resolvedIn base' d = resolvedIn base d) ∧
      (withHeaders base u.types).AlikeOutside (withHeaders base' types) := by
  obtain ⟨names, names', new, hrun, hrun', hsame⟩ :=
    bindImports_sameNames u.imports (sameNames_declaredTypes hperm h.distinct log)
  rw [h.imports] at hrun
  cases hrun
  have hsame := LogFree.logged new new hsame
  have hdesc := fun d hd => (h.described d hd).transfer hsame
  have halike := alike_withHeaders h hperm fun d hd => (hdesc d hd).2
  refine ⟨_, ⟨(hperm.map _).nodup_iff.1 h.distinct, hrun', h.silent, fun d hd =>
    (hdesc d (hperm.mem_iff.2 hd)).1, fun d hd => ?_⟩, fun d hd => (hdesc d hd).2, halike,
    hsame.package, hsame.names, rfl⟩
  show (withHeaders _ types).hierarchy.isCyclic _ = false
  rw [halike.isCyclic, hsame.qualify]
  exact h.acyclic d (hperm.mem_iff.2 hd)

theorem Recorded.mayDelegate {log : Log Problem} {base : Context} (h : Recorded u log base) :
    (withHeaders base u.types).mayDelegate = false := by
  obtain ⟨names, -, new, hrun, -⟩ := bindImports_sameNames u.imports (.refl (declaredTypes u log))
  rw [h.imports] at hrun
  cases hrun
  rfl

/-! ## Bodies in another order -/

/-- The analyzed form of a type against given headers. -/
def analyzedIn (c : Context) (d : TypeDecl) : TypeDecl :=
  match typeBody d c with
  | .ok (d', _) => d'
  | .error _ => d

/-- A type whose bodies are analyzed without a report. -/
def Analyzes (c : Context) (d : TypeDecl) : Prop :=
  ∃ c', typeBody d c = .ok (analyzedIn c d, c') ∧ c'.log.latest = []

section

variable {c₀ : Context} (hsilent : c₀.log.latest = []) (hmay : c₀.mayDelegate = false)

include hsilent hmay

theorem Analyzes.run {d : TypeDecl} (h : Analyzes c₀ d) (hc : c₀.AlikeOutside c)
    (hlog : c.log.latest = []) :
    ∃ c', typeBody d c = .ok (analyzedIn c₀ d, c') ∧ c₀.AlikeOutside c' ∧ c'.log.latest = [] := by
  obtain ⟨c₁, hrun, hlog₁⟩ := h
  rcases typeBody_agrees d c₀ c hc with
    ⟨d', c₂, c', new, hrun₂, hrun', halike, hnew, hnew', hkept⟩ | ⟨f, herror, -⟩
  · rw [hrun] at hrun₂
    cases hrun₂
    rw [hlog₁, hsilent, List.append_nil] at hnew
    subst hnew
    exact ⟨c', hrun', (hkept.alikeOutside hmay).trans halike, by rw [hnew', hlog]; rfl⟩
  · rw [hrun] at herror
    cases herror

/-- The bodies of a unit are analyzed one by one, each as it is alone. -/
theorem typeBodies_run :
    ∀ (ds : List TypeDecl), (∀ d ∈ ds, Analyzes c₀ d) → ∀ {c}, c₀.AlikeOutside c →
      c.log.latest = [] → ∃ c', ds.mapM typeBody c = .ok (ds.map (analyzedIn c₀), c') ∧
        c₀.AlikeOutside c' ∧ c'.log.latest = []
  | [], _, c, hc, hlog => ⟨c, rfl, hc, hlog⟩
  | d :: ds, h, c, hc, hlog => by
    obtain ⟨c₁, hhead, hc₁, hlog₁⟩ := (h d (by simp)).run hsilent hmay hc hlog
    obtain ⟨c', htail, hc', hlog'⟩ :=
      typeBodies_run ds (fun d' hd' => h d' (by simp [hd'])) hc₁ hlog₁
    refine ⟨c', ?_, hc', hlog'⟩
    rw [List.mapM_cons, bind_run hhead, bind_run htail]
    rfl

theorem analyzes_of_typeBodies : ∀ {ds res : List TypeDecl} {c c'},
    c₀.AlikeOutside c → ds.mapM typeBody c = .ok (res, c') → c'.log.latest = [] →
      ∀ d ∈ ds, Analyzes c₀ d
  | [], _, _, _, _, _, _ => nofun
  | d :: ds, res, c, c', hc, hrun, hlog => by
    rw [List.mapM_cons] at hrun
    obtain ⟨d', c₁, hhead, hrest⟩ := runs_of_bind hrun
    obtain ⟨res', c₂, htail, hlast⟩ := runs_of_bind hrest
    cases hlast
    have hlog₁ : c₁.log.latest = [] :=
      (Agrees.mapM fun d _ => typeBody_agrees d).quiet (.refl c₁) htail hlog
    rcases typeBody_agrees d c c₀ hc.symm with
      ⟨d'', c₃, c₄, new, hrun₃, hrun₄, -, hnew, hnew', hkept⟩ | ⟨f, herror, -⟩
    · rw [hhead] at hrun₃
      cases hrun₃
      rw [hlog₁] at hnew
      obtain ⟨rfl, -⟩ := List.append_eq_nil_iff.1 hnew.symm
      have hd : Analyzes c₀ d := by
        refine ⟨c₄, ?_, by rw [hnew', hsilent]; rfl⟩
        rw [hrun₄, analyzedIn, hrun₄]
      have hc₁ : c₀.AlikeOutside c₁ := hc.trans (hkept.alikeOutside (hc.mayDelegate.trans hmay))
      simpa using ⟨hd, analyzes_of_typeBodies hc₁ htail hlog⟩
    · rw [hhead] at herror
      cases herror

end

end Analysis

/-! ## Units -/

theorem analyze_of_parts {types : List TypeDecl}
    (hheaders : Analysis.unitHeaders u { log } = .ok (u', c))
    (hbodies : u'.types.mapM Analysis.typeBody c = .ok (types, c')) :
    analyze u log = .ok ⟨{ u' with types }, c'.hierarchy, c'.log⟩ := by
  have hunit : Analysis.unit u { log } = .ok ({ u' with types }, c') := by
    rw [Analysis.unit, Analysis.bind_run hheaders, Analysis.bind_run hbodies]
    rfl
  simp only [analyze, StateT.run, hunit, bind, Except.bind, pure, Except.pure]

theorem generate_map {u v : CompilationUnit} {h : Hierarchy} (hk : h.Alike k)
    (hv : v.package = u.package) {types : List TypeDecl} {f : TypeDecl → TypeDecl}
    (htypes : v.types = types.map f) :
    generate v k = types.mapM fun d => Lowering.typeFile h u (f d) := by
  rw [generate, htypes, List.mapM_map]
  congr 1
  funext d
  exact Lowering.typeFile_congr hk hv (f d)

/-- The order of the types of a unit does not matter. If analysis reports nothing, it reports
nothing in any other order. Every name has the same header, every type the same analyzed form and
the same code. -/
theorem analyze_perm {u : CompilationUnit} {log : Log Problem} {a : Analyzed}
    (hrun : analyze u log = .ok a) (hlog : a.log.failed = false) {types : List TypeDecl}
    (hperm : u.types.Perm types) :
    ∃ a', analyze { u with types } log = .ok a' ∧ a'.log.failed = false ∧
      (∀ name, a'.hierarchy.lookup name = a.hierarchy.lookup name) ∧
      ∃ (analyzed : TypeDecl → TypeDecl) (output : TypeDecl → Except Failure ClassFile),
        a.unit = { u with types := u.types.map analyzed } ∧
        a'.unit = { u with types := types.map analyzed } ∧
        generate a.unit a.hierarchy = u.types.mapM output ∧
        generate a'.unit a'.hierarchy = types.mapM output := by
  obtain ⟨u', c, bodies, c', hheaders, hbodies, rfl⟩ := analyze_eq_ok hrun
  have hsilent' : c'.log.latest = [] := by simpa [Log.failed] using hlog
  have hsilent : c.log.latest = [] :=
    (Analysis.Agrees.mapM fun d _ => Analysis.typeBody_agrees d).quiet (.refl c) hbodies hsilent'
  obtain ⟨base, hbase, rfl, rfl⟩ := Analysis.unitHeaders_silent hheaders hsilent
  have hmay := hbase.mayDelegate
  have hanalyzes := Analysis.analyzes_of_typeBodies hsilent hmay (.refl _) hbodies hsilent'
  -- The run in the given order, each type on its own.
  obtain ⟨c₁, hrun₁, halike₁, -⟩ :=
    Analysis.typeBodies_run hsilent hmay _ hanalyzes (.refl _) hsilent
  rw [hbodies] at hrun₁
  cases hrun₁
  -- The run in the other order.
  obtain ⟨base', hbase', hres, halike⟩ := hbase.perm hperm
  have hheaders' := Analysis.unitHeaders_run hbase'
  have htypes : (types.map fun d => (Analysis.resolvedIn base' d).1) =
      types.map fun d => (Analysis.resolvedIn base d).1 :=
    List.map_congr_left fun d hd => by rw [hres d (hperm.mem_iff.2 hd)]
  rw [htypes] at hheaders'
  obtain ⟨c₂, hrun₂, halike₂, hlog₂⟩ := Analysis.typeBodies_run hsilent hmay
    (types.map fun d => (Analysis.resolvedIn base d).1)
    (fun d hd => hanalyzes d ((hperm.map _).mem_iff.2 hd)) halike hbase'.silent
  let analyzed (d : TypeDecl) : TypeDecl :=
    Analysis.analyzedIn (Analysis.withHeaders base u.types) (Analysis.resolvedIn base d).1
  refine ⟨_, analyze_of_parts hheaders' hrun₂, by simpa [Log.failed] using hlog₂, fun name => ?_,
    analyzed, fun d => Lowering.typeFile (Analysis.withHeaders base u.types).hierarchy u
      (analyzed d), ?_, ?_, generate_map halike₁.hierarchy rfl List.map_map,
    generate_map halike₂.hierarchy rfl List.map_map⟩
  · rw [halike₂.hierarchy.lookup, halike₁.hierarchy.lookup]
  · simp only [List.map_map, Function.comp_def, analyzed]
  · simp only [List.map_map, Function.comp_def, analyzed]

/-- Types that refer to each other, each to one that stands behind it. -/
def forwardSource : String :=
  "class A extends B \x7b int m() \x7b return super.n() + new C().k; \x7d \x7d " ++
  "class B implements I \x7b int n() \x7b return 1; \x7d \x7d " ++
  "interface I \x7b int n(); \x7d class C \x7b int k = 'c'; \x7d"

theorem forwardSource_accepted : accepts "A.java" 64 forwardSource := by decide +kernel

theorem analyze_perm_reversed :
    let parsed := Grammar.parseSource "A.java" 64 forwardSource
    ∃ a a', analyze parsed.1 parsed.2 = .ok a ∧
      analyze { parsed.1 with types := parsed.1.types.reverse } parsed.2 = .ok a' ∧
      a'.log.failed = false ∧ ∀ name, a'.hierarchy.lookup name = a.hierarchy.lookup name := by
  obtain ⟨a, ha⟩ := exists_accepted forwardSource_accepted
  obtain ⟨a', hrun, hsilent, hheaders, -⟩ :=
    analyze_perm ha.analyzed ha.silent (List.reverse_perm _).symm
  exact ⟨a, a', ha.analyzed, hrun, hsilent, hheaders⟩

end JMinusMinus
