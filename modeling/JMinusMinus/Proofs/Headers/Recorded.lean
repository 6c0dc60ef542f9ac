import JMinusMinus.Proofs.Headers.Describe
import Mathlib.Data.List.Find

/-!
# Recorded headers

When nothing is reported, recording the headers of a unit comes to this. The types have different
names. Each is first declared under its name, and then imports are bound: this is the *base*.
Then each type has the header that is described in the base, whichever headers are recorded
before (`unitHeaders_silent`). Conversely these conditions suffice (`unitHeaders_run`).
-/

namespace JMinusMinus

variable {u : CompilationUnit} {c : Context} {ds : List TypeDecl} {log : Log Problem}
  {simple internal : String} {α β : Type}

namespace Context

theorem qualify_injective (c : Context) (h : c.qualify a = c.qualify b) : a = b := by
  unfold qualify at h
  split at h
  · exact String.append_right_inj _ |>.1 h
  · exact h

/-- A context in which types are declared under their names and nothing else is known. -/
def withTypes (c : Context) (ds : List TypeDecl) : Context :=
  { c with
    hierarchy := ⟨ds.map fun d => Analysis.emptyHeader (c.qualify d.name) d⟩
    names := (ds.map fun d => (d.name, c.qualify d.name)).reverse }

@[simp]
theorem qualify_withTypes (c : Context) (ds : List TypeDecl) (name : String) :
    (c.withTypes ds).qualify name = c.qualify name := rfl

end Context

namespace Analysis

open Context (SameNames)

theorem emptyHeader_name (name : String) (d : TypeDecl) : (emptyHeader name d).name = name := by
  cases d <;> rfl

/-! ## Declared types -/

theorem isDeclared_map {f : TypeDecl → ClassHeader}
    (hf : ∀ d ∈ ds, (f d).name = c.qualify d.name) (name : String) :
    Hierarchy.isDeclared ⟨ds.map f⟩ (c.qualify name) = decide (name ∈ ds.map TypeDecl.name) := by
  rw [Bool.eq_iff_iff]
  simp only [Hierarchy.isDeclared, Hierarchy.declared?, List.find?_isSome, List.mem_map,
    decide_eq_true_eq]
  constructor
  · rintro ⟨_, ⟨d, hd, rfl⟩, hname⟩
    exact ⟨d, hd, c.qualify_injective ((hf d hd).symm.trans hname)⟩
  · rintro ⟨d, hd, rfl⟩
    exact ⟨f d, ⟨d, hd, rfl⟩, hf d hd⟩

theorem lookup_withTypes (c : Context) (ds : List TypeDecl) (name : String) :
    (c.withTypes ds).names.lookup name =
      if name ∈ ds.map TypeDecl.name then some (c.qualify name) else none := by
  have hlookup : ∀ l : List TypeDecl, (l.map fun d => (d.name, c.qualify d.name)).lookup name =
      if name ∈ l.map TypeDecl.name then some (c.qualify name) else none := by
    intro l
    induction l with
    | nil => rfl
    | cons d l ih =>
      by_cases hd : name = d.name
      · subst hd
        simp
      · simp [List.lookup_cons, beq_false_of_ne hd, ih, hd]
  simpa [Context.withTypes, ← List.map_reverse] using hlookup ds.reverse

theorem bindName_new (h : c.names.lookup simple = none) :
    bindName simple internal c = .ok (true, { c with names := (simple, internal) :: c.names }) := by
  simp only [bindName, bind, StateT.bind, get, getThe, MonadStateOf.get, StateT.get, Except.bind,
    pure, Except.pure, h, StateT.pure, modify, modifyGet, MonadStateOf.modifyGet,
    StateT.modifyGet]

theorem bindName_bound (h : c.names.lookup simple = some bound) :
    bindName simple internal c = .ok (bound == internal, c) := by
  simp only [bindName, bind, StateT.bind, get, getThe, MonadStateOf.get, StateT.get, Except.bind,
    pure, Except.pure, h, StateT.pure]

theorem bindName_run (simple internal : String) (c : Context) :
    ∃ b names, bindName simple internal c = .ok (b, { c with names }) ∧
      (names = c.names ∨ names = (simple, internal) :: c.names) := by
  cases hbound : c.names.lookup simple with
  | some bound => exact ⟨_, c.names, bindName_bound hbound, .inl rfl⟩
  | none => exact ⟨_, _, bindName_new hbound, .inr rfl⟩

theorem declareType_eq (d : TypeDecl) (c : Context) : declareType d c =
      if c.hierarchy.isDeclared (c.qualify d.name) then
        report d.line (.typeRedeclared d.name) c
      else
        (discard (bindName d.name (c.qualify d.name)) >>= fun _ =>
          declareHeader (emptyHeader (c.qualify d.name) d)) c := by
  simp only [declareType, bind, StateT.bind, get, getThe, MonadStateOf.get, StateT.get, Except.bind,
    pure, Except.pure]
  split <;> rfl

theorem isDeclared_withTypes (c : Context) (ds : List TypeDecl) (name : String) :
    (c.withTypes ds).hierarchy.isDeclared (c.qualify name) = decide (name ∈ ds.map TypeDecl.name) :=
  isDeclared_map (fun d _ => emptyHeader_name _ d) name

theorem declareType_new {d : TypeDecl} (hd : d.name ∉ ds.map TypeDecl.name) :
    declareType d (c.withTypes ds) = .ok ((), c.withTypes (ds ++ [d])) := by
  have hdeclared : (c.withTypes ds).hierarchy.isDeclared (c.qualify d.name) = false :=
    (isDeclared_withTypes c ds d.name).trans (decide_eq_false hd)
  have hfresh : (c.withTypes ds).hierarchy.declare (emptyHeader (c.qualify d.name) d) =
      (c.withTypes (ds ++ [d])).hierarchy := by
    unfold Hierarchy.declare
    rw [if_neg (by simpa [Hierarchy.isDeclared, Hierarchy.declared?, emptyHeader_name]
      using hdeclared)]
    simp [Context.withTypes]
  have hnames : (d.name, c.qualify d.name) :: (c.withTypes ds).names =
      (c.withTypes (ds ++ [d])).names := by
    simp [Context.withTypes]
  show declareType d (c.withTypes ds) = .ok ((), { c.withTypes ds with
    hierarchy := (c.withTypes (ds ++ [d])).hierarchy
    names := (c.withTypes (ds ++ [d])).names })
  rw [declareType_eq, Context.qualify_withTypes, if_neg (by simp [hdeclared]),
    bind_run (discard_run (bindName_new ((lookup_withTypes c ds d.name).trans (if_neg hd)))),
      ← hfresh, ← hnames]
  rfl

/-- A step that has no fault, takes no report back and leaves the permission to delegate alone. -/
def Proceeds (x : Analysis α) : Prop :=
  ∀ c, ∃ a c', x c = .ok (a, c') ∧ c.log.latest <:+ c'.log.latest ∧ c'.mayDelegate = c.mayDelegate

theorem Proceeds.quiet (h : Proceeds x) : Quiet x := by
  intro c a c' hrun hlog
  obtain ⟨_, _, hrun', hsuffix, -⟩ := h c
  rw [hrun] at hrun'
  cases hrun'
  simpa [hlog] using hsuffix

theorem Proceeds.pure {a : α} : Proceeds (pure a) := fun c => ⟨a, c, rfl, List.suffix_refl _, rfl⟩

theorem Proceeds.bind {x : Analysis α} {f : α → Analysis β} (hx : Proceeds x)
    (hf : ∀ a, Proceeds (f a)) : Proceeds (x >>= f) := by
  intro c
  obtain ⟨a, c', hxc, hlog, hmay⟩ := hx c
  obtain ⟨b, c'', hfc, hlog', hmay'⟩ := hf a c'
  exact ⟨b, c'', (bind_run hxc).trans hfc, hlog.trans hlog', hmay'.trans hmay⟩

theorem Proceeds.forM {f : β → Analysis PUnit} (hf : ∀ b, Proceeds (f b)) :
    ∀ bs : List β, Proceeds (bs.forM f)
  | [] => .pure
  | b :: bs => .bind (hf b) fun _ => Proceeds.forM hf bs

theorem declareType_proceeds (d : TypeDecl) : Proceeds (declareType d) := by
  intro c
  rw [declareType_eq]
  split
  · exact ⟨_, _, rfl, List.suffix_cons _ _, rfl⟩
  · obtain ⟨b, names, hbind, -⟩ := bindName_run d.name (c.qualify d.name) c
    rw [bind_run (discard_run hbind)]
    exact ⟨_, _, rfl, List.suffix_refl _, rfl⟩

theorem declareTypes_run : ∀ (done todo : List TypeDecl), ((done ++ todo).map TypeDecl.name).Nodup →
      todo.forM declareType (c.withTypes done) = .ok ((), c.withTypes (done ++ todo))
  | done, [], _ => by
    rw [List.append_nil]
    rfl
  | done, d :: todo, hnames => by
    have hd : d.name ∉ done.map TypeDecl.name := by
      simp only [List.map_append, List.map_cons, List.nodup_append, List.nodup_cons] at hnames
      exact fun hmem => hnames.2.2 d.name hmem d.name (by simp) rfl
    show (declareType d >>= fun _ => todo.forM declareType) (c.withTypes done) = _
    rw [bind_run (declareType_new hd), declareTypes_run _ _ (by simpa using hnames)]
    simp

theorem declareTypes_nodup : ∀ (done todo : List TypeDecl) {c'},
    todo.forM declareType (c.withTypes done) = .ok ((), c') → c'.log.latest = [] →
      (done.map TypeDecl.name).Nodup → ((done ++ todo).map TypeDecl.name).Nodup
  | done, [], _, _, _, hdone => by simpa using hdone
  | done, d :: todo, c', hrun, hlog, hdone => by
    replace hrun : (declareType d >>= fun _ => todo.forM declareType) (c.withTypes done) =
      .ok ((), c') := hrun
    by_cases hd : d.name ∈ done.map TypeDecl.name
    · -- A name that is taken is reported, and no report is taken back.
      have hdeclared := (isDeclared_withTypes c done d.name).trans (decide_eq_true hd)
      have hreport : declareType d (c.withTypes done) =
          report d.line (.typeRedeclared d.name) (c.withTypes done) := by
        rw [declareType_eq]
        exact if_pos hdeclared
      rw [bind_run (hreport.trans rfl)] at hrun
      cases (Proceeds.forM declareType_proceeds todo).quiet _ _ _ hrun hlog
    · rw [bind_run (declareType_new hd)] at hrun
      have hnodup := declareTypes_nodup _ todo hrun hlog (by
        rw [List.map_append]
        refine List.nodup_append.2 ⟨hdone, by simp, ?_⟩
        rintro a ha b hb rfl
        exact hd (List.mem_singleton.1 hb ▸ ha))
      simpa using hnodup

/-! ## Imports -/

theorem bindName_sameNames (simple internal : String) (h : SameNames c d) :
    ∃ b names names', bindName simple internal c = .ok (b, { c with names }) ∧
      bindName simple internal d = .ok (b, { d with names := names' }) ∧
      SameNames { c with names } { d with names := names' } := by
  cases hbound : c.names.lookup simple with
  | none =>
    refine ⟨true, _, _, bindName_new hbound, bindName_new ((h.names simple).trans hbound),
      h.package, fun s => ?_, h.contains, h.isInterface⟩
    simp only [List.lookup_cons, h.names]
  | some bound =>
    exact ⟨bound == internal, c.names, d.names, bindName_bound hbound,
      bindName_bound ((h.names simple).trans hbound), h.package, h.names, h.contains,
      h.isInterface⟩

theorem bindImport_eq (q : QualifiedName) (c : Context) : bindImport q c =
      if !c.hierarchy.contains q.internalName then report q.line (.importUnknown q.text) c
      else (bindName q.simpleName q.internalName >>= fun bound =>
        if !bound then report q.line (.importConflict q.text q.simpleName) else pure ()) c := by
  simp only [bindImport, bind, StateT.bind, get, getThe, MonadStateOf.get, StateT.get, Except.bind,
    pure, Except.pure]
  split <;> rfl

theorem bindImport_sameNames (q : QualifiedName) (h : SameNames c d) :
    ∃ names names' new, bindImport q c = .ok ((), { c with names }.logged new) ∧
      bindImport q d = .ok ((), { d with names := names' }.logged new) ∧
      SameNames { c with names } { d with names := names' } := by
  obtain ⟨b, names, names', hc, hd, hsame⟩ := bindName_sameNames q.simpleName q.internalName h
  rw [bindImport_eq, bindImport_eq, h.contains]
  cases c.hierarchy.contains q.internalName with
  | false =>
    exact ⟨c.names, d.names, [⟨q.line, .semantic (.importUnknown q.text)⟩], rfl, rfl, h⟩
  | true =>
    refine ⟨names, names', if !b then
      [⟨q.line, .semantic (.importConflict q.text q.simpleName)⟩] else [], ?_, ?_, hsame⟩
    · rw [if_neg (by simp), bind_run hc]
      cases b <;> rfl
    · rw [if_neg (by simp), bind_run hd]
      cases b <;> rfl

theorem bindImports_sameNames : ∀ (qs : List QualifiedName) {c d}, SameNames c d →
    ∃ names names' new, qs.forM bindImport c = .ok ((), { c with names }.logged new) ∧
      qs.forM bindImport d = .ok ((), { d with names := names' }.logged new) ∧
      SameNames { c with names } { d with names := names' }
  | [], c, d, h => ⟨c.names, d.names, [], rfl, rfl, h⟩
  | q :: qs, c, d, h => by
    obtain ⟨n, n', new, hc, hd, hsame⟩ := bindImport_sameNames q h
    obtain ⟨names, names', later, hc', hd', hsame'⟩ :=
      bindImports_sameNames qs (LogFree.logged new new hsame)
    refine ⟨names, names', later ++ new, ?_, ?_, ⟨hsame'.package, hsame'.names, hsame'.contains,
      hsame'.isInterface⟩⟩
    · show (bindImport q >>= fun _ => qs.forM bindImport) c = _
      rw [bind_run hc, hc', ← Context.logged_logged]
      rfl
    · show (bindImport q >>= fun _ => qs.forM bindImport) d = _
      rw [bind_run hd, hd', ← Context.logged_logged]
      rfl

theorem bindImports_proceed (qs : List QualifiedName) : Proceeds (qs.forM bindImport) := by
  intro c
  obtain ⟨names, -, new, hc, -⟩ := bindImports_sameNames qs (.refl c)
  exact ⟨(), _, hc, List.suffix_append new _, rfl⟩

/-! ## Headers of types -/

/-- A type and its header, as they are resolved in a context. -/
def resolvedIn (c : Context) (d : TypeDecl) : TypeDecl × ClassHeader :=
  match describe d c with
  | .ok (res, _) => res
  | .error _ => (d, emptyHeader (c.qualify d.name) d)

/-- Resolving the header of the type reports nothing and changes nothing. -/
def Describes (c : Context) (d : TypeDecl) : Prop := describe d c = .ok (resolvedIn c d, c)

theorem describes_of_run {d : TypeDecl} {res : TypeDecl × ClassHeader}
    (h : describe d c = .ok (res, c)) : Describes c d ∧ resolvedIn c d = res := by
  have hres : resolvedIn c d = res := by simp only [resolvedIn, h]
  exact ⟨by rw [Describes, h, hres], hres⟩

theorem Describes.transfer {d : TypeDecl} (h : Describes c d) (hc : SameNames c c') :
    Describes c' d ∧ resolvedIn c' d = resolvedIn c d :=
  describes_of_run ((describe_reads d).transfer hc h)

theorem lookup_map_cases {f g : TypeDecl → ClassHeader}
    (h : ∀ d ∈ ds, (g d).name = (f d).name) (name : String) :
    (∃ d ∈ ds, Hierarchy.lookup ⟨ds.map f⟩ name = some (f d) ∧
      Hierarchy.lookup ⟨ds.map g⟩ name = some (g d)) ∨
      Hierarchy.lookup ⟨ds.map g⟩ name = Hierarchy.lookup ⟨ds.map f⟩ name := by
  have hfind : ds.find? (fun d => (g d).name = name) = ds.find? (fun d => (f d).name = name) :=
    List.find?_congr fun d hd => by rw [h d hd]
  simp only [Hierarchy.lookup, Hierarchy.declared?, List.find?_map, Function.comp_def, hfind]
  cases hfound : ds.find? (fun d => (f d).name = name) with
  | none => exact .inr rfl
  | some d => exact .inl ⟨d, List.mem_of_find?_eq_some hfound, rfl, rfl⟩

/-- The header of a type when some types are done: resolved, or still empty. -/
def headerAfter (base : Context) (done : List TypeDecl) (d : TypeDecl) : ClassHeader :=
  if d.name ∈ done.map TypeDecl.name then (resolvedIn base d).2
  else emptyHeader (base.qualify d.name) d

/-- The context in which some types of the unit are done. -/
def recorded (base : Context) (types done : List TypeDecl) : Context :=
  { base with hierarchy := ⟨types.map (headerAfter base done)⟩ }

/-- What headers are recorded on top of: types that are declared, and described without a report. -/
structure Base (types : List TypeDecl) (base : Context) : Prop where
  distinct : (types.map TypeDecl.name).Nodup
  hierarchy : base.hierarchy = ⟨types.map fun d => emptyHeader (base.qualify d.name) d⟩
  silent : base.log.latest = []

section

variable {base : Context} {types done : List TypeDecl}

theorem recorded_nil (hbase : Base types base) : recorded base types [] = base := by
  have hempty : headerAfter base [] = fun d => emptyHeader (base.qualify d.name) d := by
    funext d
    simp [headerAfter]
  simp only [recorded, hempty, ← hbase.hierarchy]

theorem headerAfter_name (hbase : Base types base) (hdone : ∀ d ∈ done, Describes base d)
    (hsub : done ⊆ types) {d : TypeDecl} (hd : d ∈ types) :
    (headerAfter base done d).name = base.qualify d.name ∧ (headerAfter base done d).isInterface =
        (emptyHeader (base.qualify d.name) d).isInterface := by
  unfold headerAfter
  split
  case isTrue hmem =>
    -- Names are different, so a type with the name of one that is done is that one.
    obtain ⟨d', hd', hname⟩ := List.mem_map.1 hmem
    obtain rfl := List.inj_on_of_nodup_map hbase.distinct (hsub hd') hd hname
    have hdescribed := (described_of_run hbase.silent (hdone d' hd')).1
    exact ⟨hdescribed.name, hdescribed.name ▸ hdescribed.kind⟩
  case isFalse => exact ⟨emptyHeader_name _ d, rfl⟩

theorem sameNames_recorded (hbase : Base types base) (hdone : ∀ d ∈ done, Describes base d)
    (hsub : done ⊆ types) : SameNames base (recorded base types done) := by
  have hnames : ∀ d ∈ types, (headerAfter base done d).name =
      (emptyHeader (base.qualify d.name) d).name :=
    fun d hd => (headerAfter_name hbase hdone hsub hd).1.trans (emptyHeader_name _ d).symm
  have hcases := lookup_map_cases hnames
  refine ⟨rfl, fun _ => rfl, funext fun name => ?_, funext fun name => ?_⟩
  · rcases hcases name with ⟨d, -, hf, hg⟩ | heq
    · simp only [recorded, Hierarchy.contains, hbase.hierarchy, hf, hg, Option.isSome_some]
    · simp only [recorded, Hierarchy.contains, hbase.hierarchy, heq]
  · rcases hcases name with ⟨d, hd, hf, hg⟩ | heq
    · simp only [recorded, Hierarchy.isInterface, hbase.hierarchy, hf, hg, Option.map_some,
        (headerAfter_name hbase hdone hsub hd).2]
    · simp only [recorded, Hierarchy.isInterface, hbase.hierarchy, heq]

theorem declareHeader_recorded (hbase : Base types base) (hdone : ∀ d ∈ done, Describes base d)
    (hsub : done ⊆ types) {d : TypeDecl} (hd : d ∈ types) (hdesc : Describes base d) :
    declareHeader (resolvedIn base d).2 (recorded base types done) =
      .ok ((), recorded base types (done ++ [d])) := by
  have hname := (described_of_run hbase.silent hdesc).1.name
  have hany : (recorded base types done).hierarchy.declared.any
      (·.name = (resolvedIn base d).2.name) = true := by
    refine List.any_eq_true.2 ⟨_, List.mem_map.2 ⟨d, hd, rfl⟩, ?_⟩
    simp [(headerAfter_name hbase hdone hsub hd).1, hname]
  have hdeclare : (recorded base types done).hierarchy.declare (resolvedIn base d).2 =
      (recorded base types (done ++ [d])).hierarchy := by
    unfold Hierarchy.declare
    rw [if_pos hany]
    simp only [recorded, List.map_map, Hierarchy.mk.injEq]
    refine List.map_congr_left fun d' hd' => ?_
    simp only [Function.comp, (headerAfter_name hbase hdone hsub hd').1, hname]
    by_cases heq : d' = d
    · subst heq
      simp [headerAfter]
    · have hne : d'.name ≠ d.name := fun h =>
        heq (List.inj_on_of_nodup_map hbase.distinct hd' hd h)
      rw [if_neg fun h => hne (base.qualify_injective h)]
      simp [headerAfter, hne]
  show Except.ok ((), { recorded base types done with
    hierarchy := (recorded base types done).hierarchy.declare (resolvedIn base d).2 }) = _
  rw [hdeclare]
  rfl

theorem typeHeader_recorded (hbase : Base types base) (hdone : ∀ d ∈ done, Describes base d)
    (hsub : done ⊆ types) {d : TypeDecl} (hd : d ∈ types) (hdesc : Describes base d) :
    typeHeader d (recorded base types done) =
      .ok ((resolvedIn base d).1, recorded base types (done ++ [d])) := by
  have hhere := (describe_reads d).transfer (sameNames_recorded hbase hdone hsub) hdesc
  rw [typeHeader_eq, bind_run hhere, bind_run (declareHeader_recorded hbase hdone hsub hd hdesc)]
  rfl

theorem typeHeaders_run (hbase : Base types base) : ∀ (done todo : List TypeDecl),
    done ++ todo ⊆ types → (∀ d ∈ done ++ todo, Describes base d) →
      todo.mapM typeHeader (recorded base types done) =
        .ok (todo.map fun d => (resolvedIn base d).1, recorded base types (done ++ todo))
  | done, [], _, _ => by
    rw [List.append_nil]
    rfl
  | done, d :: todo, hsub, hall => by
    have hdone : ∀ d' ∈ done, Describes base d' := fun d' hd' => hall d' (by simp [hd'])
    have hhead := typeHeader_recorded hbase hdone (fun d' hd' => hsub (by simp [hd']))
      (hsub (by simp)) (hall d (by simp))
    have htail := typeHeaders_run hbase (done ++ [d]) todo (by simpa using hsub)
      (by simpa using hall)
    rw [List.mapM_cons, bind_run hhead, bind_run htail]
    simp [pure, StateT.pure, Except.pure]

theorem declareHeader_proceeds (header : ClassHeader) : Proceeds (declareHeader header) :=
  fun _ => ⟨(), _, rfl, List.suffix_refl _, rfl⟩

theorem typeHeader_proceeds (d : TypeDecl) : Proceeds (typeHeader d) := by
  rw [typeHeader_eq]
  refine .bind (fun c => ?_) fun res => .bind (declareHeader_proceeds res.2) fun _ => .pure
  obtain ⟨res, new, -, hrun, -⟩ := describe_reads d c c (.refl c)
  exact ⟨res, _, hrun, List.suffix_append new _, rfl⟩

theorem Proceeds.mapM {f : β → Analysis α} (hf : ∀ b, Proceeds (f b)) :
    ∀ bs : List β, Proceeds (bs.mapM f)
  | [] => .pure
  | b :: bs => by
    rw [List.mapM_cons]
    exact .bind (hf b) fun _ => .bind (Proceeds.mapM hf bs) fun _ => .pure

theorem typeHeaders_describe (hbase : Base types base) :
    ∀ (done todo : List TypeDecl) {res : List TypeDecl} {c}, done ++ todo ⊆ types →
      (∀ d ∈ done, Describes base d) →
      todo.mapM typeHeader (recorded base types done) = .ok (res, c) → c.log.latest = [] →
      ∀ d ∈ todo, Describes base d
  | _, [], _, _, _, _, _, _ => nofun
  | done, d :: todo, res, c, hsub, hdone, hrun, hlog => by
    have hsub' : done ⊆ types := fun d' hd' => hsub (by simp [hd'])
    have hsame := sameNames_recorded hbase hdone hsub'
    rw [List.mapM_cons] at hrun
    obtain ⟨d', c₁, hhead, hrest⟩ := runs_of_bind hrun
    have hlog₁ : c₁.log.latest = [] :=
      (Proceeds.bind (.mapM typeHeader_proceeds todo) fun _ => .pure).quiet _ _ _ hrest hlog
    obtain ⟨res', c₂, htail, hlast⟩ := runs_of_bind hrest
    cases hlast
    -- The head is described where it stands, and so it is in the base.
    have hdesc : Describes base d := by
      rw [typeHeader_eq] at hhead
      obtain ⟨found, c₃, hfound, hdeclare⟩ := runs_of_bind hhead
      have hlog₃ := (Proceeds.bind (declareHeader_proceeds found.2) fun _ => .pure).quiet
        _ _ _ hdeclare hlog₁
      obtain rfl := (describe_reads d).silent (.refl _) hfound hlog₃
      exact (describes_of_run ((describe_reads d).transfer hsame.symm hfound)).1
    rw [typeHeader_recorded hbase hdone hsub' (hsub (by simp)) hdesc] at hhead
    cases hhead
    have hall := typeHeaders_describe hbase (done ++ [d]) todo (by simpa using hsub)
      (by simpa [or_imp, forall_and] using ⟨hdone, hdesc⟩) htail hlog
    simpa using ⟨hdesc, hall⟩

end

/-! ## Cycles -/

theorem breakCycle_eq (d : TypeDecl) (c : Context) : breakCycle d c =
      if c.hierarchy.isCyclic (c.qualify d.name) then
        (report d.line (.cyclicInheritance d.name) >>= fun _ => modify fun c' : Context =>
          { c' with
            hierarchy := c'.hierarchy.setSuperclass (c.qualify d.name) (some objectClass) } :
          Analysis Unit) c
      else .ok ((), c) := by
  simp only [breakCycle, bind, StateT.bind, get, getThe, MonadStateOf.get, StateT.get, Except.bind,
    pure, Except.pure]
  split <;> rfl

theorem breakCycles_run : ∀ {ds : List TypeDecl},
    (∀ d ∈ ds, c.hierarchy.isCyclic (c.qualify d.name) = false) → ds.forM breakCycle c = .ok ((), c)
  | [], _ => rfl
  | d :: ds, h => by
    have hhead : breakCycle d c = .ok ((), c) := by
      rw [breakCycle_eq, if_neg (by simp [h d (by simp)])]
    show (breakCycle d >>= fun _ => ds.forM breakCycle) c = _
    rw [bind_run hhead]
    exact breakCycles_run fun d' hd' => h d' (by simp [hd'])

theorem breakCycle_proceeds (d : TypeDecl) : Proceeds (breakCycle d) := by
  intro c
  rw [breakCycle_eq]
  split
  · exact ⟨_, _, rfl, List.suffix_cons _ _, rfl⟩
  · exact ⟨_, _, rfl, List.suffix_refl _, rfl⟩

theorem breakCycles_acyclic :
    ∀ {ds : List TypeDecl} {c'}, ds.forM breakCycle c = .ok ((), c') → c'.log.latest = [] →
      ∀ d ∈ ds, c.hierarchy.isCyclic (c.qualify d.name) = false
  | [], _, _, _ => nofun
  | d :: ds, c', hrun, hlog => by
    obtain ⟨a, c₁, hhead, htail⟩ := runs_of_bind (x := breakCycle d) hrun
    have hlog₁ := (Proceeds.forM breakCycle_proceeds ds).quiet _ _ _ htail hlog
    rw [breakCycle_eq] at hhead
    split at hhead
    · cases hhead
      cases hlog₁
    case isFalse hacyclic =>
      cases hhead
      simpa using ⟨by simpa using hacyclic, breakCycles_acyclic htail hlog⟩

/-! ## Units -/

/-- The context in which all headers are recorded. -/
def withHeaders (base : Context) (types : List TypeDecl) : Context :=
  { base with hierarchy := ⟨types.map fun d => (resolvedIn base d).2⟩ }

theorem recorded_all {types : List TypeDecl} :
    recorded base types types = withHeaders base types := by
  simp only [recorded, withHeaders, Context.mk.injEq, Hierarchy.mk.injEq, and_true]
  refine List.map_congr_left fun d hd => ?_
  rw [headerAfter, if_pos (List.mem_map.2 ⟨d, hd, rfl⟩)]

/-- The context in which the types are declared and nothing is resolved yet. -/
def declaredTypes (u : CompilationUnit) (log : Log Problem) : Context :=
  ({ log, package := u.package.map QualifiedName.text } : Context).withTypes u.types

/-- The conditions under which the headers of a unit are recorded without a report. -/
structure Recorded (u : CompilationUnit) (log : Log Problem) (base : Context) : Prop where
  distinct : (u.types.map TypeDecl.name).Nodup
  imports : u.imports.forM bindImport (declaredTypes u log) = .ok ((), base)
  silent : base.log.latest = []
  described : ∀ d ∈ u.types, Describes base d
  acyclic : ∀ d ∈ u.types,
    (withHeaders base u.types).hierarchy.isCyclic (base.qualify d.name) = false

theorem base_of_imports (hdistinct : (u.types.map TypeDecl.name).Nodup)
    (himports : u.imports.forM bindImport (declaredTypes u log) = .ok ((), base))
    (hsilent : base.log.latest = []) : Base u.types base := by
  obtain ⟨names, -, new, hrun, -⟩ := bindImports_sameNames u.imports (.refl (declaredTypes u log))
  rw [hrun] at himports
  cases himports
  exact ⟨hdistinct, rfl, hsilent⟩

theorem Recorded.base {base : Context} (h : Recorded u log base) : Base u.types base :=
  base_of_imports h.distinct h.imports h.silent

theorem Describes.name {d : TypeDecl} (h : Describes c d) : (resolvedIn c d).1.name = d.name :=
  (describe_resolves d c _ _ h).name

theorem unitHeaders_eq (u : CompilationUnit) (log : Log Problem) :
    unitHeaders u { log } = (do
      u.types.forM declareType
      u.imports.forM bindImport
      let types ← u.types.mapM typeHeader
      types.forM breakCycle
      return { u with types } : Analysis CompilationUnit)
      { log, package := u.package.map QualifiedName.text } := rfl

theorem unitHeaders_run {base : Context} (h : Recorded u log base) :
    unitHeaders u { log } = .ok ({ u with types := u.types.map fun d => (resolvedIn base d).1 },
      withHeaders base u.types) := by
  have hdeclare : u.types.forM declareType
      { log, package := u.package.map QualifiedName.text } = .ok ((), declaredTypes u log) :=
    declareTypes_run (c := { log, package := u.package.map QualifiedName.text }) [] u.types
      (by simpa using h.distinct)
  have htypes := typeHeaders_run h.base [] u.types (by simp) (by simpa using h.described)
  rw [recorded_nil h.base, List.nil_append, recorded_all] at htypes
  have hcycles : (u.types.map fun d => (resolvedIn base d).1).forM breakCycle
      (withHeaders base u.types) = .ok ((), withHeaders base u.types) := by
    refine breakCycles_run fun d' hd' => ?_
    obtain ⟨d, hd, rfl⟩ := List.mem_map.1 hd'
    rw [(h.described d hd).name]
    exact h.acyclic d hd
  rw [unitHeaders_eq, bind_run hdeclare, bind_run h.imports, bind_run htypes, bind_run hcycles]
  rfl

theorem unitHeaders_proceeds (u : CompilationUnit) : Proceeds (unitHeaders u) := by
  refine .bind (fun _ => ⟨(), _, rfl, List.suffix_refl _, rfl⟩) fun _ => ?_
  refine .bind (.forM declareType_proceeds u.types) fun _ => ?_
  refine .bind (bindImports_proceed u.imports) fun _ => ?_
  refine .bind (.mapM typeHeader_proceeds u.types) fun types => ?_
  exact .bind (.forM breakCycle_proceeds types) fun _ => .pure

/-- Headers that are resolved without a report are recorded as they are described. -/
theorem unitHeaders_silent {u' : CompilationUnit}
    (hrun : unitHeaders u { log } = .ok (u', c)) (hlog : c.log.latest = []) :
    ∃ base, Recorded u log base ∧ c = withHeaders base u.types ∧
      u' = { u with types := u.types.map fun d => (resolvedIn base d).1 } := by
  have hall := hrun
  rw [unitHeaders_eq] at hall
  obtain ⟨_, c₁, hdeclare, hall⟩ := runs_of_bind hall
  obtain ⟨_, base, himports, hall⟩ := runs_of_bind hall
  obtain ⟨types, c₃, htypes, hall⟩ := runs_of_bind hall
  obtain ⟨_, c₄, hcycles, hall⟩ := runs_of_bind hall
  cases hall
  have hlog₃ := (Proceeds.forM breakCycle_proceeds types).quiet _ _ _ hcycles hlog
  have hlog₂ := (Proceeds.mapM typeHeader_proceeds u.types).quiet _ _ _ htypes hlog₃
  have hlog₁ := (bindImports_proceed u.imports).quiet _ _ _ himports hlog₂
  have hdistinct : (u.types.map TypeDecl.name).Nodup := by
    simpa using declareTypes_nodup (c := { log, package := u.package.map QualifiedName.text })
      [] u.types hdeclare hlog₁ (by simp)
  obtain rfl : c₁ = declaredTypes u log := by
    have := declareTypes_run (c := { log, package := u.package.map QualifiedName.text })
      [] u.types (by simpa using hdistinct)
    exact (congrArg Prod.snd (Except.ok.inj (hdeclare.symm.trans this)))
  have hbase := base_of_imports hdistinct himports hlog₂
  have hdesc : ∀ d ∈ u.types, Describes base d := by
    rw [← recorded_nil hbase] at htypes
    exact typeHeaders_describe hbase [] u.types (by simp) nofun htypes hlog₃
  have htypes' := typeHeaders_run hbase [] u.types (by simp) (by simpa using hdesc)
  rw [recorded_nil hbase, List.nil_append, recorded_all, htypes] at htypes'
  cases htypes'
  have hrecorded : Recorded u log base := by
    refine ⟨hdistinct, himports, hlog₂, hdesc, fun d hd => ?_⟩
    have := breakCycles_acyclic hcycles hlog _ (List.mem_map.2 ⟨d, hd, rfl⟩)
    rwa [(hdesc d hd).name] at this
  rw [unitHeaders_run hrecorded] at hrun
  cases hrun
  exact ⟨base, hrecorded, rfl, rfl⟩

end Analysis

end JMinusMinus
