import JMinusMinus.Proofs.Generate

/-!
# Members that do not clash

The class files of a unit have distinct names, and so have the fields of one class file. Its methods
are told apart by their names and descriptors (`accepted_distinct`).

* Members that are taken into the header of a type do not clash (`Grows`).
* Methods that differ in their parameter types differ in their descriptors, because the types can be
  read back from a descriptor (`Descriptor.read_descriptor`).
* Bodies keep what members are called by. A constructor is added only where there is none, and the
  names of constructors and class initializers are no words.
-/

namespace JMinusMinus

/-! ## Reading descriptors -/

/-- A type that can be read back from its descriptor. -/
def Ty.isReadable : Ty → Bool
  | .named name => name ≠ stringClass && isProperName name
  | .array component => component.isReadable
  | .null | .any => false
  | _ => true

theorem Ty.isReadable_of_isProper : ∀ {t : Ty}, t.isProper → t.isCanonical → t.isReadable
  | .named name, hproper, hcanonical => by
    simp_all [Ty.isReadable, Ty.isCanonical, Ty.isProper, isProperName]
  | .array component, hproper, hcanonical =>
    isReadable_of_isProper (t := component) hproper hcanonical
  | .int, _, _ | .long, _, _ | .double, _, _ | .boolean, _, _ | .char, _, _ | .string, _, _ => rfl

namespace Descriptor

/-- The type that a descriptor starts with, and what comes after it. -/
def read : List Char → Option (Ty × List Char)
  | 'I' :: cs => some (.int, cs)
  | 'J' :: cs => some (.long, cs)
  | 'D' :: cs => some (.double, cs)
  | 'Z' :: cs => some (.boolean, cs)
  | 'C' :: cs => some (.char, cs)
  | 'V' :: cs => some (.void, cs)
  | 'L' :: cs =>
    some (Ty.ofClass (String.ofList (cs.takeWhile (· ≠ ';'))), (cs.dropWhile (· ≠ ';')).tail)
  | '[' :: cs => (read cs).map fun p => (.array p.1, p.2)
  | _ => none

theorem read_class (h : isProperName name) (rest : List Char) :
    read ('L' :: (name.toList ++ ';' :: rest)) = some (Ty.ofClass name, rest) := by
  have hname : ∀ c ∈ name.toList, decide (c ≠ ';') = true := by
    intro c hc
    have hnone : ';' ∉ name.toList := by simpa [isProperName] using h
    exact decide_eq_true fun heq => hnone (heq ▸ hc)
  rw [read, List.takeWhile_append_of_pos hname, List.dropWhile_append_of_pos hname]
  simp

theorem read_descriptor : ∀ {t : Ty}, t.isReadable → ∀ rest : List Char,
    read (t.descriptor.toList ++ rest) = some (t, rest)
  | .int, _, _ | .long, _, _ | .double, _, _ | .boolean, _, _ | .char, _, _ | .void, _, _ => rfl
  | .string, _, rest => by
    have hread := read_class (show isProperName stringClass by decide) rest
    simpa [Ty.descriptor, Ty.ofClass] using hread
  | .named name, h, rest => by
    simp only [Ty.isReadable, Bool.and_eq_true, decide_eq_true_eq] at h
    have hread := read_class h.2 rest
    simpa [Ty.descriptor, Ty.ofClass, h.1] using hread
  | .array component, h, rest => by
    have ih := read_descriptor (t := component) h rest
    simp [Ty.descriptor, read, ih]

/-- A descriptor can be told apart in front of any text. -/
theorem descriptor_append_inj {s t : Ty} (hs : s.isReadable) (ht : t.isReadable)
    (h : s.descriptor.toList ++ rest = t.descriptor.toList ++ rest') : s = t ∧ rest = rest' := by
  have hread := read_descriptor hs rest
  rw [h, read_descriptor ht rest'] at hread
  simpa [eq_comm] using hread

theorem append_ne_close {t : Ty} (ht : t.isReadable) (rest cs : List Char) :
    t.descriptor.toList ++ rest ≠ ')' :: cs := by
  intro h
  have hread := read_descriptor ht rest
  rw [h] at hread
  cases hread

theorem descriptors_append_inj : ∀ {ps qs : List Ty}, (∀ p ∈ ps, p.isReadable) →
    (∀ q ∈ qs, q.isReadable) → ∀ {rest rest' : List Char},
      ps.flatMap (·.descriptor.toList) ++ ')' :: rest =
        qs.flatMap (·.descriptor.toList) ++ ')' :: rest' → ps = qs ∧ rest = rest'
  | [], [], _, _, _, _, h => ⟨rfl, by simpa using h⟩
  | [], q :: qs, _, hqs, _, _, h => by
    rw [List.flatMap_cons, List.append_assoc] at h
    exact absurd h.symm (append_ne_close (hqs q (by simp)) _ _)
  | p :: ps, [], hps, _, _, _, h => by
    rw [List.flatMap_cons, List.append_assoc] at h
    exact absurd h (append_ne_close (hps p (by simp)) _ _)
  | p :: ps, q :: qs, hps, hqs, _, _, h => by
    rw [List.flatMap_cons, List.flatMap_cons, List.append_assoc, List.append_assoc] at h
    obtain ⟨rfl, htail⟩ := descriptor_append_inj (hps p (by simp)) (hqs q (by simp)) h
    obtain ⟨rfl, hrest⟩ := descriptors_append_inj (fun t ht => hps t (by simp [ht]))
      (fun t ht => hqs t (by simp [ht])) htail
    exact ⟨rfl, hrest⟩

theorem params_eq_of_methodDescriptor {ps qs : List Ty} {r r' : Ty}
    (hps : ∀ p ∈ ps, p.isReadable) (hqs : ∀ q ∈ qs, q.isReadable)
    (h : Ty.methodDescriptor ps r = Ty.methodDescriptor qs r') : ps = qs := by
  have hlist (ps : List Ty) (r : Ty) : (Ty.methodDescriptor ps r).toList =
      '(' :: (ps.flatMap (·.descriptor.toList) ++ ')' :: r.descriptor.toList) := by
    simp [Ty.methodDescriptor, List.flatMap_map]
  have hchars := congrArg String.toList h
  rw [hlist, hlist] at hchars
  exact (descriptors_append_inj hps hqs (List.cons.inj hchars).2).1

end Descriptor

/-! ## Keys of members -/

/-- The keys of a member have words for names and canonical types. -/
def Member.Keyed (m : Member) : Prop := ∀ k ∈ m.keys, k.IsNamed ∧ ∀ t ∈ k.params, t.isCanonical

theorem Member.Keyed.readable {m : Member} (h : m.Keyed) (hm : m.Resolved) :
    ∀ k ∈ m.keys, k.IsNamed ∧ ∀ t ∈ k.params, t.isReadable := by
  refine fun k hk => ⟨(h k hk).1, fun t ht => ?_⟩
  refine Ty.isReadable_of_isProper ?_ ((h k hk).2 t ht)
  cases m with
  | field f =>
    obtain ⟨d, -, rfl⟩ := List.mem_map.1 hk
    cases ht
  | method m =>
    obtain rfl := List.mem_singleton.1 hk
    obtain ⟨p, hp, rfl⟩ := List.mem_map.1 ht
    exact hm.2 p hp
  | ctor c =>
    obtain rfl := List.mem_singleton.1 hk
    obtain ⟨p, hp, rfl⟩ := List.mem_map.1 ht
    exact hm p hp

theorem Member.Resolves.keyed : ∀ {m m' : Member}, m.Resolves m' → m.Written → m'.Keyed
  | .field _, _, .field _, _ => fun k hk => by
    obtain ⟨d, -, rfl⟩ := List.mem_map.1 hk
    exact ⟨trivial, nofun⟩
  | .method _, _, .method h, hm => fun k hk => by
    obtain rfl := List.mem_singleton.1 hk
    refine ⟨hm.2.2.2, fun t ht => ?_⟩
    obtain ⟨_, -, hr⟩ := Analysis.exists_of_mem_forall₂ h ht
    exact hr.1
  | .ctor _, _, .ctor h, _ => fun k hk => by
    obtain rfl := List.mem_singleton.1 hk
    refine ⟨trivial, fun t ht => ?_⟩
    obtain ⟨_, -, hr⟩ := Analysis.exists_of_mem_forall₂ h ht
    exact hr.1

namespace Analysis

/-! ## Bodies -/

theorem declareParams_types (params : List Param) :
    Returns (declareParams params) fun ps => ps.map Param.ty = params.map Param.ty := by
  unfold declareParams
  refine .mapM_map (fun p => ?_) params
  exact .skip fun _ => .pure rfl

theorem fieldVar_name (isStatic : Bool) (d : Declarator) :
    Returns (fieldVar isStatic d) fun d' => MemberKey.field d'.name = .field d.name := by
  unfold fieldVar
  split
  · exact .pure rfl
  · exact .skip fun _ => .skip fun _ => .skip fun _ => .pure rfl

theorem member_keys (class_ : String) : ∀ m : Member,
    Returns (member class_ m) fun m' => m'.keys = m.keys
  | .field f => .bind (.mapM_map (fieldVar_name _) f.vars) fun _ h => .pure h
  | .method m => by
    refine .bind (q := fun m' => (Member.method m').keys = (Member.method m).keys) ?_
      fun _ h => .pure h
    refine .skip fun _ => .skip fun _ => .bind (declareParams_types m.params) fun ps hps => ?_
    have hrest (body : Option (Block Stmt)) : Returns (do
        let locals ← leaveMethod
        return { m with params := ps, body, locals } : Analysis MethodDecl)
        fun m' => (Member.method m').keys = (Member.method m).keys :=
      .skip fun _ => .pure (by simp [Member.keys, hps])
    split
    · exact .skip fun _ => .skip fun _ => hrest _
    · exact .skip fun _ => hrest _
  | .ctor c => by
    refine .bind (q := fun c' => (Member.ctor c').keys = (Member.ctor c).keys) ?_ fun _ h => .pure h
    have hkeys : Returns (do
        enterMethod false true .void
        let params ← declareParams c.params
        pushScope
        let body ← ctorStmts (withDelegation c.body.line c.body.stmts)
        popScope
        let locals ← leaveMethod
        return { c with params, body := ⟨c.body.line, body⟩, locals } : Analysis ConstructorDecl)
        fun c' => (Member.ctor c').keys = (Member.ctor c).keys := by
      refine .skip fun _ => .bind (declareParams_types c.params) fun ps hps => ?_
      refine .skip fun _ => .skip fun _ => .skip fun _ => .skip fun _ => .pure ?_
      simp [Member.keys, hps]
    exact .ite (.skip fun _ => hkeys) hkeys

/-- The members that are analyzed: those of the type, and a constructor if a class has none. -/
def bodyMembers : TypeDecl → List Member
  | .classDecl d => withCtor d.line d.name d.members
  | .interfaceDecl d => d.members

theorem classBody_returns {d : ClassDecl} {R : Member → Member → Prop}
    (h : ∀ m, Returns (member d.name m) (R m)) : Returns (classBody d) fun d' =>
      d'.name = d.name ∧ List.Forall₂ R (withCtor d.line d.name d.members) d'.members := by
  have hmembers : Returns (do
      let members ← (withCtor d.line d.name d.members).mapM (member d.name)
      leaveClass
      return { d with members } : Analysis ClassDecl) fun d' =>
        d'.name = d.name ∧ List.Forall₂ R (withCtor d.line d.name d.members) d'.members :=
    .bind (.mapM_forall₂ fun m _ => h m) fun _ h => .skip fun _ => .pure ⟨rfl, h⟩
  exact .skip fun _ => .skip fun _ => .ite hmembers (.skip fun _ => hmembers)

theorem typeBody_keys : ∀ d : TypeDecl, Returns (typeBody d) fun d' =>
    (d'.name, d'.members.map Member.keys) = (d.name, (bodyMembers d).map Member.keys)
  | .classDecl d => .bind (classBody_returns (member_keys d.name)) fun _ h =>
    .pure (Prod.ext h.1 (map_eq_of_forall₂ h.2 fun _ _ => id))
  | .interfaceDecl d => by
    refine .bind (q := fun d' => (d'.name, d'.members.map Member.keys) =
      (d.name, (bodyMembers (.interfaceDecl d)).map Member.keys)) ?_ fun _ h => .pure h
    refine .skip fun _ => .skip fun _ => .bind (.mapM_map (member_keys d.name) d.members) ?_
    exact fun _ h => .skip fun _ => .pure (congrArg (Prod.mk d.name) h)

theorem bodyMembers_apart {d : TypeDecl} {header header' : ClassHeader}
    (h : Grows header (d.members.flatMap Member.keys) header') :
    ((bodyMembers d).flatMap Member.keys).Pairwise fun a b => ¬ a.Clashes b := by
  cases d with
  | interfaceDecl d => exact h.apart
  | classDecl d =>
    rw [bodyMembers, withCtor]
    split
    · exact h.apart
    · rename_i hnone
      rw [List.flatMap_append]
      refine List.pairwise_append.2 ⟨h.apart, by simp [Member.keys], ?_⟩
      intro a ha b hb hclash
      obtain ⟨m, hm, ha⟩ := List.mem_flatMap.1 ha
      obtain rfl : b = .ctor [] := by simpa [Member.keys, implicitCtor] using hb
      cases m with
      | ctor c => exact hnone (List.any_eq_true.2 ⟨_, hm, rfl⟩)
      | method m =>
        obtain rfl := List.mem_singleton.1 ha
        exact hclash
      | field f =>
        obtain ⟨_, -, rfl⟩ := List.mem_map.1 ha
        exact hclash

theorem bodyMembers_forall {P : Member → Prop} {d : TypeDecl}
    (hctor : P (.ctor (implicitCtor d.line d.name))) (h : ∀ m ∈ d.members, P m) :
    ∀ m ∈ bodyMembers d, P m := by
  cases d with
  | classDecl d => exact withCtor_forall d.line d.name hctor h
  | interfaceDecl d => exact h

end Analysis

/-! ## Class files -/

theorem IsWord.ne_special (h : IsWord x) : x ≠ ctorName ∧ x ≠ classInitName := by
  constructor
  · rintro rfl
    exact absurd (h '<' (by decide)) (by decide)
  · rintro rfl
    exact absurd (h '<' (by decide)) (by decide)

theorem MemberKey.file?_ne : ∀ {a b : MemberKey}, a.IsNamed → b.IsNamed →
    (∀ t ∈ a.params, t.isReadable) → (∀ t ∈ b.params, t.isReadable) → ¬ a.Clashes b →
      ∀ x ∈ a.file?, ∀ y ∈ b.file?, x ≠ y
  | .field _, _, _, _, _, _, _, _, hx, _, _ => nomatch hx
  | _, .field _, _, _, _, _, _, _, _, _, hy => nomatch hy
  | .method _ _ _, .ctor _, ha, _, _, _, _, _, rfl, _, rfl => fun h =>
    ha.ne_special.1 (congrArg Prod.fst h)
  | .ctor _, .method _ _ _, _, hb, _, _, _, _, rfl, _, rfl => fun h =>
    hb.ne_special.1 (congrArg Prod.fst h).symm
  | .method _ _ _, .method _ _ _, _, _, hps, hqs, hclash, _, rfl, _, rfl => fun h =>
    hclash ⟨congrArg Prod.fst h,
      Descriptor.params_eq_of_methodDescriptor hps hqs (congrArg Prod.snd h)⟩
  | .ctor _, .ctor _, _, _, hps, hqs, hclash, _, rfl, _, rfl => fun h =>
    hclash (Descriptor.params_eq_of_methodDescriptor hps hqs (congrArg Prod.snd h))

/-- A class file whose fields have distinct names and whose methods have distinct names or
descriptors. -/
structure ClassFile.Distinct (f : ClassFile) : Prop where
  fields : (f.fields.map FieldFile.name).Nodup
  methods : (f.methods.map fun m => (m.name, m.descriptor)).Nodup

/-- Keys that are sound and do not clash. -/
structure Apart (keys : List MemberKey) : Prop where
  named : ∀ k ∈ keys, k.IsNamed
  readable : ∀ k ∈ keys, ∀ t ∈ k.params, t.isReadable
  apart : keys.Pairwise fun a b => ¬ a.Clashes b

namespace Apart

variable {keys : List MemberKey} (h : Apart keys)

include h

theorem nodup_fields : (keys.filterMap MemberKey.fieldName?).Nodup := by
  refine List.pairwise_filterMap.2 (h.apart.imp ?_)
  rintro (x | _ | _) (y | _ | _) hclash _ hx _ hy <;> cases hx <;> cases hy
  exact hclash

theorem nodup_files : (keys.filterMap MemberKey.file?).Nodup := by
  refine List.pairwise_filterMap.2 (h.apart.imp_of_mem fun ha hb hclash x hx y hy => ?_)
  exact MemberKey.file?_ne (h.named _ ha) (h.named _ hb) (h.readable _ ha) (h.readable _ hb) hclash
    x hx y hy

theorem ne_classInitName (hx : x ∈ keys.filterMap MemberKey.file?) : x.1 ≠ classInitName := by
  obtain ⟨k, hk, hx⟩ := List.mem_filterMap.1 hx
  cases k with
  | field y => cases hx
  | method y ps r =>
    cases hx
    exact (h.named _ hk).ne_special.2
  | ctor ps =>
    cases hx
    exact (by decide : ctorName ≠ classInitName)

end Apart

namespace Lowering

theorem fieldFiles_names : ∀ members : List Member,
    ((fieldsOf members).flatMap fieldFiles).map FieldFile.name =
      (members.flatMap Member.keys).filterMap MemberKey.fieldName?
  | [] => rfl
  | .ctor c :: ms => fieldFiles_names ms
  | .method m :: ms => fieldFiles_names ms
  | .field f :: ms => by
    have ih := fieldFiles_names ms
    simp only [fieldsOf] at ih
    simp [fieldsOf, ih, Member.keys, fieldFiles, List.filterMap_map, Function.comp_def,
      MemberKey.fieldName?]

/-- The name and descriptor of a method in a class file. -/
def fileKey (m : MethodFile) : String × String := (m.name, m.descriptor)

theorem methodFile_key (hfile : methodFile h m = .ok file) :
    fileKey file = (m.name, m.descriptor) := by
  unfold methodFile at hfile
  split at hfile
  · obtain ⟨code, -, heq⟩ := exists_of_bind_eq_ok hfile
    cases heq
    rfl
  · cases hfile
    rfl

theorem memberFiles_keys (hfiles : memberFiles h inits m = .ok files) :
    files.map fileKey = m.keys.filterMap MemberKey.file? := by
  cases m with
  | ctor c =>
    obtain ⟨file, hfile, heq⟩ := exists_of_bind_eq_ok hfiles
    obtain ⟨code, -, hfile⟩ := exists_of_bind_eq_ok hfile
    cases hfile
    cases heq
    rfl
  | method m =>
    obtain ⟨file, hfile, heq⟩ := exists_of_bind_eq_ok hfiles
    cases heq
    exact congrArg ([·]) (methodFile_key hfile)
  | field f =>
    cases hfiles
    simp [Member.keys, MemberKey.file?, List.filterMap_map, Function.comp_def]

theorem classFile_distinct {d : ClassDecl} (hkeys : Apart (d.members.flatMap Member.keys))
    (hfile : classFile h name d = .ok file) : file.name = name ∧ file.Distinct := by
  obtain ⟨hname, hfields, methods, classInit, hmethods, heq, hclassInit⟩ := classFile_parts hfile
  have hfiles : methods.flatten.map fileKey =
      (d.members.flatMap Member.keys).filterMap MemberKey.file? := by
    rw [List.map_flatten, Analysis.map_eq_of_forall₂ (forall₂_of_mapM hmethods) fun _ _ =>
      memberFiles_keys, List.filterMap_flatMap, List.flatMap_def]
  refine ⟨hname, ?_, ?_⟩
  · rw [hfields, fieldFiles_names]
    exact hkeys.nodup_fields
  · change (file.methods.map fileKey).Nodup
    rw [heq, List.map_append, hfiles]
    obtain ⟨-, rfl⟩ | ⟨_, hrun, rfl⟩ := hclassInit
    · simpa using hkeys.nodup_files
    · obtain ⟨code, -, heq⟩ := exists_of_bind_eq_ok hrun
      cases heq
      refine List.nodup_append.2 ⟨hkeys.nodup_files, by simp, fun x hx y hy hxy => ?_⟩
      obtain rfl := List.mem_singleton.1 hy
      exact hkeys.ne_classInitName hx (congrArg Prod.fst hxy)

theorem interfaceMethods_keys : ∀ {ms}, (∀ m ∈ ms, ∃ decl, m = .method decl ∧ decl.body = none) →
      (interfaceMethods ms).map fileKey = (ms.flatMap Member.keys).filterMap MemberKey.file?
  | [], _ => rfl
  | m :: ms, h => by
    obtain ⟨decl, rfl, -⟩ := h m (by simp)
    have ih := interfaceMethods_keys fun m' hm' => h m' (List.mem_cons_of_mem _ hm')
    exact congrArg ((decl.name, decl.descriptor) :: ·) ih

theorem typeFile_distinct {d : TypeDecl} (hd : d.Settled h u)
    (hkeys : Apart (d.members.flatMap Member.keys)) (hfile : typeFile h u d = .ok file) :
    file.name = u.internalName d.name ∧ file.Distinct := by
  cases d with
  | classDecl d => exact classFile_distinct hkeys hfile
  | interfaceDecl d =>
    cases hfile
    refine ⟨rfl, .nil, ?_⟩
    change ((interfaceMethods d.members).map fileKey).Nodup
    rw [interfaceMethods_keys fun m hm => (hd m hm).2]
    exact hkeys.nodup_files

end Lowering

/-! ## Accepted sources -/

namespace Analysis

/-- The members of a recorded type have different keys. -/
theorem Recorded.apart {u : CompilationUnit} {log : Log Problem} {base : Context}
    (h : Recorded u log base) (hu : u.Written) {d : TypeDecl} (hd : d ∈ u.types) :
    Apart ((bodyMembers (resolvedIn base d).1).flatMap Member.keys) := by
  obtain ⟨hresolved, -, header, header', hgrows⟩ := h.written hu hd
  have hresolves := (describe_resolves d _ _ _ (h.described d hd)).members
  have hsound : ∀ m ∈ bodyMembers (resolvedIn base d).1, ∀ k ∈ m.keys,
      k.IsNamed ∧ ∀ t ∈ k.params, t.isReadable :=
    bodyMembers_forall (by simp [Member.keys, implicitCtor, MemberKey.IsNamed, MemberKey.params])
      fun m hm => by
        obtain ⟨m₀, hm₀, hr⟩ := exists_of_mem_forall₂ hresolves hm
        exact (hr.keyed ((hu.types d hd).members m₀ hm₀)).readable (hresolved m hm)
  refine ⟨fun k hk => ?_, fun k hk => ?_, bodyMembers_apart hgrows⟩
  · obtain ⟨m, hm, hk⟩ := List.mem_flatMap.1 hk
    exact (hsound m hm k hk).1
  · obtain ⟨m, hm, hk⟩ := List.mem_flatMap.1 hk
    exact (hsound m hm k hk).2

end Analysis

/-- The types of an accepted unit have different names, and the members of each different keys. -/
theorem Accepted.apart {file : String} {maxDepth : Nat} {source : String} {a : Analyzed}
    (h : Accepted file maxDepth source a) : (a.unit.types.map TypeDecl.name).Nodup ∧
      ∀ d ∈ a.unit.types, Apart (d.members.flatMap Member.keys) := by
  have hu := Grammar.parseSource_written h.parsed
  obtain ⟨base, types, c', hrecorded, hbodies, -, rfl, -⟩ := analyze_silent hu h.analyzed h.silent
  have hkept := Analysis.Returns.mapM_map Analysis.typeBody_keys _ _ _ _ hbodies
  constructor
  · have hnames := congrArg (List.map Prod.fst) hkept
    simp only [List.map_map, Function.comp_def] at hnames
    rw [hnames, List.map_congr_left fun d hd => (hrecorded.described d hd).name]
    exact hrecorded.distinct
  · intro d hd
    obtain ⟨d', hd', heq⟩ := List.mem_map.1 (hkept ▸ List.mem_map_of_mem hd)
    obtain ⟨d₀, hd₀, rfl⟩ := List.mem_map.1 hd'
    have hapart := hrecorded.apart hu hd₀
    rwa [List.flatMap_def, (Prod.mk.inj heq).2, ← List.flatMap_def] at hapart

/-- The class files of an accepted source have distinct names. In each of them the fields have
distinct names, and no two methods, constructors and class initializers included, have both the same
name and the same descriptor. -/
theorem accepted_distinct {file : String} {maxDepth : Nat} {source : String} {a : Analyzed}
    (h : Accepted file maxDepth source a) {files : List ClassFile}
    (hfiles : generate a.unit a.hierarchy = .ok files) :
    (files.map ClassFile.name).Nodup ∧ ∀ f ∈ files, f.Distinct := by
  obtain ⟨hnames, hkeys⟩ := h.apart
  have hsettled : a.Settled :=
    analyze_settled (Grammar.parseSource_written h.parsed) h.analyzed h.silent
  have hfile {d : TypeDecl} (hd : d ∈ a.unit.types) {f : ClassFile}
      (hrun : Lowering.typeFile a.hierarchy a.unit d = .ok f) :
      f.name = a.unit.internalName d.name ∧ f.Distinct :=
    Lowering.typeFile_distinct (hsettled d hd) (hkeys d hd) hrun
  constructor
  · have hruns := (List.forall₂_and_left (p := (· ∈ a.unit.types)) _ _).2
      ⟨fun _ => id, forall₂_of_mapM hfiles⟩
    rw [Analysis.map_eq_of_forall₂ hruns fun d f hrun => (hfile hrun.1 hrun.2).1]
    have hinternal := hnames.map (f := a.unit.internalName) fun _ _ => internalName_injective
    rwa [List.map_map] at hinternal
  · intro f hf
    obtain ⟨d, hd, hrun⟩ := exists_of_mem_mapM hfiles hf
    exact (hfile hd hrun).2

/-- A class with overloaded methods and constructors, static fields and an array, and an
interface. -/
def overloads : String :=
  "class A \x7b int x, y = 1; static int[] z = \x7b1\x7d; A() \x7b\x7d A(String s) \x7b\x7d " ++
  "int m(int[] a) \x7b return 1; \x7d int m(int a) \x7b return 2; \x7d " ++
  "int m(A a, String s) \x7b return 3; \x7d int m(String s, A a) \x7b return 4; \x7d \x7d " ++
  "interface I \x7b int m(int a); int m(I a); \x7d class B \x7b int x; \x7d"

theorem overloads_generates : generates "A.java" 64 overloads := by decide +kernel

theorem accepted_distinct_overloads : ∃ a files, Accepted "A.java" 64 overloads a ∧
    generate a.unit a.hierarchy = .ok files ∧ (files.map ClassFile.name).Nodup ∧
      ∀ f ∈ files, f.Distinct := by
  obtain ⟨a, files, ha, hfiles⟩ := exists_generated overloads_generates
  exact ⟨a, files, ha, hfiles, accepted_distinct ha hfiles⟩

end JMinusMinus
