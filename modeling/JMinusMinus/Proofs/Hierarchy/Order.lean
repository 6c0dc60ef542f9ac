import JMinusMinus.Hierarchy.Overload
import JMinusMinus.Proofs.Hierarchy.Ancestors
import Mathlib.Data.List.Forall2

/-!
# Assignability as an order

Between types without `any`, assignability is the relation `Assigns`, which has one rule for each
reason why a value may be stored. It is a preorder as soon as the root class has no parents, and an
order where inheritance does not lead back, since two classes that inherit from each other would be
on a cycle.

A call selects the least of its applicable candidates. An exact match and an only candidate are
least, so `select` asks for one thing on all its ways (`select_eq`).
-/

namespace JMinusMinus.Hierarchy

open Relation (TransGen ReflTransGen)

variable {h : Hierarchy} {s t u : Ty}

/-- Inheritance that does not lead back. -/
def Acyclic (h : Hierarchy) : Prop := ∀ name, ¬TransGen h.Parent name name

/-! ## Reasons to store -/

/-- How wide a number is. -/
def numberRank : Ty → Nat
  | .int => 1
  | .long => 2
  | .double => 3
  | _ => 0

/-- The rules of assignability, each as one case. -/
inductive Assigns (h : Hierarchy) : Ty → Ty → Prop
  | refl (t : Ty) : Assigns h t t
  | number {s t : Ty} : s.isNumeric → t.isNumeric → numberRank s < numberRank t → Assigns h s t
  | null {t : Ty} : t.isReference → Assigns h .null t
  | root {s : Ty} : s.isReference → Assigns h s .object
  | string {sup : String} : ReflTransGen h.Parent stringClass sup → Assigns h .string (.named sup)
  | named {sub sup : String} : ReflTransGen h.Parent sub sup → Assigns h (.named sub) (.named sup)
  | array {s t : Ty} : s.isPrimitive = false → t.isPrimitive = false → Assigns h s t →
      Assigns h (.array s) (.array t)

theorem widens_iff (hne : s ≠ t) (harrays : s.isArray = false ∨ t.isArray = false) :
    h.widens s t ↔ h.Assigns s t := by
  constructor
  · intro hw
    unfold widens at hw
    split at hw
    case h_7 => exact .null hw
    case h_8 name _ =>
      split at hw
      next hname =>
        subst hname
        exact .root hw
      next hname =>
        split at hw
        · exact .string ((isSubclass_iff.1 hw).resolve_right hname)
        · exact .named ((isSubclass_iff.1 hw).resolve_right hname)
        · cases hw
    case h_9 => cases hw
    all_goals exact .number rfl rfl (by decide)
  · intro ha
    cases ha with
    | refl => exact absurd rfl hne
    | number hs ht hlt =>
      cases s <;> cases hs <;> cases t <;> cases ht <;> first | rfl | exact absurd hlt (by decide)
    | null ht => exact ht
    | root hs => cases s <;> first | rfl | cases hs
    | string hsup | named hsup =>
      simp only [widens]
      split
      · rfl
      · exact isSubclass_iff.2 (.inl hsup)
    | array => rcases harrays with h | h <;> cases h

theorem isAssignable_iff_of_scalar (harrays : s.isArray = false ∨ t.isArray = false)
    (hs : s.element ≠ .any) (ht : t.element ≠ .any) : h.isAssignable s t ↔ h.Assigns s t := by
  have hany : ∀ {t : Ty}, t.element ≠ .any → t.isAny = false := by
    intro t ht
    cases t <;> first | rfl | exact absurd rfl ht
  have heq : h.isAssignable s t = (s = t || s.isAny || t.isAny || h.widens s t) := by
    unfold isAssignable
    split
    · rcases harrays with h | h <;> cases h
    · rfl
  rw [heq, hany hs, hany ht, Bool.or_false, Bool.or_false, Bool.or_eq_true, decide_eq_true_eq]
  by_cases hst : s = t
  · exact ⟨fun _ => hst ▸ .refl s, fun _ => .inl hst⟩
  · rw [widens_iff hst harrays, or_iff_right hst]

theorem isAssignable_iff (hs : s.element ≠ .any) (ht : t.element ≠ .any) :
    h.isAssignable s t ↔ h.Assigns s t := by
  induction s generalizing t with
  | array a ih =>
    cases t with
    | array b =>
      rw [isAssignable]
      split
      next hprim =>
        rw [decide_eq_true_eq]
        refine ⟨fun heq => heq ▸ .refl _, fun ha => ?_⟩
        cases ha with
        | refl => rfl
        | number ha => cases ha
        | array ha hb => simp [ha, hb] at hprim
      next hprim =>
        simp only [Bool.or_eq_true, not_or, Bool.not_eq_true] at hprim
        rw [ih (t := b) hs ht]
        refine ⟨.array hprim.1 hprim.2, fun ha => ?_⟩
        cases ha with
        | refl => exact .refl _
        | number ha => cases ha
        | array _ _ ha => exact ha
    | _ => exact isAssignable_iff_of_scalar (.inr rfl) hs ht
  | _ => exact isAssignable_iff_of_scalar (.inl rfl) hs ht

/-! ## The order -/

theorem Assigns.isReference (ha : h.Assigns s t) (hs : s.isReference) : t.isReference := by
  cases ha with
  | refl => exact hs
  | number hn => cases s <;> cases hs <;> cases hn
  | null ht => exact ht
  | root | string | named | array => rfl

theorem Assigns.isNumeric (ha : h.Assigns s t) (hs : s.isNumeric) :
    t.isNumeric ∧ numberRank s ≤ numberRank t := by
  cases ha with
  | refl => exact ⟨hs, Nat.le_refl _⟩
  | number _ ht hlt => exact ⟨ht, Nat.le_of_lt hlt⟩
  | root hr => cases s <;> first | cases hs; done | cases hr
  | null | string | named | array => cases hs

theorem eq_object_of_reflTransGen (hroot : h.parents objectClass = [])
    (hsup : ReflTransGen h.Parent objectClass sup) : sup = objectClass := by
  rcases hsup.cases_head with heq | ⟨c, hc, -⟩
  · exact heq.symm
  · simp [Parent, hroot] at hc

/-- Assignability is transitive. -/
theorem Assigns.trans (hroot : h.parents objectClass = []) (hst : h.Assigns s t)
    (htu : h.Assigns t u) : h.Assigns s u := by
  induction hst generalizing u with
  | refl => exact htu
  | number hs ht hlt =>
    obtain ⟨hu, hle⟩ := htu.isNumeric ht
    exact .number hs hu (Nat.lt_of_lt_of_le hlt hle)
  | null ht => exact .null (htu.isReference ht)
  | root hs =>
    cases htu with
    | refl | root => exact .root hs
    | number hn => cases hn
    | named hsup =>
      obtain rfl := eq_object_of_reflTransGen hroot hsup
      exact .root hs
  | string hsub =>
    cases htu with
    | refl => exact .string hsub
    | number hn => cases hn
    | root => exact .root rfl
    | named hsup => exact .string (hsub.trans hsup)
  | named hsub =>
    cases htu with
    | refl => exact .named hsub
    | number hn => cases hn
    | root => exact .root rfl
    | named hsup => exact .named (hsub.trans hsup)
  | array hs ht hst ih =>
    cases htu with
    | refl => exact .array hs ht hst
    | number hn => cases hn
    | root => exact .root rfl
    | array _ hu htu => exact .array hs hu (ih htu)

theorem Acyclic.antisymm (hh : h.Acyclic) (hab : ReflTransGen h.Parent a b)
    (hba : ReflTransGen h.Parent b a) : a = b := by
  rcases Relation.reflTransGen_iff_eq_or_transGen.1 hab with heq | hab
  · exact heq.symm
  · exact absurd (hab.trans_left hba) (hh a)

theorem Assigns.antisymm (hroot : h.parents objectClass = []) (hh : h.Acyclic)
    (hst : h.Assigns s t) (hts : h.Assigns t s) : s = t := by
  induction hst with
  | refl => rfl
  | number _ ht hlt => exact absurd hlt (Nat.not_lt.2 (hts.isNumeric ht).2)
  | null =>
    cases hts with
    | refl | null => rfl
    | number _ hn => cases hn
  | root =>
    cases hts with
    | refl | root => rfl
    | number hn => cases hn
    | named hsup => rw [eq_object_of_reflTransGen hroot hsup]; rfl
  | string =>
    cases hts with
    | number hn => cases hn
  | named hsub =>
    cases hts with
    | refl => rfl
    | number hn => cases hn
    | root => rw [eq_object_of_reflTransGen hroot hsub]
    | named hsup => rw [hh.antisymm hsub hsup]
  | array _ _ _ ih =>
    cases hts with
    | refl => rfl
    | number hn => cases hn
    | array _ _ hts => rw [ih hts]

/-- Assignability is a preorder on the types without `any`, if the root class has no parents, and an
order if inheritance does not lead back. -/
theorem isAssignable_order (hroot : h.parents objectClass = []) :
    (∀ t : Ty, t.element ≠ .any → h.isAssignable t t) ∧
    (∀ s t u : Ty, s.element ≠ .any → t.element ≠ .any → u.element ≠ .any →
      h.isAssignable s t → h.isAssignable t u → h.isAssignable s u) ∧
    (h.Acyclic → ∀ s t : Ty, s.element ≠ .any → t.element ≠ .any →
      h.isAssignable s t → h.isAssignable t s → s = t) := by
  refine ⟨fun t ht => (isAssignable_iff ht ht).2 (.refl t),
    fun s t u hs ht hu hst htu => ?_, fun hh s t hs ht hst hts => ?_⟩
  · rw [isAssignable_iff hs hu]
    exact ((isAssignable_iff hs ht).1 hst).trans hroot ((isAssignable_iff ht hu).1 htu)
  · exact ((isAssignable_iff hs ht).1 hst).antisymm hroot hh ((isAssignable_iff ht hs).1 hts)

theorem builtin_acyclic : ({} : Hierarchy).Acyclic := by
  have hstep : ∀ {a b}, Parent {} a b → builtinRank b < builtinRank a := by
    intro a b hab
    obtain ⟨c, hc, hb⟩ := hab.exists_lookup
    obtain ⟨rfl, ⟨hmem, -⟩ | ⟨hmem, -⟩⟩ := lookup_cases hc
    · cases hmem
    · exact (builtin_parents c hmem).2.2.2 b hb
  have hrank : ∀ {a b}, TransGen (Parent {}) a b → builtinRank b < builtinRank a := by
    intro a b hab
    induction hab with
    | single hab => exact hstep hab
    | tail _ hbc ih => exact Nat.lt_trans (hstep hbc) ih
  exact fun name hcycle => Nat.lt_irrefl _ (hrank hcycle)

theorem isAssignable_order_builtin :
    ({} : Hierarchy).parents objectClass = [] ∧ ({} : Hierarchy).Acyclic ∧
      ({} : Hierarchy).isAssignable (.array .string) .object = true ∧
      ¬({} : Hierarchy).isAssignable .object (.array .string) = true := by
  have horder := isAssignable_order (h := {}) (by decide)
  have hstore : ({} : Hierarchy).isAssignable (.array .string) .object = true := by decide
  refine ⟨by decide, builtin_acyclic, hstore, fun hback => ?_⟩
  have heq := horder.2.2 builtin_acyclic (.array .string) .object
    (by decide) (by decide) hstore hback
  cases heq

/-! ## Selection -/

/-- Types that may be stored one by one, and as many as are expected. -/
def Fits (h : Hierarchy) (sources targets : List Ty) : Prop :=
  List.Forall₂ (fun s t => h.isAssignable s t = true) sources targets

/-- Arguments fit parameters if there are as many and each can be assigned. -/
theorem fits_iff : h.Fits ss ts ↔ ss.length = ts.length ∧ h.allAssignable ss ts = true := by
  rw [Fits, List.forall₂_iff_zip, allAssignable, List.all_eq_true, Prod.forall]

theorem isApplicable_iff : h.isApplicable args params ↔ h.Fits args params := by
  rw [isApplicable, Bool.and_eq_true, decide_eq_true_eq, fits_iff, eq_comm]

theorem isAssignable_refl (h : Hierarchy) (t : Ty) : h.isAssignable t t := by
  induction t with
  | array t ih =>
    rw [isAssignable]
    split
    · simp
    · exact ih
  | _ => simp [isAssignable]

theorem Fits.refl (h : Hierarchy) (ts : List Ty) : h.Fits ts ts :=
  List.forall₂_same.2 fun t _ => isAssignable_refl h t

theorem Fits.antisymm (hroot : h.parents objectClass = []) (hh : h.Acyclic)
    (hss : ∀ s ∈ ss, s.element ≠ .any) (hts : ∀ t ∈ ts, t.element ≠ .any) (hst : h.Fits ss ts)
    (hback : h.Fits ts ss) : ss = ts := by
  induction hst with
  | nil => rfl
  | cons hst _ ih =>
    rw [List.forall_mem_cons] at hss hts
    cases hback with
    | cons hts' hback =>
      rw [isAssignable_iff hss.1 hts.1] at hst
      rw [isAssignable_iff hts.1 hss.1] at hts'
      rw [hst.antisymm hroot hh hts', ih hss.2 hts.2 hback]

variable {candidates : List (List Ty)} {args params : List Ty}

/-- The applicable candidates that fit all applicable ones. -/
def leastOf (h : Hierarchy) (candidates : List (List Ty)) (args : List Ty) : List (List Ty) :=
  (candidates.filter (h.isApplicable args)).filter fun m =>
    (candidates.filter (h.isApplicable args)).all fun n => h.allAssignable m n

theorem mem_leastOf : params ∈ h.leastOf candidates args ↔
    params ∈ candidates ∧ h.Fits args params ∧
      ∀ ps ∈ candidates, h.Fits args ps → h.Fits params ps := by
  simp only [leastOf, List.mem_filter, List.all_eq_true, isApplicable_iff, and_assoc, and_imp]
  refine and_congr_right fun _ => and_congr_right fun hparams => ?_
  refine forall_congr' fun ps => imp_congr_right fun _ => imp_congr_right fun hps => ?_
  rw [fits_iff, and_iff_right (hparams.length_eq.symm.trans hps.length_eq)]

theorem select_eq_found_iff : h.select candidates args = .found params ↔
    args ∈ candidates ∧ params = args ∨
      args ∉ candidates ∧ h.leastOf candidates args = [params] := by
  simp only [select, List.contains_iff_mem]
  split
  next hexact => simp [hexact, eq_comm]
  next hexact =>
    simp only [hexact, false_and, not_false_eq_true, true_and, false_or, leastOf]
    split
    next hnone => simp [hnone]
    next ps hone => simp [hone, (fits_iff.1 (Fits.refl h ps)).2]
    next => split <;> simp_all

theorem select_eq_notFound_iff :
    h.select candidates args = .notFound ↔ ∀ ps ∈ candidates, ¬h.Fits args ps := by
  have hnone : candidates.filter (h.isApplicable args) = [] ↔
      ∀ ps ∈ candidates, ¬h.Fits args ps := by
    simp only [List.filter_eq_nil_iff, isApplicable_iff]
  rw [← hnone]
  simp only [select, List.contains_iff_mem]
  split
  next hexact =>
    refine ⟨nofun, fun hnil => ?_⟩
    exact absurd (Fits.refl h args) (hnone.1 hnil args hexact)
  next =>
    split
    next hnil => simp [hnil]
    next hone => simp [hone]
    next happ _ => split <;> exact ⟨nofun, fun hnil => absurd hnil happ⟩

theorem select_perm (hperm : candidates.Perm others) :
    h.select others args = h.select candidates args := by
  have happ := hperm.filter (h.isApplicable args)
  have hleast : (h.leastOf candidates args).Perm (h.leastOf others args) := by
    simp only [leastOf, happ.all_eq]
    exact happ.filter _
  have hfound : ∀ ps, h.select others args = .found ps ↔ h.select candidates args = .found ps := by
    intro ps
    have hone : h.leastOf others args = [ps] ↔ h.leastOf candidates args = [ps] := by
      rw [← List.perm_singleton, ← List.perm_singleton]
      exact ⟨hleast.trans, hleast.symm.trans⟩
    rw [select_eq_found_iff, select_eq_found_iff, hperm.mem_iff, hone]
  have hnone : h.select others args = .notFound ↔ h.select candidates args = .notFound := by
    simp only [select_eq_notFound_iff, hperm.mem_iff]
  cases hs : h.select candidates args with
  | found ps => exact (hfound ps).2 hs
  | notFound => exact hnone.2 hs
  | ambiguous =>
    cases ho : h.select others args with
    | found ps => cases hs.symm.trans ((hfound ps).1 ho)
    | notFound => cases hs.symm.trans (hnone.1 ho)
    | ambiguous => rfl

theorem mem_leastOf_of_select (hs : h.select candidates args = .found params) :
    params ∈ h.leastOf candidates args := by
  rcases select_eq_found_iff.1 hs with ⟨hexact, rfl⟩ | ⟨-, hone⟩
  · exact mem_leastOf.2 ⟨hexact, .refl h params, fun _ _ hps => hps⟩
  · rw [hone]
    exact List.mem_singleton_self params

theorem select_found (hs : h.select candidates args = .found params) :
    params ∈ candidates ∧ params.length = args.length := by
  obtain ⟨hmem, hfits, -⟩ := mem_leastOf.1 (mem_leastOf_of_select hs)
  exact ⟨hmem, hfits.length_eq.symm⟩

theorem selectMethod_length (hs : h.selectMethod name method args = .found (owner, m)) :
    m.params.length = args.length := by
  simp only [selectMethod] at hs
  split at hs
  case h_1 params hparams =>
    split at hs
    case h_1 found hfound =>
      cases hs
      have hsame : m.params = params := by simpa using List.find?_some hfound
      rw [hsame, (select_found hparams).2]
    · cases hs
  all_goals cases hs

theorem selectCtor_length (hs : h.selectCtor name args = .found found) :
    found.2.length = args.length := by
  simp only [selectCtor] at hs
  split at hs
  · cases hs
  case h_2 c hc =>
    cases hsel : h.select c.ctors args with
    | found ps =>
      simp only [hsel, Selection.map, Selection.found.injEq] at hs
      rw [← hs]
      exact (select_found hsel).2
    | notFound => simp [hsel, Selection.map] at hs
    | ambiguous => simp [hsel, Selection.map] at hs

theorem select_eq_found_of_mem (hroot : h.parents objectClass = []) (hh : h.Acyclic)
    (hnodup : candidates.Nodup) (hany : ∀ ps ∈ candidates, ∀ t ∈ ps, t.element ≠ .any)
    (hleast : params ∈ h.leastOf candidates args) : h.select candidates args = .found params := by
  have hunique : ∀ ps ∈ h.leastOf candidates args, ps = params := by
    intro ps hps
    rw [mem_leastOf] at hps hleast
    exact Fits.antisymm hroot hh (hany ps hps.1) (hany params hleast.1)
      (hps.2.2 params hleast.1 hleast.2.1) (hleast.2.2 ps hps.1 hps.2.1)
  by_cases hexact : args ∈ candidates
  · refine select_eq_found_iff.2 (.inl ⟨hexact, ?_⟩)
    exact (hunique args (mem_leastOf.2 ⟨hexact, .refl h args, fun _ _ hps => hps⟩)).symm
  · refine select_eq_found_iff.2 (.inr ⟨hexact, ?_⟩)
    have hnodup' : (h.leastOf candidates args).Nodup := (hnodup.filter _).filter _
    exact List.perm_singleton.1 ((List.perm_ext_iff_of_nodup hnodup' (List.nodup_singleton _)).2
      fun ps => ⟨fun hps => List.mem_singleton.2 (hunique ps hps),
        fun hps => List.mem_singleton.1 hps ▸ hleast⟩)

theorem parents_object (hobject : h.isDeclared objectClass = false) :
    h.parents objectClass = [] := by
  have hnone : h.declared? objectClass = none := by simpa [isDeclared] using hobject
  rw [parents, lookup, hnone]
  decide

/-- Selection does not depend on the order of the candidates. It finds a least applicable one, and
nothing only if none is applicable. Where types are ordered, it is ambiguous only if several are
applicable and none of them is least. -/
theorem select_least (h : Hierarchy) (candidates : List (List Ty)) (args : List Ty) :
    (∀ others, candidates.Perm others → h.select others args = h.select candidates args) ∧
    (∀ params, h.select candidates args = .found params →
      params ∈ candidates ∧ h.Fits args params ∧
        ∀ ps ∈ candidates, h.Fits args ps → h.Fits params ps) ∧
    (h.select candidates args = .notFound ↔ ∀ ps ∈ candidates, ¬h.Fits args ps) ∧
    (candidates.Nodup → (∀ ps ∈ candidates, ∀ t ∈ ps, t.element ≠ .any) → h.Acyclic →
      h.isDeclared objectClass = false →
      (h.select candidates args = .ambiguous ↔
        (∃ ps ∈ candidates, ∃ qs ∈ candidates, ps ≠ qs ∧ h.Fits args ps ∧ h.Fits args qs) ∧
          ∀ ps ∈ candidates, h.Fits args ps → ∃ qs ∈ candidates, h.Fits args qs ∧
            ¬h.Fits ps qs)) := by
  refine ⟨fun others => select_perm, fun params hs => mem_leastOf.1 (mem_leastOf_of_select hs),
    select_eq_notFound_iff, fun hnodup hany hh hobject => ⟨fun hs => ?_, fun ⟨⟨ps, hps⟩, hnone⟩ =>
      ?_⟩⟩
  · have hnone : ∀ ps ∈ candidates, h.Fits args ps →
        ∃ qs ∈ candidates, h.Fits args qs ∧ ¬h.Fits ps qs := by
      intro ps hps hfits
      by_contra hleast
      push Not at hleast
      have hfound := select_eq_found_of_mem (parents_object hobject) hh hnodup hany
        (mem_leastOf.2 ⟨hps, hfits, hleast⟩)
      cases hs.symm.trans hfound
    have hsome : ¬∀ ps ∈ candidates, ¬h.Fits args ps := by
      rw [← select_eq_notFound_iff, hs]
      exact nofun
    push Not at hsome
    obtain ⟨ps, hps, hfits⟩ := hsome
    obtain ⟨qs, hqs, hfits', hnot⟩ := hnone ps hps hfits
    refine ⟨⟨ps, hps, qs, hqs, ?_, hfits, hfits'⟩, hnone⟩
    rintro rfl
    exact hnot (.refl h ps)
  · cases hs : h.select candidates args with
    | ambiguous => rfl
    | notFound =>
      obtain ⟨qs, -, -, hfits, -⟩ := hps.2
      exact absurd hfits (select_eq_notFound_iff.1 hs ps hps.1)
    | found params =>
      obtain ⟨hmem, hfits, hleast⟩ := mem_leastOf.1 (mem_leastOf_of_select hs)
      obtain ⟨qs, hqs, hfits', hnot⟩ := hnone params hmem hfits
      exact absurd (hleast qs hqs hfits') hnot

/-- Two candidates that cross: neither of them is least for `null` and `null`. -/
theorem select_least_crossed :
    ({} : Hierarchy).select [[.object, .string], [.string, .object]] [.null, .null] =
      .ambiguous := by
  have hfits : ∀ {ss ts : List Ty}, ss.length = ts.length → ({} : Hierarchy).allAssignable ss ts →
      ({} : Hierarchy).Fits ss ts := fun hlength hall => fits_iff.2 ⟨hlength, hall⟩
  have hnot : ∀ {ss ts : List Ty}, ({} : Hierarchy).allAssignable ss ts = false →
      ¬({} : Hierarchy).Fits ss ts := fun hall h => by simp [hall, fits_iff] at h
  refine ((select_least {} [[.object, .string], [.string, .object]] [.null, .null]).2.2.2
    (by decide) (by decide) builtin_acyclic (by decide)).2 ⟨?_, ?_⟩
  · exact ⟨_, .head _, _, .tail _ (.head _), by decide, hfits rfl (by decide),
      hfits rfl (by decide)⟩
  · intro ps hps _
    rcases List.mem_cons.1 hps with rfl | hps
    · exact ⟨_, .tail _ (.head _), hfits rfl (by decide), hnot (by decide)⟩
    · obtain rfl := List.mem_singleton.1 hps
      exact ⟨_, .head _, hfits rfl (by decide), hnot (by decide)⟩

end JMinusMinus.Hierarchy
