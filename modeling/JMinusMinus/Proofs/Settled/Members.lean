import JMinusMinus.Proofs.Hierarchy.Order
import JMinusMinus.Proofs.Settled.Basic

/-!
# Members and conversions

What looking up a member answers when all headers are proper, and which conversions there are.
-/

namespace JMinusMinus

/-! ## Proper headers -/

/-- A name that can stand in a descriptor. -/
def isProperName (name : String) : Bool := !name.toList.contains ';'

/-- A header all of whose names and types can stand in descriptors. -/
def ClassHeader.isProper (c : ClassHeader) : Bool :=
  isProperName c.name && c.fields.all (·.ty.isProper) &&
    c.methods.all (fun m => m.params.all Ty.isProper && m.result.isProperResult) &&
    c.ctors.all (·.all Ty.isProper)

theorem builtin_isProper : ∀ c ∈ Builtin.classes, c.isProper := by decide +kernel

/-- Headers that are all proper. -/
def Hierarchy.Proper (h : Hierarchy) : Prop := ∀ c ∈ h.declared, c.isProper

namespace Hierarchy

variable {h : Hierarchy}

/-- The header that a name has is proper, and has this name. -/
theorem lookup_isProper (hh : h.Proper) (hc : h.lookup name = some c) :
    c.isProper ∧ c.name = name := by
  obtain ⟨hname, ⟨hmem, -⟩ | ⟨hmem, -⟩⟩ := lookup_cases hc
  · exact ⟨hh c hmem, hname⟩
  · exact ⟨builtin_isProper c hmem, hname⟩

theorem isProperName_of_contains (hh : h.Proper) (hc : h.contains name) : isProperName name := by
  obtain ⟨c, hc⟩ := Option.isSome_iff_exists.1 hc
  obtain ⟨hp, rfl⟩ := lookup_isProper hh hc
  simp only [ClassHeader.isProper, Bool.and_eq_true] at hp
  exact hp.1.1.1

theorem findField_isProper (hh : h.Proper) (hf : h.findField name field = some (owner, f)) :
    f.ty.isProper := by
  obtain ⟨o, -, ho⟩ := List.exists_of_findSome?_eq_some hf
  cases hc : h.lookup o with
  | none => simp [hc] at ho
  | some c =>
    cases hfield : c.field? field with
    | none => simp [hc, hfield] at ho
    | some g =>
      simp only [hc, hfield, bind, Option.bind, pure, Option.some.injEq, Prod.mk.injEq] at ho
      obtain ⟨hp, -⟩ := lookup_isProper hh hc
      simp only [ClassHeader.isProper, Bool.and_eq_true, List.all_eq_true] at hp
      rw [← ho.2]
      exact hp.1.1.2 g (List.mem_of_find?_eq_some hfield)

theorem mem_of_mem_firstByKey {α κ : Type} [DecidableEq κ] {key : α → κ} {items : List α} {x : α}
    (hx : x ∈ firstByKey key items) : x ∈ items := by
  have hfold : ∀ (items found : List α), x ∈ items.foldl
      (fun found x => if found.any (key · = key x) then found else found ++ [x]) found →
      x ∈ found ∨ x ∈ items := by
    intro items
    induction items with
    | nil => exact fun _ h => .inl h
    | cons y ys ih =>
      intro found hfound
      rcases ih _ hfound with h | h
      · dsimp only at h
        split at h
        · exact .inl h
        · rcases List.mem_append.1 h with h | h
          · exact .inl h
          · exact .inr (by simp_all)
      · exact .inr (List.mem_cons_of_mem _ h)
  simpa using hfold items [] hx

/-- The method that is selected is proper and takes as many arguments. -/
theorem selectMethod_found (hh : h.Proper) {name method owner : String} {args : List Ty}
    {m : MethodHeader} (hs : h.selectMethod name method args = .found (owner, m)) :
    (∀ p ∈ m.params, p.isProper) ∧ m.result.isProperResult ∧ m.params.length = args.length := by
  simp only [selectMethod] at hs
  split at hs
  case h_1 params hparams =>
    split at hs
    case h_1 found hfound =>
      cases hs
      have hm := List.mem_filter.1 (mem_of_mem_firstByKey (List.mem_of_find?_eq_some hfound))
      obtain ⟨o, -, ho⟩ := List.mem_flatMap.1 hm.1
      obtain ⟨m', hm', heq⟩ := List.mem_map.1 ho
      cases heq
      cases hc : h.lookup owner with
      | none => simp [hc] at hm'
      | some c =>
        rw [hc] at hm'
        obtain ⟨hp, -⟩ := lookup_isProper hh hc
        simp only [ClassHeader.isProper, Bool.and_eq_true, List.all_eq_true] at hp
        have hmp := hp.1.2 m hm'
        have hsame : m.params = params := by simpa using List.find?_some hfound
        exact ⟨hmp.1, hmp.2, by rw [hsame, (select_found hparams).2]⟩
    · cases hs
  all_goals cases hs

theorem selectCtor_found (hh : h.Proper) (hs : h.selectCtor name args = .found (r, params)) :
    (∀ p ∈ params, p.isProper) ∧ r.descriptor = Ty.methodDescriptor params .void ∧
      params.length = args.length := by
  simp only [selectCtor] at hs
  split at hs
  · cases hs
  case h_2 c hc =>
    obtain ⟨hp, -⟩ := lookup_isProper hh hc
    simp only [ClassHeader.isProper, Bool.and_eq_true, List.all_eq_true] at hp
    cases hsel : h.select c.ctors args with
    | found ps =>
      simp only [hsel, Selection.map, Selection.found.injEq, Prod.mk.injEq] at hs
      obtain ⟨rfl, rfl⟩ := hs
      obtain ⟨hmem, hlen⟩ := select_found hsel
      exact ⟨hp.2 ps hmem, rfl, hlen⟩
    | notFound => simp [hsel, Selection.map] at hs
    | ambiguous => simp [hsel, Selection.map] at hs

/-! ## Conversions -/

theorem isAssignable_cases {s t : Ty} (hs : h.isAssignable s t) (hne : s ≠ t) (hsa : s ≠ .any)
    (hta : t ≠ .any) :
    s.isNumeric ∧ t.isNumeric ∨ s.isReference ∧ t.isReference := by
  cases s <;> cases t <;> simp_all [isAssignable, widens, Ty.isAny, Ty.isNumeric, Ty.isReference]

end Hierarchy

end JMinusMinus
