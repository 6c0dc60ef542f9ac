import JMinusMinus.Proofs.Equations
import JMinusMinus.Proofs.Settled.Expr
import JMinusMinus.Proofs.Stack.Balance

/-!
# Stack heights of expressions

The code of a settled expression takes nothing from the stack that it did not put there, and
leaves what its use asks for (`expr_shifts`):

* a value leaves the words of its type,
* an effect, a dropped target, a jump on a test and an appended part leave the height as it was,
  and a jump meets its label with that height,
* an address leaves what is needed below the value of a store.

The height may be any at the start, since the stack below is not touched. Only a part of a string
needs its builder there.
-/

namespace JMinusMinus.Lowering

variable {P : List Nat → Prop} {k k' : Nat}

/-! ## Words -/

theorem words_promoted (t : Ty) : t.promoted.words = t.words := by
  cases t <;> rfl

theorem words_of_isReference {t : Ty} (h : t.isReference) : t.words = 1 := by
  cases t <;> first | rfl | cases h

theorem ne_void_of_isProper {t : Ty} (h : t.isProper) : t ≠ .void := by
  rintro rfl
  cases h

theorem words_le (t : Ty) : t.words ≤ 2 := by
  cases t <;> simp [Ty.words]

/-- A value takes as many words as the type it fits. -/
theorem words_eq_of_fits {e : Expr} (hfits : e.Fits h t) : e.ty.words = t.words := by
  rcases hfits with rfl | ⟨hs, ht, -⟩
  · rfl
  · rw [words_of_isReference hs, words_of_isReference ht]

/-! ## Selected opcodes -/

theorem loadOp_moves (h : t ≠ .void) : (loadOp t).Moves 0 t.words := by
  cases t <;> first | exact ⟨rfl, rfl⟩ | exact absurd rfl h

theorem storeOp_moves (h : t ≠ .void) : (storeOp t).Moves t.words 0 := by
  cases t <;> first | exact ⟨rfl, rfl⟩ | exact absurd rfl h

theorem elementLoadOp_moves (h : t ≠ .void) : (elementLoadOp t).Moves 2 t.words := by
  cases t <;> first | exact ⟨rfl, rfl⟩ | exact absurd rfl h

theorem elementStoreOp_moves (h : t ≠ .void) : (elementStoreOp t).Moves (2 + t.words) 0 := by
  cases t <;> first | exact ⟨rfl, rfl⟩ | exact absurd rfl h

theorem byType_moves {int long double : Opcode} (hint : int.Moves n 1)
    (hlong : long.Moves (2 * n) 2) (hdouble : double.Moves (2 * n) 2) {t : Ty} (h : t.isNumeric) :
    (byType int long double t).Moves (t.words * n) t.words := by
  cases t with
  | int | char => simpa [byType, Ty.words] using hint
  | long => simpa [byType, Ty.words] using hlong
  | double => simpa [byType, Ty.words] using hdouble
  | _ => cases h

theorem binaryOp_moves {o : BinaryOp} (h : o.Typed lt rt t) (ho : o.isCondition = false) :
    (binaryOp o t).Moves (lt.words + rt.words) t.words := by
  have hwords : ∀ s : Ty, s.promoted = t → s.words = t.words := fun s hs => by
    rw [← words_promoted s, hs]
  cases o with
  | add | sub | mul | div | rem =>
    obtain ⟨hl, hr, ht⟩ := h
    rw [hwords lt hl, hwords rt hr, ← Nat.mul_two]
    exact byType_moves ⟨rfl, rfl⟩ ⟨rfl, rfl⟩ ⟨rfl, rfl⟩ ht
  | shl | shr | ushr =>
    obtain ⟨hl, ht, hr⟩ := h
    have hrt : rt.words = 1 := by rw [← words_promoted rt, hr]; rfl
    rw [hwords lt hl, hrt]
    cases t <;> first | exact ⟨rfl, rfl⟩ | cases ht
  | bitAnd | bitOr | bitXor =>
    obtain ⟨hl, hr, ht⟩ := h
    rw [hwords lt hl, hwords rt hr]
    cases t <;> first | exact ⟨rfl, rfl⟩ | cases ht
  | _ => cases ho

theorem copyUnder_moves (h : t ≠ .void) (hwords : words ≤ 2) :
    (copyUnder words t).Moves (words + t.words) (words + t.words + t.words) := by
  obtain rfl | rfl | rfl : words = 0 ∨ words = 1 ∨ words = 2 := by omega
  all_goals cases t <;> first | exact ⟨rfl, rfl⟩ | exact absurd rfl h

theorem zeroBranch_moves (o : BinaryOp) : (zeroBranch o).Moves 1 0 := by
  cases o <;> exact ⟨rfl, rfl⟩

theorem intBranch_moves (o : BinaryOp) : (intBranch o).Moves 2 0 := by
  cases o <;> exact ⟨rfl, rfl⟩

theorem doubleCompare_moves (o : BinaryOp) : (doubleCompare o).Moves 4 1 := by
  cases o <;> exact ⟨rfl, rfl⟩

theorem smallInt?_moves (h : smallInt? value = some o) : o.Moves 0 1 := by
  unfold smallInt? at h
  repeat' split at h
  all_goals first | cases h; exact ⟨rfl, rfl⟩ | cases h

/-! ## Constants and conversions -/

theorem load_shifts {i : Instruction} (heffect : i.effect = some (0, words))
    (htargets : i.targets = []) : Shifts P (instr i) k (k + words) :=
  instr_shifts heffect (Nat.zero_le k) (by simp [htargets]) fun _ => rfl

theorem pushInt_shifts (value : Int) : Shifts P (pushInt value) k (k + 1) := by
  unfold pushInt intLoad
  split
  next o ho => exact op_shifts (smallInt?_moves ho) (Nat.zero_le k) rfl
  next =>
    repeat' split
    all_goals exact load_shifts rfl rfl

theorem longLoad_shifts (value : Int) : Shifts P (instr (longLoad value)) k (k + 2) := by
  unfold longLoad
  repeat' split
  all_goals exact load_shifts rfl rfl

theorem doubleLoad_shifts (value : Binary64) : Shifts P (instr (doubleLoad value)) k (k + 2) := by
  unfold doubleLoad
  repeat' split
  all_goals exact load_shifts rfl rfl

theorem literal_shifts (line : Nat) (l : Literal) :
    Shifts P (literal line l) k (k + l.ty.words) := by
  cases l with
  | int image | char image =>
    refine ofExcept_balances.bind fun value => ?_
    cases value with
    | some value => exact pushInt_shifts value
    | none => exact failWith_balances
  | long image =>
    simp only [literal]
    split
    next value _ => exact longLoad_shifts value
    next => exact failWith_balances
  | double image =>
    simp only [literal]
    split
    next value _ => exact doubleLoad_shifts value
    next => exact failWith_balances
  | string image =>
    refine ofExcept_balances.bind fun value => ?_
    cases value with
    | some value => exact load_shifts rfl rfl
    | none => exact failWith_balances
  | boolean value => cases value <;> exact op_shifts ⟨rfl, rfl⟩ (Nat.zero_le k) rfl
  | null => exact op_shifts ⟨rfl, rfl⟩ (Nat.zero_le k) rfl

theorem forM_conversionOps_shifts {source target : Ty} (hs : source.isNumeric)
    (ht : target.isNumeric) :
    Shifts P ((conversionOps source target).forM op) (k + source.words) (k + target.words) := by
  have hnone : ∀ {m : Nat}, Shifts P (List.forM [] op) m m := .skip
  have hone : ∀ {o : Opcode} {takes puts : Nat}, o.Moves takes puts →
      Shifts P (List.forM [o] op) (k + takes) (k + puts) := fun h =>
    (op_shifts h (by omega) (by omega)).seq hnone
  have htwo : ∀ {o o' : Opcode} {takes puts : Nat}, o.Moves takes 1 → o'.Moves 1 puts →
      Shifts P (List.forM [o, o'] op) (k + takes) (k + puts) := fun h h' =>
    .seq (m := k + 1) (op_shifts h (by omega) (by omega)) (hone h')
  cases source <;> try cases hs
  all_goals cases target <;> try cases ht
  all_goals first | exact hnone | exact hone ⟨rfl, rfl⟩ | exact htwo ⟨rfl, rfl⟩ ⟨rfl, rfl⟩

theorem conversion_shifts (hcast : Analysis.castable h source target) (hs : source ≠ .any)
    (ht : target ≠ .any) :
    Shifts P (conversion h source target) (k + source.words) (k + target.words) := by
  unfold conversion
  by_cases heq : source = target
  · subst heq
    simpa using .skip
  simp only [Analysis.castable, heq, decide_false, Ty.isAny_eq_false hs, Ty.isAny_eq_false ht,
    Bool.or_false, Bool.false_or, Bool.or_eq_true, Bool.and_eq_true] at hcast
  simp only [ne_eq, heq, not_false_eq_true, ite_true]
  rcases hcast with ⟨hs, ht⟩ | ⟨⟨hs, ht⟩, -⟩
  · have : target.isReference = false := by cases target <;> first | rfl | cases ht
    simpa [this] using forM_conversionOps_shifts hs ht
  · rw [words_of_isReference hs, words_of_isReference ht]
    simp only [ht, ite_true]
    split
    · exact .skip
    · exact reference_shifts ⟨rfl, rfl⟩ (by omega) rfl

/-! ## Calls and strings -/

theorem invoke_shifts (kind : InvokeKind) (hdescriptor : descriptor = Ty.methodDescriptor params t)
    (hparams : ∀ p ∈ params, p.isProper) (ht : t.isProperResult) :
    Shifts P (member (invokeOp kind) owner name descriptor)
      (k + (if kind = .static then 0 else 1) + Ty.sumWords params) (k + t.words) := by
  have heffect := Descriptor.methodWords_methodDescriptor hparams ht
  subst hdescriptor
  refine member_shifts ((if kind = .static then 0 else 1) + Ty.sumWords params) t.words ?_
    (by omega) (by omega)
  cases kind <;> simp [Instruction.effect, invokeOp, heffect]

theorem builder_isProper : (Ty.named builderClass).isProper := by decide

theorem appendValue_shifts (ht : t ≠ .void) (hk : 1 ≤ k) :
    Shifts P (appendValue t) (k + t.words) k := by
  have hwords : (appendType t).words = t.words := by
    cases t <;> first | rfl | exact absurd rfl ht
  have hproper : ∀ p ∈ [appendType t], p.isProper := by
    intro p hp
    obtain rfl := List.mem_singleton.1 hp
    cases t <;> rfl
  have hbuilder : (Ty.named builderClass).isProperResult := by
    simp [Ty.isProperResult, builder_isProper]
  have heffect := Descriptor.methodWords_methodDescriptor hproper hbuilder
  refine member_shifts (1 + t.words) 1 ?_ (by omega) (by omega)
  have hresult : (Ty.named builderClass).words = 1 := rfl
  simp [Instruction.effect, heffect, Ty.sumWords, hwords, hresult]

theorem newBuilder_shifts : Shifts P newBuilder k (k + 1) := by
  refine .seq (m := k + 1) (reference_shifts ⟨rfl, rfl⟩ (Nat.zero_le k) rfl) ?_
  refine .seq (m := k + 2) (op_shifts ⟨rfl, rfl⟩ (by omega) rfl) ?_
  exact invoke_shifts (k := k + 1) .special rfl nofun rfl

theorem builderOfString_shifts : Shifts P builderOfString (k + 1) (k + 1) := by
  have hobject : ∀ p ∈ [Ty.object], p.isProper := by decide
  refine .seq (m := k + 1) (invoke_shifts (k := k) .static rfl hobject rfl) ?_
  refine .seq (m := k + 2) (reference_shifts ⟨rfl, rfl⟩ (Nat.zero_le _) rfl) ?_
  refine .seq (m := k + 3) (op_shifts ⟨rfl, rfl⟩ (by omega) rfl) ?_
  refine .seq (m := k + 3) (op_shifts ⟨rfl, rfl⟩ (by omega) rfl) ?_
  exact invoke_shifts (k := k + 1) .special rfl (by simp [Ty.isProper]) rfl

theorem builderText_shifts (hk : 1 ≤ k) : Shifts P builderText k k := by
  obtain ⟨k, rfl⟩ := Nat.exists_eq_add_of_le' hk
  exact invoke_shifts (k := k) .virtual rfl nofun rfl

/-! ## Uses -/

/-- The words of what a store to a variable needs below the value. -/
def addressWords : Expr → Nat
  | .field _ _ _ (some r) => if r.isStatic then 0 else 1
  | .element .. => 2
  | _ => 0

namespace Use

/-- The height of the stack after an expression in a use. -/
def height (k : Nat) (e : Expr) : Use → Nat
  | value => k + e.ty.words
  | address => k + addressWords e
  | _ => k

/-- What a use asks of the expression and of the stack under it. -/
def Suits (k : Nat) (e : Expr) : Use → Prop
  | discarded => e.ty.isReference
  | branch _ _ => e.ty = .boolean
  | append => 1 ≤ k ∧ e.ty ≠ .void
  | _ => True

/-- A use whose label has the height at its start. -/
def Lands (k : Nat) : Use → List Nat → Prop
  | branch target _, heights => target.At k heights
  | _, _ => True

variable {use : Use} {e : Expr} {t : Ty}

/-- What a use does with a value on the stack. -/
theorem finish_shifts (e : Expr) (ht : e.note.ty = some t) (hsuits : use.Suits k e)
    (hlands : ∀ ℓ, P ℓ → use.Lands k ℓ) (hx : Shifts P x k (k + t.words)) :
    Shifts P (use.finish e.note x) k (use.height k e) := by
  obtain rfl : e.ty = t := by simp [Expr.ty, ht]
  cases use with
  | value => exact hx
  | effect =>
    refine hx.seq ?_
    change Shifts P ((dropOps e.ty.words).forM op) _ _
    have hle := words_le e.ty
    obtain h | h | h : e.ty.words = 0 ∨ e.ty.words = 1 ∨ e.ty.words = 2 := by omega
    all_goals rw [h]
    · exact .skip
    · exact .seq (m := k) (op_shifts ⟨rfl, rfl⟩ (by omega) rfl) (.skip)
    · exact .seq (m := k) (op_shifts ⟨rfl, rfl⟩ (by omega) rfl) (.skip)
  | discarded =>
    refine hx.seq ?_
    rw [words_of_isReference hsuits]
    exact op_shifts ⟨rfl, rfl⟩ (by omega) rfl
  | branch target sense =>
    refine hx.seq ?_
    rw [show e.ty = .boolean from hsuits]
    cases sense <;> exact branch_shifts ⟨rfl, rfl⟩ (by simp [Ty.words]) rfl hlands
  | append => exact hx.seq (appendValue_shifts hsuits.2 hsuits.1)
  | address => exact failWith_balances

/-- The code of a test, for any label at the height of its start. -/
def Tests (test : Label → Bool → Lowering Unit) (k : Nat) : Prop :=
  ∀ (P : List Nat → Prop) (target : Label) (sense : Bool), (∀ ℓ, P ℓ → target.At k ℓ) →
    Shifts P (test target sense) k k

theorem booleanValue_shifts {test : Label → Bool → Lowering Unit} (htest : Tests test k) :
    Shifts P (booleanValue test) k (k + 1) := by
  refine (newLabel_balances k).bind fun otherwise => ?_
  refine (newLabel_balances (k + 1)).bind fun stop => ?_
  refine .seq (htest _ _ _ fun _ h => h.1.2) ?_
  refine .seq (m := k + 1) (op_shifts ⟨rfl, rfl⟩ (Nat.zero_le k) rfl) ?_
  refine .seq (m := k) (goto_shifts fun _ h => h.2) ?_
  refine .seq (mark_balances fun _ h => h.1.2) ?_
  refine .seq (m := k + 1) (op_shifts ⟨rfl, rfl⟩ (Nat.zero_le k) rfl) ?_
  exact mark_balances fun _ h => h.2

theorem decide_shifts (e : Expr) {test : Label → Bool → Lowering Unit}
    (ht : e.note.ty = some .boolean) (hsuits : use.Suits k e)
    (hlands : ∀ ℓ, P ℓ → use.Lands k ℓ) (htest : Tests test k) :
    Shifts P (use.decide e.note test) k (use.height k e) := by
  cases use with
  | branch target sense => exact htest P target sense hlands
  | _ => exact finish_shifts e ht hsuits hlands (booleanValue_shifts htest)

theorem store_shifts (e : Expr) {code : Bool → Lowering Unit} (ht : e.note.ty = some t)
    (hsuits : use.Suits k e) (hlands : ∀ ℓ, P ℓ → use.Lands k ℓ)
    (hcode : ∀ wanted, Shifts P (code wanted) k (k + if wanted then t.words else 0)) :
    Shifts P (use.store e.note code) k (use.height k e) := by
  cases use with
  | effect => exact hcode false
  | _ => exact finish_shifts e ht hsuits hlands (hcode true)

end Use

/-! ## Conditions -/

theorem bothBranch_tests {lhs rhs : Label → Bool → Lowering Unit} (hl : Use.Tests lhs k)
    (hr : Use.Tests rhs k) : Use.Tests (bothBranch lhs rhs) k := by
  intro P target sense htarget
  cases sense with
  | true =>
    refine (newLabel_balances k).bind fun skip => ?_
    refine .seq (hl _ _ _ fun _ h => h.2) ?_
    refine .seq (hr _ _ _ fun ℓ h => htarget ℓ h.1) ?_
    exact mark_balances fun _ h => h.2
  | false => exact .seq (hl _ _ _ htarget) (hr _ _ _ htarget)

theorem eitherBranch_tests {lhs rhs : Label → Bool → Lowering Unit} (hl : Use.Tests lhs k)
    (hr : Use.Tests rhs k) : Use.Tests (eitherBranch lhs rhs) k := by
  intro P target sense htarget
  cases sense with
  | true => exact .seq (hl _ _ _ htarget) (hr _ _ _ htarget)
  | false =>
    refine (newLabel_balances k).bind fun skip => ?_
    refine .seq (hl _ _ _ fun _ h => h.2) ?_
    refine .seq (hr _ _ _ fun ℓ h => htarget ℓ h.1) ?_
    exact mark_balances fun _ h => h.2

/-- Operands that are compared take the words of the type that they are compared in. -/
structure Compared (lhs rhs : Expr) : Prop where
  left : lhs.ty.words = (comparisonType lhs rhs).words
  right : rhs.ty.words = (comparisonType lhs rhs).words
  ne_void : comparisonType lhs rhs ≠ .void

theorem compared_of_primitive {lhs rhs : Expr} (heq : lhs.ty.promoted = rhs.ty.promoted)
    (hprim : lhs.ty.promoted.isPrimitive) : Compared lhs rhs := by
  have htype : comparisonType lhs rhs = lhs.ty.promoted := by
    rw [comparisonType, if_neg]
    intro hnull
    rw [hnull] at hprim
    cases hprim
  refine ⟨?_, ?_, ?_⟩
  · rw [htype, words_promoted]
  · rw [htype, heq, words_promoted]
  · rw [htype]
    intro hvoid
    rw [hvoid] at hprim
    cases hprim

theorem compared_of_reference {lhs rhs : Expr} (hl : lhs.ty.isReference)
    (hr : rhs.ty.isReference) : Compared lhs rhs := by
  have htype : (comparisonType lhs rhs).words = 1 := by
    rw [comparisonType, words_promoted]
    split
    · exact words_of_isReference hr
    · exact words_of_isReference hl
  refine ⟨?_, ?_, ?_⟩
  · rw [htype, words_of_isReference hl]
  · rw [htype, words_of_isReference hr]
  · intro hvoid
    rw [hvoid] at htype
    cases htype

theorem compared_of_typed {o : BinaryOp} {lhs rhs : Expr} (h : o.Typed lhs.ty rhs.ty t)
    (ho : o.isCondition) (hlogical : o.isLogical = false) : Compared lhs rhs := by
  cases o with
  | lt | le | gt | ge => exact compared_of_primitive h.1 (Ty.isPrimitive_of_isNumeric h.2.1)
  | eq | ne =>
    obtain ⟨-, ⟨heq, hn | hb⟩ | ⟨hl, hr⟩⟩ := h
    · exact compared_of_primitive heq (Ty.isPrimitive_of_isNumeric hn)
    · exact compared_of_primitive heq (by rw [hb]; rfl)
    · exact compared_of_reference hl hr
  | logicalAnd | logicalOr => cases hlogical
  | _ => cases ho

theorem compareBranch_tests (hcompared : Compared lhs rhs)
    (hl : ∀ P m, Shifts P lhsCode m (m + lhs.ty.words))
    (hr : ∀ P m, Shifts P rhsCode m (m + rhs.ty.words)) :
    Use.Tests (compareBranch o lhs rhs lhsCode rhsCode) k := by
  intro P target sense htarget
  obtain ⟨hlw, hrw, hvoid⟩ := hcompared
  rw [hlw] at hl
  rw [hrw] at hr
  unfold compareBranch
  simp only
  generalize comparisonType lhs rhs = ty at hl hr hvoid
  split
  next =>
    refine (hl _ k).seq ((hr _ _).seq ?_)
    refine .seq (m := k + 1) (op_shifts ⟨rfl, rfl⟩ (by simp [Ty.words]) rfl) ?_
    exact branch_shifts (zeroBranch_moves _) (by omega) rfl htarget
  next =>
    refine (hl _ k).seq ((hr _ _).seq ?_)
    refine .seq (m := k + 1) (op_shifts (doubleCompare_moves o) (by simp [Ty.words]) rfl) ?_
    exact branch_shifts (zeroBranch_moves _) (by omega) rfl htarget
  next hlong hdouble =>
    have hwords : ty.words = 1 := by
      cases ty <;> first | rfl | contradiction
    rw [hwords] at hl hr
    split
    · split
      · have hnull : Shifts P
            (branch (if outcome o sense = .eq then .ifnull else .ifnonnull) target)
            (k + 1) k := by
          split <;> exact branch_shifts ⟨rfl, rfl⟩ (by omega) rfl htarget
        split
        · exact (hl _ k).seq hnull
        · exact (hr _ k).seq hnull
      · refine (hl _ k).seq ((hr _ _).seq ?_)
        split <;> exact branch_shifts ⟨rfl, rfl⟩ (by omega) rfl htarget
    · refine (hl _ k).seq ?_
      refine ofExcept_balances.bind fun zero => ?_
      split
      · exact branch_shifts (zeroBranch_moves _) (by omega) rfl fun ℓ h => htarget ℓ h.1
      · refine (hr _ _).seq ?_
        exact branch_shifts (intBranch_moves _) (by omega) rfl fun ℓ h => htarget ℓ h.1

/-! ## Variables -/

namespace Place

/-- A place of variables of a type. -/
def Holds (t : Ty) : Place → Prop
  | localVar _ ty | element ty => ty = t
  | staticField ref | field ref => ref.descriptor = t.descriptor

theorem words_le (p : Place) : p.words ≤ 2 := by
  cases p <;> simp [words]

variable {p : Place} {t : Ty}

theorem copyAddress_shifts : Shifts P p.copyAddress (k + p.words) (k + p.words + p.words) := by
  unfold copyAddress
  cases p with
  | localVar | staticField => exact .skip
  | field | element => exact op_shifts ⟨rfl, rfl⟩ (by simp [words]) rfl

theorem load_shifts (h : p.Holds t) (ht : t.isProper) :
    Shifts P p.load (k + p.words) (k + t.words) := by
  have hfield := Descriptor.fieldWords_descriptor ht
  cases p with
  | localVar slot ty =>
    obtain rfl : ty = t := h
    exact access_shifts (loadOp_moves (ne_void_of_isProper ht)) (Nat.zero_le _) rfl
  | staticField ref =>
    refine member_shifts 0 t.words ?_ (Nat.zero_le _) rfl
    simp [Instruction.effect, show ref.descriptor = t.descriptor from h, hfield]
  | field ref =>
    refine member_shifts 1 t.words ?_ (by simp [words]) (by simp [words]; omega)
    simp [Instruction.effect, show ref.descriptor = t.descriptor from h, hfield]
  | element ty =>
    obtain rfl : ty = t := h
    refine op_shifts (elementLoadOp_moves (ne_void_of_isProper ht)) ?_ ?_
    all_goals simp only [words]; omega

theorem store_shifts (h : p.Holds t) (ht : t.isProper) :
    Shifts P p.store (k + p.words + t.words) k := by
  have hfield := Descriptor.fieldWords_descriptor ht
  cases p with
  | localVar slot ty =>
    obtain rfl : ty = t := h
    exact access_shifts (storeOp_moves (ne_void_of_isProper ht)) (by omega) rfl
  | staticField ref =>
    refine member_shifts t.words 0 ?_ (by omega) rfl
    simp [Instruction.effect, show ref.descriptor = t.descriptor from h, hfield]
  | field ref =>
    refine member_shifts (1 + t.words) 0 ?_ ?_ ?_
    · simp [Instruction.effect, show ref.descriptor = t.descriptor from h, hfield]
    all_goals simp only [words]; omega
  | element ty =>
    obtain rfl : ty = t := h
    refine op_shifts (elementStoreOp_moves (ne_void_of_isProper ht)) ?_ ?_
    all_goals simp only [words]; omega

theorem storeKeeping_shifts (h : p.Holds t) (ht : t.isProper) (wanted : Bool) :
    Shifts P (p.storeKeeping t wanted) (k + p.words + t.words)
      (k + if wanted then t.words else 0) := by
  unfold storeKeeping
  cases wanted with
  | true =>
    have hcopy := copyUnder_moves (ne_void_of_isProper ht) p.words_le
    refine .seq (m := k + t.words + p.words + t.words) (op_shifts hcopy (by omega) (by omega)) ?_
    exact store_shifts h ht
  | false => exact store_shifts h ht

end Place

section

variable {fr : Frame} {lhs : Expr}

theorem variable_isProper (hvars : ∀ x ∈ fr.vars, x.2.isProper) (h : lhs.Settled fr)
    (hvar : lhs.isVariable) : lhs.ty.isProper := by
  obtain ⟨hnode, hchildren⟩ := Expr.settled_iff.1 h
  cases lhs with
  | localVar n x slot =>
    obtain ⟨t, ht, hmem⟩ := hnode.form
    simpa [Expr.ty, Expr.note, ht] using hvars _ hmem
  | field n target x ref =>
    obtain ⟨r, t, -, ht, hproper, -⟩ := hnode.form
    simpa [Expr.ty, Expr.note, ht] using hproper
  | element n array index =>
    obtain ⟨t, ht, -, harray, -⟩ := hnode.form
    have hknown := (hchildren array (.head _)).ty_isKnown
    rw [harray] at hknown
    simpa [Expr.ty, Expr.note, ht, Ty.isKnown] using hknown
  | wild n => exact hnode.form.elim
  | _ => cases hvar

theorem exists_place (h : lhs.Settled fr) (hvar : lhs.isVariable) :
    ∃ p, Place.of lhs = pure p ∧ p.words = addressWords lhs ∧ p.Holds lhs.ty := by
  have hform := h.node.form
  cases lhs with
  | localVar n x slot => exact ⟨_, rfl, rfl, rfl⟩
  | field n target x ref =>
    obtain ⟨r, t, rfl, ht, -, -, hdescriptor, -⟩ := hform
    refine ⟨if r.isStatic then .staticField r else .field r, ?_, ?_⟩
    · simp [Place.of, resolved]
    · rw [Expr.ty, Expr.note, ht, addressWords]
      split <;> exact ⟨rfl, hdescriptor⟩
  | element n array index => exact ⟨_, rfl, rfl, rfl⟩
  | wild n => exact hform.elim
  | _ => cases hvar

theorem assignValue_shifts {p : Place} (hp : p.Holds t) (ht : t.isProper)
    (haddress : Shifts P address k (k + p.words)) (hvalue : ∀ m, Shifts P value m (m + n))
    (hn : n = t.words) (wanted : Bool) :
    Shifts P (assignValue p t address value wanted) k (k + if wanted then t.words else 0) := by
  subst hn
  exact haddress.seq ((hvalue _).seq (Place.storeKeeping_shifts hp ht wanted))

theorem stepInt_shifts (slot : Nat) (delta : Int) (wanted : Bool) :
    Shifts P (stepInt slot delta wanted) k (k + if wanted then 1 else 0) := by
  refine .seq stepLocal_shifts ?_
  cases wanted with
  | true => exact access_shifts ⟨rfl, rfl⟩ (Nat.zero_le k) rfl
  | false => exact .skip

theorem intSlot?_eq_some {p : Place} (hp : p.Holds t) (h : p.intSlot? = some slot) : t = .int := by
  unfold Place.intSlot? at h
  split at h
  · exact hp.symm
  · cases h

theorem assignCompound_shifts {b : BinaryOp} {p : Place} {rhs : Expr} (hb : b.isCondition = false)
    (htyped : b.CompoundTyped t rhs.ty) (hp : p.Holds t) (ht : t.isProper)
    (haddress : Shifts P address k (k + p.words))
    (hoperand : ∀ m, Shifts P operand m (m + rhs.ty.words))
    (happended : ∀ m, 1 ≤ m → rhs.ty ≠ .void → Shifts P appended m m) (wanted : Bool) :
    Shifts P (assignCompound b p t address operand appended wanted) k
      (k + if wanted then t.words else 0) := by
  refine haddress.seq ?_
  refine Place.copyAddress_shifts.seq ?_
  refine (Place.load_shifts hp ht).seq ?_
  by_cases hstring : b = .add ∧ t = .string
  · obtain ⟨rfl, rfl⟩ := hstring
    have hvoid : rhs.ty ≠ .void := by simpa [BinaryOp.CompoundTyped] using htyped
    refine builderOfString_shifts.seq ?_
    refine (happended _ (by omega) hvoid).seq ?_
    refine (builderText_shifts (by omega)).seq ?_
    exact Place.storeKeeping_shifts hp ht wanted
  · have hif : (decide (b = .add) && decide (t = .string)) = false := by
      simpa [Bool.and_eq_false_iff] using fun h => not_and.1 hstring h
    rw [if_neg (by simp [hif])]
    refine (hoperand _).seq ?_
    refine .seq (m := k + p.words + t.words)
      (op_shifts (binaryOp_moves (htyped.typed hb hstring) hb) (by omega) (by omega)) ?_
    exact Place.storeKeeping_shifts hp ht wanted

theorem assign_shifts {o : AssignOp} {rhs : Expr} {address operand appended : Lowering Unit}
    (hvars : ∀ x ∈ fr.vars, x.2.isProper) (hsettled : lhs.Settled fr) (hvar : lhs.isVariable)
    (htyped : match o.binary? with
      | none => rhs.Fits fr.hierarchy lhs.ty
      | some b => b.CompoundTyped lhs.ty rhs.ty)
    (haddress : Shifts P address k (k + addressWords lhs))
    (hoperand : ∀ m, Shifts P operand m (m + rhs.ty.words))
    (happended : ∀ m, 1 ≤ m → rhs.ty ≠ .void → Shifts P appended m m) (wanted : Bool) :
    Shifts P (assign o lhs rhs address operand appended wanted) k
      (k + if wanted then lhs.ty.words else 0) := by
  have ht := variable_isProper hvars hsettled hvar
  obtain ⟨p, hplace, hwords, hp⟩ := exists_place hsettled hvar
  rw [← hwords] at haddress
  rw [assign, hplace, pure_bind]
  cases hb : o.binary? with
  | none =>
    rw [hb] at htyped
    exact assignValue_shifts hp ht haddress hoperand (words_eq_of_fits htyped) wanted
  | some b =>
    rw [hb] at htyped
    have hcompound := assignCompound_shifts (AssignOp.isCondition_of_binary? hb) htyped hp ht
      haddress hoperand happended wanted
    dsimp only
    split
    next hslot _ =>
      rw [intSlot?_eq_some hp hslot]
      exact stepInt_shifts _ _ wanted
    next => exact hcompound

theorem step_shifts (hvars : ∀ x ∈ fr.vars, x.2.isProper) (hsettled : lhs.Settled fr)
    (hvar : lhs.isVariable) (htype : lhs.ty = .int ∨ lhs.ty = .long ∨ lhs.ty = .double)
    (haddress : Shifts P address k (k + addressWords lhs)) (wanted : Bool) :
    Shifts P (step o lhs lhs.ty address wanted) k (k + if wanted then lhs.ty.words else 0) := by
  have ht := variable_isProper hvars hsettled hvar
  obtain ⟨p, hplace, hwords, hp⟩ := exists_place hsettled hvar
  rw [← hwords] at haddress
  have hnumeric : lhs.ty.isNumeric := by
    rcases htype with h | h | h <;> rw [h] <;> rfl
  have hone : (oneOp lhs.ty).Moves 0 lhs.ty.words := by
    rcases htype with h | h | h <;> rw [h] <;> exact ⟨rfl, rfl⟩
  have hbinary : (binaryOp (if 0 < o.delta then .add else .sub) lhs.ty).Moves
      (lhs.ty.words + lhs.ty.words) lhs.ty.words := by
    rw [← Nat.mul_two]
    split
    · exact byType_moves ⟨rfl, rfl⟩ ⟨rfl, rfl⟩ ⟨rfl, rfl⟩ hnumeric
    · exact byType_moves ⟨rfl, rfl⟩ ⟨rfl, rfl⟩ ⟨rfl, rfl⟩ hnumeric
  have hcopy := copyUnder_moves (ne_void_of_isProper ht) p.words_le
  -- From the old value on the stack, above its address.
  have hstore : ∀ (m : Nat) (keep : Bool), Shifts P (do
      op (oneOp lhs.ty)
      op (binaryOp (if 0 < o.delta then .add else .sub) lhs.ty)
      p.storeKeeping lhs.ty keep) (m + p.words + lhs.ty.words)
        (m + if keep then lhs.ty.words else 0) := by
    intro m keep
    refine .seq (m := m + p.words + lhs.ty.words + lhs.ty.words)
      (op_shifts hone (Nat.zero_le _) rfl) ?_
    refine .seq (m := m + p.words + lhs.ty.words) (op_shifts hbinary (by omega) (by omega)) ?_
    exact Place.storeKeeping_shifts hp ht keep
  rw [step, hplace, pure_bind]
  cases hslot : p.intSlot? with
  | some slot =>
    have hty := intSlot?_eq_some hp hslot
    rw [hty]
    cases hbefore : o.isBefore <;> cases wanted
    all_goals dsimp only [Bool.not_true, Bool.not_false, Bool.and_true, Bool.and_false]
    · exact stepInt_shifts slot o.delta false
    · refine .seq (m := k + 1) (access_shifts ⟨rfl, rfl⟩ (Nat.zero_le k) rfl) ?_
      exact stepInt_shifts slot o.delta false
    · exact stepInt_shifts slot o.delta false
    · exact stepInt_shifts slot o.delta true
  | none =>
    refine haddress.seq ?_
    refine Place.copyAddress_shifts.seq ?_
    refine (Place.load_shifts hp ht).seq ?_
    cases hbefore : o.isBefore <;> cases wanted
    all_goals dsimp only [Bool.not_true, Bool.not_false, Bool.and_true, Bool.and_false]
    · exact hstore k false
    · refine .seq (m := k + lhs.ty.words + p.words + lhs.ty.words)
        (op_shifts hcopy (by omega) (by omega)) ?_
      exact hstore (k + lhs.ty.words) false
    · exact hstore k false
    · exact hstore k true

end

/-! ## Expressions -/

theorem widened?_effect (h : widened? target e = .ok (some load)) :
    load.effect = some (0, target.words) ∧ load.targets = [] := by
  have hlong : ∀ value, (longLoad value).effect = some (0, 2) ∧ (longLoad value).targets = [] := by
    intro value
    unfold longLoad
    repeat' split
    all_goals exact ⟨rfl, rfl⟩
  have hdouble : ∀ value,
      (doubleLoad value).effect = some (0, 2) ∧ (doubleLoad value).targets = [] := by
    intro value
    unfold doubleLoad
    repeat' split
    all_goals exact ⟨rfl, rfl⟩
  cases e with
  | literal n l =>
    cases l with
    | int image | char image =>
      simp only [widened?, bind, Except.bind, pure, Except.pure] at h
      split at h
      · cases h
      · split at h
        · cases h
          exact hlong _
        · cases h
          exact hdouble _
        · cases h
    | _ => cases h
  | _ => cases h

theorem newArray_shifts (line : Nat) (type : Ty) :
    Shifts P (newArray line type) (k + 1) (k + 1) := by
  unfold newArray
  split
  · exact failWith_balances
  · split
    · refine instr_shifts (i := .operand .newarray _) rfl (by omega) (fun l hl => ?_) fun _ => rfl
      cases hl
    · exact reference_shifts ⟨rfl, rfl⟩ (by omega) rfl

theorem newArrays_shifts (line : Nat) (type : Ty) (h : dims ≠ 0) :
    Shifts P (newArrays line type dims) (k + dims) (k + 1) := by
  unfold newArrays
  split
  next hle =>
    obtain rfl : dims = 1 := by omega
    exact newArray_shifts line type
  next =>
    split
    · exact instr_shifts (i := .multiArray _ _) rfl (by omega) nofun fun _ => by omega
    · exact failWith_balances

theorem invert_shifts {t : Ty} (h : t.isIntegral) :
    Shifts P (invert t) (k + t.words) (k + t.words) := by
  unfold invert
  split
  next hlong =>
    subst hlong
    refine .seq (m := k + 2 + 2) (load_shifts rfl rfl) ?_
    exact op_shifts ⟨rfl, rfl⟩ (by omega) rfl
  next hlong =>
    have hwords : t.words = 1 := by cases t <;> first | rfl | contradiction
    rw [hwords]
    refine .seq (m := k + 2) (op_shifts ⟨rfl, rfl⟩ (Nat.zero_le _) rfl) ?_
    exact op_shifts ⟨rfl, rfl⟩ (by omega) rfl

theorem currentObject_shifts : Shifts P currentObject k (k + 1) :=
  access_shifts ⟨rfl, rfl⟩ (Nat.zero_le k) rfl

section

variable {fr : Frame}

/-- The code of an expression has the height of each use. -/
def ShiftsExpr (h : Hierarchy) (e : Expr) : Prop :=
  ∀ (P : List Nat → Prop) (use : Use) (k : Nat), use.Suits k e → (∀ ℓ, P ℓ → use.Lands k ℓ) →
    Shifts P (expr h use e) k (use.height k e)

namespace ShiftsExpr

variable {h : Hierarchy} {e : Expr}

theorem value (he : ShiftsExpr h e) (k : Nat) : Shifts P (expr h .value e) k (k + e.ty.words) :=
  he P .value k trivial fun _ _ => trivial

theorem discarded (he : ShiftsExpr h e) (hty : e.ty.isReference) (k : Nat) :
    Shifts P (expr h .discarded e) k k :=
  he P .discarded k hty fun _ _ => trivial

theorem address (he : ShiftsExpr h e) (k : Nat) :
    Shifts P (expr h .address e) k (k + addressWords e) :=
  he P .address k trivial fun _ _ => trivial

theorem append (he : ShiftsExpr h e) (k : Nat) (hk : 1 ≤ k) (hty : e.ty ≠ .void) :
    Shifts P (expr h .append e) k k :=
  he P .append k ⟨hk, hty⟩ fun _ _ => trivial

theorem tests (he : ShiftsExpr h e) (hty : e.ty = .boolean) (k : Nat) :
    Use.Tests (fun target sense => expr h (.branch target sense) e) k :=
  fun P target sense htarget => he P (.branch target sense) k hty htarget

theorem of_value (ht : e.note.ty = some t) (hcode : ∀ use, expr h use e = use.finish e.note x)
    (hx : ∀ P k, Shifts P x k (k + t.words)) : ShiftsExpr h e := by
  intro P use k hsuits hlands
  rw [hcode]
  exact Use.finish_shifts e ht hsuits hlands (hx P k)

theorem target (he : ShiftsExpr h e) (htarget : e.IsTarget isStatic) (k : Nat) :
    Shifts P (expr h (if isStatic then .discarded else .value) e) k
      (k + if isStatic then 0 else 1) := by
  cases isStatic with
  | true => exact he.discarded htarget.1 k
  | false =>
    rw [← words_of_isReference htarget.1]
    exact he.value k

end ShiftsExpr

variable {h : Hierarchy}

theorem shiftsExpr_field (hform : (Expr.field n target x ref).FormSettled fr)
    (htarget : ShiftsExpr h target) : ShiftsExpr h (.field n target x ref) := by
  intro P use k hsuits hlands
  obtain ⟨r, t, rfl, ht, hproper, -, hdescriptor, hrole⟩ := hform
  have haddress : Shifts P (expr h (if r.isStatic then .discarded else .value) target) k
      (k + addressWords (.field n target x (some r))) := htarget.target hrole k
  have hmember : Shifts P (member (if r.isStatic then .getstatic else .getfield) r.owner r.name
      r.descriptor) (k + addressWords (.field n target x (some r))) (k + t.words) := by
    have hfield := Descriptor.fieldWords_descriptor hproper
    rw [addressWords, hdescriptor]
    cases r.isStatic with
    | true => exact member_shifts 0 t.words (by simp [Instruction.effect, hfield]) (by omega) rfl
    | false =>
      refine member_shifts 1 t.words (by simp [Instruction.effect, hfield]) ?_ ?_
      all_goals simp only [Bool.false_eq_true, ite_false]; omega
  simp only [expr, resolved, pure_bind, discard_eq, bind_assoc]
  cases use with
  | address => exact haddress.seq (.skip)
  | _ => exact Use.finish_shifts (.field ..) ht hsuits hlands (haddress.seq hmember)

theorem shiftsExpr_element (hform : (Expr.element n array index).FormSettled fr)
    (hknown : array.ty.isKnown) (harray : ShiftsExpr h array) (hindex : ShiftsExpr h index) :
    ShiftsExpr h (.element n array index) := by
  intro P use k hsuits hlands
  obtain ⟨t, ht, -, hat, -, hit⟩ := hform
  have haddress : Shifts P (do
      expr h .value array
      expr h .value index) k (k + 2) := by
    have ha := harray.value (P := P) k
    have hi := hindex.value (P := P) (k + 1)
    rw [hat] at ha
    rw [hit] at hi
    exact ha.seq hi
  have hproper : t.isProper := by rwa [hat] at hknown
  cases use with
  | address => exact haddress
  | _ =>
    refine Use.finish_shifts (.element n array index) ht hsuits hlands (haddress.seq ?_)
    rw [ht]
    exact op_shifts (elementLoadOp_moves (ne_void_of_isProper hproper)) (by omega) (by
      simp only [Option.getD_some]; omega)

theorem shiftsExpr_binary (hform : (Expr.binary n o lhs rhs).FormSettled fr) (hl : ShiftsExpr h lhs)
    (hr : ShiftsExpr h rhs) : ShiftsExpr h (.binary n o lhs rhs) := by
  intro P use k hsuits hlands
  obtain ⟨-, -, t, ht, htyped⟩ := hform
  simp only [expr]
  split
  next ho =>
    subst ho
    obtain ⟨hlt, hrt, rfl⟩ := htyped
    exact Use.decide_shifts (.binary ..) ht hsuits hlands
      (bothBranch_tests (hl.tests hlt k) (hr.tests hrt k))
  next hand =>
    split
    next ho =>
      subst ho
      obtain ⟨hlt, hrt, rfl⟩ := htyped
      exact Use.decide_shifts (.binary ..) ht hsuits hlands
        (eitherBranch_tests (hl.tests hlt k) (hr.tests hrt k))
    next hor =>
      split
      next ho =>
        have hlogical : o.isLogical = false := by cases o <;> first | rfl | contradiction
        obtain rfl : t = .boolean := by
          cases o <;> first | exact htyped.2.2 | exact htyped.1 | cases ho
        exact Use.decide_shifts (.binary n o lhs rhs) ht hsuits hlands
          (compareBranch_tests (compared_of_typed htyped ho hlogical) (fun _ => hl.value)
            fun _ => hr.value)
      next ho =>
        refine Use.finish_shifts (.binary n o lhs rhs) ht hsuits hlands ?_
        refine (hl.value k).seq ((hr.value _).seq ?_)
        rw [ht]
        refine op_shifts (binaryOp_moves htyped (by simpa using ho)) (by omega) ?_
        simp only [Option.getD_some]
        omega

theorem shiftsExpr_unary (hform : (Expr.unary n o operand).FormSettled fr) (hne : operand.ty ≠ .any)
    (ho : ShiftsExpr h operand) : ShiftsExpr h (.unary n o operand) := by
  intro P use k hsuits hlands
  obtain ⟨-, t, ht, htyped⟩ := hform
  have htyped := Analysis.unaryType?_eq_some hne htyped
  have hvalue : t = operand.ty.promoted → Shifts P (expr h .value operand) k (k + t.words) := by
    rintro rfl
    rw [words_promoted]
    exact ho.value k
  cases o with
  | not =>
    refine Use.decide_shifts (.unary n .not operand) (htyped.2 ▸ ht) hsuits hlands ?_
    intro R target sense htarget
    exact ho.tests htyped.1 k R target (!sense) htarget
  | plus => exact Use.finish_shifts (.unary n .plus operand) ht hsuits hlands (hvalue htyped.2)
  | neg =>
    refine Use.finish_shifts (.unary n .neg operand) ht hsuits hlands ((hvalue htyped.2).seq ?_)
    have hmoves : (byType .ineg .lneg .dneg t).Moves (t.words * 1) t.words :=
      byType_moves ⟨rfl, rfl⟩ ⟨rfl, rfl⟩ ⟨rfl, rfl⟩ (htyped.2 ▸ htyped.1)
    rw [Nat.mul_one] at hmoves
    rw [ht]
    exact op_shifts hmoves (by omega) rfl
  | bitNot =>
    refine Use.finish_shifts (.unary n .bitNot operand) ht hsuits hlands ((hvalue htyped.2).seq ?_)
    rw [ht]
    exact invert_shifts (htyped.2 ▸ htyped.1)

theorem shiftsExpr_literal (hform : (Expr.literal n l).FormSettled fr) :
    ShiftsExpr h (.literal n l) := by
  intro P use k hsuits hlands
  have hfinish := Use.finish_shifts (.literal n l) hform.1 hsuits hlands (literal_shifts n.line l)
  simp only [expr, useLiteral]
  split
  next target sense value _ =>
    split
    · exact goto_shifts hlands
    · exact .skip
  next => exact hfinish

theorem shiftsExpr_concat (hform : (Expr.concat n lhs rhs).FormSettled fr) (hl : ShiftsExpr h lhs)
    (hr : ShiftsExpr h rhs) : ShiftsExpr h (.concat n lhs rhs) := by
  intro P use k hsuits hlands
  obtain ⟨ht, -, -, hlv, hrv, -⟩ := hform
  have hvalue : Shifts P (do
      newBuilder
      expr h .append lhs
      expr h .append rhs
      builderText) k (k + 1) := by
    refine newBuilder_shifts.seq ?_
    refine (hl.append _ (by omega) hlv).seq ?_
    exact (hr.append _ (by omega) hrv).seq (builderText_shifts (by omega))
  simp only [expr, bind_assoc]
  cases use with
  | append => exact (hl.append k hsuits.1 hlv).seq (hr.append k hsuits.1 hrv)
  | _ => exact Use.finish_shifts (.concat n lhs rhs) ht hsuits hlands hvalue

theorem shiftsExpr_cast (hform : (Expr.cast n target operand).FormSettled fr)
    (hne : operand.ty ≠ .any) (ho : ShiftsExpr fr.hierarchy operand) :
    ShiftsExpr fr.hierarchy (.cast n target operand) := by
  obtain ⟨ht, hproper, -, hcast⟩ := hform
  refine .of_value ht (fun _ => rfl) fun P k => ?_
  refine ofExcept_balances.bind fun load => ?_
  cases load with
  | some load =>
    refine .known (fun _ h => h.2) fun hload => ?_
    exact load_shifts (widened?_effect hload).1 (widened?_effect hload).2
  | none => exact (ho.value k).seq (conversion_shifts hcast hne (Ty.ne_any_of_isProper hproper))

theorem shiftsExpr_conditional (hform : (Expr.conditional n test thenExpr elseExpr).FormSettled fr)
    (htest : ShiftsExpr h test) (hthen : ShiftsExpr h thenExpr) (helse : ShiftsExpr h elseExpr) :
    ShiftsExpr h (.conditional n test thenExpr elseExpr) := by
  obtain ⟨-, hboolean, t, ht, -, hthenFits, -, helseFits⟩ := hform
  refine .of_value ht (fun _ => rfl) fun P k => ?_
  refine (newLabel_balances k).bind fun otherwise => ?_
  refine (newLabel_balances (k + t.words)).bind fun stop => ?_
  refine .seq (htest.tests hboolean k _ otherwise false fun _ h => h.1.2) ?_
  refine .seq (hthen.value k) ?_
  rw [words_eq_of_fits hthenFits]
  refine .seq (m := k) (goto_shifts fun _ h => h.2) ?_
  refine .seq (mark_balances fun _ h => h.1.2) ?_
  refine .seq (helse.value k) ?_
  rw [words_eq_of_fits helseFits]
  exact mark_balances fun _ h => h.2

theorem exprs_shifts_of_fit (hes : ∀ e ∈ es, ShiftsExpr h e) (hfit : ArgsFit fr.hierarchy es params)
    (k : Nat) : Shifts P (exprs h es) k (k + Ty.sumWords params) := by
  induction es generalizing params k with
  | nil =>
    cases params with
    | nil => exact .skip
    | cons => exact hfit.elim
  | cons e es ih =>
    cases params with
    | nil => exact hfit.elim
    | cons t ts =>
      obtain ⟨-, hfits, hrest⟩ := hfit
      have hvalue := (hes e (by simp)).value (P := P) k
      rw [words_eq_of_fits hfits] at hvalue
      have hsum : k + Ty.sumWords (t :: ts) = k + t.words + Ty.sumWords ts := by
        simp [Ty.sumWords, Nat.add_assoc]
      rw [hsum]
      exact hvalue.seq (ih (fun x hx => hes x (by simp [hx])) hrest _)

theorem exprs_shifts_of_int (hes : ∀ e ∈ es, ShiftsExpr h e)
    (hint : ∀ e ∈ es, e.isTypeName = false ∧ e.ty = .int) (k : Nat) :
    Shifts P (exprs h es) k (k + es.length) := by
  induction es generalizing k with
  | nil => exact .skip
  | cons e es ih =>
    have hvalue := (hes e (by simp)).value (P := P) k
    rw [(hint e (by simp)).2] at hvalue
    have hlength : k + (e :: es).length = k + 1 + es.length := by
      simp only [List.length_cons]
      omega
    rw [hlength]
    exact hvalue.seq (ih (fun x hx => hes x (by simp [hx])) (fun x hx => hint x (by simp [hx])) _)

theorem elements_shifts {c : Ty} (hes : ∀ e ∈ es, ShiftsExpr h e) (hc : c.isProper)
    (hfits : ∀ e ∈ es, e.isTypeName = false ∧ e.Fits fr.hierarchy c) (index : Nat) :
    Shifts P (elements h (elementStoreOp c) index es) (k + 1) (k + 1) := by
  induction es generalizing index with
  | nil => exact .skip
  | cons e es ih =>
    have hvalue := (hes e (by simp)).value (P := P) (k + 3)
    rw [words_eq_of_fits (hfits e (by simp)).2] at hvalue
    refine .seq (m := k + 2) (op_shifts ⟨rfl, rfl⟩ (by omega) rfl) ?_
    refine .seq (m := k + 3) (pushInt_shifts index) ?_
    refine hvalue.seq ?_
    refine .seq (m := k + 1) (op_shifts (elementStoreOp_moves (ne_void_of_isProper hc))
      (by omega) (by omega)) ?_
    exact ih (fun x hx => hes x (by simp [hx])) (fun x hx => hfits x (by simp [hx])) _

theorem receiver_shifts (htarget : ∀ e ∈ target, ShiftsExpr h e)
    (hrole : ∀ e ∈ target, e.IsTarget isStatic) :
    Shifts P (receiver h isStatic target) k (k + if isStatic then 0 else 1) := by
  cases target with
  | some e => exact (htarget e rfl).target (hrole e rfl) k
  | none =>
    simp only [receiver]
    cases isStatic with
    | true => exact .skip
    | false => exact currentObject_shifts

theorem shiftsExpr_localVar (hform : (Expr.localVar n x slot).FormSettled fr)
    (hvars : ∀ x ∈ fr.vars, x.2.isProper) : ShiftsExpr h (.localVar n x slot) := by
  intro P use k hsuits hlands
  obtain ⟨t, ht, hmem⟩ := hform
  have hvalue : Shifts P (access (loadOp (n.ty.getD .any)) slot) k (k + t.words) := by
    rw [ht]
    exact access_shifts (loadOp_moves (ne_void_of_isProper (hvars _ hmem))) (Nat.zero_le k) rfl
  cases use with
  | address => exact .skip
  | _ => exact Use.finish_shifts (.localVar n x slot) ht hsuits hlands hvalue

theorem shiftsExpr_send (hform : (Expr.send n target x args method).FormSettled fr)
    (htarget : ∀ e ∈ target, ShiftsExpr h e) (hargs : ∀ e ∈ args, ShiftsExpr h e) :
    ShiftsExpr h (.send n target x args method) := by
  obtain ⟨r, params, t, rfl, ht, hproper, hparams, -, hdescriptor, hrole, -, hfit⟩ := hform
  refine .of_value ht (fun _ => rfl) fun P k => ?_
  rw [resolved, pure_bind]
  refine (receiver_shifts htarget hrole).seq ?_
  refine (exprs_shifts_of_fit hargs hfit _).seq ?_
  simpa using invoke_shifts r.kind hdescriptor hparams hproper

theorem shiftsExpr_delegate (hform : (Expr.delegate n target args ctor).FormSettled fr)
    (hargs : ∀ e ∈ args, ShiftsExpr h e) : ShiftsExpr h (.delegate n target args ctor) := by
  obtain ⟨r, params, rfl, ht, -, hparams, hdescriptor, hfit⟩ := hform
  refine .of_value ht (fun _ => rfl) fun P k => ?_
  rw [resolved, pure_bind]
  refine currentObject_shifts.seq ?_
  refine (exprs_shifts_of_fit hargs hfit _).seq ?_
  exact invoke_shifts .special hdescriptor hparams rfl

theorem shiftsExpr_newObject (hform : (Expr.newObject n type args ctor).FormSettled fr)
    (hargs : ∀ e ∈ args, ShiftsExpr h e) : ShiftsExpr h (.newObject n type args ctor) := by
  obtain ⟨r, params, rfl, ht, href, -, hparams, hdescriptor, hfit⟩ := hform
  refine .of_value ht (fun _ => rfl) fun P k => ?_
  rw [words_of_isReference href, resolved, pure_bind]
  refine .seq (m := k + 1) (reference_shifts ⟨rfl, rfl⟩ (Nat.zero_le k) rfl) ?_
  refine .seq (m := k + 2) (op_shifts ⟨rfl, rfl⟩ (by omega) rfl) ?_
  refine (exprs_shifts_of_fit hargs hfit _).seq ?_
  exact invoke_shifts (k := k + 1) .special hdescriptor hparams rfl

theorem shiftsExpr_newArray (hform : (Expr.newArray n type dims).FormSettled fr)
    (hdims : ∀ e ∈ dims, ShiftsExpr h e) : ShiftsExpr h (.newArray n type dims) := by
  obtain ⟨ht, -, hne, hle, hint⟩ := hform
  refine .of_value ht (fun _ => rfl) fun P k => ?_
  have hlength : dims.length ≠ 0 := by simpa using hne
  have hwords : type.words = 1 := by
    cases type <;> first | rfl | (simp only [Ty.dims] at hle; omega)
  rw [hwords]
  exact (exprs_shifts_of_int hdims hint k).seq (newArrays_shifts n.line type hlength)

theorem shiftsExpr_arrayInit (hform : (Expr.arrayInit n type items).FormSettled fr)
    (hitems : ∀ e ∈ items, ShiftsExpr h e) : ShiftsExpr h (.arrayInit n type items) := by
  obtain ⟨c, ht, rfl, hc, hfits⟩ := hform
  refine .of_value ht (fun _ => rfl) fun P k => ?_
  refine (pushInt_shifts _).seq ?_
  exact (newArray_shifts n.line (.array c)).seq (elements_shifts hitems hc hfits 0)

theorem shiftsExpr_step (hform : (Expr.step n o operand).FormSettled fr)
    (hvars : ∀ x ∈ fr.vars, x.2.isProper) (hsettled : operand.Settled fr)
    (hoperand : ShiftsExpr h operand) : ShiftsExpr h (.step n o operand) := by
  intro P use k hsuits hlands
  obtain ⟨ht, hvar, htype⟩ := hform
  refine Use.store_shifts (.step n o operand) ht hsuits hlands fun wanted => ?_
  rw [ht]
  exact step_shifts hvars hsettled hvar htype (hoperand.address k) wanted

theorem shiftsExpr_assign (hform : (Expr.assign n o lhs rhs).FormSettled fr)
    (hvars : ∀ x ∈ fr.vars, x.2.isProper) (hsettled : lhs.Settled fr) (hl : ShiftsExpr h lhs)
    (hr : ShiftsExpr h rhs) : ShiftsExpr h (.assign n o lhs rhs) := by
  intro P use k hsuits hlands
  obtain ⟨ht, hvar, -, htyped⟩ := hform
  exact Use.store_shifts (.assign n o lhs rhs) ht hsuits hlands
    (assign_shifts hvars hsettled hvar htyped (hl.address k) hr.value hr.append)

theorem expr_shifts (hvars : ∀ x ∈ fr.vars, x.2.isProper) {e : Expr} (he : e.Settled fr) :
    ShiftsExpr fr.hierarchy e := by
  induction e using Expr.childrenInduction with
  | step e ih =>
    obtain ⟨⟨-, hform⟩, hchildren⟩ := Expr.settled_iff.1 he
    have ih : ∀ c ∈ e.children, ShiftsExpr fr.hierarchy c := fun c hc => ih c hc (hchildren c hc)
    cases e with
    | literal n l => exact shiftsExpr_literal hform
    | name n segments | wild n => exact hform.elim
    | localVar n x slot => exact shiftsExpr_localVar hform hvars
    | thisRef n =>
      refine .of_value hform.2 (fun _ => rfl) fun P k => ?_
      rw [words_of_isReference (Ty.ofClass_isReference _)]
      exact currentObject_shifts
    | superRef n =>
      obtain ⟨-, c, ht⟩ := hform
      refine .of_value ht (fun _ => rfl) fun P k => ?_
      rw [words_of_isReference (Ty.ofClass_isReference _)]
      exact currentObject_shifts
    | typeName n type =>
      intro P use k hsuits hlands
      cases use with
      | discarded => exact .skip
      | address => exact failWith_balances
      | _ => exact Use.finish_shifts (.typeName n type) hform.1 hsuits hlands failWith_balances
    | field n target x ref => exact shiftsExpr_field hform (ih _ (.head _))
    | arrayLength n array =>
      obtain ⟨ht, -, harray⟩ := hform
      refine .of_value ht (fun _ => rfl) fun P k => ?_
      have href : array.ty.isReference := by
        cases hty : array.ty <;> simp_all [Ty.isArray, Ty.isReference]
      have hvalue := (ih array (.head _)).value (P := P) k
      rw [words_of_isReference href] at hvalue
      exact hvalue.seq (op_shifts ⟨rfl, rfl⟩ (by omega) rfl)
    | element n array index =>
      exact shiftsExpr_element hform (hchildren _ (.head _)).ty_isKnown (ih _ (.head _))
        (ih _ (.tail _ (.head _)))
    | send n target x args method =>
      refine shiftsExpr_send hform ?_ fun e he => ih e (by simp [Expr.children, he])
      exact fun e he => ih e (by simp [Expr.children, Option.mem_def.1 he])
    | delegate n target args ctor => exact shiftsExpr_delegate hform ih
    | newObject n type args ctor => exact shiftsExpr_newObject hform ih
    | newArray n type dims => exact shiftsExpr_newArray hform ih
    | arrayInit n type items => exact shiftsExpr_arrayInit hform ih
    | binary n o lhs rhs =>
      exact shiftsExpr_binary hform (ih _ (.head _)) (ih _ (.tail _ (.head _)))
    | concat n lhs rhs =>
      exact shiftsExpr_concat hform (ih _ (.head _)) (ih _ (.tail _ (.head _)))
    | instanceOf n operand target =>
      obtain ⟨ht, -, href, -⟩ := hform
      refine .of_value ht (fun _ => rfl) fun P k => ?_
      have hvalue := (ih operand (.head _)).value (P := P) k
      rw [words_of_isReference href] at hvalue
      exact hvalue.seq (reference_shifts ⟨rfl, rfl⟩ (by omega) rfl)
    | unary n o operand =>
      exact shiftsExpr_unary hform (hchildren _ (.head _)).ty_ne_any (ih _ (.head _))
    | step n o operand =>
      exact shiftsExpr_step hform hvars (hchildren _ (.head _)) (ih _ (.head _))
    | cast n target operand =>
      exact shiftsExpr_cast hform (hchildren _ (.head _)).ty_ne_any (ih _ (.head _))
    | assign n o lhs rhs =>
      exact shiftsExpr_assign hform hvars (hchildren _ (.head _)) (ih _ (.head _))
        (ih _ (.tail _ (.head _)))
    | conditional n test thenExpr elseExpr =>
      exact shiftsExpr_conditional hform (ih _ (.head _)) (ih _ (.tail _ (.head _)))
        (ih _ (.tail _ (.tail _ (.head _))))

end

end JMinusMinus.Lowering
