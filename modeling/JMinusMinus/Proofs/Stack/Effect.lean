import JMinusMinus.Code.Layout
import JMinusMinus.Proofs.Settled.Basic

/-!
# Stack effects

How many words an instruction takes off the operand stack and how many it puts on, as the
machine defines them. `Opcode.effect` is the table for the instructions whose effect their opcode
says. A use of a member takes and puts what its descriptor says, so descriptors are read back
here. The descriptor of proper types is read as the words of those types
(`methodWords_methodDescriptor`).
-/

namespace JMinusMinus

/-! ## Descriptors -/

namespace Descriptor

/-- The words of the type at the front of a descriptor, and what comes after it. -/
def typeWords : List Char → Option (Nat × List Char)
  | 'I' :: cs | 'Z' :: cs | 'C' :: cs | 'B' :: cs | 'S' :: cs | 'F' :: cs => some (1, cs)
  | 'J' :: cs | 'D' :: cs => some (2, cs)
  | 'L' :: cs =>
    match cs.dropWhile (· ≠ ';') with
    | _ :: rest => some (1, rest)
    | [] => none
  | '[' :: cs => (typeWords cs).map fun r => (1, r.2)
  | _ => none

/-- The words of at most so many types before a closing parenthesis, and what comes after it. -/
def paramWords : Nat → List Char → Option (Nat × List Char)
  | _, ')' :: cs => some (0, cs)
  | n + 1, cs => do
    let (first, cs) ← typeWords cs
    let (rest, cs) ← paramWords n cs
    return (first + rest, cs)
  | 0, _ => none

/-- The words of a result in a descriptor. -/
def resultWords : List Char → Option Nat
  | ['V'] => some 0
  | cs => (typeWords cs).map (·.1)

/-- The words of a field by its descriptor. -/
def fieldWords (descriptor : String) : Option Nat := (typeWords descriptor.toList).map (·.1)

/-- The words of the parameters and of the result of a method. -/
def methodWords (descriptor : String) : Option (Nat × Nat) :=
  match descriptor.toList with
  | '(' :: cs => do
    let (params, cs) ← paramWords cs.length cs
    return (params, ← resultWords cs)
  | _ => none

end Descriptor

/-! ## Effects -/

/-- The words that an instruction takes and those that it puts, if its opcode says so. -/
def Opcode.effect : Opcode → Option (Nat × Nat)
  | nop | goto | return_ => some (0, 0)
  | aconst_null | iconst_m1 | iconst_0 | iconst_1 | iconst_2 | iconst_3 | iconst_4 | iconst_5
  | bipush | sipush | new => some (0, 1)
  | lconst_0 | lconst_1 | dconst_0 | dconst_1 => some (0, 2)
  | iload | aload | iload_0 | iload_1 | iload_2 | iload_3 | aload_0 | aload_1 | aload_2
  | aload_3 => some (0, 1)
  | lload | dload | lload_0 | lload_1 | lload_2 | lload_3 | dload_0 | dload_1 | dload_2
  | dload_3 => some (0, 2)
  | istore | astore | istore_0 | istore_1 | istore_2 | istore_3 | astore_0 | astore_1 | astore_2
  | astore_3 => some (1, 0)
  | lstore | dstore | lstore_0 | lstore_1 | lstore_2 | lstore_3 | dstore_0 | dstore_1 | dstore_2
  | dstore_3 => some (2, 0)
  | iaload | baload | caload | aaload => some (2, 1)
  | laload | daload => some (2, 2)
  | iastore | bastore | castore | aastore => some (3, 0)
  | lastore | dastore => some (4, 0)
  | pop => some (1, 0)
  | pop2 => some (2, 0)
  | dup => some (1, 2)
  | dup_x1 => some (2, 3)
  | dup_x2 => some (3, 4)
  | dup2 => some (2, 4)
  | dup2_x1 => some (3, 5)
  | dup2_x2 => some (4, 6)
  | swap => some (2, 2)
  | iadd | isub | imul | idiv | irem | ishl | ishr | iushr | iand | ior | ixor => some (2, 1)
  | ladd | lsub | lmul | ldiv | lrem | land | lor | lxor => some (4, 2)
  | dadd | dsub | dmul | ddiv | drem => some (4, 2)
  | lshl | lshr | lushr => some (3, 2)
  | ineg | i2c => some (1, 1)
  | lneg | dneg | l2d | d2l => some (2, 2)
  | i2l | i2d => some (1, 2)
  | l2i | d2i => some (2, 1)
  | lcmp | dcmpl | dcmpg => some (4, 1)
  | ifeq | ifne | iflt | ifge | ifgt | ifle | ifnull | ifnonnull => some (1, 0)
  | if_icmpeq | if_icmpne | if_icmplt | if_icmpge | if_icmpgt | if_icmple | if_acmpeq
  | if_acmpne => some (2, 0)
  | ireturn | areturn | athrow => some (1, 0)
  | lreturn | dreturn => some (2, 0)
  | newarray | anewarray | arraylength | checkcast | instanceof => some (1, 1)
  | _ => none

/-- Whether control goes on with the next instruction. -/
def Opcode.fallsThrough : Opcode → Bool
  | goto | tableswitch | lookupswitch | ireturn | lreturn | dreturn | areturn | return_
  | athrow => false
  | _ => true

/-- An opcode that takes and puts so many words and then goes on. -/
def Opcode.Moves (o : Opcode) (takes puts : Nat) : Prop :=
  o.effect = some (takes, puts) ∧ o.fallsThrough

/-- The load or store that a short form stands for, with its slot. -/
def Opcode.longForm? : Opcode → Option (Opcode × Nat)
  | iload_0 => some (iload, 0) | iload_1 => some (iload, 1)
  | iload_2 => some (iload, 2) | iload_3 => some (iload, 3)
  | lload_0 => some (lload, 0) | lload_1 => some (lload, 1)
  | lload_2 => some (lload, 2) | lload_3 => some (lload, 3)
  | dload_0 => some (dload, 0) | dload_1 => some (dload, 1)
  | dload_2 => some (dload, 2) | dload_3 => some (dload, 3)
  | aload_0 => some (aload, 0) | aload_1 => some (aload, 1)
  | aload_2 => some (aload, 2) | aload_3 => some (aload, 3)
  | istore_0 => some (istore, 0) | istore_1 => some (istore, 1)
  | istore_2 => some (istore, 2) | istore_3 => some (istore, 3)
  | lstore_0 => some (lstore, 0) | lstore_1 => some (lstore, 1)
  | lstore_2 => some (lstore, 2) | lstore_3 => some (lstore, 3)
  | dstore_0 => some (dstore, 0) | dstore_1 => some (dstore, 1)
  | dstore_2 => some (dstore, 2) | dstore_3 => some (dstore, 3)
  | astore_0 => some (astore, 0) | astore_1 => some (astore, 1)
  | astore_2 => some (astore, 2) | astore_3 => some (astore, 3)
  | _ => none

theorem Opcode.Moves.shortForm {o : Opcode} (h : o.Moves takes puts)
    (hshort : o.shortForm? slot = some short) : short.Moves takes puts := by
  have hmem : short ∈ o.shortForms := List.mem_of_getElem? hshort
  cases o <;> simp only [shortForms, List.mem_cons, List.not_mem_nil, or_false] at hmem <;>
    rcases hmem with rfl | rfl | rfl | rfl <;> exact h

namespace Instruction

/-- The words that an instruction takes and those that it puts. -/
def effect : Instruction → Option (Nat × Nat)
  | plain op | branch op _ | reference op _ | localVar op _ | operand op _ => op.effect
  | load value => some (0, if value.isWide then 2 else 1)
  | member .getstatic _ _ d => (Descriptor.fieldWords d).map fun w => (0, w)
  | member .putstatic _ _ d => (Descriptor.fieldWords d).map fun w => (w, 0)
  | member .getfield _ _ d => (Descriptor.fieldWords d).map fun w => (1, w)
  | member .putfield _ _ d => (Descriptor.fieldWords d).map fun w => (1 + w, 0)
  | member .invokestatic _ _ d => Descriptor.methodWords d
  | member .invokevirtual _ _ d | member .invokespecial _ _ d | member .invokeinterface _ _ d =>
    (Descriptor.methodWords d).map fun w => (1 + w.1, w.2)
  | member .. => none
  | step .. => some (0, 0)
  | multiArray _ dims => some (dims, 1)
  | tableSwitch .. | lookupSwitch .. => some (1, 0)

/-- The labels that an instruction may go to. -/
def targets : Instruction → List Label
  | branch _ target => [target]
  | tableSwitch otherwise _ _ targets => otherwise :: targets
  | lookupSwitch otherwise pairs => otherwise :: pairs.map (·.2)
  | _ => []

end Instruction

/-! ## Descriptors of proper types -/

/-- The words of values one upon the other. -/
def Ty.sumWords (types : List Ty) : Nat := (types.map Ty.words).sum

namespace Descriptor

/-- A descriptor says how many words values of its type take. -/
theorem typeWords_descriptor : ∀ {t : Ty}, t.isProper → ∀ rest : List Char,
    typeWords (t.descriptor.toList ++ rest) = some (t.words, rest)
  | .int, _, _ | .long, _, _ | .double, _, _ | .boolean, _, _ | .char, _, _ => rfl
  | .string, _, rest => by
    simp [Ty.descriptor, stringClass, typeWords, Ty.words]
  | .named name, h, rest => by
    have hname : ∀ c ∈ name.toList, (decide (c ≠ ';')) = true := by
      intro c hc
      have : ';' ∉ name.toList := by simpa [Ty.isProper] using h
      simpa using fun heq : c = ';' => this (heq ▸ hc)
    have hdrop : (name.toList ++ ';' :: rest).dropWhile (· ≠ ';') = ';' :: rest := by
      rw [List.dropWhile_append_of_pos hname]
      simp
    simp only [ne_eq, decide_not] at hdrop
    simp [Ty.descriptor, typeWords, Ty.words, hdrop]
  | .array c, h, rest => by
    have ih := typeWords_descriptor (t := c) h rest
    simp [Ty.descriptor, typeWords, Ty.words, ih]

theorem descriptor_head_ne {t : Ty} (h : t.isProper) (cs rest : List Char) :
    t.descriptor.toList ++ rest ≠ ')' :: cs := by
  intro heq
  have := typeWords_descriptor h rest
  rw [heq] at this
  simp [typeWords] at this

theorem paramWords_descriptors :
    ∀ {params}, (∀ p ∈ params, p.isProper) → ∀ n rest, params.length ≤ n →
      paramWords n (params.flatMap (·.descriptor.toList) ++ ')' :: rest) =
        some (Ty.sumWords params, rest)
  | [], _, n, rest, _ => by
    simp [paramWords, Ty.sumWords]
  | p :: params, h, n, rest, hn => by
    obtain ⟨m, rfl⟩ : ∃ m, n = m + 1 := ⟨n - 1, by simp at hn; omega⟩
    have hp : p.isProper := h p (by simp)
    have hparams : ∀ q ∈ params, q.isProper := fun q hq => h q (by simp [hq])
    have ih := paramWords_descriptors hparams m rest (by simpa using hn)
    have hfirst := typeWords_descriptor hp (params.flatMap (·.descriptor.toList) ++ ')' :: rest)
    rw [List.flatMap_cons, List.append_assoc, paramWords.eq_2]
    · simp [hfirst, ih, Ty.sumWords]
    · exact fun cs heq => descriptor_head_ne hp cs _ heq

theorem length_le_descriptors : ∀ {params : List Ty}, (∀ p ∈ params, p.isProper) →
    params.length ≤ (params.flatMap (·.descriptor.toList)).length
  | [], _ => Nat.le_refl 0
  | p :: params, h => by
    have ih := length_le_descriptors fun q (hq : q ∈ params) => h q (by simp [hq])
    have hpos : 0 < p.descriptor.toList.length := by
      have hwords := typeWords_descriptor (h p (by simp)) []
      cases hd : p.descriptor.toList with
      | nil => simp [hd, typeWords] at hwords
      | cons c cs => simp
    rw [List.flatMap_cons, List.length_append, List.length_cons]
    omega

theorem resultWords_descriptor {t : Ty} (h : t.isProperResult) :
    resultWords t.descriptor.toList = some t.words := by
  simp only [Ty.isProperResult, Bool.or_eq_true, decide_eq_true_eq] at h
  rcases h with rfl | h
  · rfl
  · have hwords := typeWords_descriptor h []
    rw [List.append_nil] at hwords
    unfold resultWords
    split
    next heq =>
      rw [heq] at hwords
      simp [typeWords] at hwords
    next => simp [hwords]

theorem fieldWords_descriptor {t : Ty} (h : t.isProper) :
    fieldWords t.descriptor = some t.words := by
  have hwords := typeWords_descriptor h []
  rw [List.append_nil] at hwords
  simp [fieldWords, hwords]

/-- The descriptor of a method says how many words it takes and leaves. -/
theorem methodWords_methodDescriptor {params : List Ty} {result : Ty}
    (hparams : ∀ p ∈ params, p.isProper) (hresult : result.isProperResult) :
    methodWords (Ty.methodDescriptor params result) = some (Ty.sumWords params, result.words) := by
  have hlist : (Ty.methodDescriptor params result).toList =
      '(' :: (params.flatMap (·.descriptor.toList) ++ ')' :: result.descriptor.toList) := by
    simp [Ty.methodDescriptor, List.flatMap_map]
  have hlength : params.length ≤
      (params.flatMap (·.descriptor.toList) ++ ')' :: result.descriptor.toList).length := by
    have := length_le_descriptors hparams
    rw [List.length_append]
    omega
  rw [methodWords, hlist]
  simp only [paramWords_descriptors hparams _ _ hlength, Option.bind_eq_bind, Option.bind_some,
    resultWords_descriptor hresult]
  rfl

end Descriptor

end JMinusMinus
