import JMinusMinus.Ty
import Mathlib

/-!
# Descriptors are a prefix code

Parameter descriptors stand side by side without separators. They can be told apart since no
descriptor is continued by another one: a letter stands alone, brackets count the array levels and
a class name ends at its semicolon.
-/

namespace JMinusMinus.Ty

/-- A type with a descriptor of its own. The string class stands for itself, and no class name
is empty or holds the mark that ends it. -/
def Describable : Ty → Prop
  | .null | .any => False
  | .named name => name ≠ "" ∧ ';' ∉ name.toList ∧ name ≠ stringClass
  | .array c => c.Describable
  | _ => True

variable {s t : Ty} {rest rest' : List Char}

theorem append_mark_inj {x y : List Char} (hx : ';' ∉ x) (hy : ';' ∉ y)
    (h : x ++ ';' :: rest = y ++ ';' :: rest') : x = y ∧ rest = rest' := by
  induction x generalizing y with
  | nil =>
    cases y with
    | nil => exact ⟨rfl, List.tail_eq_of_cons_eq h⟩
    | cons d y => exact absurd (List.head_eq_of_cons_eq h) (List.ne_of_not_mem_cons hy)
  | cons c x ih =>
    cases y with
    | nil => exact absurd (List.head_eq_of_cons_eq h).symm (List.ne_of_not_mem_cons hx)
    | cons d y =>
      rw [List.mem_cons, not_or] at hx hy
      obtain ⟨rfl, hmore⟩ := List.cons_eq_cons.1 h
      obtain ⟨rfl, hrest⟩ := ih hx.2 hy.2 hmore
      exact ⟨rfl, hrest⟩

/-- What follows a descriptor can be told from it. -/
theorem descriptor_append_inj (hs : s.Describable) (ht : t.Describable)
    (h : s.descriptor.toList ++ rest = t.descriptor.toList ++ rest') : s = t ∧ rest = rest' := by
  have hmark : ';' ∉ stringClass.toList := by decide
  induction s generalizing t with
  | array c ih =>
    cases t with
    | array d =>
      simp only [descriptor, String.toList_append, List.append_assoc] at h
      obtain ⟨rfl, hrest⟩ := ih (t := d) hs ht (List.append_cancel_left h)
      exact ⟨rfl, hrest⟩
    | _ => simp [descriptor] at h
  | string =>
    cases t with
    | string => exact ⟨rfl, by simpa [descriptor] using h⟩
    | named name =>
      have hname := (append_mark_inj hmark ht.2.1 (by simpa [descriptor] using h)).1
      exact absurd (String.toList_inj.1 hname).symm ht.2.2
    | null | any => exact ht.elim
    | _ => simp [descriptor] at h
  | named name =>
    cases t with
    | string =>
      have hname := (append_mark_inj hs.2.1 hmark (by simpa [descriptor] using h)).1
      exact absurd (String.toList_inj.1 hname) hs.2.2
    | named name' =>
      obtain ⟨hname, hrest⟩ := append_mark_inj hs.2.1 ht.2.1 (by simpa [descriptor] using h)
      exact ⟨congrArg named (String.toList_inj.1 hname), hrest⟩
    | null | any => exact ht.elim
    | _ => simp [descriptor] at h
  | null | any => exact hs.elim
  | _ =>
    cases t with
    | null | any => exact ht.elim
    | _ => simp_all [descriptor]

theorem head_descriptor (t : Ty) : ∃ c cs, t.descriptor.toList = c :: cs ∧ c ≠ ')' := by
  cases t <;> simp [descriptor]

/-- Descriptors of parameters can be told apart in front of any text. -/
theorem params_append_inj {ps qs : List Ty} (hps : ∀ t ∈ ps, t.Describable)
    (hqs : ∀ t ∈ qs, t.Describable)
    (h : ps.flatMap (·.descriptor.toList) ++ ')' :: rest =
      qs.flatMap (·.descriptor.toList) ++ ')' :: rest') : ps = qs ∧ rest = rest' := by
  induction ps generalizing qs with
  | nil =>
    cases qs with
    | nil => simpa using h
    | cons q qs =>
      obtain ⟨c, cs, hq, hc⟩ := head_descriptor q
      simp [hq, hc.symm] at h
  | cons p ps ih =>
    cases qs with
    | nil =>
      obtain ⟨c, cs, hp, hc⟩ := head_descriptor p
      simp [hp, hc] at h
    | cons q qs =>
      simp only [List.flatMap_cons, List.append_assoc] at h
      rw [List.forall_mem_cons] at hps hqs
      obtain ⟨rfl, hmore⟩ := descriptor_append_inj hps.1 hqs.1 h
      obtain ⟨rfl, hrest⟩ := ih hps.2 hqs.2 hmore
      exact ⟨rfl, hrest⟩

/-- Descriptors are uniquely decodable, and so are the descriptors of methods. -/
theorem descriptor_decodable :
    Set.InjOn descriptor {t | t.Describable} ∧
    (∀ s t : Ty, s.Describable → t.Describable →
      s.descriptor.toList <+: t.descriptor.toList → s.descriptor = t.descriptor) ∧
    Set.InjOn (fun m : List Ty × Ty => methodDescriptor m.1 m.2)
      {m | (∀ t ∈ m.1, t.Describable) ∧ m.2.Describable} := by
  refine ⟨fun s hs t ht h => ?_, fun s t hs ht h => ?_, ?_⟩
  · exact (descriptor_append_inj hs ht (congrArg (·.toList ++ []) h)).1
  · obtain ⟨rest, h⟩ := h
    rw [← List.append_nil t.descriptor.toList] at h
    rw [(descriptor_append_inj hs ht h).1]
  · rintro ⟨ps, r⟩ ⟨hps, hr⟩ ⟨qs, r'⟩ ⟨hqs, hr'⟩ h
    have hchars : ps.flatMap (·.descriptor.toList) ++ ')' :: (r.descriptor.toList ++ []) =
        qs.flatMap (·.descriptor.toList) ++ ')' :: (r'.descriptor.toList ++ []) := by
      simpa [methodDescriptor, List.flatMap_map] using congrArg String.toList h
    obtain ⟨hparams, hresult⟩ := params_append_inj hps hqs hchars
    rw [show ps = qs from hparams, show r = r' from (descriptor_append_inj hr hr' hresult).1]

/-- A class name may hold the letters of the basic types: after `[LI;` another `I` is a type. -/
theorem descriptor_decodable_letters :
    (named "I").Describable ∧ ∀ m : List Ty × Ty, (∀ t ∈ m.1, t.Describable) → m.2.Describable →
      methodDescriptor m.1 m.2 = "([LI;I)V" → m = ([.array (.named "I"), .int], .void) := by
  have hname : (named "I").Describable := by simp [Describable, stringClass]
  refine ⟨hname, fun m hparams hresult h => ?_⟩
  exact descriptor_decodable.2.2 ⟨hparams, hresult⟩
    ⟨by simpa [Describable] using hname, trivial⟩ (h.trans (by decide))

end JMinusMinus.Ty
