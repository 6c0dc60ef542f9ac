import JMinusMinus.Analysis.Context
import Mathlib

/-!
# Runs of steps

How a run of two steps in turn is made of the runs of the two, and what holds of everything that a
step returns (`Returns`).
-/

namespace JMinusMinus.Analysis

variable {α β : Type}

theorem bind_run {f : α → Analysis β} (h : x c = .ok (a, c')) : (x >>= f) c = f a c' := by
  simp [Bind.bind, StateT.bind, h, Except.bind]

theorem bind_error {f : α → Analysis β} (h : x c = .error e) : (x >>= f) c = .error e := by
  simp [Bind.bind, StateT.bind, h, Except.bind]

theorem bind_cases (x : Analysis α) (f : α → Analysis β) (c : Context) :
    (∃ e, x c = .error e ∧ (x >>= f) c = .error e) ∨
      ∃ a c', x c = .ok (a, c') ∧ (x >>= f) c = f a c' := by
  cases hrun : x c with
  | error e => exact .inl ⟨e, rfl, bind_error hrun⟩
  | ok res => exact .inr ⟨res.1, res.2, rfl, bind_run hrun⟩

theorem runs_of_bind {f : α → Analysis β} (h : (x >>= f) c = .ok (b, c'')) :
    ∃ a c', x c = .ok (a, c') ∧ f a c' = .ok (b, c'') := by
  rcases bind_cases x f c with ⟨e, -, herror⟩ | ⟨a, c', hx, hrun⟩
  · rw [herror] at h
    cases h
  · exact ⟨a, c', hx, hrun.symm.trans h⟩

theorem discard_eq (x : Analysis α) :
    (discard x : Analysis PUnit) = x >>= fun _ => pure PUnit.unit :=
  map_eq_pure_bind _ x

theorem discard_run (h : x c = .ok (a, c')) : (discard x : Analysis PUnit) c = .ok ((), c') := by
  rw [discard_eq, bind_run h]
  rfl

theorem exists_of_mem_forall₂ {R : α → β → Prop} (h : List.Forall₂ R as bs) (hb : b ∈ bs) :
    ∃ a ∈ as, R a b := by
  induction h with
  | nil => cases hb
  | cons hr _ ih =>
    rcases List.mem_cons.1 hb with rfl | hb
    · exact ⟨_, .head _, hr⟩
    · obtain ⟨a, ha, hr⟩ := ih hb
      exact ⟨a, .tail _ ha, hr⟩

theorem exists_of_mem_forall₂_left {R : α → β → Prop} (h : List.Forall₂ R as bs) (ha : a ∈ as) :
    ∃ b ∈ bs, R a b :=
  exists_of_mem_forall₂ (R := fun b a => R a b) h.flip ha

theorem map_eq_of_forall₂ {γ : Type} {R : α → β → Prop} {f : α → γ} {g : β → γ}
    (h : List.Forall₂ R as bs) (hR : ∀ a b, R a b → g b = f a) : bs.map g = as.map f := by
  induction h with
  | nil => rfl
  | cons hr _ ih => rw [List.map_cons, List.map_cons, hR _ _ hr, ih]

/-! ## What steps return -/

/-- What holds of every result of a step, whether or not something is reported. -/
def Returns (x : Analysis α) (p : α → Prop) : Prop := ∀ c a c', x c = .ok (a, c') → p a

namespace Returns

variable {x y : Analysis α} {p q : α → Prop}

theorem any : Returns x fun _ => True := fun _ _ _ _ => trivial

theorem pure {a : α} (h : p a) : Returns (pure a) p := by
  intro c a' c' hrun
  cases hrun
  exact h

theorem imp (h : Returns x p) (hpq : ∀ a, p a → q a) : Returns x q :=
  fun c a c' hrun => hpq a (h c a c' hrun)

theorem bind {f : α → Analysis β} {r : β → Prop} (hx : Returns x q)
    (hf : ∀ a, q a → Returns (f a) r) : Returns (x >>= f) r := by
  intro c b c'' hrun
  obtain ⟨a, c', hxc, hfc⟩ := runs_of_bind hrun
  exact hf a (hx c a c' hxc) c' b c'' hfc

theorem skip {f : α → Analysis β} {r : β → Prop} (hf : ∀ a, Returns (f a) r) :
    Returns (x >>= f) r :=
  .bind .any fun a _ => hf a

theorem ite {b : Prop} [Decidable b] (hx : Returns x p) (hy : Returns y p) :
    Returns (if b then x else y) p := by
  split
  · exact hx
  · exact hy

theorem reportUnless {b : Prop} [Decidable b] {f : Unit → Analysis α} (h : Returns (f ()) p) :
    Returns (if b then f () else report line problem >>= f) p :=
  .ite h (.skip fun _ => h)

theorem mapM_forall₂ {f : β → Analysis α} {r : β → α → Prop} :
    ∀ {bs}, (∀ b ∈ bs, Returns (f b) (r b)) → Returns (bs.mapM f) (List.Forall₂ r bs)
  | [], _ => .pure .nil
  | b :: bs, h => by
    rw [List.mapM_cons]
    refine .bind (h b List.mem_cons_self) fun a ha => ?_
    refine .bind (mapM_forall₂ fun b' hb' => h b' (List.mem_cons_of_mem b hb')) fun as has => ?_
    exact .pure (.cons ha has)

theorem mapM {f : β → Analysis α} {r : β → α → Prop} {bs : List β}
    (h : ∀ b ∈ bs, Returns (f b) (r b)) : Returns (bs.mapM f) fun as => ∀ a ∈ as, ∃ b ∈ bs, r b a :=
  (mapM_forall₂ h).imp fun _ h _ ha => exists_of_mem_forall₂ h ha

theorem mapM_map {γ : Type} {f : β → Analysis α} {g : α → γ} {h : β → γ}
    (hf : ∀ b, Returns (f b) fun a => g a = h b) (bs : List β) :
    Returns (bs.mapM f) fun as => as.map g = bs.map h :=
  (mapM_forall₂ fun b _ => hf b).imp fun _ h => map_eq_of_forall₂ h fun _ _ => id

end Returns

end JMinusMinus.Analysis
