import JMinusMinus.Proofs.Labels.Stmt
import JMinusMinus.Proofs.Machine.Basic

/-!
# Switches

Where the jump of a switch goes. The label of a group is the target of the numbers that the group
lists; the group with the label for everything else takes the other ones, and without such a group
they go behind the statement (`Destination`).

A table has one target for every number between the least case and the greatest, so that it fills
the holes between cases with the target of everything else. It and the lookup go to the same
target for every number, in the range or not.
-/

namespace JMinusMinus

open List

/-! ## Pairs in order of keys -/

theorem Instruction.lookup_insertPair {α : Type} (key k : Int) (value : α)
    (pairs : List (Int × α)) :
    (insertPair key value pairs).lookup k = if k = key then some value else pairs.lookup k := by
  induction pairs with
  | nil => grind [insertPair, List.lookup]
  | cons p pairs ih =>
    unfold insertPair
    split
    · grind [List.lookup]
    · split
      · grind [List.lookup]
      · grind [List.lookup]

/-! ## The bounds of a table -/

namespace DispatchCosts

theorem foldl_rel {r : Int → Int → Prop} {f : Int → Int → Int} (hrefl : ∀ a, r a a)
    (htrans : ∀ a b c, r a b → r b c → r a c) (hf : ∀ a b, r (f a b) a ∧ r (f a b) b) (v : Int)
    (vs : List Int) : ∀ w ∈ v :: vs, r (vs.foldl f v) w := by
  induction vs generalizing v with
  | nil => simpa using hrefl v
  | cons u vs ih =>
    intro w hw
    have hstep := ih (f v u) (f v u) mem_cons_self
    rcases mem_cons.1 hw with rfl | hw
    · exact htrans _ _ _ hstep (hf _ _).1
    · rcases mem_cons.1 hw with rfl | hw
      · exact htrans _ _ _ hstep (hf _ _).2
      · exact ih (f v u) w (mem_cons_of_mem _ hw)

theorem bounds_of_of? {values : List Int} (h : of? values = some c) :
    c.lo ≤ c.hi ∧ ∀ v ∈ values, c.lo ≤ v ∧ v ≤ c.hi := by
  cases values with
  | nil => cases h
  | cons v vs =>
    cases h
    have hbounds : ∀ w ∈ v :: vs, vs.foldl min v ≤ w ∧ w ≤ vs.foldl max v := fun w hw =>
      ⟨foldl_rel (r := (· ≤ ·)) (by omega) (by omega) (by omega) v vs w hw,
        foldl_rel (r := (· ≥ ·)) (by omega) (by omega) (by omega) v vs w hw⟩
    have hfirst := hbounds v mem_cons_self
    exact ⟨Int.le_trans hfirst.1 hfirst.2, hbounds⟩

end DispatchCosts

namespace Lowering

/-! ## The jump -/

namespace Targets

/-- Where a number goes. -/
def target (t : Targets) (v : Int) : Label := (t.cases.lookup v).getD t.otherwise

/-- The jump by a table over a range. -/
def tableJump (t : Targets) (lo hi : Int) : Instruction :=
  .tableSwitch t.otherwise lo hi (t.table lo (hi - lo + 1).toNat)

@[simp]
theorem length_table (t : Targets) (lo : Int) (n : Nat) : (t.table lo n).length = n := by
  induction n generalizing lo with
  | zero => rfl
  | succ n ih => rw [table, length_cons, ih]

theorem getElem?_table (t : Targets) (lo : Int) (h : i < n) :
    (t.table lo n)[i]? = some (t.target (lo + i)) := by
  induction n generalizing lo i with
  | zero => omega
  | succ n ih =>
    cases i with
    | zero => simp [table, target]
    | succ i =>
      have hshift : lo + 1 + (i : Int) = lo + ((i + 1 : Nat) : Int) := by omega
      rw [table, getElem?_cons_succ, ih (lo + 1) (Nat.lt_of_succ_lt_succ h), hshift]

theorem target_of_not_mem (t : Targets) (h : v ∉ t.cases.map (·.1)) : t.target v = t.otherwise := by
  have hnone : t.cases.lookup v = none := by
    rw [lookup_eq_none_iff]
    intro p hp
    rw [bne_iff_ne]
    rintro rfl
    exact h (mem_map.2 ⟨p, hp, rfl⟩)
  rw [target, hnone]
  rfl

theorem select?_tableJump (t : Targets) (h : ∀ c ∈ t.cases.map (·.1), lo ≤ c ∧ c ≤ hi) (v : Int) :
    (t.tableJump lo hi).select? v = some (t.target v) := by
  rw [tableJump, Instruction.select?]
  split
  case isTrue hv =>
    have hindex : (v - lo).toNat < (hi - lo + 1).toNat := by omega
    have hvalue : lo + ((v - lo).toNat : Int) = v := by omega
    rw [t.getElem?_table lo hindex, hvalue]
  case isFalse hv =>
    rw [t.target_of_not_mem fun hmem => hv (h v hmem)]

/-- The jump is by a table or by a lookup. -/
theorem dispatch_cases (t : Targets) :
    (∃ c, DispatchCosts.of? (t.cases.map (·.1)) = some c ∧ t.dispatch = t.tableJump c.lo c.hi) ∨
      t.dispatch = .lookupSwitch t.otherwise t.cases := by
  unfold dispatch
  dsimp only
  split
  case h_1 c _ hc => exact .inl ⟨c, hc, rfl⟩
  case h_2 => exact .inr rfl

theorem select?_dispatch (t : Targets) (v : Int) : t.dispatch.select? v = some (t.target v) := by
  rcases t.dispatch_cases with ⟨c, hc, heq⟩ | heq
  · rw [heq, t.select?_tableJump (DispatchCosts.bounds_of_of? hc).2]
  · rw [heq]
    rfl

theorem act_dispatch (t : Targets) {W : Type} (rt : Runtime W) {d : Data W}
    (h : d.stack = .int v :: st) :
    t.dispatch.act rt d = some (.jump (t.target v.toInt) { d with stack := st }) := by
  have hselect := t.select?_dispatch v.toInt
  rcases t.dispatch_cases with ⟨c, -, heq⟩ | heq
  · rw [heq] at hselect ⊢
    simp only [tableJump] at hselect ⊢
    simp [Instruction.act, h, hselect]
  · rw [heq] at hselect ⊢
    simp [Instruction.act, h, hselect]

end Targets

/-! ## Groups -/

/-- The literal that an expression is, with or without casts around it. -/
def literal? : Expr → Option Literal
  | .literal _ l => some l
  | .cast _ _ e => literal? e
  | _ => none

/-- The number that a label lists: the value of its literal. -/
def constant? : SwitchLabel → Option Int
  | .case e => (literal? e).bind fun l => l.intValue.toOption.bind id
  | .otherwise _ => none

theorem caseConstant_of_literal? : ∀ {e : Expr}, literal? e = some l → caseConstant e = l.intValue
  | .literal _ _, h => by
    cases h
    rfl
  | .cast _ _ e, h => caseConstant_of_literal? (e := e) h

/-- The numbers that a group lists. -/
def listed (labels : List SwitchLabel) : List Int := labels.filterMap constant?

theorem mem_listed_flatten {groups : List (List SwitchLabel)} {labels : List SwitchLabel} {v : Int}
    (h : labels ∈ groups) (hv : v ∈ listed labels) : v ∈ listed groups.flatten := by
  obtain ⟨l, hl, hconstant⟩ := mem_filterMap.1 hv
  exact mem_filterMap.2 ⟨l, mem_flatten.2 ⟨labels, h, hl⟩, hconstant⟩

/-- Labels of a switch: different constants, and at most one for everything else. -/
structure Distinct (labels : List SwitchLabel) : Prop where
  each : ∀ l ∈ labels, l.isOtherwise ∨ (constant? l).isSome
  listed : (listed labels).Nodup
  otherwise : (labels.filter SwitchLabel.isOtherwise).length ≤ 1

/-- Labels that are distinct are distinct in each part, and across them. -/
theorem Distinct.append {a b : List SwitchLabel} (h : Distinct (a ++ b)) :
    Distinct a ∧ Distinct b ∧ (∀ v ∈ Lowering.listed a, v ∉ Lowering.listed b) ∧
      (a.any SwitchLabel.isOtherwise → b.any SwitchLabel.isOtherwise = false) := by
  obtain ⟨heach, hlisted, hotherwise⟩ := h
  rw [Lowering.listed, filterMap_append, nodup_append] at hlisted
  rw [filter_append, length_append] at hotherwise
  obtain ⟨ha, hb, hapart⟩ := hlisted
  refine ⟨⟨fun l hl => heach l (by simp [hl]), ha, by omega⟩,
    ⟨fun l hl => heach l (by simp [hl]), hb, by omega⟩, fun v hv hv' => hapart v hv v hv' rfl, ?_⟩
  intro hany
  obtain ⟨l, hl, hl'⟩ := any_eq_true.1 hany
  have hpos := length_pos_of_mem (mem_filter.2 ⟨hl, hl'⟩)
  have hnil : b.filter SwitchLabel.isOtherwise = [] := length_eq_zero_iff.1 (by omega)
  simpa using hnil

/-- Where a number goes in a switch over groups with labels: to the group that lists it, or to the
one for everything else, or behind the statement. -/
inductive Destination (stop : Label) (groups : List (List SwitchLabel × Label)) (v : Int) :
    Label → Prop
  | listed {g : List SwitchLabel × Label} : g ∈ groups → v ∈ listed g.1 →
      Destination stop groups v g.2
  | otherwise {g : List SwitchLabel × Label} : (∀ f ∈ groups, v ∉ Lowering.listed f.1) →
      g ∈ groups → g.1.any SwitchLabel.isOtherwise → Destination stop groups v g.2
  | stop : (∀ f ∈ groups, v ∉ Lowering.listed f.1) →
      (∀ f ∈ groups, f.1.any SwitchLabel.isOtherwise = false) → Destination stop groups v stop

theorem silent_bind {α β : Type} {x : Lowering α} {s s' : Supply} {v : α}
    (h : x s = .ok ⟨v, {}, [], s'⟩) (f : α → Lowering β) : (x >>= f) s = f v s' := by
  simp only [Bind.bind, h, Except.bind]
  cases f v s' with
  | error e => rfl
  | ok a => simp [Pure.pure, Except.pure, Fragment.empty_append]

namespace Targets

/-- The targets after the labels of a group have been added. -/
structure Adds (t : Targets) (group : Label) (labels : List SwitchLabel) (t' : Targets) : Prop where
  lookup : ∀ v, t'.cases.lookup v =
    if v ∈ listed labels then some group else t.cases.lookup v
  otherwise : t'.otherwise = if labels.any SwitchLabel.isOtherwise then group else t.otherwise

theorem exists_add (t : Targets) (group : Label) (h : l.isOtherwise ∨ (constant? l).isSome)
    (s : Supply) : ∃ t', t.add group l s = .ok ⟨t', {}, [], s⟩ ∧ t.Adds group [l] t' := by
  cases l with
  | otherwise line =>
    exact ⟨{ t with otherwise := group }, rfl, by simp [listed, constant?], rfl⟩
  | case e =>
    obtain ⟨value, hvalue⟩ := Option.isSome_iff_exists.1 (h.resolve_left Bool.false_ne_true)
    have hconstant : caseConstant e = .ok (some value) := by
      obtain ⟨l, hl, hvalue⟩ := Option.bind_eq_some_iff.1 hvalue
      rw [caseConstant_of_literal? hl]
      cases hread : l.intValue with
      | error f =>
        rw [hread] at hvalue
        cases hvalue
      | ok v =>
        rw [hread] at hvalue
        exact congrArg Except.ok hvalue
    refine ⟨{ t with cases := Instruction.insertPair value group t.cases }, ?_, fun v => ?_, rfl⟩
    · simp only [add, hconstant]
      rfl
    · simp [Instruction.lookup_insertPair, listed, hvalue]

/-- Labels may be added in two portions. -/
theorem Adds.trans {t u w : Targets} {group : Label} {l l' : List SwitchLabel}
    (h : t.Adds group l u) (h' : u.Adds group l' w) : t.Adds group (l ++ l') w where
  lookup v := by
    rw [h'.lookup, h.lookup]
    grind [listed]
  otherwise := by
    rw [h'.otherwise, h.otherwise, any_append]
    grind

theorem exists_foldlM_add (t : Targets) (group : Label) {labels : List SwitchLabel}
    (h : ∀ l ∈ labels, l.isOtherwise ∨ (constant? l).isSome) (s : Supply) :
    ∃ t', labels.foldlM (fun t l => t.add group l) t s = .ok ⟨t', {}, [], s⟩ ∧
      t.Adds group labels t' := by
  induction labels generalizing t with
  | nil => exact ⟨t, rfl, by simp [listed], rfl⟩
  | cons l labels ih =>
    obtain ⟨u, hu, hadds⟩ := t.exists_add group (h l mem_cons_self) s
    obtain ⟨w, hw, hmore⟩ := ih u fun l' hl' => h l' (mem_cons_of_mem _ hl')
    refine ⟨w, ?_, hadds.trans hmore⟩
    rw [foldlM_cons, silent_bind hu, hw]

/-- The targets after whole groups have been added. -/
structure AddsGroups (t : Targets) (groups : List (List SwitchLabel × Label)) (t' : Targets) :
    Prop where
  listed : ∀ g ∈ groups, ∀ v ∈ listed g.1, t'.cases.lookup v = some g.2
  unlisted : ∀ v, (∀ g ∈ groups, v ∉ Lowering.listed g.1) → t'.cases.lookup v = t.cases.lookup v
  otherwise : ∀ g ∈ groups, g.1.any SwitchLabel.isOtherwise → t'.otherwise = g.2
  rest : (∀ g ∈ groups, g.1.any SwitchLabel.isOtherwise = false) → t'.otherwise = t.otherwise

theorem Adds.addsGroups {t u w : Targets} {labels : List SwitchLabel} {group : Label}
    {groups : List (List SwitchLabel × Label)} (h : t.Adds group labels u)
    (hmore : u.AddsGroups groups w)
    (hlisted : ∀ v ∈ Lowering.listed labels, ∀ g ∈ groups, v ∉ Lowering.listed g.1)
    (hotherwise : labels.any SwitchLabel.isOtherwise →
      ∀ g ∈ groups, g.1.any SwitchLabel.isOtherwise = false) :
    t.AddsGroups ((labels, group) :: groups) w where
  listed := by
    intro g hg v hv
    rcases mem_cons.1 hg with rfl | hg
    · rw [hmore.unlisted v (hlisted v hv), h.lookup, if_pos hv]
    · exact hmore.listed g hg v hv
  unlisted := by
    intro v hv
    rw [hmore.unlisted v fun g hg => hv g (mem_cons_of_mem _ hg), h.lookup,
      if_neg (hv _ mem_cons_self)]
  otherwise := by
    intro g hg hany
    rcases mem_cons.1 hg with rfl | hg
    · rw [hmore.rest (hotherwise hany), h.otherwise, if_pos hany]
    · exact hmore.otherwise g hg hany
  rest := by
    intro hnone
    have hfirst := hnone _ mem_cons_self
    rw [hmore.rest fun g hg => hnone g (mem_cons_of_mem _ hg), h.otherwise, if_neg]
    simpa using hfirst

/-- Adding the groups of a switch succeeds, and each group gets its label. -/
theorem exists_addGroups (t : Targets) {groups : List (List SwitchLabel)}
    (h : Distinct groups.flatten) (s : Supply) :
    ∃ t' labels, t.addGroups groups s =
        .ok ⟨(t', labels), {}, [], ⟨s.labels + groups.length, s.slot⟩⟩ ∧
      labels = created s.labels (s.labels + groups.length) ∧
      t.AddsGroups (groups.zip labels) t' := by
  induction groups generalizing t s with
  | nil => exact ⟨t, [], rfl, (created_self _).symm, by simp, by simp, by simp, by simp⟩
  | cons labels groups ih =>
    obtain ⟨hfirst, hrest, hlisted, hotherwise⟩ := Distinct.append (flatten_cons ▸ h)
    obtain ⟨u, hu, hadds⟩ := t.exists_foldlM_add ⟨s.labels⟩ hfirst.each ⟨s.labels + 1, s.slot⟩
    obtain ⟨w, rest, hw, hcreated, hmore⟩ := ih u hrest ⟨s.labels + 1, s.slot⟩
    have hnumber : s.labels + (labels :: groups).length = s.labels + 1 + groups.length := by
      simp only [length_cons]
      omega
    refine ⟨w, ⟨s.labels⟩ :: rest, ?_, ?_, hadds.addsGroups hmore ?_ ?_⟩
    · rw [addGroups, newLabel_bind, silent_bind hu, silent_bind hw, hnumber]
      rfl
    · rw [hcreated, hnumber, ← created_append (Nat.le_succ s.labels)
        (Nat.le_add_right (s.labels + 1) groups.length), created_succ]
      rfl
    · intro v hv g hg hg'
      exact hlisted v hv (mem_listed_flatten (of_mem_zip hg).1 hg')
    · intro hany g hg
      have hnone := hotherwise hany
      rw [any_flatten, any_eq_false] at hnone
      simpa using hnone g.1 (of_mem_zip hg).1

theorem AddsGroups.destination (h : AddsGroups ⟨stop, []⟩ groups t) :
    Destination stop groups v l ↔ l = t.target v := by
  have hsent : ∀ l, Destination stop groups v l → l = t.target v := by
    intro l hl
    cases hl with
    | listed hg hv => rw [target, h.listed _ hg v hv]; rfl
    | otherwise hv hg hany => rw [target, h.unlisted v hv, ← h.otherwise _ hg hany]; rfl
    | stop hv hnone => rw [target, h.unlisted v hv, h.rest hnone]; rfl
  refine ⟨hsent l, ?_⟩
  rintro rfl
  by_cases hv : ∃ g ∈ groups, v ∈ Lowering.listed g.1
  · obtain ⟨g, hg, hv⟩ := hv
    exact hsent _ (.listed hg hv) ▸ .listed hg hv
  · have hv : ∀ g ∈ groups, v ∉ Lowering.listed g.1 := fun g hg hmem => hv ⟨g, hg, hmem⟩
    by_cases hany : ∃ g ∈ groups, g.1.any SwitchLabel.isOtherwise
    · obtain ⟨g, hg, hany⟩ := hany
      exact hsent _ (.otherwise hv hg hany) ▸ .otherwise hv hg hany
    · have hnone : ∀ g ∈ groups, g.1.any SwitchLabel.isOtherwise = false := fun g hg =>
        Bool.eq_false_iff.2 fun h => hany ⟨g, hg, h⟩
      exact hsent _ (.stop hv hnone) ▸ .stop hv hnone

end Targets

/-- What the jump of a switch does, in either form. -/
structure Targets.Jumps (t : Targets) (stop : Label) (groups : List (List SwitchLabel × Label)) :
    Prop where
  /-- Every number is taken from the stack, and control goes to its only destination. -/
  goes : ∀ (W : Type) (rt : Runtime W) (d : Data W) (v : BitVec 32) (st : List Word),
    d.stack = .int v :: st → ∃ l,
      t.dispatch.act rt d = some (.jump l { d with stack := st }) ∧
      ∀ l', Destination stop groups v.toInt l' ↔ l' = l
  /-- A table over all cases goes where a lookup goes. -/
  agrees : ∀ c, DispatchCosts.of? (t.cases.map (·.1)) = some c → ∀ v : Int,
    (t.tableJump c.lo c.hi).select? v = (Instruction.lookupSwitch t.otherwise t.cases).select? v
  /-- A table has a target for every number of its range. -/
  full : ∀ otherwise lo hi targets, t.dispatch = .tableSwitch otherwise lo hi targets →
    (targets.length : Int) = hi - lo + 1

/-- The jump of a switch takes every number to the label of the group that lists it, or to that of
the group for everything else, or behind the statement. -/
theorem switch_jumps_to_group {groups : List (List SwitchLabel)} (h : Distinct groups.flatten)
    (stop : Label) (s : Supply) : ∃ t labels,
      Targets.addGroups ⟨stop, []⟩ groups s =
        .ok ⟨(t, labels), {}, [], ⟨s.labels + groups.length, s.slot⟩⟩ ∧
      labels = created s.labels (s.labels + groups.length) ∧
      t.Jumps stop (groups.zip labels) := by
  obtain ⟨t, labels, hrun, hlabels, hadds⟩ := Targets.exists_addGroups ⟨stop, []⟩ h s
  refine ⟨t, labels, hrun, hlabels, ⟨?_, ?_, ?_⟩⟩
  · intro W rt d v st hd
    exact ⟨_, t.act_dispatch rt hd, fun l' => hadds.destination⟩
  · intro c hc v
    rw [t.select?_tableJump (DispatchCosts.bounds_of_of? hc).2]
    rfl
  · intro otherwise lo hi targets hd
    rcases t.dispatch_cases with ⟨c, hc, heq⟩ | heq
    · rw [heq] at hd
      cases hd
      have hle := (DispatchCosts.bounds_of_of? hc).1
      rw [Targets.length_table]
      omega
    · rw [heq] at hd
      cases hd

/-- A case for a number as it is written. -/
def intCase (image : String) : SwitchLabel := .case (.literal { line := 1 } (.int image))

/-- Groups with the least and the greatest number, a hole between cases, and a label for everything
else that stands in the middle and shares its group with a case. -/
def unevenGroups : List (List SwitchLabel) :=
  [[intCase "-2147483648", intCase "4"], [intCase "1", .otherwise 1], [intCase "2147483647"]]

theorem unevenGroups_distinct : Distinct unevenGroups.flatten := ⟨by decide, by decide, by decide⟩

theorem switch_jumps_to_group_uneven : Distinct unevenGroups.flatten ∧ ∃ t labels,
    Targets.addGroups ⟨⟨0⟩, []⟩ unevenGroups ⟨1, 0⟩ = .ok ⟨(t, labels), {}, [], ⟨4, 0⟩⟩ ∧
    labels = [⟨1⟩, ⟨2⟩, ⟨3⟩] ∧ t.Jumps ⟨0⟩ (unevenGroups.zip labels) :=
  ⟨unevenGroups_distinct, switch_jumps_to_group unevenGroups_distinct ⟨0⟩ ⟨1, 0⟩⟩

end Lowering

end JMinusMinus
