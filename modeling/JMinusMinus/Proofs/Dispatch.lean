import JMinusMinus.Proofs.Switch

/-!
# How large a table is

A table has an entry for every number from the least case to the greatest, so two cases far apart
would make it huge. The costs rule that out. A table is taken exactly if its range is at most five
times the number of cases less ten (`Strategy.select_eq_table_iff`), whatever their order. Cases
are words of 32 bits and distinct, so there are at most `2 ^ 32` of them, and no number on the way
to the choice leaves 64 bits.
-/

namespace JMinusMinus

open List

variable {values : List Int}

namespace DispatchCosts

/-- What is computed on the way to the costs and to the choice between them. -/
def computed (c : DispatchCosts) : List Int :=
  [c.hi - c.lo, c.hi - c.lo + 1, c.tableSpace, c.tableTime, 2 * c.lookupTime, c.lookupSpace,
    c.lookupTime, 3 * c.tableTime, c.tableSpace + 3 * c.tableTime, 3 * c.lookupTime,
    c.lookupSpace + 3 * c.lookupTime]

theorem of?_eq_some (h : of? values = some c) :
    values.min? = some c.lo ∧ values.max? = some c.hi ∧ c =
      ⟨c.lo, c.hi, 4 + (c.hi - c.lo + 1), 3, 3 + 2 * values.length, values.length⟩ := by
  cases values with
  | nil => cases h
  | cons v vs =>
    cases h
    exact ⟨rfl, rfl, rfl⟩

theorem strategy_eq_table_iff (h : of? values = some c) :
    c.strategy = .table ↔ c.hi - c.lo + 1 ≤ 5 * values.length - 10 := by
  obtain ⟨-, -, hc⟩ := of?_eq_some h
  rw [strategy, hc]
  simp only [ite_eq_left_iff, reduceCtorEq, imp_false, Decidable.not_not]
  omega

end DispatchCosts

/-- Distinct numbers of a range are no more than the range has. -/
theorem length_le_of_nodup (distinct : values.Nodup)
    (within : ∀ v ∈ values, lo ≤ v ∧ v ≤ hi) : values.length ≤ (hi + 1 - lo).toNat := by
  rw [← toFinset_card_of_nodup distinct, ← Int.card_Icc]
  refine Finset.card_le_card fun v hv => ?_
  exact Finset.mem_Icc.2 (within v (mem_toFinset.1 hv))

namespace Strategy

/-- A table is chosen where its range is short for the number of cases. -/
theorem select_eq_table_iff : select values = .table ↔ ∃ lo hi,
    values.min? = some lo ∧ values.max? = some hi ∧ hi - lo + 1 ≤ 5 * values.length - 10 := by
  rw [select]
  cases hc : DispatchCosts.of? values with
  | none =>
    cases values with
    | nil => simp
    | cons v vs => cases hc
  | some c =>
    obtain ⟨hlo, hhi, -⟩ := DispatchCosts.of?_eq_some hc
    simp only [Option.map_some, Option.getD_some, DispatchCosts.strategy_eq_table_iff hc, hlo, hhi,
      Option.some.injEq, exists_eq_left', exists_and_left]

theorem select_eq_of_table_iff (h : select values = .table ↔ select values' = .table) :
    select values = select values' := by
  cases hs : select values <;> cases hs' : select values' <;> simp_all

/-- The choice does not depend on the order of the cases. -/
theorem select_perm (h : values.Perm values') : select values = select values' := by
  have hleast (lo : Int) : values.min? = some lo ↔ values'.min? = some lo := by
    simp only [min?_eq_some_iff, h.mem_iff]
  have hgreatest (hi : Int) : values.max? = some hi ↔ values'.max? = some hi := by
    simp only [max?_eq_some_iff, h.mem_iff]
  refine select_eq_of_table_iff ?_
  simp only [select_eq_table_iff, hleast, hgreatest, h.length_eq]

/-- The numbers from `lo` on, as many as are asked for. -/
def consecutive (lo : Int) (n : Nat) : List Int := (List.range n).map fun i : Nat => lo + i

theorem select_consecutive (h : 3 ≤ n) : select (consecutive lo n) = .table := by
  refine select_eq_table_iff.2 ⟨lo, lo + (n - 1 : Nat), ?_, ?_, ?_⟩
  · rw [min?_eq_some_iff]
    simp only [consecutive, mem_map, mem_range]
    exact ⟨⟨0, by omega, by omega⟩, by rintro _ ⟨i, -, rfl⟩; omega⟩
  · rw [max?_eq_some_iff]
    simp only [consecutive, mem_map, mem_range]
    exact ⟨⟨n - 1, by omega, rfl⟩, by rintro _ ⟨i, hi, rfl⟩; omega⟩
  · simp only [consecutive, length_map, length_range]
    omega

end Strategy

/-- What the choice between a table and a lookup comes to. -/
structure Moderate (values : List Int) : Prop where
  fits : ∀ c, DispatchCosts.of? values = some c → ∀ x ∈ c.computed, -2 ^ 63 ≤ x ∧ x < 2 ^ 63
  perm : ∀ values', values.Perm values' → Strategy.select values' = Strategy.select values
  table : Strategy.select values = .table ↔ ∃ lo hi,
    values.min? = some lo ∧ values.max? = some hi ∧ hi - lo + 1 ≤ 5 * values.length - 10
  few : values.length < 3 → Strategy.select values = .lookup
  /-- The table of a switch over the cases is at most five times as long as their list. -/
  entries : ∀ t : Lowering.Targets, t.cases.map (·.1) = values → ∀ otherwise lo hi targets,
    t.dispatch = .tableSwitch otherwise lo hi targets → targets.length ≤ 5 * values.length
  consecutive : ∀ lo n, 3 ≤ n → values.Perm (Strategy.consecutive lo n) →
    Strategy.select values = .table

theorem select_moderate {values : List Int} (distinct : values.Nodup)
    (word : ∀ v ∈ values, -2 ^ 31 ≤ v ∧ v < 2 ^ 31) : Moderate values where
  fits := by
    intro c hc x hx
    obtain ⟨hlo, hhi, heq⟩ := DispatchCosts.of?_eq_some hc
    have hlength := length_le_of_nodup distinct fun v hv =>
      ⟨(word v hv).1, Int.le_sub_one_of_lt (word v hv).2⟩
    have hlo := word _ (min?_mem hlo)
    have hhi := word _ (max?_mem hhi)
    rw [heq] at hx
    simp only [DispatchCosts.computed, mem_cons, not_mem_nil, or_false] at hx
    omega
  perm := fun values' h => (Strategy.select_perm h).symm
  table := Strategy.select_eq_table_iff
  few := by
    intro hfew
    cases hs : Strategy.select values with
    | lookup => rfl
    | table =>
      obtain ⟨lo, hi, hlo, hhi, hle⟩ := Strategy.select_eq_table_iff.1 hs
      have := (min?_eq_some_iff.1 hlo).2 hi (max?_mem hhi)
      have hlength := length_le_of_nodup distinct fun v hv =>
        ⟨(min?_eq_some_iff.1 hlo).2 v hv, (max?_eq_some_iff.1 hhi).2 v hv⟩
      omega
  entries := by
    rintro t rfl otherwise lo hi targets hd
    unfold Lowering.Targets.dispatch at hd
    dsimp only at hd
    split at hd
    case h_1 c hs hc =>
      cases hd
      obtain ⟨hlo, hhi, -⟩ := DispatchCosts.of?_eq_some hc
      obtain ⟨lo, hi, hlo', hhi', hle⟩ := Strategy.select_eq_table_iff.1 hs
      cases hlo.symm.trans hlo'
      cases hhi.symm.trans hhi'
      rw [Lowering.Targets.length_table]
      omega
    case h_2 => cases hd
  consecutive := fun lo n hn h => (Strategy.select_perm h).trans (Strategy.select_consecutive hn)

/-- The least and the greatest word, with a lookup, and three numbers in a row, with a table. -/
theorem select_moderate_words : Moderate [2147483647, -2147483648] ∧
    Strategy.select [2147483647, -2147483648] = .lookup ∧
    Moderate [3, 1, 2] ∧ Strategy.select [3, 1, 2] = .table :=
  ⟨select_moderate (by decide) (by decide), by decide, select_moderate (by decide) (by decide),
    by decide⟩

end JMinusMinus
