import JMinusMinus.Proofs.Settled.Unit
import Mathlib.Data.List.Perm.Subperm
import Mathlib.Data.Nat.Find

/-!
# Cycles of inheritance

A type is on a *cycle* if it is a proper ancestor of itself, through superclasses and interfaces
in any mix.

* `isCyclic` finds every cycle of superclasses: a shortest one does not repeat a name, so it is no
  longer than the search (`isCyclic_of_transGen`).
* A cycle through a class has no interface on it, since interfaces have only interfaces above
  them. So it is a cycle of superclasses, and one of its classes is declared in the unit.
* Interfaces are not checked. Two interfaces of a unit may extend each other.
-/

namespace JMinusMinus

variable {i n maxDepth : Nat} {b file name source : String}

open Relation (TransGen ReflTransGen)

namespace Hierarchy

variable {h : Hierarchy}

/-- One step up the chain of superclasses. -/
def Superclass (h : Hierarchy) (sub sup : String) : Prop := h.superclass? sub = some sup

/-! ## Chains of superclasses -/

/-- The name so many steps up the superclass chain. -/
def chain (h : Hierarchy) (name : String) : Nat → Option String
  | 0 => some name
  | n + 1 => (h.chain name n).bind h.superclass?

theorem chain_add (name : String) (m : Nat) :
    ∀ n, h.chain name (m + n) = (h.chain name m).bind fun x => h.chain x n
  | 0 => by simp [chain]
  | n + 1 => by
    rw [← Nat.add_assoc, chain, chain_add name m n, Option.bind_assoc]
    rfl

theorem exists_chain_of_transGen (hab : TransGen h.Superclass a b) :
    ∃ n, h.chain a (n + 1) = some b := by
  induction hab with
  | single hstep => exact ⟨0, hstep⟩
  | tail _ hstep ih =>
    obtain ⟨n, hn⟩ := ih
    exact ⟨n + 1, by rw [chain, hn]; exact hstep⟩

/-- A chain that leads back in a number of steps and not in fewer. -/
structure Returns (h : Hierarchy) (name : String) (n : Nat) : Prop where
  back : h.chain name (n + 1) = some name
  first : ∀ m < n, h.chain name (m + 1) ≠ some name

theorem exists_returns (hcycle : TransGen h.Superclass name name) : ∃ n, h.Returns name n := by
  classical
  have hex := exists_chain_of_transGen hcycle
  exact ⟨Nat.find hex, Nat.find_spec hex, fun m hm => Nat.find_min hex hm⟩

theorem Returns.injective (hn : h.Returns name n) (hij : i < j) (hj : j ≤ n) :
    h.chain name i ≠ h.chain name j := by
  intro heq
  have hback := hn.back
  rw [show n + 1 = j + (n - j + 1) by omega, chain_add, ← heq, ← chain_add,
    show i + (n - j + 1) = i + n - j + 1 by omega] at hback
  exact hn.first (i + n - j) (by omega) hback

theorem Returns.exists_chain (hn : h.Returns name n)
    (hi : i ≤ n + 1) : ∃ x, h.chain name i = some x := by
  have hback := hn.back
  rw [show n + 1 = i + (n + 1 - i) by omega, chain_add] at hback
  obtain ⟨x, hx, -⟩ := Option.bind_eq_some_iff.1 hback
  exact ⟨x, hx⟩

theorem Returns.chainMeets (hn : h.Returns name n) : ∀ bound k seen, k ≤ n → n < k + bound →
      (∀ x ∈ seen, ∃ i, 0 < i ∧ i ≤ k ∧ h.chain name i = some x) →
        h.chainMeets name bound seen (h.chain name (k + 1)) = true
  | 0, k, _, hk, hbound, _ => by omega
  | bound + 1, k, seen, hk, hbound, hseen => by
    obtain ⟨next, hnext⟩ := hn.exists_chain (i := k + 1) (by omega)
    rw [hnext, Hierarchy.chainMeets]
    by_cases hlast : next = name
    · rw [if_pos hlast]
    · have hlt : k < n := by
        refine Nat.lt_of_le_of_ne hk ?_
        rintro rfl
        exact hlast (Option.some.inj (hnext.symm.trans hn.back))
      have hnew : ¬seen.contains next = true := by
        rw [List.contains_iff_mem]
        intro hmem
        obtain ⟨i, -, hi, hx⟩ := hseen next hmem
        exact hn.injective (i := i) (j := k + 1) (by omega) (by omega) (hx.trans hnext.symm)
      have hup : h.superclass? next = h.chain name (k + 2) := by
        rw [chain, hnext]
        rfl
      rw [if_neg hlast, if_neg hnew, hup]
      refine hn.chainMeets bound (k + 1) (next :: seen) hlt (by omega) fun x hx => ?_
      rcases List.mem_cons.1 hx with rfl | hx
      · exact ⟨k + 1, by omega, Nat.le_refl _, hnext⟩
      · obtain ⟨i, hpos, hi, hx⟩ := hseen x hx
        exact ⟨i, hpos, by omega, hx⟩

theorem length_lt_searchBound (h : Hierarchy) :
    (h.declared ++ Builtin.classes).length < h.searchBound := by
  have hfold : ∀ l : List ClassHeader,
      l.length < l.foldr (fun c n => c.parents.length + 1 + n) 1 := by
    intro l
    induction l with
    | nil => simp
    | cons c l ih =>
      simp only [List.length_cons, List.foldr_cons]
      omega
  exact hfold _

theorem Returns.lt_searchBound (hn : h.Returns name n) : n < h.searchBound := by
  let names := (List.range (n + 1)).map fun i => (h.chain name i).getD name
  have hchain : ∀ i, i < n + 1 → h.chain name i = some ((h.chain name i).getD name) := by
    intro i hi
    obtain ⟨x, hx⟩ := hn.exists_chain (i := i) (by omega)
    rw [hx, Option.getD_some]
  have hnodup : names.Nodup := by
    refine List.Nodup.map_on (fun i hi j hj heq => ?_) List.nodup_range
    have hi := List.mem_range.1 hi
    have hj := List.mem_range.1 hj
    have hsame : h.chain name i = h.chain name j := by rw [hchain i hi, hchain j hj, heq]
    rcases Nat.lt_trichotomy i j with hij | rfl | hij
    · exact absurd hsame (hn.injective hij (by omega))
    · rfl
    · exact absurd hsame.symm (hn.injective hij (by omega))
  have hsub : names ⊆ (h.declared ++ Builtin.classes).map ClassHeader.name := by
    intro x hx
    obtain ⟨i, hi, rfl⟩ := List.mem_map.1 hx
    obtain ⟨y, hy⟩ := hn.exists_chain (i := i + 1) (by have := List.mem_range.1 hi; omega)
    rw [chain, hchain i (List.mem_range.1 hi), Option.bind_some] at hy
    obtain ⟨c, hc, -⟩ := Option.bind_eq_some_iff.1 hy
    exact List.mem_map.2 ⟨c, mem_headers_of_lookup hc, (lookup_cases hc).1⟩
  have hlength := (hnodup.subperm hsub).length_le
  simp only [names, List.length_map, List.length_range] at hlength
  have := h.length_lt_searchBound
  omega

theorem isCyclic_of_transGen (hcycle : TransGen h.Superclass name name) :
    h.isCyclic name = true := by
  obtain ⟨n, hn⟩ := exists_returns hcycle
  have hbound := hn.lt_searchBound
  exact hn.chainMeets h.searchBound 0 [] (by omega) (by omega) nofun

/-! ## Checked hierarchies -/

/-- What recording the headers of a unit checks. -/
structure Checked (h : Hierarchy) : Prop where
  superclass : ∀ c ∈ h.declared, ∀ s ∈ c.superclass, c.isInterface = false ∧
    (s = objectClass ∨ h.isInterface s = false ∧ s ≠ stringClass)
  interfaces : ∀ c ∈ h.declared, ∀ i ∈ c.interfaces, h.isInterface i ∧ i ≠ stringClass
  acyclic : ∀ c ∈ h.declared, h.isCyclic c.name = false

theorem exists_declared_of_cycle (hcycle : TransGen h.Superclass name name) :
    ∃ c ∈ h.declared, TransGen h.Superclass name c.name ∧ TransGen h.Superclass c.name c.name := by
  by_contra hnone
  -- Otherwise all steps are between built-in classes, and each leads nearer to the root.
  have hstep : ∀ {a b}, TransGen h.Superclass name a ∨ a = name → h.Superclass a b →
      ReflTransGen h.Superclass b name → builtinRank b < builtinRank a := by
    intro a b ha hab hb
    obtain ⟨c, hc, hsuper⟩ := Option.bind_eq_some_iff.1 hab
    obtain ⟨rfl, ⟨hmem, -⟩ | ⟨hmem, -⟩⟩ := lookup_cases hc
    · refine absurd ⟨c, hmem, ?_⟩ hnone
      rcases ha with ha | ha
      · exact ⟨ha, (TransGen.head' hab hb).trans ha⟩
      · exact ⟨ha ▸ hcycle, ha ▸ hcycle⟩
    · exact (builtin_parents c hmem).2.2.2 b (by simp [ClassHeader.parents, hsuper])
  have hrank : ∀ {x}, TransGen h.Superclass name x → ReflTransGen h.Superclass x name →
      builtinRank x < builtinRank name := by
    intro x hx hback
    induction hx with
    | single hx => exact hstep (.inr rfl) hx hback
    | tail hx hxy ih => exact (hstep (.inl hx) hxy hback).trans (ih (.head hxy hback))
  exact absurd (hrank hcycle .refl) (Nat.lt_irrefl _)

section

variable (hh : h.Checked)

include hh

theorem Parent.isInterface (hab : h.Parent a b) (ha : h.isInterface a) : h.isInterface b := by
  obtain ⟨c, hc, hb⟩ := hab.exists_lookup
  have hinterface : c.isInterface = true := by simpa [Hierarchy.isInterface, hc] using ha
  rcases (lookup_cases hc).2 with ⟨hmem, -⟩ | ⟨hmem, -⟩
  · rcases List.mem_append.1 hb with hb | hb
    · have := (hh.superclass c hmem b (by simpa using hb)).1
      simp [hinterface] at this
    · exact (hh.interfaces c hmem b hb).1
  · rw [(builtin_parents c hmem).1 hinterface] at hb
    cases hb

theorem Parent.ne_string (hab : h.Parent a b) : b ≠ stringClass := by
  rintro rfl
  obtain ⟨c, hc, hb⟩ := hab.exists_lookup
  rcases (lookup_cases hc).2 with ⟨hmem, -⟩ | ⟨hmem, -⟩
  · rcases List.mem_append.1 hb with hb | hb
    · rcases (hh.superclass c hmem _ (by simpa using hb)).2 with hobject | ⟨-, hne⟩
      · exact absurd hobject (by decide)
      · exact hne rfl
    · exact (hh.interfaces c hmem _ hb).2 rfl
  · exact (builtin_parents c hmem).2.2.1 hb

theorem Parent.superclass (hab : h.Parent a b) (ha : a ≠ stringClass)
    (hb : h.isInterface b = false) : h.Superclass a b := by
  obtain ⟨c, hc, hmem⟩ := hab.exists_lookup
  rcases List.mem_append.1 hmem with hsuper | hinterface
  · simpa [Superclass, superclass?, hc] using hsuper
  · obtain ⟨rfl, ⟨hc, -⟩ | ⟨hc, -⟩⟩ := lookup_cases hc
    · rw [(hh.interfaces c hc b hinterface).1] at hb
      cases hb
    · rw [(builtin_parents c hc).2.1 ha] at hinterface
      cases hinterface

theorem transGen_superclass (hab : TransGen h.Parent a b) (ha : a ≠ stringClass)
    (hb : h.isInterface b = false) : TransGen h.Superclass a b := by
  have hclass : ∀ x, ReflTransGen h.Parent x b → h.isInterface x = false := by
    intro x hxb
    induction hxb using ReflTransGen.head_induction_on with
    | refl => exact hb
    | head hxy _ ih =>
      by_contra hx
      rw [Bool.not_eq_false] at hx
      rw [hxy.isInterface hh hx] at ih
      cases ih
  induction hab using TransGen.head_induction_on with
  | single hab => exact .single (hab.superclass hh ha hb)
  | head hac hcb ih =>
    exact .head (hac.superclass hh ha (hclass _ hcb.to_reflTransGen)) (ih (hac.ne_string hh))

theorem isInterface_of_cycle (hcycle : TransGen h.Parent name name) :
    h.isInterface name ∧ h.isDeclared name := by
  have hne : name ≠ stringClass := by
    obtain ⟨_, -, hlast⟩ := TransGen.tail'_iff.1 hcycle
    exact hlast.ne_string hh
  have hinterface : h.isInterface name = true := by
    by_contra hclass
    obtain ⟨c, hc, -, hback⟩ := exists_declared_of_cycle
      (transGen_superclass hh hcycle hne (by simpa using hclass))
    exact absurd (isCyclic_of_transGen hback) (by simp [hh.acyclic c hc])
  refine ⟨hinterface, ?_⟩
  obtain ⟨b, hab, -⟩ := TransGen.head'_iff.1 hcycle
  obtain ⟨c, hc, hb⟩ := hab.exists_lookup
  rcases (lookup_cases hc).2 with ⟨-, hdeclared⟩ | ⟨hmem, -⟩
  · exact hdeclared
  · rw [(builtin_parents c hmem).1 (by simpa [Hierarchy.isInterface, hc] using hinterface)] at hb
    cases hb

end

end Hierarchy

/-! ## Accepted sources -/

namespace Analysis

/-- Headers that are recorded without a report pass the checks of the hierarchy. -/
theorem Recorded.checked {u : CompilationUnit} {log : Log Problem} {base : Context}
    (h : Recorded u log base) : (withHeaders base u.types).hierarchy.Checked := by
  have hsame : base.SameNames (withHeaders base u.types) := by
    rw [← recorded_all]
    exact sameNames_recorded h.base h.described fun _ => id
  have hdeclared : ∀ c ∈ (withHeaders base u.types).hierarchy.declared,
      ∃ d ∈ u.types, Described base d c := by
    intro c hc
    obtain ⟨d, hd, rfl⟩ := List.mem_map.1 hc
    exact ⟨d, hd, (described_of_run h.silent (h.described d hd)).1⟩
  refine ⟨fun c hc s hs => ?_, fun c hc i hi => ?_, fun c hc => ?_⟩
  · obtain ⟨d, -, hd⟩ := hdeclared c hc
    rw [hsame.isInterface]
    exact hd.superclass s hs
  · obtain ⟨d, -, hd⟩ := hdeclared c hc
    rw [hsame.isInterface]
    exact hd.interfaces i hi
  · obtain ⟨d, hmem, hd⟩ := hdeclared c hc
    rw [hd.name]
    exact h.acyclic d hmem

end Analysis

theorem Accepted.checked (h : Accepted file maxDepth source a) : a.hierarchy.Checked := by
  obtain ⟨base, types, c', hrecorded, -, -, rfl, -⟩ :=
    analyze_silent (Grammar.parseSource_written h.parsed) h.analyzed h.silent
  exact hrecorded.checked

/-- In the headers of an accepted source no class is its own ancestor. A name on a cycle is that
of an interface which the source declares. -/
theorem accepted_cycle_isInterface {file : String} {maxDepth : Nat} {source : String}
    {a : Analyzed} (h : Accepted file maxDepth source a) (name : String)
    (hcycle : TransGen a.hierarchy.Parent name name) :
    a.hierarchy.isInterface name ∧ a.hierarchy.isDeclared name :=
  Hierarchy.isInterface_of_cycle h.checked hcycle

/-- Two interfaces that extend each other, and a class that implements one of them. -/
def mutualSource : String :=
  "interface A extends B \x7b\x7d interface B extends A \x7b\x7d class C implements A \x7b\x7d"

theorem mutualSource_accepted :
    ∃ a, Accepted "T.java" 64 mutualSource a ∧ TransGen a.hierarchy.Parent "A" "A" := by
  have haccepted : accepts "T.java" 64 mutualSource := by decide +kernel
  obtain ⟨a, ha⟩ := exists_accepted haccepted
  have hparents : ∀ a, analyze (Grammar.parseSource "T.java" 64 mutualSource).1
      (Grammar.parseSource "T.java" 64 mutualSource).2 = .ok a →
      "B" ∈ a.hierarchy.parents "A" ∧ "A" ∈ a.hierarchy.parents "B" := by
    have hall : (analyze (Grammar.parseSource "T.java" 64 mutualSource).1
      (Grammar.parseSource "T.java" 64 mutualSource).2).toOption.all fun a =>
        decide ("B" ∈ a.hierarchy.parents "A" ∧ "A" ∈ a.hierarchy.parents "B") := by
      decide +kernel
    intro a ha
    simpa [ha, Except.toOption] using hall
  obtain ⟨hab, hba⟩ := hparents a ha.analyzed
  exact ⟨a, ha, .tail (.single hab) hba⟩

theorem accepted_cycle_isInterface_mutual :
    ∃ a, Accepted "T.java" 64 mutualSource a ∧ TransGen a.hierarchy.Parent "A" "A" ∧
      a.hierarchy.isInterface "A" ∧ a.hierarchy.isDeclared "A" := by
  obtain ⟨a, ha, hcycle⟩ := mutualSource_accepted
  exact ⟨a, ha, hcycle, accepted_cycle_isInterface ha "A" hcycle⟩

/-- Inheritance in an accepted source need not be free of cycles. -/
theorem not_all_accepted_acyclic :
    ¬∀ (file : String) (maxDepth : Nat) (source : String) (a : Analyzed),
      Accepted file maxDepth source a → ∀ name, ¬TransGen a.hierarchy.Parent name name := by
  intro hall
  obtain ⟨a, ha, hcycle⟩ := mutualSource_accepted
  exact hall "T.java" 64 mutualSource a ha "A" hcycle

end JMinusMinus
