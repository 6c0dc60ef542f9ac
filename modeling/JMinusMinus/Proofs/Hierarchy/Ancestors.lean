import JMinusMinus.Hierarchy.Basic
import Mathlib

/-!
# The search for ancestors

A search keeps the names that it met and a queue of names to meet. The queue may hold a name more
than once, and names that were met already.

* The search ends. Every step takes a name off the queue, and parents join the queue once for every
  header (`pending`), so the bound is not reached (`exists_search`).
* Along a run every name has the number of steps by which it was found. These numbers never fall
  along the names met and the queue, and two of the queue differ by one at most (`Reaching`).
* Once the queue is empty the names met are closed under parents, so they are all that can be
  reached, and each is as far as the search found it (`Reaching.distance`).
-/

namespace JMinusMinus.Hierarchy

open List

open Relation (ReflTransGen)

variable {h : Hierarchy} {name x y : String} {n : Nat}

theorem lookup_cases (hc : h.lookup name = some c) :
    c.name = name ∧ (c ∈ h.declared ∧ h.isDeclared name ∨
      c ∈ Builtin.classes ∧ h.isDeclared name = false) := by
  rcases Option.or_eq_some_iff.1 hc with hc | ⟨hnone, hc⟩
  · exact ⟨by simpa using find?_some hc, .inl ⟨mem_of_find?_eq_some hc, by
      rw [isDeclared, hc, Option.isSome_some]⟩⟩
  · exact ⟨by simpa using find?_some hc, .inr ⟨mem_of_find?_eq_some hc, by
      rw [isDeclared, hnone, Option.isSome_none]⟩⟩

theorem mem_headers_of_lookup (hc : h.lookup name = some c) : c ∈ h.declared ++ Builtin.classes :=
  mem_append.2 ((lookup_cases hc).2.imp And.left And.left)

/-- One step up, to the superclass or to an interface. -/
def Parent (h : Hierarchy) (sub sup : String) : Prop := sup ∈ h.parents sub

theorem Parent.exists_lookup (hxy : h.Parent x y) : ∃ c, h.lookup x = some c ∧ y ∈ c.parents := by
  unfold Parent parents at hxy
  cases hc : h.lookup x with
  | none => simp [hc] at hxy
  | some c => exact ⟨c, rfl, by simpa [hc] using hxy⟩

/-- The names so many steps above a name. -/
inductive Climbs (h : Hierarchy) (name : String) : Nat → String → Prop
  | start : Climbs h name 0 name
  | step {n : Nat} {x y : String} : Climbs h name n x → h.Parent x y → Climbs h name (n + 1) y

theorem reflTransGen_iff_climbs : ReflTransGen h.Parent name x ↔ ∃ n, h.Climbs name n x := by
  constructor
  · intro hx
    induction hx with
    | refl => exact ⟨0, .start⟩
    | tail _ hstep ih =>
      obtain ⟨n, hn⟩ := ih
      exact ⟨n + 1, .step hn hstep⟩
  · rintro ⟨n, hn⟩
    induction hn with
    | start => exact .refl
    | step _ hstep ih => exact ih.tail hstep

/-- The length of a shortest way up. -/
structure Distance (h : Hierarchy) (name x : String) (n : Nat) : Prop where
  climbs : h.Climbs name n x
  least : ∀ m, h.Climbs name m x → n ≤ m

/-! ## Runs of the search -/

/-- A run from the names met and the queue to the names met at the end, each with the number of
steps by which it was found. -/
inductive Search (h : Hierarchy) :
    List (String × Nat) → List (String × Nat) → List (String × Nat) → Prop
  | done {seen : List (String × Nat)} : Search h seen [] seen
  | skip {seen queue found : List (String × Nat)} {x : String} {n : Nat} :
      x ∈ seen.map Prod.fst → Search h seen queue found → Search h seen ((x, n) :: queue) found
  | meet {seen queue found : List (String × Nat)} {x : String} {n : Nat} :
      x ∉ seen.map Prod.fst →
      Search h (seen ++ [(x, n)]) (queue ++ (h.parents x).map (·, n + 1)) found →
      Search h seen ((x, n) :: queue) found

theorem Search.unique (hrun : h.Search seen queue found) (hrun' : h.Search seen queue found') :
    found' = found := by
  induction hrun with
  | done => cases hrun'; rfl
  | skip hmem _ ih => cases hrun' with
    | skip _ hrest => exact ih hrest
    | meet hnew _ => exact absurd hmem hnew
  | meet hnew _ ih => cases hrun' with
    | skip hmem _ => exact absurd hmem hnew
    | meet _ hrest => exact ih hrest

/-- How many parents the headers list whose names are not met. -/
def pending (seen : List String) (headers : List ClassHeader) : Nat :=
  headers.foldr (fun c n => (if c.name ∈ seen then 0 else c.parents.length) + n) 0

theorem pending_append_le (seen : List String) (x : String) (headers : List ClassHeader) :
    pending (seen ++ [x]) headers ≤ pending seen headers := by
  induction headers with
  | nil => exact Nat.le_refl _
  | cons c headers ih =>
    refine Nat.add_le_add ?_ ih
    by_cases hc : c.name ∈ seen
    · simp [hc]
    · rw [if_neg hc]
      split <;> omega

theorem pending_of_mem {c : ClassHeader} (hnew : c.name ∉ seen) : ∀ {headers}, c ∈ headers →
      c.parents.length + pending (seen ++ [c.name]) headers ≤ pending seen headers
  | d :: headers, hc => by
    rcases mem_cons.1 hc with rfl | hc
    · have hrest := pending_append_le seen c.name headers
      simp only [pending, foldr_cons] at hrest ⊢
      rw [if_neg hnew, if_pos (by simp)]
      omega
    · have hrest := pending_of_mem hnew hc
      have hhead := pending_append_le seen c.name [d]
      simp only [pending, foldr_cons, foldr_nil] at hrest hhead ⊢
      omega

theorem pending_parents (hnew : x ∉ seen) :
    (h.parents x).length + pending (seen ++ [x]) (h.declared ++ Builtin.classes) ≤
      pending seen (h.declared ++ Builtin.classes) := by
  unfold parents
  cases hc : h.lookup x with
  | none => simpa using pending_append_le seen x _
  | some c =>
    obtain ⟨rfl, -⟩ := lookup_cases hc
    exact pending_of_mem hnew (mem_headers_of_lookup hc)

theorem pending_lt_searchBound (h : Hierarchy) :
    pending [] (h.declared ++ Builtin.classes) < h.searchBound := by
  have hfold : ∀ l : List ClassHeader,
      pending [] l < l.foldr (fun c n => c.parents.length + 1 + n) 1 := by
    intro l
    induction l with
    | nil => exact Nat.one_pos
    | cons c l ih =>
      simp only [pending, foldr_cons, not_mem_nil, if_false] at ih ⊢
      omega
  exact hfold _

theorem exists_search : ∀ bound (seen queue : List (String × Nat)),
    queue.length + pending (seen.map Prod.fst) (h.declared ++ Builtin.classes) ≤ bound →
      ∃ found, h.Search seen queue found ∧
        h.visit bound (seen.map Prod.fst) (queue.map Prod.fst) = found.map Prod.fst
  | 0, seen, [], _ | _ + 1, seen, [], _ => ⟨seen, .done, rfl⟩
  | 0, _, _ :: _, hbound => by simp at hbound
  | bound + 1, seen, (x, n) :: queue, hbound => by
    rw [length_cons] at hbound
    by_cases hx : x ∈ seen.map Prod.fst
    · obtain ⟨found, hrun, heq⟩ := exists_search bound seen queue (by omega)
      refine ⟨found, .skip hx hrun, ?_⟩
      rw [map_cons, visit, if_pos (contains_iff_mem.2 hx), heq]
    · have hparents := pending_parents (h := h) hx
      obtain ⟨found, hrun, heq⟩ := exists_search bound (seen ++ [(x, n)])
        (queue ++ (h.parents x).map (·, n + 1)) (by
          simp only [length_append, length_map, map_append, map_cons, map_nil]
          omega)
      refine ⟨found, .meet hx hrun, ?_⟩
      rw [map_cons, visit, if_neg (by rwa [contains_iff_mem]), ← heq]
      simp [Function.comp_def]

/-! ## What a run keeps -/

/-- Whether a name is listed with a number of steps or with fewer. -/
def Covers (found : List (String × Nat)) (x : String) (n : Nat) : Prop :=
  ∃ m, m ≤ n ∧ (x, m) ∈ found

/-- The state of a search: names met and names still queued, each at its distance. -/
structure Reaching (h : Hierarchy) (name : String) (seen queue : List (String × Nat)) : Prop where
  nodup : (seen.map Prod.fst).Nodup
  climbs : ∀ p ∈ seen ++ queue, h.Climbs name p.2 p.1
  sorted : (seen ++ queue).Pairwise (·.2 ≤ ·.2)
  near : ∀ p ∈ queue, ∀ q ∈ queue, q.2 ≤ p.2 + 1
  start : Covers (seen ++ queue) name 0
  closed : ∀ p ∈ seen, ∀ y, h.Parent p.1 y → Covers (seen ++ queue) y (p.2 + 1)

namespace Reaching

variable {seen queue found : List (String × Nat)}

theorem init (h : Hierarchy) (name : String) : h.Reaching name [] [(name, 0)] where
  nodup := nodup_nil
  climbs := by simpa using Climbs.start
  sorted := pairwise_singleton ..
  near := by simp
  start := ⟨0, Nat.le_refl 0, mem_cons_self⟩
  closed := nofun

theorem skip (hr : h.Reaching name seen ((x, n) :: queue)) (hx : x ∈ seen.map Prod.fst) :
    h.Reaching name seen queue := by
  have hsub : (seen ++ queue).Sublist (seen ++ (x, n) :: queue) :=
    (sublist_cons_self ..).append_left seen
  have hcovers : ∀ {y k}, Covers (seen ++ (x, n) :: queue) y k → Covers (seen ++ queue) y k := by
    rintro y k ⟨m, hm, hmem⟩
    rcases mem_append.1 hmem with hmem | hmem
    · exact ⟨m, hm, mem_append_left _ hmem⟩
    rcases mem_cons.1 hmem with heq | hmem
    · cases heq
      obtain ⟨⟨_, m'⟩, hmem', rfl⟩ := mem_map.1 hx
      have hle := (pairwise_append.1 hr.sorted).2.2 _ hmem' _ mem_cons_self
      exact ⟨m', Nat.le_trans hle hm, mem_append_left _ hmem'⟩
    · exact ⟨m, hm, mem_append_right _ hmem⟩
  exact {
    nodup := hr.nodup
    climbs := fun p hp => hr.climbs p (hsub.subset hp)
    sorted := hr.sorted.sublist hsub
    near := fun p hp q hq => hr.near p (by simp [hp]) q (by simp [hq])
    start := hcovers hr.start
    closed := fun p hp y hy => hcovers (hr.closed p hp y hy) }

theorem meet (hr : h.Reaching name seen ((x, n) :: queue)) (hx : x ∉ seen.map Prod.fst) :
    h.Reaching name (seen ++ [(x, n)]) (queue ++ (h.parents x).map (·, n + 1)) := by
  have hlist : seen ++ [(x, n)] ++ (queue ++ (h.parents x).map (·, n + 1)) =
      (seen ++ (x, n) :: queue) ++ (h.parents x).map (·, n + 1) := by simp
  obtain ⟨-, hqueue, hacross⟩ := pairwise_append.1 hr.sorted
  have hle : ∀ p ∈ seen ++ (x, n) :: queue, p.2 ≤ n + 1 := by
    intro p hp
    rcases mem_append.1 hp with hp | hp
    · exact Nat.le_succ_of_le (hacross p hp _ mem_cons_self)
    · exact hr.near (x, n) mem_cons_self p hp
  have hwithin : ∀ p ∈ queue ++ (h.parents x).map (·, n + 1), n ≤ p.2 ∧ p.2 ≤ n + 1 := by
    intro p hp
    rcases mem_append.1 hp with hp | hp
    · exact ⟨(pairwise_cons.1 hqueue).1 p hp, hle p (by simp [hp])⟩
    · obtain ⟨y, -, rfl⟩ := mem_map.1 hp
      exact ⟨Nat.le_succ n, Nat.le_refl _⟩
  have hcovers : ∀ {y k}, Covers (seen ++ (x, n) :: queue) y k →
      Covers (seen ++ [(x, n)] ++ (queue ++ (h.parents x).map (·, n + 1))) y k :=
    fun ⟨m, hm, hmem⟩ => ⟨m, hm, hlist ▸ mem_append_left _ hmem⟩
  refine ⟨?_, ?_, ?_, fun p hp q hq => ?_, hcovers hr.start, fun p hp y hy => ?_⟩
  · rw [map_append, map_singleton, ← concat_eq_append]
    exact hr.nodup.concat hx
  · rw [hlist]
    intro p hp
    rcases mem_append.1 hp with hp | hp
    · exact hr.climbs p hp
    · obtain ⟨y, hy, rfl⟩ := mem_map.1 hp
      exact .step (hr.climbs (x, n) (by simp)) hy
  · rw [hlist, pairwise_append]
    refine ⟨hr.sorted, pairwise_map.2 (pairwise_of_forall fun _ _ => Nat.le_refl _), ?_⟩
    intro p hp q hq
    obtain ⟨y, -, rfl⟩ := mem_map.1 hq
    exact hle p hp
  · exact Nat.le_trans (hwithin q hq).2 (Nat.succ_le_succ (hwithin p hp).1)
  · rcases mem_append.1 hp with hp | hp
    · exact hcovers (hr.closed p hp y hy)
    · obtain rfl := mem_singleton.1 hp
      exact ⟨n + 1, Nat.le_refl _, mem_append_right _ (mem_append_right _ (mem_map.2 ⟨y, hy, rfl⟩))⟩

/-- What one step of the search preserves holds at the end of a run. -/
theorem run (hrun : h.Search seen queue found) (hr : h.Reaching name seen queue) :
    h.Reaching name found [] := by
  induction hrun with
  | done => exact hr
  | skip hx _ ih => exact ih (hr.skip hx)
  | meet hx _ ih => exact ih (hr.meet hx)

/-! ## The end of a run -/

theorem covers (hr : h.Reaching name found []) (hx : h.Climbs name n x) : Covers found x n := by
  induction hx with
  | start => simpa using hr.start
  | step _ hparent ih =>
    obtain ⟨m, hm, hmem⟩ := ih
    obtain ⟨k, hk, hmem⟩ := hr.closed _ hmem _ hparent
    exact ⟨k, by omega, by simpa using hmem⟩

theorem distance (hr : h.Reaching name found []) (hx : (x, n) ∈ found) : h.Distance name x n := by
  refine ⟨hr.climbs (x, n) (by simpa using hx), fun m hm => ?_⟩
  obtain ⟨k, hk, hmem⟩ := hr.covers hm
  have heq := inj_on_of_nodup_map hr.nodup hx hmem rfl
  cases heq
  exact hk

/-- The names met are those that can be reached. -/
theorem mem_iff (hr : h.Reaching name found []) :
    x ∈ found.map Prod.fst ↔ ReflTransGen h.Parent name x := by
  rw [reflTransGen_iff_climbs, mem_map]
  constructor
  · rintro ⟨⟨_, n⟩, hmem, rfl⟩
    exact ⟨n, (hr.distance hmem).climbs⟩
  · rintro ⟨n, hn⟩
    obtain ⟨m, -, hmem⟩ := hr.covers hn
    exact ⟨(x, m), hmem, rfl⟩

theorem head?_eq (hr : h.Reaching name found []) : (found.map Prod.fst).head? = some name := by
  obtain ⟨m, hm, hmem⟩ := hr.covers .start
  cases found with
  | nil => cases hmem
  | cons p found =>
    have hp : p.2 = 0 := by
      rcases mem_cons.1 hmem with rfl | hmem
      · exact Nat.le_zero.1 hm
      · have hle := (pairwise_cons.1 hr.sorted).1 _ (mem_append_left _ hmem)
        exact Nat.le_zero.1 (Nat.le_trans hle hm)
    have hclimbs := hr.climbs p (by simp)
    rw [hp] at hclimbs
    cases hclimbs
    rfl

theorem pairwise_distance (hr : h.Reaching name found []) :
    (found.map Prod.fst).Pairwise fun x y => ∀ m n, h.Distance name x m → h.Distance name y n →
      m ≤ n := by
  rw [pairwise_map]
  have hsorted : found.Pairwise (·.2 ≤ ·.2) := by simpa using hr.sorted
  refine hsorted.imp_of_mem fun {p q} hp hq hle m n hm hn => ?_
  calc m ≤ p.2 := hm.least _ (hr.distance hp).climbs
    _ ≤ q.2 := hle
    _ ≤ n := (hr.distance hq).least _ hn.climbs

end Reaching

/-! ## Ancestors -/

theorem exists_reaching (h : Hierarchy) (name : String) : ∃ found, h.Reaching name found [] ∧
      ∀ bound, h.searchBound ≤ bound → h.visit bound [] [name] = found.map Prod.fst := by
  have hpending := pending_lt_searchBound h
  have hrun : ∀ bound, h.searchBound ≤ bound → ∃ found, h.Search [] [(name, 0)] found ∧
      h.visit bound [] [name] = found.map Prod.fst := fun bound hbound =>
    exists_search bound [] [(name, 0)] (by simp only [length_singleton, map_nil]; omega)
  obtain ⟨found, hfound, -⟩ := hrun _ (Nat.le_refl _)
  refine ⟨found, .run hfound (.init h name), fun bound hbound => ?_⟩
  obtain ⟨found', hfound', heq⟩ := hrun bound hbound
  rw [heq, hfound.unique hfound']

theorem mem_ancestors : x ∈ h.ancestors name ↔ ReflTransGen h.Parent name x ∨ x = objectClass := by
  obtain ⟨found, hr, hvisit⟩ := exists_reaching h name
  simp only [ancestors, hvisit _ (Nat.le_refl _)]
  split
  next hroot =>
    rw [contains_iff_mem] at hroot
    refine hr.mem_iff.trans ⟨.inl, ?_⟩
    rintro (hx | rfl)
    · exact hx
    · exact hr.mem_iff.1 hroot
  next => rw [mem_append, hr.mem_iff, mem_singleton]

theorem isSubclass_iff :
    h.isSubclass sub sup ↔ ReflTransGen h.Parent sub sup ∨ sup = objectClass := by
  rw [isSubclass, Bool.or_eq_true, decide_eq_true_eq, contains_iff_mem, mem_ancestors]
  constructor
  · rintro (rfl | hsub)
    · exact .inl .refl
    · exact hsub
  · exact .inr

/-- How far a built-in class is from the root. -/
def builtinRank (name : String) : Nat := (({} : Hierarchy).ancestors name).length

theorem builtin_parents : ∀ c ∈ Builtin.classes,
    (c.isInterface → c.parents = []) ∧ (c.name ≠ stringClass → c.interfaces = []) ∧
      stringClass ∉ c.parents ∧ ∀ p ∈ c.parents, builtinRank p < builtinRank c.name := by
  decide +kernel

/-- A list of a name and all it inherits from, nearer ones first, with the root class. -/
structure ListsAncestors (h : Hierarchy) (name : String) (order : List String) : Prop where
  nodup : order.Nodup
  first : order.head? = some name
  mem_iff : ∀ x, x ∈ order ↔ ReflTransGen h.Parent name x ∨ x = objectClass
  nearer : order.Pairwise fun x y => ∀ m n, h.Distance name x m → h.Distance name y n → m ≤ n
  root : ¬ReflTransGen h.Parent name objectClass → order.getLast? = some objectClass

/-- The search for the ancestors of a name ends before its bound, whatever the hierarchy, and they
are listed breadth first. -/
theorem ancestors_listed (h : Hierarchy) (name : String) :
    (∀ bound, h.searchBound ≤ bound →
      h.visit bound [] [name] = h.visit h.searchBound [] [name]) ∧
    h.ListsAncestors name (h.ancestors name) := by
  obtain ⟨found, hr, hvisit⟩ := exists_reaching h name
  have hbound := hvisit _ (Nat.le_refl _)
  refine ⟨fun bound hle => (hvisit bound hle).trans hbound.symm, ?_⟩
  by_cases hroot : ReflTransGen h.Parent name objectClass
  · have heq : h.ancestors name = found.map Prod.fst := by
      simp only [ancestors, hbound]
      exact if_pos (contains_iff_mem.2 (hr.mem_iff.2 hroot))
    exact ⟨heq ▸ hr.nodup, heq ▸ hr.head?_eq, fun _ => mem_ancestors,
      heq ▸ hr.pairwise_distance, fun hnot => absurd hroot hnot⟩
  · have heq : h.ancestors name = found.map Prod.fst ++ [objectClass] := by
      simp only [ancestors, hbound]
      exact if_neg fun hmem => hroot (hr.mem_iff.1 (contains_iff_mem.1 hmem))
    refine ⟨?_, ?_, fun _ => mem_ancestors, ?_, fun _ => by rw [heq, getLast?_concat]⟩
    · rw [heq, nodup_append]
      refine ⟨hr.nodup, nodup_singleton _, ?_⟩
      rintro x hx _ hy rfl
      obtain rfl := mem_singleton.1 hy
      exact hroot (hr.mem_iff.1 hx)
    · rw [heq, List.head?_append, hr.head?_eq, Option.some_or]
    · rw [heq, pairwise_append]
      refine ⟨hr.pairwise_distance, pairwise_singleton .., ?_⟩
      -- The root class that is out of reach has no distance.
      rintro x - _ hy m n - hn
      obtain rfl := mem_singleton.1 hy
      exact absurd (reflTransGen_iff_climbs.2 ⟨n, hn.climbs⟩) hroot

end JMinusMinus.Hierarchy
