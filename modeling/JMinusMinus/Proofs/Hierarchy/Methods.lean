import JMinusMinus.Proofs.Headers.Cycles

/-!
# Methods along the ancestors

A class may inherit a method from a superclass and from interfaces.

* The search for ancestors takes a superclass before the interfaces of the same class. So the class
  so many steps up the superclass chain comes before all else that is as far away (`Led`).
* `findMethods` has, for each parameter list, the first declaration along the ancestors
  (`find?_findMethods`). This is the one of the nearest class, unless something nearer than that
  class declares the method too.
-/

namespace JMinusMinus

open List

/-- Whether a method has a name and parameter types. -/
def MethodHeader.hasSignature (method : String) (params : List Ty) (m : MethodHeader) : Bool :=
  m.name = method && m.params = params

open Relation (TransGen)

namespace Hierarchy

variable {h : Hierarchy} {name x y : String} {k m n : Nat}

/-! ## Superclasses come first -/

/-- Names with numbers in which nothing with a number or a greater one comes before a name. -/
inductive Ahead (x : String) (n : Nat) : List (String × Nat) → Prop
  | nil : Ahead x n []
  | here {m : Nat} {l : List (String × Nat)} : Ahead x n ((x, m) :: l)
  | near {y : String} {m : Nat} {l : List (String × Nat)} :
      m < n → Ahead x n l → Ahead x n ((y, m) :: l)

namespace Ahead

variable {l l' : List (String × Nat)}

theorem of_lt (hl : ∀ p ∈ l, p.2 < n) : Ahead x n l := by
  induction l with
  | nil => exact .nil
  | cons p l ih =>
    rw [forall_mem_cons] at hl
    exact .near hl.1 (ih hl.2)

theorem append (hl : Ahead x n l) (hl' : x ∈ l.map Prod.fst ∨ Ahead x n l') :
    Ahead x n (l ++ l') := by
  induction hl with
  | nil => exact hl'.resolve_left nofun
  | here => exact .here
  | @near y m l hm _ ih =>
    by_cases hy : y = x
    · subst hy
      exact .here
    · exact .near hm (ih (hl'.imp_left fun hx => (mem_cons.1 hx).resolve_left (Ne.symm hy)))

theorem erase (hl : Ahead x n (l ++ (y, m) :: l')) (hy : y ∈ l.map Prod.fst) :
    Ahead x n (l ++ l') := by
  have hdrop : ∀ l, Ahead x n (l ++ (y, m) :: l') → y ≠ x ∨ x ∈ l.map Prod.fst →
      Ahead x n (l ++ l') := by
    intro l hl hx
    induction l with
    | nil =>
      cases hl with
      | here => exact absurd rfl (hx.resolve_right nofun)
      | near _ hl => exact hl
    | cons p l ih =>
      cases hl with
      | here => exact .here
      | @near z _ _ hlt hl =>
        by_cases hz : z = x
        · subst hz
          exact .here
        · exact .near hlt (ih hl (hx.imp_right fun hx => (mem_cons.1 hx).resolve_left (Ne.symm hz)))
  refine hdrop l hl ?_
  by_cases hyx : y = x
  · exact .inr (hyx ▸ hy)
  · exact .inl hyx

theorem mem_of_le (hl : Ahead x n (l ++ (y, m) :: l')) (hle : n ≤ m) :
    x ∈ (l ++ [(y, m)]).map Prod.fst := by
  induction l with
  | nil =>
    cases hl with
    | here => simp
    | near hlt => exact absurd hlt (Nat.not_lt.2 hle)
  | cons p l ih =>
    cases hl with
    | here => simp
    | near _ hl => exact mem_cons_of_mem _ (ih hl)

end Ahead

/-- Names with numbers in which the class so many steps up the superclass chain comes before all
else with this number or a greater one. -/
def Led (h : Hierarchy) (name : String) (l : List (String × Nat)) : Prop :=
  ∀ n x, h.chain name n = some x → Ahead x n l

theorem parents_of_superclass? (hx : h.superclass? y = some x) : ∃ l, h.parents y = x :: l := by
  obtain ⟨c, hc, hsuper⟩ := Option.bind_eq_some_iff.1 hx
  exact ⟨c.interfaces, by simp [parents, hc, ClassHeader.parents, hsuper]⟩

section

variable {seen queue found : List (String × Nat)}

/-- Meeting the next name keeps the superclass chain in front. -/
theorem Led.meet (hr : h.Reaching name seen ((y, m) :: queue))
    (hl : h.Led name (seen ++ (y, m) :: queue)) :
    h.Led name (seen ++ (y, m) :: queue ++ (h.parents y).map (·, m + 1)) := by
  intro n x hx
  refine (hl n x hx).append ?_
  rw [or_iff_not_imp_left]
  intro hnew
  have hlt : m < n := by
    rw [← Nat.not_le]
    intro hle
    refine hnew ?_
    have hmem := (hl n x hx).mem_of_le hle
    rw [append_cons, map_append]
    exact mem_append_left _ hmem
  rcases Nat.lt_or_ge (m + 1) n with hfar | hnear
  · exact .of_lt (by simpa using fun _ _ => hfar)
  · obtain rfl : n = m + 1 := Nat.le_antisymm hnear hlt
    obtain ⟨sub, hsub, hsuper⟩ := Option.bind_eq_some_iff.1 hx
    obtain ⟨l, hparents⟩ := parents_of_superclass? hsuper
    -- Its subclass was met, at the latest now. If earlier, the superclass is in the queue.
    have hmem := (hl m sub hsub).mem_of_le (Nat.le_refl m)
    rw [map_append, mem_append] at hmem
    rcases hmem with hmem | hmem
    · obtain ⟨p, hp, rfl⟩ := mem_map.1 hmem
      obtain ⟨i, -, hi⟩ := hr.closed p hp x (by simp [Parent, hparents])
      exact absurd (mem_map_of_mem (f := Prod.fst) hi) hnew
    · obtain rfl : sub = y := by simpa using hmem
      rw [hparents]
      exact .here

/-- The superclass chain stays in front during a whole search. -/
theorem Led.run (hrun : h.Search seen queue found) (hr : h.Reaching name seen queue)
    (hl : h.Led name (seen ++ queue)) : h.Led name found := by
  induction hrun with
  | done => simpa using hl
  | skip hx _ ih => exact ih (hr.skip hx) fun n x hchain => (hl n x hchain).erase hx
  | meet hx _ ih =>
    have hlist := Led.meet hr hl
    rw [append_assoc, cons_append, append_cons] at hlist
    exact ih (hr.meet hx) hlist

end

theorem climbs_of_chain : ∀ {n x}, h.chain name n = some x → h.Climbs name n x
  | 0, _, hx => by
    cases hx
    exact .start
  | n + 1, _, hx => by
    obtain ⟨sub, hsub, hsuper⟩ := Option.bind_eq_some_iff.1 hx
    obtain ⟨l, hparents⟩ := parents_of_superclass? hsuper
    exact .step (climbs_of_chain hsub) (by simp [Parent, hparents])

theorem Led.init (h : Hierarchy) (name : String) : h.Led name [(name, 0)] := by
  intro n x hx
  cases n with
  | zero =>
    cases hx
    exact .here
  | succ n => exact .near (Nat.succ_pos n) .nil

theorem exists_led (h : Hierarchy) (name : String) : ∃ found, h.Reaching name found [] ∧
    h.Led name found ∧ ∃ rest, h.ancestors name = found.map Prod.fst ++ rest := by
  have hbound : [(name, 0)].length + pending [] (h.declared ++ Builtin.classes) ≤
    h.searchBound := by
    have := pending_lt_searchBound h
    rw [length_singleton]
    omega
  obtain ⟨found, hrun, hvisit⟩ := exists_search h.searchBound [] [(name, 0)] hbound
  refine ⟨found, .run hrun (.init h name), .run hrun (.init h name) (.init h name), ?_⟩
  have hvisit : h.visit h.searchBound [] [name] = found.map Prod.fst := hvisit
  simp only [ancestors, hvisit]
  split
  · exact ⟨[], (append_nil _).symm⟩
  · exact ⟨[objectClass], rfl⟩

theorem Ahead.findSome?_eq {β : Type} {f : String → Option β} {b : β} {l : List (String × Nat)}
    (hl : Ahead x n l) (hx : x ∈ l.map Prod.fst) (hb : f x = some b)
    (hnear : ∀ p ∈ l, p.2 < n → p.1 ≠ x → f p.1 = none) :
    (l.map Prod.fst).findSome? f = some b := by
  induction hl with
  | nil => cases hx
  | here => rw [map_cons, findSome?_cons, hb]
  | @near y m l hlt _ ih =>
    rw [forall_mem_cons] at hnear
    rw [map_cons, findSome?_cons]
    by_cases hy : y = x
    · rw [hy, hb]
    · rw [hnear.1 hlt hy]
      exact ih ((mem_cons.1 hx).resolve_left (Ne.symm hy)) hnear.2

/-- A question that the class so many steps up the superclass chain answers, and nothing nearer, has
the answer of that class. -/
theorem findSome?_ancestors {β : Type} {f : String → Option β} {b : β}
    (hx : h.chain name k = some x) (hb : f x = some b)
    (hnear : ∀ n y, n < k → h.Climbs name n y → y ≠ x → f y = none) :
    (h.ancestors name).findSome? f = some b := by
  obtain ⟨found, hr, hled, rest, heq⟩ := exists_led h name
  have hmem : x ∈ found.map Prod.fst :=
    hr.mem_iff.2 (reflTransGen_iff_climbs.2 ⟨k, climbs_of_chain hx⟩)
  have hfound : (found.map Prod.fst).findSome? f = some b := by
    refine (hled k x hx).findSome?_eq hmem hb fun p hp hlt hne => ?_
    exact hnear p.2 p.1 hlt (hr.distance hp).climbs hne
  rw [heq, findSome?_append, hfound, Option.some_or]

theorem findSome?_ancestors_ne {β : Type} {f : String → Option (String × β)} {b : β}
    (howner : ∀ z p, f z = some p → p.1 = z) (hy : h.Climbs name n y) (hsome : f y ≠ none)
    (hfar : ∀ i, h.Climbs name i x → n < i) : (h.ancestors name).findSome? f ≠ some (x, b) := by
  obtain ⟨found, hr, -, rest, heq⟩ := exists_led h name
  have hdistance : ∀ z ∈ found.map Prod.fst, ∃ i, h.Distance name z i := by
    intro z hz
    obtain ⟨p, hp, rfl⟩ := mem_map.1 hz
    exact ⟨p.2, hr.distance hp⟩
  have hmem : y ∈ found.map Prod.fst := hr.mem_iff.2 (reflTransGen_iff_climbs.2 ⟨n, hy⟩)
  intro hfind
  cases hfound : (found.map Prod.fst).findSome? f with
  | none => exact hsome (findSome?_eq_none_iff.1 hfound y hmem)
  | some p =>
    rw [heq, findSome?_append, hfound, Option.some_or] at hfind
    cases hfind
    obtain ⟨l₁, z, l₂, hsplit, hz, hnone⟩ := findSome?_eq_some_iff.1 hfound
    obtain rfl : x = z := howner z _ hz
    have hpairs := hr.pairwise_distance
    rw [hsplit] at hmem hdistance hpairs
    rcases mem_append.1 hmem with hmem' | hmem'
    · exact hsome (hnone y hmem')
    rcases mem_cons.1 hmem' with rfl | hmem'
    · exact Nat.lt_irrefl n (hfar n hy)
    · obtain ⟨i, hi⟩ := hdistance x (by simp)
      obtain ⟨j, hj⟩ := hdistance y hmem
      have hle := (pairwise_cons.1 (pairwise_append.1 hpairs).2.1).1 y hmem' i j hi hj
      have hlt := hfar i hi.climbs
      have hleast := hj.least n hy
      omega

/-! ## Declarations -/

/-- The methods that a class declares. -/
def methods (h : Hierarchy) (owner : String) : List MethodHeader :=
  ((h.lookup owner).map ClassHeader.methods).getD []

theorem find?_firstByKey {α κ : Type} [DecidableEq κ] (key : α → κ) (k : κ) (items : List α) :
    (firstByKey key items).find? (key · = k) = items.find? (key · = k) := by
  have hfold : ∀ (items found : List α), (items.foldl (fun found x =>
      if found.any (key · = key x) then found else found ++ [x]) found).find? (key · = k) =
      (found.find? (key · = k)).or (items.find? (key · = k)) := by
    intro items
    induction items with
    | nil => simp
    | cons x items ih =>
      intro found
      rw [foldl_cons, ih, find?_cons]
      by_cases hx : key x = k
      · subst hx
        split
        next hfound =>
          obtain ⟨y, hy, heq⟩ := any_eq_true.1 hfound
          obtain ⟨z, hz⟩ : ∃ z, found.find? (key · = key x) = some z :=
            Option.isSome_iff_exists.1 (find?_isSome.2 ⟨y, hy, heq⟩)
          simp [hz]
        next => simp
      · split <;> simp [hx]
  exact (hfold items []).trans (by rw [find?_nil, Option.none_or])

theorem nodup_firstByKey {α κ : Type} [DecidableEq κ] (key : α → κ) (items : List α) :
    ((firstByKey key items).map key).Nodup := by
  have hfold : ∀ (items found : List α), (found.map key).Nodup → ((items.foldl (fun found x =>
      if found.any (key · = key x) then found else found ++ [x]) found).map key).Nodup := by
    intro items
    induction items with
    | nil => exact fun _ hfound => hfound
    | cons x items ih =>
      intro found hfound
      refine ih _ ?_
      dsimp only
      split
      · exact hfound
      next hnew =>
        rw [map_append, map_singleton, ← concat_eq_append]
        refine hfound.concat fun hx => hnew ?_
        obtain ⟨y, hy, heq⟩ := mem_map.1 hx
        exact any_eq_true.2 ⟨y, hy, by simpa using heq⟩
  exact hfold items [] nodup_nil

theorem mem_firstByKey_iff {α κ : Type} [DecidableEq κ] {key : α → κ} {items : List α} {x : α} :
    x ∈ firstByKey key items ↔ items.find? (key · = key x) = some x := by
  rw [← find?_firstByKey]
  constructor
  · intro hx
    obtain ⟨y, hy⟩ : ∃ y, (firstByKey key items).find? (key · = key x) = some y :=
      Option.isSome_iff_exists.1 (find?_isSome.2 ⟨x, hx, by simp⟩)
    have hkey : key y = key x := by simpa using find?_some hy
    rw [hy, inj_on_of_nodup_map (nodup_firstByKey key items) (mem_of_find?_eq_some hy) hx hkey]
  · exact mem_of_find?_eq_some

theorem mem_findMethods_iff {method : String} {p : String × MethodHeader} :
    p ∈ h.findMethods name method ↔ (h.ancestors name).findSome? (fun owner =>
      ((h.methods owner).find? (·.hasSignature method p.2.params)).map (owner, ·)) = some p := by
  rw [findMethods, mem_firstByKey_iff, find?_filter, inheritedMethods, find?_flatMap]
  refine Eq.congr_left ?_
  congr 1
  funext owner
  rw [find?_map, methods]
  congr 2
  funext m
  simp [MethodHeader.hasSignature]

/-- The nearest class on a superclass chain that declares a method of some kind, and the number of
steps to it. -/
structure NearestMethod (h : Hierarchy) (name : String) (p : MethodHeader → Bool) (k : Nat)
    (owner : String) (m : MethodHeader) : Prop where
  chain : h.chain name k = some owner
  declares : (h.methods owner).find? p = some m
  nearest : ∀ i < k, ∀ x, h.chain name i = some x → (h.methods x).any p = false

end Hierarchy

/-! ## Calls through the superclass -/

namespace Analysis

variable {c : Context}

theorem coerce_silent {e : Expr} (hassign : c.hierarchy.isAssignable e.ty t) :
    ∃ e', coerce t e c = .ok (e', c) := by
  have hget : (get : Analysis Context) c = .ok (c, c) := rfl
  unfold coerce
  split
  · exact ⟨e, rfl⟩
  · rw [bind_run hget, hassign]
    simp only [Bool.not_true, Bool.false_eq_true, if_false]
    split
    · exact ⟨_, rfl⟩
    · exact ⟨_, rfl⟩

theorem coerceArgs_silent : ∀ {es : List Expr} {ts},
    c.hierarchy.Fits (es.map Expr.ty) ts → ∃ es', coerceArgs es ts c = .ok (es', c)
  | [], [], _ => ⟨[], rfl⟩
  | e :: es, t :: ts, hfits => by
    obtain ⟨hassign, hfits⟩ := forall₂_cons.1 hfits
    obtain ⟨e', he⟩ := coerce_silent hassign
    obtain ⟨es', hes⟩ := coerceArgs_silent hfits
    exact ⟨e' :: es', (bind_run he).trans ((bind_run hes).trans rfl)⟩

theorem memberClass?_ofClass (name : String) : memberClass? (Ty.ofClass name) = some name := by
  unfold Ty.ofClass
  split
  next hname => rw [hname]; rfl
  · rfl

theorem send_super_silent {line : Nat} {note : Note} {name method owner : String}
    {args : List Expr} {m : MethodHeader} (hty : (Expr.superRef note).ty = Ty.ofClass name)
    (hselect : c.hierarchy.selectMethod name method (args.map Expr.ty) = .found (owner, m))
    (hfits : c.hierarchy.Fits (args.map Expr.ty) m.params) (hm : m.isAbstract = false) :
    ∃ e, send line (some (.superRef note)) method args c = .ok (e, c) := by
  have hget : (get : Analysis Context) c = .ok (c, c) := rfl
  have hany : (Ty.ofClass name).isAny = false := by
    unfold Ty.ofClass
    split <;> rfl
  unfold send
  dsimp only
  rw [Option.any_some, hty, hany, memberClass?_ofClass, if_neg Bool.false_ne_true]
  rw [bind_run hget]
  dsimp only
  split
  · exact ⟨_, rfl⟩
  · rw [hselect]
    obtain ⟨args', hargs⟩ := coerceArgs_silent hfits
    unfold resolvedSend
    simp only [Option.any_some, Expr.isTypeName, Expr.isSuperRef, hm,
      Option.isNone_some, Bool.false_and,
      Bool.and_false, Bool.false_eq_true, if_false, pure_bind]
    exact ⟨_, (bind_run hget).trans ((bind_run hargs).trans rfl)⟩

end Analysis

namespace Hierarchy

variable {h : Hierarchy} {name method owner : String} {params : List Ty} {k : Nat}
  {m : MethodHeader}

theorem selectMethod_eq_found {args : List Ty} {p : String × MethodHeader}
    (hp : p ∈ h.findMethods name method)
    (hselect : h.select ((h.findMethods name method).map (·.2.params)) args = .found p.2.params) :
    h.selectMethod name method args = .found p ∧ h.Fits args p.2.params := by
  refine ⟨?_, (mem_leastOf.1 (mem_leastOf_of_select hselect)).2.1⟩
  have hfind := (find?_firstByKey (fun q : String × MethodHeader => q.2.params) p.2.params _).trans
    (mem_firstByKey_iff.1 hp)
  simp only [selectMethod, hselect]
  rw [show (h.findMethods name method).find? (·.2.params = p.2.params) = some p from hfind]

/-- The declaration of the nearest class is the one that is found, unless something nearer than that
class declares the method too. So a call of it through the superclass, if it has a body, is not
objected to. A declaration that is nearer hides it. -/
theorem findMethods_nearest_class
    (hm : h.NearestMethod name (·.hasSignature method params) k owner m) :
    ((∀ n x, n < k → h.Climbs name n x → x ≠ owner →
        (h.methods x).any (·.hasSignature method params) = false) →
      (∀ p, p ∈ h.findMethods name method ∧ p.2.params = params ↔ p = (owner, m)) ∧
      (m.isAbstract = false → ∀ (c : Context) (line : Nat) (note : Note) (args : List Expr),
        c.hierarchy = h → (Expr.superRef note).ty = Ty.ofClass name →
        h.select ((h.findMethods name method).map (·.2.params)) (args.map Expr.ty) = .found params →
        ∃ e, Analysis.send line (some (.superRef note)) method args c = .ok (e, c))) ∧
    (∀ n x, h.Climbs name n x → (∀ i, h.Climbs name i owner → n < i) →
      (h.methods x).any (·.hasSignature method params) →
        (owner, m) ∉ h.findMethods name method) := by
  have hparams : m.name = method ∧ m.params = params := by
    simpa [MethodHeader.hasSignature] using find?_some hm.declares
  refine ⟨fun hnear => ?_, fun n x hx hfar hany hmem => ?_⟩
  · have hfound : (h.ancestors name).findSome? (fun owner =>
        ((h.methods owner).find? (·.hasSignature method params)).map (owner, ·)) =
        some (owner, m) := by
      refine findSome?_ancestors hm.chain (by rw [hm.declares, Option.map_some])
        fun n y hn hy hne => ?_
      have hnone := hnear n y hn hy hne
      rw [any_eq_false] at hnone
      rw [find?_eq_none.2 hnone, Option.map_none]
    have hentry : ∀ p, p ∈ h.findMethods name method ∧ p.2.params = params ↔ p = (owner, m) := by
      rintro ⟨o, m'⟩
      constructor
      · rintro ⟨hp, rfl⟩
        exact Option.some.inj ((mem_findMethods_iff.1 hp).symm.trans hfound)
      · rintro heq
        cases heq
        refine ⟨mem_findMethods_iff.2 ?_, hparams.2⟩
        rw [hparams.2, hfound]
    refine ⟨hentry, fun hbody c line note args hc hty hselect => ?_⟩
    subst hc
    have hmem := ((hentry (owner, m)).2 rfl).1
    rw [← hparams.2] at hselect
    obtain ⟨hmethod, hfits⟩ := selectMethod_eq_found hmem hselect
    exact Analysis.send_super_silent hty hmethod hfits hbody
  · rw [mem_findMethods_iff, hparams.2] at hmem
    refine findSome?_ancestors_ne ?_ hx ?_ hfar hmem
    · intro z p hp
      obtain ⟨m', -, rfl⟩ := Option.map_eq_some_iff.1 hp
      rfl
    · rw [Ne, Option.map_eq_none_iff, find?_eq_none]
      intro hnone
      obtain ⟨m', hm', hsig⟩ := any_eq_true.1 hany
      exact hnone m' hm' hsig

/-- A method without parameters and without a result. -/
def plainMethod (isAbstract : Bool) : MethodHeader :=
  { name := "n", params := [], result := .void, isAbstract }

/-- A class `C` under `B` under `A`. The method of `A` is also one of an interface, which one of the
other classes implements. -/
def layeredHierarchy (implementing : String) : Hierarchy where
  declared :=
    [{ name := "I", superclass := none, isInterface := true, isAbstract := true
       methods := [plainMethod true] },
     { name := "A", superclass := some objectClass, methods := [plainMethod false] },
     { name := "B", superclass := some "A"
       interfaces := if implementing = "B" then ["I"] else [] },
     { name := "C", superclass := some "B"
       interfaces := if implementing = "C" then ["I"] else [] }]

theorem layeredHierarchy_nearest {implementing : String}
    (himpl : implementing = "B" ∨ implementing = "C") :
    (layeredHierarchy implementing).NearestMethod "C" (·.hasSignature "n" []) 2 "A"
      (plainMethod false) := by
  refine ⟨by rcases himpl with rfl | rfl <;> decide, by rcases himpl with rfl | rfl <;> decide, ?_⟩
  intro i hi x hx
  have hcases : x = "C" ∨ x = "B" := by
    rcases himpl with rfl | rfl <;> rcases i with _ | _ | i <;> first | omega | (cases hx; simp)
  rcases himpl with rfl | rfl <;> rcases hcases with rfl | rfl <;> decide

theorem climbs_zero (hx : h.Climbs name 0 owner) : owner = name := by
  cases hx
  rfl

theorem climbs_one (hx : h.Climbs name 1 owner) : h.Parent name owner := by
  cases hx with
  | step hstart hparent =>
    cases hstart
    exact hparent

/-- An interface that is as far away as the class comes after it. -/
theorem findMethods_nearest_class_layered :
    (layeredHierarchy "B").NearestMethod "C" (·.hasSignature "n" []) 2 "A" (plainMethod false) ∧
      ∀ p, p ∈ (layeredHierarchy "B").findMethods "C" "n" ∧ p.2.params = [] ↔
        p = ("A", plainMethod false) := by
  have hnearest := layeredHierarchy_nearest (.inl rfl)
  refine ⟨hnearest, ((findMethods_nearest_class hnearest).1 fun n x hn hx _ => ?_).1⟩
  rcases n with _ | _ | n
  · rw [climbs_zero hx]
    decide
  · have hparent := climbs_one hx
    have hx : x ∈ ["B"] := hparent
    rw [mem_singleton.1 hx]
    decide
  · omega

theorem Acyclic.of_rank (rank : String → Nat)
    (hrank : ∀ c ∈ h.declared ++ Builtin.classes, ∀ p ∈ c.parents, rank p < rank c.name) :
    h.Acyclic := by
  have hstep : ∀ {a b}, h.Parent a b → rank b < rank a := by
    intro a b hab
    obtain ⟨c, hc, hb⟩ := hab.exists_lookup
    rw [← (lookup_cases hc).1]
    exact hrank c (mem_headers_of_lookup hc) b hb
  have htrans : ∀ {a b}, TransGen h.Parent a b → rank b < rank a := by
    intro a b hab
    induction hab with
    | single hab => exact hstep hab
    | tail _ hbc ih => exact Nat.lt_trans (hstep hbc) ih
  exact fun name hcycle => Nat.lt_irrefl _ (htrans hcycle)

/-- An interface that is nearer than the class hides its method. -/
theorem nearer_interface_hides_class :
    (layeredHierarchy "C").Acyclic ∧
      (layeredHierarchy "C").NearestMethod "C" (·.hasSignature "n" []) 2 "A" (plainMethod false) ∧
      (layeredHierarchy "C").findMethods "C" "n" = [("I", plainMethod true)] := by
  have hranked : (layeredHierarchy "C").Acyclic :=
    .of_rank (fun x => ((layeredHierarchy "C").ancestors x).length) (by decide +kernel)
  exact ⟨hranked, layeredHierarchy_nearest (.inr rfl), by decide +kernel⟩

/-! ## Abstract methods -/

theorem firstByKey_eq_nil_iff {α κ : Type} [DecidableEq κ] {key : α → κ} {items : List α} :
    firstByKey key items = [] ↔ items = [] := by
  constructor
  · intro hnil
    rw [eq_nil_iff_forall_not_mem]
    intro x hx
    have hfind := find?_firstByKey key (key x) items
    rw [hnil, find?_nil] at hfind
    simpa using find?_eq_none.1 hfind.symm x hx
  · rintro rfl
    rfl

theorem mem_inheritedMethods {x : String} :
    (x, m) ∈ h.inheritedMethods name ↔ x ∈ h.ancestors name ∧ m ∈ h.methods x := by
  simp only [inheritedMethods, methods, mem_flatMap, mem_map, Prod.mk.injEq]
  constructor
  · rintro ⟨y, hy, m', hm', rfl, rfl⟩
    exact ⟨hy, hm'⟩
  · rintro ⟨hx, hm⟩
    exact ⟨x, hx, m, hm, rfl, rfl⟩

theorem unimplemented_eq_nil_iff : h.unimplemented name = [] ↔
    ∀ x ∈ h.ancestors name, ∀ m ∈ h.methods x, m.isAbstract →
      ∃ y ∈ h.ancestors name, ∃ b ∈ h.methods y, b.isAbstract = false ∧ b.key = m.key := by
  rw [unimplemented, firstByKey_eq_nil_iff, filter_eq_nil_iff]
  have hconcrete : ∀ key : String × String,
      (((h.inheritedMethods name).filter fun m => !m.2.isAbstract).map (·.2.key)).contains key ↔
        ∃ y ∈ h.ancestors name, ∃ b ∈ h.methods y, b.isAbstract = false ∧ b.key = key := by
    intro key
    simp only [contains_iff_mem, mem_map, mem_filter, Prod.exists,
      mem_inheritedMethods, Bool.not_eq_true']
    constructor
    · rintro ⟨y, b, ⟨⟨hy, hb⟩, hbody⟩, hkey⟩
      exact ⟨y, hy, b, hb, hbody, hkey⟩
    · rintro ⟨y, hy, b, hb, hbody, hkey⟩
      exact ⟨y, b, ⟨⟨hy, hb⟩, hbody⟩, hkey⟩
  constructor
  · intro hnone x hx m hm habstract
    have hnot := hnone (x, m) (mem_inheritedMethods.2 ⟨hx, hm⟩)
    rw [habstract, Bool.true_and, Bool.not_eq_true', Bool.not_eq_false] at hnot
    exact (hconcrete m.key).1 hnot
  · rintro hall ⟨x, m⟩ hmem hmissing
    obtain ⟨hx, hm⟩ := mem_inheritedMethods.1 hmem
    rw [Bool.and_eq_true, Bool.not_eq_true'] at hmissing
    have hcontains := (hconcrete m.key).2 (hall x hx m hm hmissing.1)
    rw [hcontains] at hmissing
    cases hmissing.2

/-- Methods with a body stand only in classes on the superclass chain. -/
def BodiesInClasses (h : Hierarchy) (name : String) : Prop :=
  ∀ x ∈ h.ancestors name, ∀ m ∈ h.methods x, m.isAbstract = false → ∃ k, h.chain name k = some x

/-- A class on the superclass chain declares a method as abstract that it or one of its superclasses
has a body for. -/
def AbstractAgain (h : Hierarchy) (name : String) (key : String × String) : Prop :=
  ∃ i j x y, i ≤ j ∧ h.chain name i = some x ∧ h.chain name j = some y ∧
    (∃ m ∈ h.methods x, m.isAbstract ∧ m.key = key) ∧
    ∃ m ∈ h.methods y, m.isAbstract = false ∧ m.key = key

/-- A class on the superclass chain has a static method of a key. -/
def HasStatic (h : Hierarchy) (name : String) (key : String × String) : Prop :=
  ∃ k x, h.chain name k = some x ∧ ∃ m ∈ h.methods x, m.isStatic ∧ m.key = key

theorem exists_nearestMethod {p : MethodHeader → Bool} (hx : h.chain name k = some x)
    (hp : (h.methods x).any p) : ∃ i owner m, i ≤ k ∧ h.NearestMethod name p i owner m := by
  classical
  have hex : ∃ i, ∃ x, h.chain name i = some x ∧ (h.methods x).any p := ⟨k, x, hx, hp⟩
  obtain ⟨owner, howner, hdeclares⟩ := Nat.find_spec hex
  obtain ⟨m, hm⟩ : ∃ m, (h.methods owner).find? p = some m := by
    obtain ⟨m, hm, hpm⟩ := any_eq_true.1 hdeclares
    exact Option.isSome_iff_exists.1 (find?_isSome.2 ⟨m, hm, hpm⟩)
  refine ⟨Nat.find hex, owner, m, Nat.find_min' hex ⟨x, hx, hp⟩, howner, hm, fun i hi y hy => ?_⟩
  have hnot := Nat.find_min hex hi
  rw [← Bool.not_eq_true]
  exact fun hany => hnot ⟨y, hy, hany⟩

/-- Nothing is unimplemented if and only if a class on the superclass chain has a body for each
abstract method. Then the nearest declaration of such a method along the chain is one with a body
and is not static, unless a class declares the method as abstract again or has a static one. -/
theorem unimplemented_nil_iff_bodies (hbodies : h.BodiesInClasses name) :
    (h.unimplemented name = [] ↔ ∀ x ∈ h.ancestors name, ∀ m ∈ h.methods x, m.isAbstract →
      ∃ k y, h.chain name k = some y ∧ ∃ b ∈ h.methods y, b.isAbstract = false ∧ b.key = m.key) ∧
    (h.unimplemented name = [] → ∀ x ∈ h.ancestors name, ∀ m ∈ h.methods x, m.isAbstract →
      ∃ k owner b, h.NearestMethod name (·.key = m.key) k owner b ∧
        (¬h.AbstractAgain name m.key → b.isAbstract = false) ∧
        (¬h.HasStatic name m.key → b.isStatic = false)) := by
  have hiff : h.unimplemented name = [] ↔ ∀ x ∈ h.ancestors name, ∀ m ∈ h.methods x,
      m.isAbstract → ∃ k y, h.chain name k = some y ∧
        ∃ b ∈ h.methods y, b.isAbstract = false ∧ b.key = m.key := by
    rw [unimplemented_eq_nil_iff]
    constructor
    · intro hall x hx m hm habstract
      obtain ⟨y, hy, b, hb, hbody, hkey⟩ := hall x hx m hm habstract
      obtain ⟨k, hk⟩ := hbodies y hy b hb hbody
      exact ⟨k, y, hk, b, hb, hbody, hkey⟩
    · intro hall x hx m hm habstract
      obtain ⟨k, y, hk, b, hb, hbody, hkey⟩ := hall x hx m hm habstract
      have hy := mem_ancestors.2 (.inl (reflTransGen_iff_climbs.2 ⟨k, climbs_of_chain hk⟩))
      exact ⟨y, hy, b, hb, hbody, hkey⟩
  refine ⟨hiff, fun hnil x hx m hm habstract => ?_⟩
  obtain ⟨j, y, hy, b, hb, hbody, hkey⟩ := hiff.1 hnil x hx m hm habstract
  obtain ⟨i, owner, found, hle, hnearest⟩ := exists_nearestMethod (p := (·.key = m.key)) hy
    (any_eq_true.2 ⟨b, hb, by simpa using hkey⟩)
  have hfound : found ∈ h.methods owner := mem_of_find?_eq_some hnearest.declares
  have hfoundKey : found.key = m.key := by simpa using find?_some hnearest.declares
  refine ⟨i, owner, found, hnearest, fun hnot => ?_, fun hnot => ?_⟩
  · rw [← Bool.not_eq_true]
    intro hagain
    exact hnot ⟨i, j, owner, y, hle, hnearest.chain, hy, ⟨found, hfound, hagain, hfoundKey⟩,
      b, hb, hbody, hkey⟩
  · rw [← Bool.not_eq_true]
    intro hstatic
    exact hnot ⟨i, owner, hnearest.chain, found, hfound, hstatic, hfoundKey⟩

theorem layeredHierarchy_bodiesInClasses : (layeredHierarchy "C").BodiesInClasses "C" := by
  intro x hx m hm hbody
  have hancestors : (layeredHierarchy "C").ancestors "C" = ["C", "B", "I", "A", objectClass] := by
    decide +kernel
  rw [hancestors] at hx
  simp only [mem_cons, not_mem_nil, or_false] at hx
  rcases hx with rfl | rfl | rfl | rfl | rfl
  · exact ⟨0, by decide⟩
  · exact ⟨1, by decide⟩
  · obtain rfl : m = plainMethod true := mem_singleton.1 hm
    cases hbody
  · exact ⟨2, by decide⟩
  · exact ⟨3, by decide⟩

/-- The abstract method of the interface has a body two steps up. -/
theorem unimplemented_nil_iff_bodies_layered :
    (layeredHierarchy "C").unimplemented "C" = [] ∧
      plainMethod true ∈ (layeredHierarchy "C").methods "I" ∧
      ∃ k owner b,
        (layeredHierarchy "C").NearestMethod "C" (·.key = (plainMethod true).key) k owner b := by
  have hnil : (layeredHierarchy "C").unimplemented "C" = [] := by decide +kernel
  have hmem : plainMethod true ∈ (layeredHierarchy "C").methods "I" := mem_singleton_self _
  obtain ⟨k, owner, b, hnearest, -⟩ := (unimplemented_nil_iff_bodies
    layeredHierarchy_bodiesInClasses).2 hnil "I" (by decide +kernel) _ hmem rfl
  exact ⟨hnil, hmem, k, owner, b, hnearest⟩

/-- A class `C` under `B` under `A`, and an abstract method of `B` that has a body in `A`. -/
def abstractAgainSource : String :=
  "class A \x7b void n() \x7b\x7d \x7d abstract class B extends A \x7b abstract void n(); \x7d " ++
  "class C extends B \x7b\x7d"

/-- The class `C` is accepted, though the method it inherits is abstract. -/
theorem abstractAgainSource_accepted :
    ∃ a, Accepted "T.java" 64 abstractAgainSource a ∧ a.hierarchy.unimplemented "C" = [] ∧
      a.hierarchy.NearestMethod "C" (·.hasSignature "n" []) 1 "B" (plainMethod true) := by
  have haccepted : accepts "T.java" 64 abstractAgainSource := by decide +kernel
  obtain ⟨a, ha⟩ := exists_accepted haccepted
  have hall : (analyze (Grammar.parseSource "T.java" 64 abstractAgainSource).1
      (Grammar.parseSource "T.java" 64 abstractAgainSource).2).toOption.all fun a =>
        decide (a.hierarchy.unimplemented "C" = [] ∧ a.hierarchy.chain "C" 1 = some "B" ∧
          (a.hierarchy.methods "B").find? (·.hasSignature "n" []) = some (plainMethod true) ∧
          (a.hierarchy.methods "C").any (·.hasSignature "n" []) = false) := by
    decide +kernel
  rw [ha.analyzed] at hall
  obtain ⟨hnil, hchain, hdeclares, hnone⟩ := by simpa [Except.toOption] using hall
  refine ⟨a, ha, hnil, hchain, hdeclares, fun i hi x hx => ?_⟩
  obtain rfl : i = 0 := by omega
  cases hx
  simpa using hnone

end Hierarchy

end JMinusMinus
