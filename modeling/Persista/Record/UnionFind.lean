import Persista.Lib.PointerForest

/-!
# `_UnionFind`

`record/analysis/near_dedup.py`. A disjoint-set structure whose `find` halves the path it walks:
each element on it that is no root is pointed at its grandparent, and the walk goes on from there.

The parents are a pointer forest. The loop of `find` stops because the element it is at is closer to
its root each time, in the forest that it has rewritten by then; it makes fewer turns than there are
elements.

## Main results

* `UnionFind.findLoop_spec` — the loop of `find` stops, at the root, and every element keeps its own
* `UnionFind.union_spec` — `union` joins two classes
* `UnionFind.forest_law` — what holds after any calls
-/

namespace Persista

namespace UnionFind

open PointerForest

/-- `_UnionFind(size)._parent`. -/
def init (size : ℕ) : List ℕ := List.range size

/-- The loop of `find`; `none` when an index is out of range, or after `fuel` turns. -/
def findLoop : ℕ → List ℕ → ℕ → Option (List ℕ × ℕ)
  | 0, _, _ => none
  | fuel + 1, parent, i => do
    if (← parent[i]?) = i then return (parent, i)
    let parent := parent.set i (← parent[← parent[i]?]?)
    findLoop fuel parent (← parent[i]?)

/-- `find(i)`, and the parents that it leaves. -/
def find (parent : List ℕ) (i : ℕ) : Option (List ℕ × ℕ) := findLoop parent.length parent i

/-- `union(i, j)`. -/
def union (parent : List ℕ) (i j : ℕ) : Option (List ℕ) := do
  let (parent, rootI) ← find parent i
  let (parent, rootJ) ← find parent j
  if rootI ≠ rootJ then return parent.set rootJ rootI
  return parent

/-! ### The forest of the parents -/

/-- The parent of an element; what is out of range stands alone. -/
def up (parent : List ℕ) (x : ℕ) : ℕ := parent[x]?.getD x

/-- The parents are elements, and the elements a forest. -/
structure WellFormed (parent : List ℕ) : Prop where
  lt : ∀ p ∈ parent, p < parent.length
  forest : Forest (up parent)

theorem getElem?_eq_up {parent : List ℕ} {i : ℕ} (hi : i < parent.length) :
    parent[i]? = some (up parent i) := by
  rw [up, List.getElem?_eq_getElem hi]
  rfl

theorem WellFormed.up_lt {parent : List ℕ} (h : WellFormed parent) {i : ℕ}
    (hi : i < parent.length) :
    up parent i < parent.length :=
  h.lt _ (List.mem_of_getElem? (getElem?_eq_up hi))

theorem up_set {parent : List ℕ} {i : ℕ} (hi : i < parent.length) (p : ℕ) :
    up (parent.set i p) = Function.update (up parent) i p := by
  funext x
  rw [up, List.getElem?_set]
  by_cases hx : i = x
  · subst hx
    rw [if_pos rfl, if_pos hi, Function.update_self]
    rfl
  · rw [if_neg hx, Function.update_of_ne (Ne.symm hx)]
    rfl

theorem WellFormed.climbs_lt {parent : List ℕ} (h : WellFormed parent) {i n r : ℕ}
    (hi : i < parent.length) (hclimb : Climbs (up parent) n i r) : n < parent.length :=
  hclimb.lt (fun _ hy => h.up_lt hy) hi

theorem climbs_root_lt {parent : List ℕ} (h : WellFormed parent) {i n r : ℕ}
    (hclimb : Climbs (up parent) n i r) (hi : i < parent.length) : r < parent.length := by
  induction hclimb with
  | root _ => exact hi
  | step _ _ ih => exact ih (h.up_lt hi)

theorem wellFormed_set {parent : List ℕ} (h : WellFormed parent) {i p : ℕ} (hi : i < parent.length)
    (hp : p < parent.length) (hforest : Forest (Function.update (up parent) i p)) :
    WellFormed (parent.set i p) where
  lt q hq := by
    rw [List.length_set]
    rcases List.mem_or_eq_of_mem_set hq with hq | rfl
    · exact h.lt q hq
    · exact hp
  forest := by
    rw [up_set hi]
    exact hforest

/-- At the start every element stands alone. -/
theorem up_init (size x : ℕ) : up (init size) x = x := by
  rw [up, init]
  by_cases hx : x < size
  · rw [List.getElem?_range hx]
    rfl
  · rw [List.getElem?_eq_none (by simpa using hx)]
    rfl

theorem wellFormed_init (size : ℕ) : WellFormed (init size) where
  lt p hp := by
    rw [init] at hp ⊢
    rw [List.length_range]
    exact List.mem_range.mp hp
  forest x := ⟨0, x, .root (up_init size x)⟩

theorem same_init_iff (size : ℕ) {x y : ℕ} : Same (up (init size)) x y ↔ x = y :=
  (Climbs.root (up_init size x)).same_iff (.root (up_init size y))

/-! ### `find` -/

theorem findLoop_root {parent : List ℕ} {i : ℕ} (hi : i < parent.length) (h : up parent i = i)
    (fuel : ℕ) : findLoop (fuel + 1) parent i = some (parent, i) := by
  rw [findLoop, getElem?_eq_up hi, h]
  simp

theorem findLoop_step {parent : List ℕ} (hwf : WellFormed parent) {i : ℕ} (hi : i < parent.length)
    (h : up parent i ≠ i) (fuel : ℕ) :
    findLoop (fuel + 1) parent i =
      findLoop fuel (parent.set i (up parent (up parent i))) (up parent (up parent i)) := by
  rw [findLoop, getElem?_eq_up hi]
  simp [h, getElem?_eq_up (hwf.up_lt hi), hi]

/-- The loop stops at the root, whatever the fuel for more turns than the steps to it. -/
theorem findLoop_spec {parent : List ℕ} (hwf : WellFormed parent) {i n r : ℕ}
    (hi : i < parent.length) (hclimb : Climbs (up parent) n i r) :
    ∃ parent', (∀ fuel, n < fuel → findLoop fuel parent i = some (parent', r)) ∧
      WellFormed parent' ∧ parent'.length = parent.length ∧ Shortens (up parent) (up parent') := by
  induction n using Nat.strong_induction_on generalizing parent i with
  | _ n ih =>
    by_cases h : up parent i = i
    · obtain ⟨-, rfl⟩ := hclimb.eq_of_isRoot h
      refine ⟨parent, fun fuel hfuel => ?_, hwf, rfl, .refl _⟩
      obtain ⟨fuel, rfl⟩ := Nat.exists_eq_add_one_of_ne_zero (Nat.ne_zero_of_lt hfuel)
      exact findLoop_root hi h fuel
    · have hgrand := hwf.up_lt (hwf.up_lt hi)
      obtain ⟨m, hm, hclimb'⟩ := hclimb.grandparent h
      -- the path of the grandparent in the forest that is rewritten
      obtain ⟨m', hm', hclimb'⟩ := hclimb'.shortened i
      have hup : up (parent.set i (up parent (up parent i))) = halve (up parent) i := up_set hi _
      have hshort : Shortens (up parent) (up (parent.set i (up parent (up parent i)))) := by
        rw [hup]
        exact shortens_halve (up parent) i
      have hwf' : WellFormed (parent.set i (up parent (up parent i))) :=
        wellFormed_set hwf hi hgrand ((shortens_halve (up parent) i).forest hwf.forest)
      rw [← hup] at hclimb'
      obtain ⟨parent', hloop, hwf'', hlen, hshort'⟩ :=
        ih m' (by omega) hwf' (by rw [List.length_set]; exact hgrand) hclimb'
      refine ⟨parent', fun fuel hfuel => ?_, hwf'', by rw [hlen, List.length_set],
        hshort.trans hshort'⟩
      obtain ⟨fuel, rfl⟩ := Nat.exists_eq_add_one_of_ne_zero (Nat.ne_zero_of_lt hfuel)
      rw [findLoop_step hwf hi h]
      exact hloop fuel (by omega)

/-- `find` returns the root of its argument, and every element keeps its root. -/
theorem find_spec {parent : List ℕ} (hwf : WellFormed parent) {i : ℕ} (hi : i < parent.length) :
    ∃ parent' r n, find parent i = some (parent', r) ∧ Climbs (up parent) n i r ∧
      WellFormed parent' ∧ parent'.length = parent.length ∧ Shortens (up parent) (up parent') := by
  obtain ⟨n, r, hclimb⟩ := hwf.forest i
  obtain ⟨parent', hloop, hwf', hlen, hshort⟩ := findLoop_spec hwf hi hclimb
  exact ⟨parent', r, n, hloop _ (hwf.climbs_lt hi hclimb), hclimb, hwf', hlen, hshort⟩

/-! ### `union` -/

/-- `union` joins the classes of its arguments and leaves the others as they were. -/
theorem union_spec {parent : List ℕ} (hwf : WellFormed parent) {i j : ℕ} (hi : i < parent.length)
    (hj : j < parent.length) :
    ∃ parent', union parent i j = some parent' ∧ WellFormed parent' ∧
      parent'.length = parent.length ∧ ∀ x y, Same (up parent') x y ↔
        Same (up parent) x y ∨ Same (up parent) x i ∧ Same (up parent) y j ∨
          Same (up parent) x j ∧ Same (up parent) y i := by
  obtain ⟨parent₁, s, n, hfindI, hclimbI, hwf₁, hlen₁, hshort₁⟩ := find_spec hwf hi
  obtain ⟨parent₂, r, m, hfindJ, hclimbJ, hwf₂, hlen₂, hshort₂⟩ :=
    find_spec hwf₁ (hlen₁ ▸ hj)
  have hshort := hshort₁.trans hshort₂
  obtain ⟨n', -, hclimbI⟩ := hshort n i s hclimbI
  obtain ⟨m', -, hclimbJ⟩ := hshort₂ m j r hclimbJ
  have hlen := hlen₂.trans hlen₁
  have hs := climbs_root_lt hwf₂ hclimbI (hlen ▸ hi)
  have hr := climbs_root_lt hwf₂ hclimbJ (hlen ▸ hj)
  simp only [← hshort.same_iff hwf.forest]
  by_cases hne : s = r
  · subst hne
    refine ⟨parent₂, by simp [union, hfindI, hfindJ], hwf₂, hlen, fun x y => ?_⟩
    have hequiv := hwf₂.forest.same_equivalence
    have hij : Same (up parent₂) i j := (hclimbI.same_iff hclimbJ).mpr rfl
    constructor
    · exact .inl
    · rintro (hxy | ⟨hx, hy⟩ | ⟨hx, hy⟩)
      · exact hxy
      · exact hequiv.trans hx (hequiv.trans hij (hequiv.symm hy))
      · exact hequiv.trans hx (hequiv.trans (hequiv.symm hij) (hequiv.symm hy))
  · have hup : up (parent₂.set r s) = link (up parent₂) r s := up_set hr s
    refine ⟨parent₂.set r s, by simp [union, hfindI, hfindJ, hne], ?_, by simp [hlen],
      fun x y => ?_⟩
    · exact wellFormed_set hwf₂ hr hs
        (forest_link hwf₂.forest hclimbJ.isRoot hclimbI.isRoot hne)
    · rw [hup]
      exact same_link_iff hwf₂.forest hclimbI hclimbJ hne

/-! ### The classes -/

/-- The classes of the union-find are the components of a relation. -/
structure Classes (parent : List ℕ) (n : ℕ) (E : ℕ → ℕ → Prop) : Prop where
  wellFormed : WellFormed parent
  length_eq : parent.length = n
  same_iff : ∀ x y, Same (up parent) x y ↔ Relation.EqvGen E x y

theorem Classes.congr {parent : List ℕ} {n : ℕ} {E F : ℕ → ℕ → Prop} (h : Classes parent n E)
    (hE : ∀ a b, E a b → Relation.EqvGen F a b) (hF : ∀ a b, F a b → Relation.EqvGen E a b) :
    Classes parent n F where
  wellFormed := h.wellFormed
  length_eq := h.length_eq
  same_iff x y := (h.same_iff x y).trans (eqvGen_congr hE hF)

theorem Classes.of_iff {parent : List ℕ} {n : ℕ} {E F : ℕ → ℕ → Prop} (h : Classes parent n E)
    (hEF : ∀ a b, E a b ↔ F a b) : Classes parent n F :=
  h.congr (fun a b hab => .rel _ _ ((hEF a b).mp hab)) fun a b hab => .rel _ _ ((hEF a b).mpr hab)

theorem Classes.union {parent : List ℕ} {n : ℕ} {E : ℕ → ℕ → Prop} (h : Classes parent n E)
    {i j : ℕ} (hi : i < n) (hj : j < n) :
    ∃ parent', union parent i j = some parent' ∧
      Classes parent' n fun a b => E a b ∨ a = i ∧ b = j := by
  obtain ⟨parent', hunion, hwf, hlen, hsame⟩ :=
    union_spec h.wellFormed (h.length_eq ▸ hi) (h.length_eq ▸ hj)
  refine ⟨parent', hunion, hwf, hlen.trans h.length_eq, fun x y => ?_⟩
  rw [hsame]
  exact join_iff_eqvGen h.same_iff i j

theorem classes_init (n : ℕ) : Classes (init n) n fun _ _ => False where
  wellFormed := wellFormed_init n
  length_eq := List.length_range
  same_iff x y := by
    rw [same_init_iff]
    constructor
    · rintro rfl
      exact .refl x
    · intro h
      have heq : Equivalence fun x y : ℕ => x = y := eq_equivalence
      exact heq.eqvGen_iff.mp (Relation.EqvGen.mono (fun _ _ hf => hf.elim) _ _ h)

theorem Classes.find {parent : List ℕ} {n : ℕ} {E : ℕ → ℕ → Prop} (h : Classes parent n E) {i : ℕ}
    (hi : i < n) :
    ∃ parent' r, find parent i = some (parent', r) ∧ Classes parent' n E := by
  obtain ⟨parent', r, _, hfind, -, hwf, hlen, hshort⟩ :=
    find_spec h.wellFormed (h.length_eq.symm ▸ hi)
  refine ⟨parent', r, hfind, hwf, hlen.trans h.length_eq, fun x y => ?_⟩
  rw [hshort.same_iff h.wellFormed.forest, h.same_iff]

/-! ### Calls -/

/-- A call of a method. -/
inductive Call
  | find (i : ℕ)
  | union (i j : ℕ)
  deriving DecidableEq

/-- The indices are those of elements. -/
def Call.Below (n : ℕ) : Call → Prop
  | .find i => i < n
  | .union i j => i < n ∧ j < n

instance (n : ℕ) : DecidablePred (Call.Below n)
  | .find i => inferInstanceAs (Decidable (i < n))
  | .union i j => inferInstanceAs (Decidable (i < n ∧ j < n))

/-- The parents after a call. -/
def exec (parent : List ℕ) : Call → Option (List ℕ)
  | .find i => (find parent i).map Prod.fst
  | .union i j => union parent i j

/-- The parents after some calls. -/
def run (parent : List ℕ) (calls : List Call) : Option (List ℕ) := calls.foldlM exec parent

/-- A call joins a pair, or nothing. -/
theorem Classes.exec {parent : List ℕ} {n : ℕ} {E : ℕ → ℕ → Prop} (h : Classes parent n E)
    {call : Call} (hcall : call.Below n) :
    ∃ parent', exec parent call = some parent' ∧
      Classes parent' n fun a b => E a b ∨ call = .union a b := by
  cases call with
  | find i =>
    obtain ⟨parent', r, hfind, hclasses⟩ := h.find hcall
    refine ⟨parent', by rw [UnionFind.exec, hfind]; rfl, hclasses.of_iff fun a b => ?_⟩
    exact (or_iff_left Call.noConfusion).symm
  | union i j =>
    obtain ⟨parent', hunion, hclasses⟩ := h.union hcall.1 hcall.2
    refine ⟨parent', hunion, hclasses.of_iff fun a b => ?_⟩
    rw [Call.union.injEq, eq_comm (a := i), eq_comm (a := j)]

/-- Some calls join the pairs that are united. -/
theorem Classes.run {parent : List ℕ} {n : ℕ} {E : ℕ → ℕ → Prop} (h : Classes parent n E)
    {calls : List Call} (hcalls : ∀ call ∈ calls, call.Below n) :
    ∃ parent', run parent calls = some parent' ∧
      Classes parent' n fun a b => E a b ∨ .union a b ∈ calls := by
  induction calls generalizing parent E with
  | nil => exact ⟨parent, rfl, h.of_iff fun a b => (or_iff_left List.not_mem_nil).symm⟩
  | cons call calls ih =>
    obtain ⟨hcall, hcalls⟩ := List.forall_mem_cons.mp hcalls
    obtain ⟨parent₁, hexec, h₁⟩ := h.exec hcall
    obtain ⟨parent₂, hrun, h₂⟩ := ih h₁ hcalls
    refine ⟨parent₂, ?_, h₂.of_iff fun a b => ?_⟩
    · rw [UnionFind.run, List.foldlM_cons, hexec]
      exact hrun
    · rw [List.mem_cons, or_assoc, eq_comm]

/-! ### What the methods do -/

/-- `r` is the root of `x`. -/
def RootOf (parent : List ℕ) (x r : ℕ) : Prop := ∃ n, Climbs (up parent) n x r

/-- What `find(i)` does when it returns `r`. The loop stops by itself: more turns change nothing. -/
structure Finds (parent : List ℕ) (i : ℕ) (parent' : List ℕ) (r : ℕ) : Prop where
  stops : ∀ fuel, parent.length ≤ fuel → findLoop fuel parent i = some (parent', r)
  rootOf_iff : ∀ s, RootOf parent i s ↔ s = r
  keeps : ∀ x s, RootOf parent' x s ↔ RootOf parent x s

/-- What `union(i, j)` does: the classes of `i` and `j` become one, and the others stay. -/
structure Merges (parent : List ℕ) (i j : ℕ) (parent' : List ℕ) : Prop where
  merged : ∀ x, Same (up parent) x i ∨ Same (up parent) x j → ∀ y,
    Same (up parent') x y ↔ Same (up parent) y i ∨ Same (up parent) y j
  kept : ∀ x, ¬ (Same (up parent) x i ∨ Same (up parent) x j) → ∀ y,
    Same (up parent') x y ↔ Same (up parent) x y

theorem finds {parent : List ℕ} (hwf : WellFormed parent) {i : ℕ} (hi : i < parent.length) :
    ∃ parent' r, Finds parent i parent' r ∧ WellFormed parent' := by
  obtain ⟨n, r, hclimb⟩ := hwf.forest i
  obtain ⟨parent', hloop, hwf', -, hshort⟩ := findLoop_spec hwf hi hclimb
  have hn := hwf.climbs_lt hi hclimb
  refine ⟨parent', r, ⟨fun fuel hfuel => hloop fuel (by omega), fun s => ?_, fun x s => ?_⟩, hwf'⟩
  · constructor
    · rintro ⟨m, hs⟩
      exact (hs.unique hclimb).2
    · rintro rfl
      exact ⟨n, hclimb⟩
  · exact hshort.exists_climbs_iff hwf.forest

theorem merges {parent : List ℕ} (hwf : WellFormed parent) {i j : ℕ} (hi : i < parent.length)
    (hj : j < parent.length) :
    ∃ parent', union parent i j = some parent' ∧ Merges parent i j parent' ∧
      WellFormed parent' := by
  obtain ⟨parent', hunion, hwf', -, hsame⟩ := union_spec hwf hi hj
  refine ⟨parent', hunion, ⟨fun x hx y => ?_, fun x hx y => ?_⟩, hwf'⟩
  · rw [hsame]
    exact joined_iff hwf.forest.same_equivalence hx
  · rw [hsame]
    exact joined_iff_of_not hx

/-- After any calls the parents are a forest, and its classes are those of the pairs that were
united. The next `find` stops at the one root of its argument and changes no root; the next `union`
joins two classes and leaves the others as they were. -/
theorem forest_law (n : ℕ) (calls : List Call) (hcalls : ∀ call ∈ calls, call.Below n) :
    ∃ parent, run (init n) calls = some parent ∧ parent.length = n ∧
      (∀ p ∈ parent, p < n) ∧ Forest (up parent) ∧
      (∀ x k, (up parent)^[k + 1] x = x → up parent x = x) ∧
      (∀ x y, Same (up parent) x y ↔
        Relation.EqvGen (fun a b => .union a b ∈ calls) x y) ∧
      (∀ i < n, ∃ parent' r, Finds parent i parent' r ∧ WellFormed parent') ∧
      ∀ i < n, ∀ j < n, ∃ parent', union parent i j = some parent' ∧ Merges parent i j parent' ∧
        WellFormed parent' := by
  obtain ⟨parent, hrun, hclasses⟩ := (classes_init n).run hcalls
  have hlen := hclasses.length_eq
  have hwf := hclasses.wellFormed
  refine ⟨parent, hrun, hlen, hlen ▸ hwf.lt, hwf.forest, fun x k => hwf.forest.eq_of_cycle,
    fun x y => ?_, fun i hi => finds hwf (hlen.symm ▸ hi),
    fun i hi j hj => merges hwf (hlen.symm ▸ hi) (hlen.symm ▸ hj)⟩
  rw [hclasses.same_iff]
  simp only [false_or]

/-- After `union(0, 1)` and `union(2, 1)` the three elements have one root. -/
theorem forest_law_three : ∃ parent, run (init 3) [.union 0 1, .union 2 1] = some parent ∧
    Same (up parent) 0 2 := by
  obtain ⟨parent, hrun, -, -, -, -, hsame, -⟩ :=
    forest_law 3 [.union 0 1, .union 2 1] (by decide)
  refine ⟨parent, hrun, (hsame 0 2).mpr ?_⟩
  exact .trans _ 1 _ (.rel _ _ (by decide)) (.symm _ _ (.rel _ _ (by decide)))

end UnionFind

end Persista
