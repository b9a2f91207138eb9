import Mathlib.Data.List.Basic
import Mathlib.Data.List.Induction
import Mathlib.Data.List.Sort
import Mathlib.Order.Defs.Unbundled

/-!
# Tallies

Values are counted up to an equivalence that can be decided: `tally` keeps the first value of each
class, with the number of the values in it. The classes can then be ranked, those with most values
first and those of equal numbers in the order of their first values, and the first `k` of them are
those that have fewer than `k` ahead.

## Main results

* `Tally.tally_eq` — the counts are those of the classes
* `Tally.mem_take_ranked_iff` — the first items of a ranking, by the number of items ahead of each
-/

namespace Tally

/-! ### The first value of each class -/

section Distinct

variable {V : Type*} (same : V → V → Bool)

/-- Adding to a set: what is there already stays. -/
def addNew (values : List V) (v : V) : List V :=
  if values.any (same · v) then values else values ++ [v]

/-- The values that are no repetition of an earlier one. -/
def distinct (values : List V) : List V := values.foldl (addNew same) []

theorem distinct_append_singleton (values : List V) (v : V) :
    distinct same (values ++ [v]) = addNew same (distinct same values) v :=
  List.foldl_append

/-- A set grows at its end. -/
theorem exists_addNew (values : List V) (v : V) :
    ∃ more, addNew same values v = values ++ more := by
  rw [addNew]
  split
  · exact ⟨[], (List.append_nil values).symm⟩
  · exact ⟨[v], rfl⟩

theorem pairwise_distinct (values : List V) :
    (distinct same values).Pairwise fun v w => same v w = false := by
  induction values using List.reverseRecOn with
  | nil => exact List.Pairwise.nil
  | append_singleton values v ih =>
    rw [distinct_append_singleton, addNew]
    split
    · exact ih
    · next h =>
      rw [Bool.not_eq_true, List.any_eq_false] at h
      refine List.pairwise_append.mpr ⟨ih, List.pairwise_singleton _ v, fun w hw x hx => ?_⟩
      rw [List.mem_singleton.mp hx, ← Bool.not_eq_true]
      exact h w hw

variable {same} (heq : Equivalence fun v w => same v w = true)
include heq

/-- Every value is found among the distinct ones, and these are values. -/
theorem distinct_covers (values : List V) :
    (∀ v ∈ values, ∃ w ∈ distinct same values, same w v = true) ∧
      ∀ w ∈ distinct same values, w ∈ values := by
  induction values using List.reverseRecOn with
  | nil =>
    exact ⟨fun v hv => absurd hv List.not_mem_nil, fun w hw => absurd hw List.not_mem_nil⟩
  | append_singleton values v ih =>
    obtain ⟨hcover, hsub⟩ := ih
    rw [distinct_append_singleton, addNew]
    split
    · next h =>
      constructor
      · intro x hx
        rcases List.mem_append.mp hx with hx | hx
        · exact hcover x hx
        · rw [List.mem_singleton.mp hx]
          exact List.any_eq_true.mp h
      · exact fun w hw => List.mem_append_left _ (hsub w hw)
    · constructor
      · intro x hx
        rcases List.mem_append.mp hx with hx | hx
        · obtain ⟨w, hw, hwx⟩ := hcover x hx
          exact ⟨w, List.mem_append_left _ hw, hwx⟩
        · rw [List.mem_singleton.mp hx]
          exact ⟨v, List.mem_append_right _ List.mem_cons_self, heq.refl v⟩
      · intro w hw
        rcases List.mem_append.mp hw with hw | hw
        · exact List.mem_append_left _ (hsub w hw)
        · exact List.mem_append_right _ hw

/-- A value is new when none of the values is in its class. -/
theorem any_distinct_eq_false_iff (values : List V) (v : V) :
    (distinct same values).any (same · v) = false ↔ ∀ w ∈ values, same v w = false := by
  obtain ⟨hcover, hsub⟩ := distinct_covers heq values
  rw [List.any_eq_false]
  constructor
  · intro h w hw
    rw [← Bool.not_eq_true]
    intro hvw
    obtain ⟨x, hx, hxw⟩ := hcover w hw
    exact h x hx (heq.trans hxw (heq.symm hvw))
  · intro h x hx hxv
    exact Bool.false_ne_true ((h x (hsub x hx)).symm.trans (heq.symm hxv))

omit heq

/-- Up to equality, they are the values without their repetitions. -/
theorem mem_distinct_iff [DecidableEq V] (values : List V) (v : V) :
    v ∈ distinct (fun v w => decide (v = w)) values ↔ v ∈ values := by
  have heq : Equivalence fun v w : V => decide (v = w) = true := by
    simp only [decide_eq_true_eq]
    exact eq_equivalence
  obtain ⟨hcover, hsub⟩ := distinct_covers heq values
  constructor
  · exact hsub v
  · intro hv
    obtain ⟨w, hw, hwv⟩ := hcover v hv
    exact of_decide_eq_true hwv ▸ hw

theorem nodup_distinct [DecidableEq V] (values : List V) :
    (distinct (fun v w => decide (v = w)) values).Nodup :=
  (pairwise_distinct _ values).imp fun h => of_decide_eq_false h

end Distinct

/-! ### Counting -/

section Count

variable {V : Type*} (same : V → V → Bool)

/-- `counter[v] += 1`. -/
def increment : List (V × ℕ) → V → List (V × ℕ)
  | [], v => [(v, 1)]
  | (w, n) :: rest, v =>
    if same w v then (w, n + 1) :: rest else (w, n) :: increment rest v

/-- The counter of some values. -/
def tally (values : List V) : List (V × ℕ) := values.foldl (increment same) []

variable {same} (heq : Equivalence fun v w => same v w = true)
include heq

/-- The count of one class goes up, or a class is new. -/
theorem increment_map (count : V → ℕ) {classes : List V}
    (hpair : classes.Pairwise fun v w => same v w = false) (v : V) :
    increment same (classes.map fun x => (x, count x)) v =
      (classes.map fun x => (x, count x + if same x v then 1 else 0)) ++
        if classes.any (same · v) then [] else [(v, 1)] := by
  induction classes with
  | nil => rfl
  | cons y classes ih =>
    obtain ⟨hy, hpair⟩ := List.pairwise_cons.mp hpair
    rw [List.map_cons, increment, List.map_cons, List.any_cons]
    by_cases h : same y v
    · -- the value is in no other class
      have hrest : ∀ x ∈ classes, (x, count x) = (x, count x + if same x v then 1 else 0) := by
        intro x hx
        have hxv : same x v = false := by
          rw [← Bool.not_eq_true]
          intro hxv
          exact Bool.false_ne_true ((hy x hx).symm.trans (heq.trans h (heq.symm hxv)))
        rw [hxv]
        rfl
      simp only [h, if_true, Bool.true_or, List.append_nil]
      rw [List.map_congr_left hrest]
    · simp only [h, Bool.false_or, ih hpair, List.cons_append]
      rfl

/-- The counts are those of the classes. -/
theorem tally_eq (values : List V) :
    tally same values = (distinct same values).map fun x => (x, values.countP (same x)) := by
  induction values using List.reverseRecOn with
  | nil => rfl
  | append_singleton values v ih =>
    have hone : ∀ x, [v].countP (same x) = if same x v then 1 else 0 := fun x => by
      rw [List.countP_singleton]
    rw [tally, List.foldl_append]
    show increment same (tally same values) v = _
    rw [ih, increment_map heq _ (pairwise_distinct same values), distinct_append_singleton, addNew]
    simp only [List.countP_append, hone]
    split
    · rw [List.append_nil]
    · next h =>
      rw [Bool.not_eq_true, any_distinct_eq_false_iff heq] at h
      have hzero : values.countP (same v) = 0 :=
        List.countP_eq_zero.mpr fun w hw => by rw [h w hw]; exact Bool.false_ne_true
      rw [List.map_append, List.map_singleton, hzero, show same v v = true from heq.refl v]
      rfl

end Count

/-! ### Ranking -/

section Rank

variable {X S : Type*} [LinearOrder S]

/-- One score, with its position, goes before another: it is larger, or it is equal and comes
first. -/
def Ahead (p q : S × ℕ) : Prop := q.1 < p.1 ∨ p.1 = q.1 ∧ p.2 < q.2

instance : DecidableRel (Ahead (S := S)) := fun p q =>
  inferInstanceAs (Decidable (q.1 < p.1 ∨ p.1 = q.1 ∧ p.2 < q.2))

/-- How many of the scores go before one. -/
def rank (scores : List S) (q : S × ℕ) : ℕ := scores.zipIdx.countP fun p => decide (Ahead p q)

/-- The items with the largest scores first, and those with equal scores in their order. -/
def ranked (score : X → S) (items : List X) : List X :=
  items.insertionSort fun x y => score y ≤ score x

theorem Ahead.trans {p q r : S × ℕ} (h : Ahead p q) (h' : Ahead q r) : Ahead p r := by
  rcases h with h | ⟨h, hlt⟩ <;> rcases h' with h' | ⟨h', hlt'⟩
  · exact .inl (h'.trans h)
  · exact .inl (h' ▸ h)
  · exact .inl (h ▸ h')
  · exact .inr ⟨h.trans h', by omega⟩

theorem Ahead.asymm {p q : S × ℕ} (h : Ahead p q) : ¬ Ahead q p := by
  intro h'
  rcases h.trans h' with h | ⟨-, h⟩
  · exact lt_irrefl _ h
  · exact lt_irrefl _ h

variable (score : X → S)

/-- Items with their positions go by their scores. -/
theorem map_fst_ranked (items : List (X × ℕ)) :
    (ranked (fun p => score p.1) items).map Prod.fst = ranked score (items.map Prod.fst) :=
  List.map_insertionSort _ _ Prod.fst items fun _ _ _ _ => Iff.rfl

/-- An item whose position is before the others finds its place among them. -/
theorem pairwise_orderedInsert {items : List (X × ℕ)} (a : X × ℕ)
    (hpair : items.Pairwise fun p q => Ahead (score p.1, p.2) (score q.1, q.2))
    (ha : ∀ p ∈ items, a.2 < p.2) :
    (items.orderedInsert (fun p q => score q.1 ≤ score p.1) a).Pairwise
      fun p q => Ahead (score p.1, p.2) (score q.1, q.2) := by
  induction items with
  | nil => exact List.pairwise_singleton _ a
  | cons b items ih =>
    obtain ⟨hb, hpair'⟩ := List.pairwise_cons.mp hpair
    rw [List.orderedInsert_cons]
    split
    · next hle =>
      have hab : Ahead (score a.1, a.2) (score b.1, b.2) := by
        rcases hle.lt_or_eq with hlt | heq
        · exact .inl hlt
        · exact .inr ⟨heq.symm, ha b List.mem_cons_self⟩
      refine List.pairwise_cons.mpr ⟨fun c hc => ?_, hpair⟩
      rcases List.mem_cons.mp hc with rfl | hc
      · exact hab
      · exact hab.trans (hb c hc)
    · next hlt =>
      refine List.pairwise_cons.mpr ⟨fun c hc => ?_,
        ih hpair' fun p hp => ha p (List.mem_cons_of_mem b hp)⟩
      rcases (List.mem_orderedInsert _).mp hc with rfl | hc
      · exact .inl (not_le.mp hlt)
      · exact hb c hc

/-- Each item of a ranking is ahead of those after it. -/
theorem pairwise_ranked {items : List (X × ℕ)} (h : items.Pairwise fun p q => p.2 < q.2) :
    (ranked (fun p => score p.1) items).Pairwise
      fun p q => Ahead (score p.1, p.2) (score q.1, q.2) := by
  induction items with
  | nil => exact List.Pairwise.nil
  | cons a items ih =>
    obtain ⟨ha, h⟩ := List.pairwise_cons.mp h
    refine pairwise_orderedInsert score a (ih h) fun p hp => ha p ?_
    exact (List.mem_insertionSort _).mp hp

/-- In such a list a position is the number of the items ahead. -/
theorem countP_ahead_getElem {R : X → X → Prop} [DecidableRel R] (hR : ∀ x y, R x y → ¬ R y x)
    {items : List X} (hpair : items.Pairwise R) (i : ℕ) (hi : i < items.length) :
    items.countP (fun x => decide (R x items[i])) = i := by
  induction items generalizing i with
  | nil => exact absurd hi (Nat.not_lt_zero i)
  | cons a items ih =>
    obtain ⟨ha, hpair⟩ := List.pairwise_cons.mp hpair
    have haa : ¬ R a a := fun h => hR a a h h
    cases i with
    | zero =>
      refine List.countP_eq_zero.mpr fun x hx => ?_
      rw [decide_eq_true_eq, List.getElem_cons_zero]
      rcases List.mem_cons.mp hx with rfl | hx
      · exact haa
      · exact hR a x (ha x hx)
    | succ i =>
      have hi' : i < items.length := by simpa using hi
      rw [List.countP_cons, List.getElem_cons_succ, ih hpair i hi',
        if_pos (decide_eq_true (ha _ (List.getElem_mem hi')))]

/-- The first items of a ranking are those with few items ahead. -/
theorem mem_take_ranked_iff (items : List X) (k : ℕ) (x : X) :
    x ∈ (ranked score items).take k ↔
      ∃ i, items[i]? = some x ∧ rank (items.map score) (score x, i) < k := by
  have hordered : items.zipIdx.Pairwise fun p q => p.2 < q.2 := by
    rw [← List.pairwise_map (f := Prod.snd) (R := (· < ·)), List.zipIdx_map_snd]
    exact List.pairwise_lt_range'
  have hpair := pairwise_ranked score hordered
  have hperm := List.perm_insertionSort (fun p q : X × ℕ => score q.1 ≤ score p.1) items.zipIdx
  -- the rank of an item is its position
  have hrank : ∀ i (hi : i < (ranked (fun p : X × ℕ => score p.1) items.zipIdx).length),
      rank (items.map score)
        (score (ranked (fun p => score p.1) items.zipIdx)[i].1,
          (ranked (fun p => score p.1) items.zipIdx)[i].2) = i := by
    intro i hi
    rw [rank, List.zipIdx_map, List.countP_map, ← hperm.countP_eq]
    exact countP_ahead_getElem (fun _ _ => Ahead.asymm) hpair i hi
  have htake : (ranked score items).take k =
      ((ranked (fun p => score p.1) items.zipIdx).take k).map Prod.fst := by
    rw [List.map_take, map_fst_ranked, List.zipIdx_map_fst]
  rw [htake]
  constructor
  · intro hx
    obtain ⟨p, hp, rfl⟩ := List.mem_map.mp hx
    obtain ⟨i, hi, rfl⟩ := List.mem_take_iff_getElem.mp hp
    have hlen := lt_of_lt_of_le hi (min_le_right _ _)
    refine ⟨_, List.mem_zipIdx_iff_getElem?.mp (hperm.subset (List.getElem_mem hlen)), ?_⟩
    rw [hrank i hlen]
    exact lt_of_lt_of_le hi (min_le_left _ _)
  · rintro ⟨j, hj, hlt⟩
    have hmem : (x, j) ∈ ranked (fun p => score p.1) items.zipIdx :=
      hperm.symm.subset (List.mem_zipIdx_iff_getElem?.mpr hj)
    obtain ⟨i, hi, hget⟩ := List.getElem_of_mem hmem
    have hij := hrank i hi
    rw [hget] at hij
    exact List.mem_map.mpr
      ⟨(x, j), List.mem_take_iff_getElem.mpr ⟨i, lt_min (hij ▸ hlt) hi, hget⟩, rfl⟩

/-- What is left out of the first items scores no more than they do. -/
theorem score_le_of_not_mem_take {items : List X} {k : ℕ} {x y : X} (hx : x ∈ items)
    (hout : x ∉ (ranked score items).take k) (hy : y ∈ (ranked score items).take k) :
    score x ≤ score y := by
  have hsorted : (ranked score items).Pairwise fun x y => score y ≤ score x :=
    List.pairwise_insertionSort _ items
  have hmem : x ∈ (ranked score items).take k ++ (ranked score items).drop k := by
    rw [List.take_append_drop]
    exact (List.mem_insertionSort _).mpr hx
  rw [← List.take_append_drop k (ranked score items), List.pairwise_append] at hsorted
  exact hsorted.2.2 y hy x ((List.mem_append.mp hmem).resolve_left hout)

end Rank

end Tally
