import Persista.Lib.Dict
import Mathlib.Algebra.Ring.Nat
import Mathlib.Data.List.Range
import Mathlib.Logic.Equiv.Defs
import Mathlib.Order.Basic

/-!
# Grouping by a key

Items grouped under their keys in a dictionary, one after the other: `groups.setdefault(key,
[]).append(x)`. The items of a group are in the order they came, and the groups in the order of
their first items.

The items are told apart by their positions: `firsts` are the positions with a key that has not come
before, and `classOf` is where the key of a position comes.

## Main results

* `Grouping.values_groupAll` — the groups are the classes of the first positions
* `Grouping.isGrouping_groupsOf` — without the groups of one item they are the classes of an
  equivalence that have two elements or more
* `Grouping.IsGrouping.transport` — positions that change places stay in the same groups
* `Grouping.excess_groupsOf` — the items of the groups, less one for each group, are the items whose
  key came before
-/

namespace Grouping

variable {K X : Type*} [DecidableEq K]

/-- `groups.setdefault(key, []).append(x)`. -/
def push (groups : Dict K (List X)) (key : K) (x : X) : Dict K (List X) :=
  groups.set key ((groups.get? key).getD [] ++ [x])

/-- Each item under its key. -/
def groupAll (items : List (K × X)) : Dict K (List X) :=
  items.foldl (fun groups p => push groups p.1 p.2) ∅

theorem groupAll_append_singleton (items : List (K × X)) (p : K × X) :
    groupAll (items ++ [p]) = push (groupAll items) p.1 p.2 := by
  rw [groupAll, List.foldl_append]
  rfl

/-- The group of a key. -/
theorem getD_groupAll (items : List (K × X)) (key : K) :
    ((groupAll items).get? key).getD [] =
      (items.filter fun p => decide (p.1 = key)).map Prod.snd := by
  induction items using List.reverseRecOn with
  | nil => rfl
  | append_singleton items p ih =>
    rw [groupAll_append_singleton, push, Dict.get?_set, List.filter_append, List.map_append, ← ih]
    by_cases hp : key = p.1
    · subst hp
      simp
    · have hp' : ¬ p.1 = key := fun h => hp h.symm
      simp [hp, hp']

theorem keys_push (groups : Dict K (List X)) (key : K) (x : X) :
    (push groups key x).keys = if key ∈ groups.keys then groups.keys else groups.keys ++ [key] :=
  Dict.keys_set groups key _

/-- The groups, in the order of their keys. -/
theorem values_eq (groups : Dict K (List X)) :
    groups.values = groups.keys.map fun key => (groups.get? key).getD [] := by
  rw [Dict.values, Dict.keys, List.map_map]
  refine List.map_congr_left fun p hp => ?_
  rw [Function.comp_apply, Dict.get?_of_mem hp]
  rfl

/-- Groups under other keys and of other items. -/
theorem values_groupAll_map {K' Y : Type*} [DecidableEq K'] {φ : K → K'}
    (hφ : Function.Injective φ) (f : X → Y) (items : List (K × X)) :
    (groupAll (items.map fun p => (φ p.1, f p.2))).values =
      (groupAll items).values.map (List.map f) := by
  have hkeys :
      (groupAll (items.map fun p => (φ p.1, f p.2))).keys = (groupAll items).keys.map φ := by
    induction items using List.reverseRecOn with
    | nil => rfl
    | append_singleton items p ih =>
      rw [List.map_append, List.map_singleton, groupAll_append_singleton, groupAll_append_singleton,
        keys_push, keys_push, ih]
      simp only [List.mem_map_of_injective hφ]
      split
      · rfl
      · rw [List.map_append, List.map_singleton]
  rw [values_eq, values_eq, hkeys, List.map_map, List.map_map]
  refine List.map_congr_left fun key _ => ?_
  rw [Function.comp_apply, Function.comp_apply, getD_groupAll, getD_groupAll, List.filter_map,
    List.map_map, List.map_map]
  simp only [Function.comp_def, hφ.eq_iff]

/-! ### Positions -/

variable (key : ℕ → K)

/-- The positions whose key has not come before. -/
def firsts (n : ℕ) : List ℕ := (List.range n).filter fun i => decide (∀ j < i, key j ≠ key i)

/-- The positions with the key of a position. -/
def classOf (n i : ℕ) : List ℕ := (List.range n).filter fun j => decide (key j = key i)

/-- The groups with two positions or more. -/
def groupsOf (n : ℕ) : List (List ℕ) :=
  ((firsts key n).map (classOf key n)).filter fun g => decide (1 < g.length)

variable {key}

theorem mem_firsts {n i : ℕ} : i ∈ firsts key n ↔ i < n ∧ ∀ j < i, key j ≠ key i := by
  rw [firsts, List.mem_filter, List.mem_range, decide_eq_true_eq]

@[simp] theorem mem_classOf {n i j : ℕ} : j ∈ classOf key n i ↔ j < n ∧ key j = key i := by
  rw [classOf, List.mem_filter, List.mem_range, decide_eq_true_eq]

variable (key) in
/-- Every key comes first somewhere. -/
theorem exists_first {n i : ℕ} (hi : i < n) : ∃ j ∈ firsts key n, key j = key i := by
  induction i using Nat.strongRecOn with
  | ind i ih =>
    by_cases h : ∀ j < i, key j ≠ key i
    · exact ⟨i, mem_firsts.mpr ⟨hi, h⟩, rfl⟩
    · push Not at h
      obtain ⟨j, hj, heq⟩ := h
      obtain ⟨k, hk, hkj⟩ := ih j hj (by omega)
      exact ⟨k, hk, hkj.trans heq⟩

/-- A key has come before, or its position is a first one. -/
theorem firsts_succ (n : ℕ) :
    firsts key (n + 1) = if ∃ i < n, key i = key n then firsts key n else firsts key n ++ [n] := by
  rw [firsts, List.range_succ, List.filter_append]
  split
  · next h =>
    obtain ⟨i, hi, heq⟩ := h
    have hnot : ¬ ∀ j < n, key j ≠ key n := fun hall => hall i hi heq
    simp [firsts, hnot]
  · next h =>
    have hall : ∀ j < n, key j ≠ key n := fun j hj heq => h ⟨j, hj, heq⟩
    simpa [firsts] using hall

theorem keys_groupAll_range (x : ℕ → X) (n : ℕ) :
    (groupAll ((List.range n).map fun i => (key i, x i))).keys = (firsts key n).map key := by
  induction n with
  | zero => rfl
  | succ n ih =>
    have hmem : key n ∈ (firsts key n).map key ↔ ∃ i < n, key i = key n := by
      rw [List.mem_map]
      constructor
      · rintro ⟨i, hi, heq⟩
        exact ⟨i, (mem_firsts.mp hi).1, heq⟩
      · rintro ⟨i, hi, heq⟩
        obtain ⟨j, hj, hji⟩ := exists_first key hi
        exact ⟨j, hj, hji.trans heq⟩
    rw [List.range_succ, List.map_append, List.map_singleton, groupAll_append_singleton, keys_push,
      ih, firsts_succ]
    simp only [hmem]
    split
    · rfl
    · rw [List.map_append]
      rfl

/-- The groups are the classes of the first positions. -/
theorem values_groupAll (x : ℕ → X) (n : ℕ) :
    (groupAll ((List.range n).map fun i => (key i, x i))).values =
      (firsts key n).map fun i => (classOf key n i).map x := by
  rw [values_eq, keys_groupAll_range, List.map_map]
  refine List.map_congr_left fun i _ => ?_
  rw [Function.comp_apply, getD_groupAll, List.filter_map, List.map_map]
  rfl

/-- The groups of a list, by the positions of its items. -/
theorem values_groupAll_list (items : List (K × X)) :
    (groupAll items).values.map (List.map some) =
      (firsts (fun i => items[i]?.map Prod.fst) items.length).map fun i =>
        (classOf (fun i => items[i]?.map Prod.fst) items.length i).map fun j =>
          items[j]?.map Prod.snd := by
  have hitems : (items.map fun p => (some p.1, some p.2)) =
      (List.range items.length).map fun i => (items[i]?.map Prod.fst, items[i]?.map Prod.snd) := by
    refine List.ext_getElem (by simp) fun i hi _ => ?_
    rw [List.length_map] at hi
    simp [hi]
  rw [← values_groupAll_map (Option.some_injective K) some, hitems, values_groupAll]

/-! ### Groups -/

omit [DecidableEq K] in
/-- Groups keep their lengths when their items are renamed. -/
theorem map_filter_length {Y : Type*} (f : X → Y) (groups : List (List X)) :
    (groups.filter fun g => decide (1 < g.length)).map (List.map f) =
      (groups.map (List.map f)).filter fun g => decide (1 < g.length) := by
  rw [List.filter_map]
  simp only [Function.comp_def, List.length_map]

/-- The groups of two items or more of a list, by the positions of its items. -/
theorem filter_values_groupAll (items : List (K × X)) :
    ((groupAll items).values.filter fun g => decide (1 < g.length)).map (List.map some) =
      (groupsOf (fun i => items[i]?.map Prod.fst) items.length).map
        (List.map fun i => items[i]?.map Prod.snd) := by
  rw [map_filter_length, values_groupAll_list, groupsOf, map_filter_length, List.map_map]
  rfl

/-- The classes of `R` below `n` that have two elements or more. -/
structure IsGrouping (n : ℕ) (R : ℕ → ℕ → Prop) (groups : List (List ℕ)) : Prop where
  /-- The members of a group are in their order. -/
  ascending : ∀ g ∈ groups, g.Pairwise (· < ·)
  /-- A group has two members or more. -/
  large : ∀ g ∈ groups, 1 < g.length
  /-- A group is a class. -/
  closed : ∀ g ∈ groups, ∀ i ∈ g, ∀ j, j ∈ g ↔ j < n ∧ R i j
  /-- Each class of two elements or more is a group. -/
  complete : ∀ i < n, ∀ j < n, i ≠ j → R i j → ∃ g ∈ groups, i ∈ g
  /-- Nothing is in two groups. -/
  disjoint : groups.Pairwise List.Disjoint
  /-- The groups are in the order of their first members. -/
  ordered : groups.Pairwise fun g h => ∀ i ∈ g.head?, ∀ j ∈ h.head?, i < j

theorem pairwise_range_filter (n : ℕ) (p : ℕ → Bool) :
    ((List.range n).filter p).Pairwise (· < ·) :=
  List.pairwise_lt_range.sublist List.filter_sublist

theorem head?_classOf {n i : ℕ} (hi : i ∈ firsts key n) : (classOf key n i).head? = some i := by
  obtain ⟨hlt, hfirst⟩ := mem_firsts.mp hi
  rw [classOf, List.head?_filter, List.find?_range_eq_some]
  refine ⟨decide_eq_true rfl, List.mem_range.mpr hlt, fun j hj => ?_⟩
  simpa using hfirst j hj

theorem firsts_inj {n i j : ℕ} (hi : i ∈ firsts key n) (hj : j ∈ firsts key n)
    (h : key i = key j) : i = j := by
  rcases Nat.lt_trichotomy i j with hlt | heq | hgt
  · exact absurd h ((mem_firsts.mp hj).2 i hlt)
  · exact heq
  · exact absurd h.symm ((mem_firsts.mp hi).2 j hgt)

/-- The classes of two first positions have no position in common. -/
theorem disjoint_classes (n : ℕ) : ((firsts key n).map (classOf key n)).Pairwise List.Disjoint := by
  refine List.pairwise_map.mpr ?_
  have hfirsts := pairwise_range_filter n fun i => decide (∀ j < i, key j ≠ key i)
  refine List.Pairwise.imp_of_mem (fun {i j} hi hj hlt => ?_) hfirsts
  intro k hki hkj
  have heq := (mem_classOf.mp hki).2.symm.trans (mem_classOf.mp hkj).2
  exact (Nat.ne_of_lt hlt) (firsts_inj hi hj heq)

theorem mem_groupsOf {n : ℕ} {g : List ℕ} :
    g ∈ groupsOf key n ↔ (∃ i ∈ firsts key n, classOf key n i = g) ∧ 1 < g.length := by
  rw [groupsOf, List.mem_filter, List.mem_map, decide_eq_true_eq]

theorem isGrouping_groupsOf {n : ℕ} {R : ℕ → ℕ → Prop}
    (h : ∀ i < n, ∀ j < n, R i j ↔ key i = key j) : IsGrouping n R (groupsOf key n) where
  ascending g hg := by
    obtain ⟨⟨i, -, rfl⟩, -⟩ := mem_groupsOf.mp hg
    exact pairwise_range_filter n _
  large g hg := (mem_groupsOf.mp hg).2
  closed g hg i hi j := by
    obtain ⟨⟨k, -, rfl⟩, -⟩ := mem_groupsOf.mp hg
    obtain ⟨hin, hik⟩ := mem_classOf.mp hi
    rw [mem_classOf]
    constructor
    · rintro ⟨hj, hjk⟩
      exact ⟨hj, (h i hin j hj).mpr (hik.trans hjk.symm)⟩
    · rintro ⟨hj, hij⟩
      exact ⟨hj, ((h i hin j hj).mp hij).symm.trans hik⟩
  complete i hi j hj hne hij := by
    obtain ⟨k, hk, hki⟩ := exists_first key hi
    have hik : i ∈ classOf key n k := mem_classOf.mpr ⟨hi, hki.symm⟩
    have hjk : j ∈ classOf key n k :=
      mem_classOf.mpr ⟨hj, ((h i hi j hj).mp hij).symm.trans hki.symm⟩
    have hlen : 1 < (classOf key n k).length := by
      have hsub : [i, j] ⊆ classOf key n k := by simp [hik, hjk]
      have hnodup := List.nodup_cons.mpr ⟨by simpa using hne, List.nodup_singleton j⟩
      exact (hnodup.subperm hsub).length_le
    exact ⟨_, mem_groupsOf.mpr ⟨⟨k, hk, rfl⟩, hlen⟩, hik⟩
  disjoint := (disjoint_classes n).filter _
  ordered := by
    refine List.Pairwise.filter _ (List.pairwise_map.mpr ?_)
    have hfirsts := pairwise_range_filter n fun i => decide (∀ j < i, key j ≠ key i)
    refine List.Pairwise.imp_of_mem (fun {i j} hi hj hlt => ?_) hfirsts
    intro k hk l hl
    rw [head?_classOf hi] at hk
    rw [head?_classOf hj] at hl
    obtain rfl := Option.mem_some.mp hk
    obtain rfl := Option.mem_some.mp hl
    exact hlt

/-- Positions that change places stay in the same groups. -/
theorem IsGrouping.transport {n n' : ℕ} {R R' : ℕ → ℕ → Prop} {groups groups' : List (List ℕ)}
    (hg : IsGrouping n R groups) (hg' : IsGrouping n' R' groups') (σ : Equiv.Perm ℕ)
    (hn : ∀ i, σ i < n' ↔ i < n) (hR : ∀ i j, R' (σ i) (σ j) ↔ R i j)
    {g : List ℕ} (h : g ∈ groups) : ∃ g' ∈ groups', ∀ i, i ∈ g ↔ σ i ∈ g' := by
  have hlarge := hg.large g h
  obtain _ | ⟨i, _ | ⟨j, rest⟩⟩ := g
  · exact absurd hlarge (Nat.not_lt_zero 1)
  · exact absurd hlarge (Nat.lt_irrefl 1)
  have hlt := List.rel_of_pairwise_cons (hg.ascending _ h) List.mem_cons_self
  have hclosed := hg.closed _ h i List.mem_cons_self
  obtain ⟨hin, -⟩ := (hclosed i).mp List.mem_cons_self
  obtain ⟨hjn, hij⟩ := (hclosed j).mp (List.mem_cons_of_mem _ List.mem_cons_self)
  obtain ⟨g', hmem, hi⟩ := hg'.complete (σ i) ((hn i).mpr hin) (σ j) ((hn j).mpr hjn)
    (fun heq => (Nat.ne_of_lt hlt) (σ.injective heq)) ((hR i j).mpr hij)
  refine ⟨g', hmem, fun k => ?_⟩
  rw [hclosed k, hg'.closed g' hmem (σ i) hi (σ k), hn]
  constructor
  · rintro ⟨hk, hik⟩
    exact ⟨hk, (hR i k).mpr hik⟩
  · rintro ⟨hk, hik⟩
    exact ⟨hk, (hR i k).mp hik⟩

/-! ### The number of repetitions -/

/-- `sum(len(g) - 1 for g in groups)`. -/
def excess (groups : List (List X)) : ℕ :=
  groups.foldr (fun g total => (g.length - 1) + total) 0

omit [DecidableEq K] in
theorem excess_cons (g : List X) (groups : List (List X)) :
    excess (g :: groups) = (g.length - 1) + excess groups := rfl

omit [DecidableEq K] in
theorem excess_map {Y : Type*} (f : List X → List Y) (h : ∀ g, (f g).length = g.length)
    (groups : List (List X)) : excess (groups.map f) = excess groups := by
  induction groups with
  | nil => rfl
  | cons g groups ih => rw [List.map_cons, excess_cons, excess_cons, h, ih]

omit [DecidableEq K] in
theorem excess_filter (groups : List (List X)) :
    excess (groups.filter fun g => decide (1 < g.length)) = excess groups := by
  induction groups with
  | nil => rfl
  | cons g groups ih =>
    by_cases hg : 1 < g.length
    · rw [List.filter_cons_of_pos (by simpa using hg), excess_cons, excess_cons, ih]
    · rw [List.filter_cons_of_neg (by simpa using hg), excess_cons, ih]
      omega

omit [DecidableEq K] in
theorem excess_add_length {groups : List (List X)} (h : ∀ g ∈ groups, g ≠ []) :
    excess groups + groups.length = groups.flatten.length := by
  induction groups with
  | nil => rfl
  | cons g groups ih =>
    obtain ⟨hg, hgroups⟩ := List.forall_mem_cons.mp h
    have hpos := List.length_pos_of_ne_nil hg
    have ih := ih hgroups
    rw [excess_cons, List.length_cons, List.flatten_cons, List.length_append]
    omega

/-- The classes of the first positions have every position once. -/
theorem perm_flatten_classes (n : ℕ) :
    ((firsts key n).map (classOf key n)).flatten.Perm (List.range n) := by
  rw [List.perm_ext_iff_of_nodup ?_ List.nodup_range]
  · intro i
    rw [List.mem_flatten, List.mem_range]
    constructor
    · rintro ⟨_, hg, hi⟩
      obtain ⟨j, -, rfl⟩ := List.mem_map.mp hg
      exact (mem_classOf.mp hi).1
    · intro hi
      obtain ⟨j, hj, hji⟩ := exists_first key hi
      exact ⟨_, List.mem_map_of_mem hj, mem_classOf.mpr ⟨hi, hji.symm⟩⟩
  · refine List.nodup_flatten.mpr ⟨fun g hg => ?_, disjoint_classes n⟩
    obtain ⟨i, -, rfl⟩ := List.mem_map.mp hg
    exact List.nodup_range.filter _

variable (key) in
/-- The members of the groups, less one for each, are the positions that are no first ones. -/
theorem excess_groupsOf (n : ℕ) : excess (groupsOf key n) + (firsts key n).length = n := by
  have hne : ∀ g ∈ (firsts key n).map (classOf key n), g ≠ [] := by
    intro g hg
    obtain ⟨i, hi, rfl⟩ := List.mem_map.mp hg
    have hmem : i ∈ classOf key n i := mem_classOf.mpr ⟨(mem_firsts.mp hi).1, rfl⟩
    exact List.ne_nil_of_mem hmem
  have hlen := excess_add_length hne
  rw [(perm_flatten_classes n).length_eq, List.length_range, List.length_map] at hlen
  rw [groupsOf, excess_filter]
  exact hlen

/-! ### Taking the groups apart -/

theorem perm_flatMap_filter {keys : List K} (hnd : keys.Nodup) {items : List (K × X)}
    (h : ∀ p ∈ items, p.1 ∈ keys) :
    (keys.flatMap fun key => items.filter fun p => decide (p.1 = key)).Perm items := by
  induction keys generalizing items with
  | nil =>
    have hnil : items = [] := List.eq_nil_iff_forall_not_mem.mpr fun p hp =>
      absurd (h p hp) List.not_mem_nil
    rw [hnil]
    exact List.Perm.refl _
  | cons key keys ih =>
    obtain ⟨hkey, hkeys⟩ := List.nodup_cons.mp hnd
    -- the other keys find the same among the items without `key`
    have hothers : ∀ p ∈ items.filter fun p => !decide (p.1 = key), p.1 ∈ keys := fun p hp => by
      obtain ⟨hp, hne⟩ := List.mem_filter.mp hp
      exact (List.mem_cons.mp (h p hp)).resolve_left (by simpa using hne)
    have hrest := ih hkeys hothers
    have hsame : (keys.flatMap fun k => items.filter fun p => decide (p.1 = k)) =
        keys.flatMap fun k => (items.filter fun p => !decide (p.1 = key)).filter fun p =>
          decide (p.1 = k) := by
      rw [List.flatMap_def, List.flatMap_def]
      refine congrArg List.flatten (List.map_congr_left fun k hk => ?_)
      rw [List.filter_filter]
      refine List.filter_congr fun p _ => ?_
      by_cases hp : p.1 = k
      · have hne : k ≠ key := fun hkk => hkey (hkk ▸ hk)
        simp [hp, hne]
      · simp [hp]
    rw [List.flatMap_cons, hsame]
    exact (hrest.append_left _).trans (List.filter_append_perm _ items)

/-- The items of a group, under its key. -/
theorem map_group {items : List (K × X)} {g : K × List X} (h : g ∈ (groupAll items).entries) :
    g.2.map (g.1, ·) = items.filter fun p => decide (p.1 = g.1) := by
  have hgroup := getD_groupAll items g.1
  rw [Dict.get?_of_mem h, Option.getD_some] at hgroup
  rw [hgroup, List.map_map]
  refine (List.map_congr_left fun p hp => ?_).trans (List.map_id _)
  rw [Function.comp_apply, ← of_decide_eq_true (List.mem_filter.mp hp).2, id]

theorem mem_keys_groupAll {items : List (K × X)} {key : K} :
    key ∈ (groupAll items).keys ↔ key ∈ items.map Prod.fst := by
  induction items using List.reverseRecOn with
  | nil => exact Iff.rfl
  | append_singleton items p ih =>
    rw [groupAll_append_singleton, keys_push, List.map_append, List.mem_append, ← ih]
    split
    · next hp =>
      refine ⟨.inl, fun hkey => hkey.elim id fun hkey => ?_⟩
      rwa [List.eq_of_mem_singleton hkey]
    · exact List.mem_append

/-- **Taking the groups apart** gives the items back. -/
theorem perm_ungroup (items : List (K × X)) :
    ((groupAll items).entries.flatMap fun g => g.2.map (g.1, ·)).Perm items := by
  have hgroups : ((groupAll items).entries.flatMap fun g => g.2.map (g.1, ·)) =
      (groupAll items).keys.flatMap fun key => items.filter fun p => decide (p.1 = key) := by
    rw [List.flatMap_def, List.flatMap_def, Dict.keys, List.map_map]
    exact congrArg List.flatten (List.map_congr_left fun g hg => map_group hg)
  rw [hgroups]
  exact perm_flatMap_filter (groupAll items).nodup fun p hp =>
    mem_keys_groupAll.mpr (List.mem_map_of_mem hp)

/-- A sum over the groups, each counted with its items, is the sum over the items. -/
theorem sum_groups (f : K → ℕ) (items : List (K × X)) :
    ((groupAll items).entries.map fun g => f g.1 * g.2.length).sum =
      (items.map fun p => f p.1).sum := by
  rw [← ((perm_ungroup items).map fun p => f p.1).sum_nat, List.map_flatMap, List.flatMap_def,
    List.sum_flatten, List.map_map]
  refine congrArg List.sum (List.map_congr_left fun g _ => ?_)
  simp [Function.comp_def, Nat.mul_comm]

end Grouping
