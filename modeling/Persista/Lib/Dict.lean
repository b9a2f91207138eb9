import Mathlib.Data.List.Nodup
import Mathlib.Data.List.Perm.Subperm
import Mathlib.Data.List.Sort
import Mathlib.Tactic.Common

/-!
# Insertion-ordered dictionaries

A `Dict K V` is a list of key/value pairs with pairwise distinct keys, in insertion order: writing
a key that is present replaces its value in place, writing a new key appends it. Key distinctness
is a field, so a dictionary that holds a key twice cannot be built and no lemma below carries it
as a hypothesis.

## Reading and writing

Everything a client can observe through a key is `Dict.get?`. Each operation comes with one lemma
that says what `get?` returns afterwards (`get?_set`, `get?_erase`, `get?_update`, ...), and the
proofs of the users go through those lemmas only. The order of `entries` matters to iteration
alone.

## Main results

* `Dict.get?_set`, `Dict.get?_erase` — read after write, and the frame
* `Dict.get?_update` — an update is right-biased
* `Dict.sortedEntries_eq_iff` — sorted by their keys, dictionaries that read the same are the same
* `Dict.length_eq_of_mem_keys_iff` — two dictionaries with the same keys have the same length
-/

/-- Membership in a list of keys. -/
instance decidableMemKeys {K : Type*} [DecidableEq K] (k : K) (keys : List K) :
    Decidable (k ∈ keys) :=
  List.instDecidableMemOfLawfulBEq k keys

/-- A list of optional results, collected: all of them are there. -/
theorem mapM_cons_eq_some {X Y : Type*} {f : X → Option Y} {x : X} {l : List X} {out : List Y} :
    (x :: l).mapM f = some out ↔ ∃ y ys, f x = some y ∧ l.mapM f = some ys ∧ y :: ys = out := by
  rw [List.mapM_cons]
  constructor
  · intro h
    obtain ⟨y, hy, h⟩ := Option.bind_eq_some_iff.mp h
    obtain ⟨ys, hys, h⟩ := Option.bind_eq_some_iff.mp h
    exact ⟨y, ys, hy, hys, Option.some.inj h⟩
  · rintro ⟨y, ys, hy, hys, rfl⟩
    rw [hy, hys]
    rfl

theorem mapM_eq_some_iff {X Y : Type*} {f : X → Option Y} {l : List X} {out : List Y} :
    l.mapM f = some out ↔ l.map f = out.map some := by
  induction l generalizing out with
  | nil =>
    rw [List.mapM_nil, List.map_nil]
    constructor
    · intro h
      rw [← Option.some.inj h, List.map_nil]
    · intro h
      rw [List.map_eq_nil_iff.mp h.symm]
      rfl
  | cons x l ih =>
    rw [mapM_cons_eq_some]
    constructor
    · rintro ⟨y, ys, hy, hys, rfl⟩
      rw [List.map_cons, List.map_cons, hy, ih.mp hys]
    · intro h
      obtain ⟨y, ys, hout, hy, hys⟩ := List.map_eq_cons_iff.mp h.symm
      exact ⟨y, ys, hy.symm, ih.mpr hys.symm, hout.symm⟩

theorem isSome_mapM {X Y : Type*} {f : X → Option Y} {l : List X} :
    (l.mapM f).isSome ↔ ∀ x ∈ l, (f x).isSome := by
  induction l with
  | nil => simp
  | cons x l ih =>
    rw [List.mapM_cons, List.forall_mem_cons, ← ih]
    cases f x with
    | none => simp
    | some y => cases l.mapM f <;> simp

/-- Results that are tagged with what they are of keep the order of it. -/
theorem map_fst_of_mapM {X Y K : Type*} {f : X → Option Y} {g : X → K} {l : List X}
    {out : List (K × Y)} (h : l.mapM (fun x => (f x).map (g x, ·)) = some out) :
    out.map Prod.fst = l.map g := by
  induction l generalizing out with
  | nil =>
    rw [← Option.some.inj h]
    rfl
  | cons x l ih =>
    obtain ⟨y, ys, hy, hys, rfl⟩ := mapM_cons_eq_some.mp h
    obtain ⟨w, -, rfl⟩ := Option.map_eq_some_iff.mp hy
    rw [List.map_cons, List.map_cons, ih hys]

/-- What is in a list of optional results that are all there. -/
theorem mem_mapM_iff {X Y : Type*} {f : X → Option Y} {l : List X} {out : List Y}
    (h : l.mapM f = some out) {y : Y} : y ∈ out ↔ ∃ x ∈ l, f x = some y := by
  have hmap := mapM_eq_some_iff.mp h
  rw [← List.mem_map, hmap, List.mem_map]
  simp

/-- A dictionary: pairs in insertion order, no key twice. -/
structure Dict (K V : Type*) where
  /-- The pairs, oldest key first. -/
  entries : List (K × V)
  /-- No key occurs twice. -/
  nodup : (entries.map Prod.fst).Nodup

namespace Dict

variable {K V W : Type*}

@[ext] theorem ext {d e : Dict K V} (h : d.entries = e.entries) : d = e := by
  cases d; cases e; cases h; rfl

/-- The keys, oldest first. -/
def keys (d : Dict K V) : List K := d.entries.map Prod.fst

/-- The values, in the order of their keys. -/
def values (d : Dict K V) : List V := d.entries.map Prod.snd

/-- The number of keys. -/
def length (d : Dict K V) : ℕ := d.entries.length

/-- The dictionary with no key. -/
def empty : Dict K V := ⟨[], List.nodup_nil⟩

instance : EmptyCollection (Dict K V) := ⟨empty⟩

instance : Inhabited (Dict K V) := ⟨empty⟩

@[simp] theorem entries_empty : (∅ : Dict K V).entries = [] := rfl

@[simp] theorem keys_empty : (∅ : Dict K V).keys = [] := rfl

theorem length_keys (d : Dict K V) : d.keys.length = d.length := List.length_map _

instance [DecidableEq K] [DecidableEq V] : DecidableEq (Dict K V) := fun d e =>
  decidable_of_iff (d.entries = e.entries) Dict.ext_iff.symm

variable [DecidableEq K]

/-- The value stored under `k`. -/
def get? (d : Dict K V) (k : K) : Option V := d.entries.lookup k

@[simp] theorem get?_empty (k : K) : (∅ : Dict K V).get? k = none := rfl

/-- `d == e`: the same keys with the same values, in whatever order they were inserted. -/
def Same (d e : Dict K V) : Prop := ∀ k, d.get? k = e.get? k

/-! ### Reading through the list of pairs -/

theorem lookup_cons_ite (k : K) (v : V) (l : List (K × V)) (j : K) :
    ((k, v) :: l).lookup j = if j = k then some v else l.lookup j := by
  by_cases h : j = k
  · subst h; simp
  · rw [List.lookup_cons, beq_false_of_ne h, if_neg h]

theorem lookup_eq_none_of_not_mem {l : List (K × V)} {j : K} (h : j ∉ l.map Prod.fst) :
    l.lookup j = none := by
  rw [List.lookup_eq_none_iff]
  intro p hp
  have hne : j ≠ p.1 := fun hj => h (hj ▸ List.mem_map_of_mem hp)
  simpa using hne

theorem lookup_eq_some_of_mem {l : List (K × V)} (hnd : (l.map Prod.fst).Nodup) {k : K} {v : V}
    (hmem : (k, v) ∈ l) : l.lookup k = some v := by
  induction l with
  | nil => cases hmem
  | cons p l ih =>
    obtain ⟨k', v'⟩ := p
    simp only [List.map_cons, List.nodup_cons] at hnd
    rw [lookup_cons_ite]
    rcases List.mem_cons.mp hmem with heq | hl
    · obtain ⟨rfl, rfl⟩ := Prod.mk.inj heq
      rw [if_pos rfl]
    · have hne : k ≠ k' := fun h => hnd.1 (h ▸ List.mem_map_of_mem hl)
      rw [if_neg hne]
      exact ih hnd.2 hl

theorem get?_eq_some_iff {d : Dict K V} {k : K} {v : V} :
    d.get? k = some v ↔ (k, v) ∈ d.entries := by
  refine ⟨fun h => ?_, fun h => lookup_eq_some_of_mem d.nodup h⟩
  obtain ⟨l₁, l₂, heq, -⟩ := List.lookup_eq_some_iff.mp h
  rw [heq]
  simp

theorem get?_eq_none_iff {d : Dict K V} {k : K} : d.get? k = none ↔ k ∉ d.keys := by
  rw [get?, List.lookup_eq_none_iff, keys, List.mem_map]
  constructor
  · rintro h ⟨p, hp, rfl⟩
    simpa using h p hp
  · intro h p hp
    have : p.1 ≠ k := fun hk => h ⟨p, hp, hk⟩
    simpa using fun hk : k = p.1 => this hk.symm

theorem isSome_get?_iff {d : Dict K V} {k : K} : (d.get? k).isSome ↔ k ∈ d.keys := by
  rw [← not_iff_not, Option.not_isSome_iff_eq_none, get?_eq_none_iff]

omit [DecidableEq K] in
theorem mem_keys_of_mem {d : Dict K V} {p : K × V} (h : p ∈ d.entries) : p.1 ∈ d.keys :=
  List.mem_map_of_mem h

/-- The pairs agree with `get?`. -/
theorem get?_of_mem {d : Dict K V} {p : K × V} (h : p ∈ d.entries) : d.get? p.1 = some p.2 :=
  get?_eq_some_iff.mpr h

theorem filterMap_entries (d : Dict K V) (k : K) :
    (d.entries.filterMap fun p => if p.1 = k then some p.2 else none) = (d.get? k).toList := by
  obtain ⟨entries, hnodup⟩ := d
  show entries.filterMap _ = (entries.lookup k).toList
  induction entries with
  | nil => rfl
  | cons p entries ih =>
    obtain ⟨hp, hnodup'⟩ := List.nodup_cons.mp hnodup
    rw [List.filterMap_cons, lookup_cons_ite]
    by_cases h : p.1 = k
    · -- the key comes only once
      subst h
      have hrest := ih hnodup'
      rw [lookup_eq_none_of_not_mem hp] at hrest
      simp only [if_true, hrest]
      rfl
    · have h' : ¬ k = p.1 := fun heq => h heq.symm
      simp only [h, h', if_false]
      exact ih hnodup'

omit [DecidableEq K] in
/-- Two dictionaries with the same keys have the same number of them. -/
theorem length_eq_of_mem_keys_iff {d : Dict K V} {e : Dict K W}
    (h : ∀ k, k ∈ d.keys ↔ k ∈ e.keys) : d.length = e.length := by
  rw [← length_keys, ← length_keys]
  exact ((List.perm_ext_iff_of_nodup d.nodup e.nodup).mpr h).length_eq

/-! ### Writing one key -/

/-- Write `k` in a list of pairs: in place when it is there, at the end when it is not. -/
def setList (k : K) (v : V) : List (K × V) → List (K × V)
  | [] => [(k, v)]
  | p :: l => if p.1 = k then (k, v) :: l else p :: setList k v l

theorem map_fst_setList (k : K) (v : V) (l : List (K × V)) :
    (setList k v l).map Prod.fst =
      if k ∈ l.map Prod.fst then l.map Prod.fst else l.map Prod.fst ++ [k] := by
  induction l with
  | nil => simp [setList]
  | cons p l ih =>
    by_cases hp : p.1 = k
    · simp [setList, hp]
    · have hk : ¬ k = p.1 := fun h => hp h.symm
      simp only [setList, if_neg hp, List.map_cons, ih, List.mem_cons, hk, false_or]
      split <;> simp

theorem lookup_setList (k : K) (v : V) (l : List (K × V)) (j : K) :
    (setList k v l).lookup j = if j = k then some v else l.lookup j := by
  induction l with
  | nil => exact lookup_cons_ite k v [] j
  | cons p l ih =>
    obtain ⟨k', v'⟩ := p
    by_cases hp : k' = k
    · subst hp
      simp only [setList, if_true, lookup_cons_ite]
      split <;> rfl
    · simp only [setList, if_neg hp, lookup_cons_ite, ih]
      by_cases hj : j = k'
      · have : j ≠ k := fun h => hp (hj.symm.trans h)
        rw [if_pos hj, if_neg this, if_pos hj]
      · rw [if_neg hj, if_neg hj]

/-- `d[k] = v`. -/
def set (d : Dict K V) (k : K) (v : V) : Dict K V where
  entries := setList k v d.entries
  nodup := by
    rw [map_fst_setList]
    split
    · exact d.nodup
    · next h =>
      rw [List.nodup_append]
      refine ⟨d.nodup, List.nodup_singleton k, ?_⟩
      rintro a ha b hb rfl
      exact h (List.mem_singleton.mp hb ▸ ha)

@[simp] theorem get?_set (d : Dict K V) (k : K) (v : V) (j : K) :
    (d.set k v).get? j = if j = k then some v else d.get? j :=
  lookup_setList k v d.entries j

theorem entries_set_of_not_mem {d : Dict K V} {k : K} {v : V} (h : k ∉ d.keys) :
    (d.set k v).entries = d.entries ++ [(k, v)] := by
  have aux : ∀ l : List (K × V), k ∉ l.map Prod.fst → setList k v l = l ++ [(k, v)] := by
    intro l hl
    induction l with
    | nil => rfl
    | cons p l ih =>
      rw [List.map_cons, List.mem_cons, not_or] at hl
      rw [setList, if_neg (Ne.symm hl.1), ih hl.2, List.cons_append]
  exact aux d.entries h

/-! ### Removing keys -/

/-- Keep the pairs whose key satisfies `p`. -/
def filterKeys (d : Dict K V) (p : K → Bool) : Dict K V where
  entries := d.entries.filter fun kv => p kv.1
  nodup := d.nodup.sublist (List.filter_sublist.map _)

@[simp] theorem get?_filterKeys (d : Dict K V) (p : K → Bool) (j : K) :
    (d.filterKeys p).get? j = if p j then d.get? j else none := by
  cases h : (d.filterKeys p).get? j with
  | some v =>
    have hmem := get?_eq_some_iff.mp h
    obtain ⟨hmem, hp⟩ := List.mem_filter.mp hmem
    rw [if_pos hp, get?_of_mem hmem]
  | none =>
    rw [get?_eq_none_iff, keys, filterKeys] at h
    split
    · next hp =>
      cases hd : d.get? j with
      | none => rfl
      | some v =>
        refine absurd ?_ h
        exact List.mem_map.mpr ⟨(j, v), List.mem_filter.mpr ⟨get?_eq_some_iff.mp hd, hp⟩, rfl⟩
    · rfl

theorem mem_keys_filterKeys {d : Dict K V} {p : K → Bool} {j : K} :
    j ∈ (d.filterKeys p).keys ↔ j ∈ d.keys ∧ p j := by
  rw [← isSome_get?_iff, get?_filterKeys, ← isSome_get?_iff]
  by_cases h : p j <;> simp [h]

omit [DecidableEq K] in
theorem filterKeys_congr {d : Dict K V} {p q : K → Bool} (h : ∀ k ∈ d.keys, p k = q k) :
    d.filterKeys p = d.filterKeys q :=
  Dict.ext (List.filter_congr fun _ hkv => h _ (mem_keys_of_mem hkv))

omit [DecidableEq K] in
theorem filterKeys_filterKeys (d : Dict K V) (p q : K → Bool) :
    (d.filterKeys p).filterKeys q = d.filterKeys fun k => p k && q k := by
  apply Dict.ext
  show (d.entries.filter _).filter _ = _
  rw [List.filter_filter]
  exact List.filter_congr fun _ _ => Bool.and_comm _ _

omit [DecidableEq K] in
theorem filterKeys_eq_self {d : Dict K V} {p : K → Bool} (h : ∀ k ∈ d.keys, p k = true) :
    d.filterKeys p = d :=
  Dict.ext (List.filter_eq_self.mpr fun _ hkv => h _ (mem_keys_of_mem hkv))

/-- `d.pop(k, None)`. -/
def erase (d : Dict K V) (k : K) : Dict K V := d.filterKeys fun j => decide (j ≠ k)

@[simp] theorem get?_erase (d : Dict K V) (k j : K) :
    (d.erase k).get? j = if j = k then none else d.get? j := by
  by_cases h : j = k <;> simp [erase, h]

theorem foldl_erase (d : Dict K V) (keys : List K) :
    keys.foldl erase d = d.filterKeys fun j => decide (j ∉ keys) := by
  induction keys generalizing d with
  | nil => exact (filterKeys_eq_self fun _ _ => by simp).symm
  | cons k keys ih =>
    rw [List.foldl_cons, ih, erase, filterKeys_filterKeys]
    refine filterKeys_congr fun j _ => ?_
    by_cases hj : j = k <;> simp [hj]

/-! ### Writing several keys -/

/-- Write a list of pairs one by one, from left to right. -/
def setAll (d : Dict K V) (l : List (K × V)) : Dict K V := l.foldl (fun d p => d.set p.1 p.2) d

@[simp] theorem setAll_nil (d : Dict K V) : d.setAll [] = d := rfl

@[simp] theorem setAll_cons (d : Dict K V) (p : K × V) (l : List (K × V)) :
    d.setAll (p :: l) = (d.set p.1 p.2).setAll l := rfl

/-- With distinct keys the order of the writes does not matter: each key gets its own value. -/
theorem get?_setAll {d : Dict K V} {l : List (K × V)} (hl : (l.map Prod.fst).Nodup) (j : K) :
    (d.setAll l).get? j = (l.lookup j).or (d.get? j) := by
  induction l generalizing d with
  | nil => rfl
  | cons p l ih =>
    obtain ⟨k, v⟩ := p
    simp only [List.map_cons, List.nodup_cons] at hl
    rw [setAll_cons, ih hl.2, get?_set, lookup_cons_ite]
    by_cases h : j = k
    · subst h
      simp [lookup_eq_none_of_not_mem hl.1]
    · simp [h]

/-- `{**d, **e}`: every pair of `e` written over `d`. -/
def update (d e : Dict K V) : Dict K V := d.setAll e.entries

/-- **An update is right-biased.** -/
@[simp] theorem get?_update (d e : Dict K V) (j : K) :
    (d.update e).get? j = (e.get? j).or (d.get? j) :=
  get?_setAll e.nodup j

/-- `dict(pairs)`: later pairs win. -/
def ofList (l : List (K × V)) : Dict K V := (∅ : Dict K V).setAll l

/-- Pairs with distinct keys are kept as they are. -/
theorem entries_ofList {l : List (K × V)} (hl : (l.map Prod.fst).Nodup) :
    (ofList l).entries = l := by
  have aux : ∀ (l : List (K × V)) (d : Dict K V), (d.keys ++ l.map Prod.fst).Nodup →
      (d.setAll l).entries = d.entries ++ l := by
    intro l
    induction l with
    | nil => simp
    | cons p l ih =>
      intro d hnd
      rw [List.map_cons, List.nodup_middle, List.nodup_cons, List.mem_append, not_or] at hnd
      have hset := entries_set_of_not_mem (v := p.2) hnd.1.1
      rw [setAll_cons, ih, hset, List.append_assoc]
      · rfl
      · rw [keys, hset, List.map_append, List.append_assoc, List.map_singleton,
          List.singleton_append, List.nodup_middle, List.nodup_cons, List.mem_append, not_or]
        exact hnd
  exact aux l ∅ hl

/-- A dictionary built by a partial function of its keys, in any order and with any repetition. -/
theorem get?_setAll_filterMap (f : K → Option V) (keys : List K) (d : Dict K V) (j : K) :
    (d.setAll (keys.filterMap fun k => (f k).map (k, ·))).get? j =
      if j ∈ keys then (f j).or (d.get? j) else d.get? j := by
  induction keys generalizing d with
  | nil => rfl
  | cons k keys ih =>
    cases hf : f k with
    | none =>
      rw [List.filterMap_cons_none (by simp [hf]), ih]
      by_cases hj : j = k
      · subst hj
        simp [hf]
      · simp [hj]
    | some v =>
      rw [List.filterMap_cons_some (by simp [hf]; rfl), setAll_cons, ih, get?_set]
      by_cases hj : j = k
      · subst hj
        simp [hf]
      · simp [hj]

theorem get?_ofList_filterMap (f : K → Option V) (keys : List K) (j : K) :
    (ofList (keys.filterMap fun k => (f k).map (k, ·))).get? j =
      if j ∈ keys then f j else none := by
  rw [ofList, get?_setAll_filterMap]
  simp

/-- A dictionary built from another one, entry by entry. -/
theorem get?_ofList_mapM {d : Dict K V} {f : K × V → Option W} {entries : List (K × W)}
    (h : d.entries.mapM (fun p => (f p).map (p.1, ·)) = some entries) (k : K) :
    (ofList entries).get? k = (d.get? k).bind fun v => f (k, v) := by
  have hmap := mapM_eq_some_iff.mp h
  have hfst : entries.map Prod.fst = d.keys := map_fst_of_mapM h
  have hentries : (ofList entries).entries = entries := entries_ofList (hfst ▸ d.nodup)
  cases hget : d.get? k with
  | none =>
    rw [Option.bind_none, get?_eq_none_iff, keys, hentries, hfst]
    exact get?_eq_none_iff.mp hget
  | some v =>
    have hmem : (f (k, v)).map (k, ·) ∈ entries.map some :=
      hmap ▸ List.mem_map_of_mem (get?_eq_some_iff.mp hget)
    obtain ⟨q, hq, heq⟩ := List.mem_map.mp hmem
    obtain ⟨w, hw, rfl⟩ := Option.map_eq_some_iff.mp heq.symm
    rw [Option.bind_some, hw, get?_eq_some_iff, hentries]
    exact hq

/-- Apply `f` to every value. -/
def mapValues (d : Dict K V) (f : V → W) : Dict K W where
  entries := d.entries.map fun p => (p.1, f p.2)
  nodup := by simpa [List.map_map, Function.comp_def] using d.nodup

omit [DecidableEq K] in
@[simp] theorem keys_mapValues (d : Dict K V) (f : V → W) : (d.mapValues f).keys = d.keys := by
  simp [keys, mapValues]

@[simp] theorem get?_mapValues (d : Dict K V) (f : V → W) (j : K) :
    (d.mapValues f).get? j = (d.get? j).map f := by
  have aux : ∀ l : List (K × V),
      (l.map fun p => (p.1, f p.2)).lookup j = (l.lookup j).map f := by
    intro l
    induction l with
    | nil => rfl
    | cons p l ih =>
      rw [List.map_cons, lookup_cons_ite, lookup_cons_ite, ih]
      split <;> rfl
  exact aux d.entries

/-! ### Keeping pairs -/

/-- Keep the pairs that satisfy `p`. -/
def filterEntries (d : Dict K V) (p : K × V → Bool) : Dict K V where
  entries := d.entries.filter p
  nodup := d.nodup.sublist (List.filter_sublist.map _)

theorem ofList_filter (d : Dict K V) (p : K × V → Bool) :
    ofList (d.entries.filter p) = d.filterEntries p :=
  ext (entries_ofList (d.filterEntries p).nodup)

theorem get?_filterEntries_eq_some {d : Dict K V} {p : K × V → Bool} {k : K} {v : V} :
    (d.filterEntries p).get? k = some v ↔ d.get? k = some v ∧ p (k, v) := by
  rw [get?_eq_some_iff, get?_eq_some_iff]
  exact List.mem_filter

/-! ### Sorting -/

/-- Only the order of the pairs is forgotten. -/
theorem same_of_perm {d e : Dict K V} (h : d.entries.Perm e.entries) : d.Same e := by
  intro k
  ext v
  rw [get?_eq_some_iff, get?_eq_some_iff, h.mem_iff]

theorem perm_of_same {d e : Dict K V} (h : d.Same e) : d.entries.Perm e.entries := by
  have hnodup : ∀ d : Dict K V, d.entries.Nodup := fun d => List.Nodup.of_map _ d.nodup
  rw [List.perm_ext_iff_of_nodup (hnodup d) (hnodup e)]
  rintro ⟨k, v⟩
  rw [← get?_eq_some_iff, ← get?_eq_some_iff, h k]

section Sorted

variable {K : Type*} [LinearOrder K] [DecidableEq K]

/-- The pairs, sorted by their keys. -/
def sortedEntries (d : Dict K V) : List (K × V) :=
  d.entries.insertionSort fun a b => a.1 ≤ b.1

omit [DecidableEq K] in
theorem perm_sortedEntries (d : Dict K V) : d.sortedEntries.Perm d.entries :=
  List.perm_insertionSort _ _

/-- **Sorted by their keys**, two dictionaries have the same pairs if and only if they read the
same. -/
theorem sortedEntries_eq_iff {d e : Dict K V} : d.sortedEntries = e.sortedEntries ↔ d.Same e := by
  constructor
  · intro h
    exact same_of_perm (d.perm_sortedEntries.symm.trans (h ▸ e.perm_sortedEntries))
  · intro h
    have hsorted : ∀ d : Dict K V, d.sortedEntries.Pairwise fun a b => a.1 ≤ b.1 := fun d =>
      List.pairwise_insertionSort (fun a b : K × V => a.1 ≤ b.1) d.entries
    have hperm : d.sortedEntries.Perm e.sortedEntries :=
      d.perm_sortedEntries.trans ((perm_of_same h).trans e.perm_sortedEntries.symm)
    refine hperm.eq_of_pairwise ?_ (hsorted d) (hsorted e)
    -- the same key twice is the same pair
    rintro ⟨k, v⟩ ⟨j, w⟩ hv hw hle hge
    obtain rfl : k = j := le_antisymm hle hge
    have hv' := get?_of_mem (d.perm_sortedEntries.mem_iff.mp hv)
    have hw' := get?_of_mem (e.perm_sortedEntries.mem_iff.mp hw)
    rw [h k, hw'] at hv'
    have hvw : w = v := Option.some.inj hv'
    rw [hvw]

end Sorted

/-! ### Values, and maps over them -/

omit [DecidableEq K] in
theorem mem_values {d : Dict K V} {v : V} : v ∈ d.values ↔ ∃ k, (k, v) ∈ d.entries := by
  rw [values, List.mem_map]
  constructor
  · rintro ⟨p, hp, rfl⟩
    exact ⟨p.1, hp⟩
  · rintro ⟨k, hk⟩
    exact ⟨(k, v), hk, rfl⟩

theorem mem_values_of_get? {d : Dict K V} {k : K} {v : V} (h : d.get? k = some v) :
    v ∈ d.values :=
  mem_values.mpr ⟨k, get?_eq_some_iff.mp h⟩

theorem mem_values_set {d : Dict K V} {k : K} {w v : V} (h : v ∈ (d.set k w).values) :
    v = w ∨ v ∈ d.values := by
  obtain ⟨j, hj⟩ := mem_values.mp h
  have hget := get?_of_mem hj
  rw [get?_set] at hget
  split at hget
  · exact .inl (Option.some.inj hget).symm
  · exact .inr (mem_values_of_get? hget)

theorem mem_values_setAll {d : Dict K V} {l : List (K × V)} {v : V}
    (h : v ∈ (d.setAll l).values) : v ∈ l.map Prod.snd ∨ v ∈ d.values := by
  induction l generalizing d with
  | nil => exact .inr h
  | cons p l ih =>
    rcases ih h with hl | hset
    · exact .inl (List.mem_cons_of_mem _ hl)
    · rcases mem_values_set hset with rfl | hd
      · exact .inl List.mem_cons_self
      · exact .inr hd

theorem mem_values_ofList {l : List (K × V)} {v : V} (h : v ∈ (ofList l).values) :
    v ∈ l.map Prod.snd := by
  rcases mem_values_setAll h with hl | hempty
  · exact hl
  · cases hempty

theorem mem_values_erase {d : Dict K V} {k : K} {v : V} (h : v ∈ (d.erase k).values) :
    v ∈ d.values := by
  obtain ⟨j, hj⟩ := mem_values.mp h
  exact mem_values.mpr ⟨j, (List.mem_filter.mp hj).1⟩

omit [DecidableEq K] in
theorem values_mapValues (d : Dict K V) (f : V → W) : (d.mapValues f).values = d.values.map f := by
  simp [values, mapValues]

omit [DecidableEq K] in
theorem mapValues_congr {d : Dict K V} {f g : V → W} (h : ∀ v ∈ d.values, f v = g v) :
    d.mapValues f = d.mapValues g := by
  apply Dict.ext
  refine List.map_congr_left fun p hp => ?_
  rw [h p.2 (mem_values.mpr ⟨p.1, hp⟩)]

theorem mapValues_set (d : Dict K V) (k : K) (v : V) (f : V → W) :
    (d.set k v).mapValues f = (d.mapValues f).set k (f v) := by
  have aux : ∀ l : List (K × V), (setList k v l).map (fun p => (p.1, f p.2)) =
      setList k (f v) (l.map fun p => (p.1, f p.2)) := by
    intro l
    induction l with
    | nil => rfl
    | cons p l ih =>
      by_cases hp : p.1 = k
      · simp [setList, hp]
      · simp [setList, hp, ih]
  exact Dict.ext (aux d.entries)

theorem mapValues_setAll (d : Dict K V) (l : List (K × V)) (f : V → W) :
    (d.setAll l).mapValues f = (d.mapValues f).setAll (l.map fun p => (p.1, f p.2)) := by
  induction l generalizing d with
  | nil => rfl
  | cons p l ih => rw [setAll_cons, ih, mapValues_set, List.map_cons, setAll_cons]

theorem mapValues_ofList (l : List (K × V)) (f : V → W) :
    (ofList l).mapValues f = ofList (l.map fun p => (p.1, f p.2)) :=
  mapValues_setAll ∅ l f

theorem mapValues_erase (d : Dict K V) (k : K) (f : V → W) :
    (d.erase k).mapValues f = (d.mapValues f).erase k := by
  apply Dict.ext
  simp only [mapValues, erase, filterKeys, List.filter_map]
  rfl

theorem keys_set (d : Dict K V) (k : K) (v : V) :
    (d.set k v).keys = if k ∈ d.keys then d.keys else d.keys ++ [k] :=
  map_fst_setList k v d.entries

theorem keys_setAll {d : Dict K V} {l : List (K × V)} (hl : (l.map Prod.fst).Nodup) :
    (d.setAll l).keys = d.keys ++ (l.map Prod.fst).filter fun k => decide (k ∉ d.keys) := by
  induction l generalizing d with
  | nil => simp
  | cons p l ih =>
    rw [List.map_cons, List.nodup_cons] at hl
    rw [setAll_cons, ih hl.2, keys_set, List.map_cons]
    by_cases hp : p.1 ∈ d.keys
    · rw [if_pos hp, List.filter_cons_of_neg (by simpa using hp)]
    · rw [if_neg hp, List.filter_cons_of_pos (by simpa using hp), List.append_assoc,
        List.singleton_append]
      congr 2
      refine List.filter_congr fun k hk => ?_
      have hne : k ≠ p.1 := fun hkp => hl.1 (hkp ▸ hk)
      simp [hne]

/-- An update keeps the place of the keys it finds, and appends the others in their order. -/
theorem keys_update (d e : Dict K V) :
    (d.update e).keys = d.keys ++ e.keys.filter fun k => decide (k ∉ d.keys) :=
  keys_setAll e.nodup

end Dict
