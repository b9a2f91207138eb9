import Persista.Lib.Refinement
import Persista.Lib.Tally
import Persista.Record.Dedup
import Persista.Record.HyperLogLog
import Persista.Record.Objects

/-!
# `compute_value_frequency`

`record/analysis/value_frequency.py`. Each metadata key has a `Counter` and an estimator. A value
that cannot be hashed is counted under its `str`, and the others under themselves. A value whose
`str` raises ends the loop in any case, for the estimator asks for it as well.

## What is counted together

A `Counter` has one count for the values that are equal: `True`, `1` and `1.0`, and a list with the
string that it has for its `str`. Such values have different forms (`SameForm`), and their counts
should be different entries. The result is right when none of the entries counts values of two forms
(`Merges`), and the entries are known from the values: a key is among the first `top_k` when fewer
keys have larger counts, or the same count and came earlier.

## Main results

* `Analysis.ValueFrequency.topValues_eq` — the entries, from the values of the key
* `Analysis.ValueFrequency.isTopValues_iff` — when they are the counts of the values
-/

namespace Persista

namespace Analysis

open Json

namespace ValueFrequency

/-- The counters and the estimators, by their metadata keys. -/
structure State (V : Type) where
  counters : Dict PyStr (List (V × ℕ))
  estimators : Dict PyStr HyperLogLog

/-- What is reported of a metadata key. -/
structure KeyFrequency (V : Type) where
  topValues : List (V × ℕ)
  distinctCountEstimate : ℤ

section Source

variable {V Ty : Type} (py : Objects V Ty) (hash : List UInt8 → UInt64) (log : ℚ → ℚ)

/-- What a value is counted under. -/
def counterKey (v : V) : V := if py.hashes v then v else py.ofStr (py.text v)

/-- The body of the loop; `none` when the estimator raises. -/
def countItem (hllPrecision : ℕ) (s : State V) (item : PyStr × V) : Option (State V) :=
  let counter := (s.counters.get? item.1).getD []
  let estimator := (s.estimators.get? item.1).getD (.init hllPrecision)
  (estimator.add hash py.str item.2).map fun estimator =>
    { counters := s.counters.set item.1 (Tally.increment py.same counter (counterKey py item.2))
      estimators := s.estimators.set item.1 estimator }

/-- The loops. -/
def countAll (hllPrecision : ℕ) (records : List (Record V)) : Option (State V) :=
  records.foldlM (fun s record => record.metadata.entries.foldlM (countItem py hash hllPrecision) s)
    ⟨∅, ∅⟩

/-- `counter.most_common(n)`. -/
def mostCommon (counter : List (V × ℕ)) : Option ℤ → List (V × ℕ)
  | none => Tally.ranked Prod.snd counter
  | some n => (Tally.ranked Prod.snd counter).take n.toNat

/-- `compute_value_frequency(records, top_k, hll_precision)`. -/
def computeValueFrequency (records : List (Record V)) (topK : Option ℤ) (hllPrecision : ℕ) :
    Option (Dict PyStr (KeyFrequency V)) :=
  (countAll py hash hllPrecision records).bind fun s =>
    (s.counters.entries.mapM fun p =>
      ((s.estimators.get? p.1).map fun estimator : HyperLogLog =>
        (⟨mostCommon p.2 topK, estimator.estimate log⟩ : KeyFrequency V)).map (p.1, ·)).map
          Dict.ofList

end Source

variable {V Ty : Type} (py : Objects V Ty)

/-! ### The loops -/

/-- What the state says after some values of each key. -/
structure Reads (hash : List UInt8 → UInt64) (hllPrecision : ℕ) (seen : PyStr → List V)
    (s : State V) : Prop where
  counter : ∀ key, (s.counters.get? key).getD [] =
    Tally.tally py.same ((seen key).map (counterKey py))
  estimator : ∀ key, (HyperLogLog.init hllPrecision).addAll hash py.str (seen key) =
    some ((s.estimators.get? key).getD (.init hllPrecision))
  keys : s.estimators.keys = s.counters.keys

variable {py} {hash : List UInt8 → UInt64} {hllPrecision : ℕ}

theorem Reads.next {seen : PyStr → List V} {s s' : State V} {item : PyStr × V}
    (h : Reads py hash hllPrecision seen s)
    (hstep : countItem py hash hllPrecision s item = some s') :
    Reads py hash hllPrecision
      (fun key => seen key ++ if item.1 = key then [item.2] else []) s' := by
  obtain ⟨estimator, hadd, rfl⟩ := Option.map_eq_some_iff.mp hstep
  refine ⟨fun key => ?_, fun key => ?_, ?_⟩
  · rw [Dict.get?_set]
    by_cases hkey : key = item.1
    · subst hkey
      rw [if_pos rfl, if_pos rfl, List.map_append, Tally.tally, List.foldl_append, Option.getD_some,
        h.counter item.1]
      rfl
    · rw [if_neg hkey, if_neg fun h => hkey h.symm, List.append_nil]
      exact h.counter key
  · rw [Dict.get?_set]
    by_cases hkey : key = item.1
    · subst hkey
      rw [if_pos rfl, if_pos rfl, HyperLogLog.addAll_append_eq, h.estimator item.1,
        Option.bind_some,
        HyperLogLog.addAll, List.foldlM_cons, hadd]
      rfl
    · rw [if_neg hkey, if_neg fun h => hkey h.symm, List.append_nil]
      exact h.estimator key
  · rw [Dict.keys_set, Dict.keys_set, h.keys]

theorem Reads.nextAll {seen : PyStr → List V} {s s' : State V} {items : List (PyStr × V)}
    (h : Reads py hash hllPrecision seen s)
    (hrun : items.foldlM (countItem py hash hllPrecision) s = some s') :
    Reads py hash hllPrecision
      (fun key => seen key ++ items.filterMap fun p => if p.1 = key then some p.2 else none)
      s' := by
  induction items generalizing seen s with
  | nil =>
    obtain rfl := Option.some.inj hrun
    simpa using h
  | cons item items ih =>
    rw [List.foldlM_cons] at hrun
    obtain ⟨t, hstep, hrun⟩ := Option.bind_eq_some_iff.mp hrun
    have hnext := ih (h.next hstep) hrun
    have hseen : ∀ key, (item :: items).filterMap (fun p => if p.1 = key then some p.2 else none) =
        (if item.1 = key then [item.2] else []) ++
          items.filterMap fun p => if p.1 = key then some p.2 else none := by
      intro key
      rw [List.filterMap_cons]
      by_cases hkey : item.1 = key
      · simp [hkey]
      · simp [hkey]
    simpa only [hseen, List.append_assoc] using hnext

/-- The state after a stream. -/
theorem reads_countAll {records : List (Record V)} {s : State V}
    (h : countAll py hash hllPrecision records = some s) :
    Reads py hash hllPrecision (valuesOf records) s := by
  suffices hgen : ∀ (seen : PyStr → List V) (s₀ : State V), Reads py hash hllPrecision seen s₀ →
      records.foldlM (fun s record =>
        record.metadata.entries.foldlM (countItem py hash hllPrecision) s) s₀ = some s →
      Reads py hash hllPrecision (fun key => seen key ++ valuesOf records key) s from
    hgen (fun _ => []) ⟨∅, ∅⟩ ⟨fun _ => rfl, fun _ => rfl, rfl⟩ h
  clear h
  induction records with
  | nil =>
    intro seen s₀ hs₀ hrun
    obtain rfl := Option.some.inj hrun
    simpa [valuesOf] using hs₀
  | cons record records ih =>
    intro seen s₀ hs₀ hrun
    rw [List.foldlM_cons] at hrun
    obtain ⟨t, hstep, hrun⟩ := Option.bind_eq_some_iff.mp hrun
    have hnext := ih _ t (hs₀.nextAll hstep) hrun
    have hvalues : ∀ key, valuesOf (record :: records) key =
        (record.metadata.get? key).toList ++ valuesOf records key := by
      intro key
      rw [valuesOf, List.filterMap_cons]
      cases record.metadata.get? key <;> rfl
    simpa only [hvalues, Dict.filterMap_entries, List.append_assoc] using hnext

/-- A counter that no value was counted in has no entries. -/
theorem tally_eq_nil_iff {values : List V} :
    Tally.tally py.same (values.map (counterKey py)) = [] ↔ values = [] := by
  constructor
  · intro h
    rw [Tally.tally_eq py.equivalence, List.map_eq_nil_iff] at h
    rw [List.eq_nil_iff_forall_not_mem]
    intro v hv
    obtain ⟨w, hw, -⟩ := (Tally.distinct_covers py.equivalence _).1 _
      (List.mem_map_of_mem (f := counterKey py) hv)
    rw [h] at hw
    exact List.not_mem_nil hw
  · rintro rfl
    rfl

variable (py hash) (log : ℚ → ℚ)

/-- What is reported of a key, from its values. -/
theorem get?_computeValueFrequency {records : List (Record V)} {topK : Option ℤ}
    {result : Dict PyStr (KeyFrequency V)}
    (h : computeValueFrequency py hash log records topK hllPrecision = some result) (key : PyStr) :
    (valuesOf records key = [] ∧ result.get? key = none) ∨
      ∃ estimator : HyperLogLog,
        (HyperLogLog.init hllPrecision).addAll hash py.str (valuesOf records key) = some estimator ∧
        result.get? key = some
          ⟨mostCommon (Tally.tally py.same ((valuesOf records key).map (counterKey py))) topK,
            estimator.estimate log⟩ := by
  obtain ⟨s, hs, hreport⟩ := Option.bind_eq_some_iff.mp h
  obtain ⟨entries, hentries, rfl⟩ := Option.map_eq_some_iff.mp hreport
  have hreads := reads_countAll hs
  have hcounted := hreads.counter key
  rw [Dict.get?_ofList_mapM hentries]
  cases hcounter : s.counters.get? key with
  | none =>
    rw [hcounter] at hcounted
    exact .inl ⟨tally_eq_nil_iff.mp hcounted.symm, rfl⟩
  | some counter =>
    have hmem : key ∈ s.estimators.keys := by
      rw [hreads.keys]
      exact Dict.isSome_get?_iff.mp (by rw [hcounter]; rfl)
    obtain ⟨estimator, hestimator⟩ := Option.isSome_iff_exists.mp (Dict.isSome_get?_iff.mpr hmem)
    have hadded := hreads.estimator key
    rw [hestimator] at hadded
    rw [hcounter] at hcounted
    refine .inr ⟨estimator, hadded, ?_⟩
    rw [← hcounted, Option.bind_some, hestimator]
    rfl

/-- The entries of a key are the first ones of the counter of its values. -/
theorem topValues_eq {records : List (Record V)} {topK : Option ℤ}
    {result : Dict PyStr (KeyFrequency V)}
    (h : computeValueFrequency py hash log records topK hllPrecision = some result) (key : PyStr) :
    ((result.get? key).map (·.topValues)).getD [] =
      mostCommon (Tally.tally py.same ((valuesOf records key).map (counterKey py))) topK := by
  obtain ⟨hvalues, hget⟩ | ⟨estimator, -, hget⟩ := get?_computeValueFrequency py hash log h key
  · rw [hget, hvalues]
    cases topK with
    | none => rfl
    | some n => exact List.take_nil.symm
  · rw [hget]
    rfl

/-! ### When it returns -/

/-- It returns when every value has a `str` that can be encoded. -/
theorem isSome_computeValueFrequency (records : List (Record V)) (topK : Option ℤ) :
    (computeValueFrequency py hash log records topK hllPrecision).isSome ↔
      ∀ record ∈ records, ∀ item ∈ record.metadata.entries,
        ((py.str item.2).bind encodeStr).isSome := by
  have hloops : (countAll py hash hllPrecision records).isSome ↔
      ∀ record ∈ records, ∀ item ∈ record.metadata.entries,
        ((py.str item.2).bind encodeStr).isSome := by
    have hitem : ∀ (s : State V) (item : PyStr × V),
        (countItem py hash hllPrecision s item).isSome ↔
          ((py.str item.2).bind encodeStr).isSome := by
      intro s item
      rw [countItem, HyperLogLog.add, HyperLogLog.hashValue]
      simp only [Option.isSome_map]
    have hrecord : ∀ (s : State V) (record : Record V),
        (record.metadata.entries.foldlM (countItem py hash hllPrecision) s).isSome ↔
          ∀ item ∈ record.metadata.entries, ((py.str item.2).bind encodeStr).isSome :=
      fun s record => Refinement.isSome_foldlM hitem s record.metadata.entries
    exact Refinement.isSome_foldlM hrecord _ records
  rw [← hloops, computeValueFrequency]
  cases hs : countAll py hash hllPrecision records with
  | none => rfl
  | some s =>
    have hkeys := (reads_countAll hs).keys
    rw [Option.bind_some, Option.isSome_map, isSome_mapM]
    refine iff_of_true (fun p hp => ?_) rfl
    rw [Option.isSome_map, Option.isSome_map, Dict.isSome_get?_iff, hkeys]
    exact Dict.mem_keys_of_mem hp

/-! ### The forms of the values -/

section Forms

variable (py : Objects V Ty) [DecidableEq Ty]

/-- The values that are of the same type and equal, and those that cannot be hashed and have the
same `str`. -/
def SameForm (v w : V) : Prop :=
  if py.hashes v then py.hashes w = true ∧ py.typeOf v = py.typeOf w ∧ py.same v w = true
  else py.hashes w = false ∧ py.text v = py.text w

instance : DecidableRel (SameForm py) := fun v w =>
  inferInstanceAs (Decidable (if py.hashes v then py.hashes w = true ∧ _ ∧ _ else _ ∧ _))

/-- How many of the values have the form of one. -/
def formCount (values : List V) (v : V) : ℕ := values.countP fun w => decide (SameForm py v w)

/-- An entry is the one of a value: the value up to its form, or its `str` when it cannot be hashed,
with the count of its form. -/
def IsEntryOf (values : List V) (entry : V × ℕ) (v : V) : Prop :=
  (if py.hashes v then SameForm py v entry.1 else entry.1 = py.ofStr (py.text v)) ∧
    entry.2 = formCount py values v

/-- The entries that should be reported of some values: each is the one of a value, and a value
without an entry has no larger count than the entries. -/
structure IsTopValues (values : List V) (top : List (V × ℕ)) : Prop where
  counted : ∀ entry ∈ top, ∃ v ∈ values, IsEntryOf py values entry v
  largest : ∀ v ∈ values, (∀ entry ∈ top, ¬ IsEntryOf py values entry v) →
    ∀ entry ∈ top, formCount py values v ≤ entry.2

/-- What the values are counted under, each once. -/
def keysOf (values : List V) : List V := Tally.distinct py.same (values.map (counterKey py))

/-- How many of the values are counted under a key. -/
def keyCount (values : List V) (x : V) : ℕ := (values.map (counterKey py)).countP (py.same x)

/-- Values of two forms are counted under a key. -/
def Merges (values : List V) (x : V) : Prop :=
  ∃ v ∈ values, ∃ w ∈ values, py.same x (counterKey py v) = true ∧
    py.same x (counterKey py w) = true ∧ ¬ SameForm py v w

/-- The `i`-th key is among the first `top_k`: fewer keys have larger counts, or the same count and
came earlier. -/
def IsShown (topK : Option ℤ) (values : List V) (i : ℕ) (x : V) : Prop :=
  match topK with
  | none => True
  | some n => Tally.rank ((keysOf py values).map (keyCount py values)) (keyCount py values x, i) <
      n.toNat

instance (topK : Option ℤ) (values : List V) (i : ℕ) (x : V) :
    Decidable (IsShown py topK values i x) :=
  match topK with
  | none => .isTrue trivial
  | some _ => inferInstanceAs (Decidable (Tally.rank _ _ < _))

end Forms

variable {py}

theorem SameForm.symm {v w : V} (h : SameForm py v w) : SameForm py w v := by
  rw [SameForm] at h ⊢
  split at h
  · next hv =>
    rw [if_pos h.1]
    exact ⟨hv, h.2.1.symm, py.same_symm _ _ h.2.2⟩
  · next hv =>
    rw [if_neg (by rw [h.1]; exact Bool.false_ne_true)]
    exact ⟨Bool.not_eq_true _ ▸ hv, h.2.symm⟩

theorem SameForm.trans {u v w : V} (h : SameForm py u v) (h' : SameForm py v w) :
    SameForm py u w := by
  rw [SameForm] at h h' ⊢
  split at h
  · next hu =>
    rw [if_pos h.1] at h'
    rw [if_pos hu]
    exact ⟨h'.1, h.2.1.trans h'.2.1, py.same_trans _ _ _ h.2.2 h'.2.2⟩
  · next hu =>
    rw [if_neg (by rw [h.1]; exact Bool.false_ne_true)] at h'
    rw [if_neg hu]
    exact ⟨h'.1, h.2.trans h'.2⟩

/-- Values of one form are counted under one key. -/
theorem SameForm.same {v w : V} (h : SameForm py v w) :
    py.same (counterKey py v) (counterKey py w) = true := by
  rw [SameForm] at h
  rw [counterKey, counterKey]
  split at h
  · next hv =>
    rw [if_pos hv, if_pos h.1]
    exact h.2.2
  · next hv =>
    rw [if_neg hv, if_neg (by rw [h.1]; exact Bool.false_ne_true)]
    exact (py.same_ofStr _ _).mpr h.2

/-! ### The entries -/

theorem tally_eq_keysOf (values : List V) :
    Tally.tally py.same (values.map (counterKey py)) =
      (keysOf py values).map fun x => (x, keyCount py values x) :=
  Tally.tally_eq py.equivalence _

/-- The value that a key is, or is the `str` of. -/
theorem exists_of_mem_keysOf {values : List V} {x : V} (hx : x ∈ keysOf py values) :
    ∃ v ∈ values, counterKey py v = x :=
  List.mem_map.mp ((Tally.distinct_covers py.equivalence _).2 x hx)

/-- The entries are those of the first keys. -/
theorem mem_mostCommon_iff {values : List V} {topK : Option ℤ} {entry : V × ℕ} :
    entry ∈ mostCommon (Tally.tally py.same (values.map (counterKey py))) topK ↔
      ∃ i x, (keysOf py values)[i]? = some x ∧ IsShown py topK values i x ∧
        (x, keyCount py values x) = entry := by
  rw [tally_eq_keysOf]
  cases topK with
  | none =>
    rw [mostCommon, Tally.ranked, List.mem_insertionSort, List.mem_map]
    constructor
    · rintro ⟨x, hx, rfl⟩
      obtain ⟨i, hi⟩ := List.mem_iff_getElem?.mp hx
      exact ⟨i, x, hi, trivial, rfl⟩
    · rintro ⟨i, x, hi, -, rfl⟩
      exact ⟨x, List.mem_iff_getElem?.mpr ⟨i, hi⟩, rfl⟩
  | some n =>
    rw [mostCommon, Tally.mem_take_ranked_iff]
    simp only [List.getElem?_map, Option.map_eq_some_iff, List.map_map]
    constructor
    · rintro ⟨i, ⟨x, hi, rfl⟩, hrank⟩
      exact ⟨i, x, hi, hrank, rfl⟩
    · rintro ⟨i, x, hi, hrank, rfl⟩
      exact ⟨i, ⟨x, hi, rfl⟩, hrank⟩

/-- A key without an entry has no larger count than the entries. -/
theorem keyCount_le {values : List V} {topK : Option ℤ} {x : V} (hx : x ∈ keysOf py values)
    (hout : (x, keyCount py values x) ∉
      mostCommon (Tally.tally py.same (values.map (counterKey py))) topK) {entry : V × ℕ}
    (hentry : entry ∈ mostCommon (Tally.tally py.same (values.map (counterKey py))) topK) :
    keyCount py values x ≤ entry.2 := by
  have hmem : (x, keyCount py values x) ∈
      Tally.tally py.same (values.map (counterKey py)) := by
    rw [tally_eq_keysOf]
    exact List.mem_map_of_mem (f := fun x => (x, keyCount py values x)) hx
  cases topK with
  | none => exact absurd ((List.mem_insertionSort _).mpr hmem) hout
  | some n => exact Tally.score_le_of_not_mem_take Prod.snd hmem hout hentry

variable [DecidableEq Ty]

/-- The values of a form are among those of its key. -/
theorem formCount_le {values : List V} {v x : V} (hx : py.same x (counterKey py v) = true) :
    formCount py values v ≤ keyCount py values x := by
  rw [formCount, keyCount, List.countP_map]
  refine List.countP_mono_left fun w _ hw => ?_
  exact py.same_trans _ _ _ hx (SameForm.same (of_decide_eq_true hw))

/-- They are all of them when the key does not merge. -/
theorem formCount_eq {values : List V} {v x : V} (hv : v ∈ values)
    (hx : py.same x (counterKey py v) = true) (hmerges : ¬ Merges py values x) :
    formCount py values v = keyCount py values x := by
  rw [formCount, keyCount, List.countP_map]
  refine List.countP_congr fun w hw => ?_
  rw [decide_eq_true_eq]
  constructor
  · intro h
    exact py.same_trans _ _ _ hx h.same
  · intro h
    by_contra hform
    exact hmerges ⟨v, hv, w, hw, hx, h, hform⟩

/-- And some of them are not when it does. -/
theorem formCount_lt {values : List V} {u x : V} (hx : py.same x (counterKey py u) = true)
    (hmerges : Merges py values x) : formCount py values u < keyCount py values x := by
  obtain ⟨v, hv, w, hw, hxv, hxw, hform⟩ := hmerges
  -- one of the two values has another form
  obtain ⟨z, hz, hxz, huz⟩ : ∃ z ∈ values, py.same x (counterKey py z) = true ∧
      ¬ SameForm py u z := by
    by_cases huv : SameForm py u v
    · exact ⟨w, hw, hxw, fun huw => hform (huv.symm.trans huw)⟩
    · exact ⟨v, hv, hxv, huv⟩
  obtain ⟨before, after, rfl⟩ := List.append_of_mem hz
  have hbefore := @formCount_le _ _ py _ before u x hx
  have hafter := @formCount_le _ _ py _ after u x hx
  simp only [formCount, keyCount, List.map_append, List.map_cons, List.countP_append,
    List.countP_cons, hxz, decide_eq_false huz] at hbefore hafter ⊢
  simp only [Bool.false_eq_true, if_false, if_true]
  omega

/-- An entry of a value is under the key of the value. -/
theorem same_of_isEntryOf {values : List V} {entry : V × ℕ} {v : V}
    (h : IsEntryOf py values entry v) : py.same entry.1 (counterKey py v) = true := by
  obtain ⟨h, -⟩ := h
  rw [counterKey]
  split at h
  · next hv =>
    rw [if_pos hv]
    rw [SameForm, if_pos hv] at h
    exact py.same_symm _ _ h.2.2
  · next hv =>
    rw [if_neg hv, h]
    exact py.same_refl _

/-- The entry of a key that does not merge is the one of each value that is counted there. -/
theorem isEntryOf_of_not_merges {values : List V} {v x : V} (hx : x ∈ keysOf py values)
    (hv : v ∈ values) (hxv : py.same x (counterKey py v) = true) (hmerges : ¬ Merges py values x) :
    IsEntryOf py values (x, keyCount py values x) v := by
  refine ⟨?_, (formCount_eq hv hxv hmerges).symm⟩
  obtain ⟨u, hu, rfl⟩ := exists_of_mem_keysOf hx
  have hform : SameForm py v u := by
    by_contra hform
    exact hmerges ⟨v, hv, u, hu, hxv, py.same_refl _, hform⟩
  show if _ then SameForm py v (counterKey py u) else counterKey py u = _
  split
  · next hhash =>
    have hu : py.hashes u = true := by
      rw [SameForm, if_pos hhash] at hform
      exact hform.1
    rwa [counterKey, if_pos hu]
  · next hhash =>
    rw [SameForm, if_neg hhash] at hform
    rw [counterKey, if_neg (by rw [hform.1]; exact Bool.false_ne_true), hform.2]

/-- The first keys of the counter are the counts of the values when none of them merges. -/
theorem isTopValues_mostCommon_iff (values : List V) (topK : Option ℤ) :
    IsTopValues py values (mostCommon (Tally.tally py.same (values.map (counterKey py))) topK) ↔
      ∀ i x, (keysOf py values)[i]? = some x → IsShown py topK values i x →
        ¬ Merges py values x := by
  constructor
  · intro h i x hi hshown hmerges
    obtain ⟨v, hv, hentry⟩ := h.counted _ (mem_mostCommon_iff.mpr ⟨i, x, hi, hshown, rfl⟩)
    have hlt := formCount_lt (same_of_isEntryOf hentry) hmerges
    exact absurd hentry.2.symm (Nat.ne_of_lt hlt)
  · intro h
    have hentries : ∀ entry, entry ∈ mostCommon
        (Tally.tally py.same (values.map (counterKey py))) topK →
        ∃ x ∈ keysOf py values, ¬ Merges py values x ∧ (x, keyCount py values x) = entry := by
      intro entry hentry
      obtain ⟨i, x, hi, hshown, rfl⟩ := mem_mostCommon_iff.mp hentry
      exact ⟨x, List.mem_iff_getElem?.mpr ⟨i, hi⟩, h i x hi hshown, rfl⟩
    refine ⟨fun entry hentry => ?_, fun v hv hout entry hentry => ?_⟩
    · obtain ⟨x, hx, hmerges, rfl⟩ := hentries entry hentry
      obtain ⟨v, hv, rfl⟩ := exists_of_mem_keysOf hx
      exact ⟨v, hv, isEntryOf_of_not_merges hx hv (py.same_refl _) hmerges⟩
    · -- the key of the value has no entry, or the value had one
      obtain ⟨x, hx, hxv⟩ := (Tally.distinct_covers py.equivalence _).1 _
        (List.mem_map_of_mem (f := counterKey py) hv)
      refine (formCount_le hxv).trans (keyCount_le hx (fun hin => ?_) hentry)
      obtain ⟨x', hx', hmerges, heq⟩ := hentries _ hin
      obtain ⟨rfl, -⟩ := Prod.mk.inj heq
      exact hout _ hin (isEntryOf_of_not_merges hx hv hxv hmerges)

/-- The entries of a key are the counts of its values, by type and value, if and only if none of its
first `top_k` keys has values of two forms. -/
theorem isTopValues_iff (py : Objects V Ty) (hash : List UInt8 → UInt64) (log : ℚ → ℚ)
    {hllPrecision : ℕ} {records : List (Record V)} {topK : Option ℤ}
    {result : Dict PyStr (KeyFrequency V)}
    (h : computeValueFrequency py hash log records topK hllPrecision = some result)
    (key : PyStr) :
    IsTopValues py (valuesOf records key) (((result.get? key).map (·.topValues)).getD []) ↔
      ∀ i x, (keysOf py (valuesOf records key))[i]? = some x →
        IsShown py topK (valuesOf records key) i x → ¬ Merges py (valuesOf records key) x := by
  rw [topValues_eq py hash log h key]
  exact isTopValues_mostCommon_iff _ _

end ValueFrequency

open ValueFrequency

/-- Two records with the metadata `True` and `1`. -/
def trueAndOne : List (Record Value) :=
  [⟨ofString "a", Dict.ofList [(ofString "n", .bool true)]⟩,
    ⟨ofString "b", Dict.ofList [(ofString "n", .int 1)]⟩]

theorem exists_computeValueFrequency_trueAndOne :
    ∃ result, computeValueFrequency Value.objects (fun _ => 0) id trueAndOne (some 5) 12 =
      some result :=
  Option.isSome_iff_exists.mp
    ((isSome_computeValueFrequency Value.objects (fun _ => 0) id trueAndOne _).mpr (by decide))

/-- They are two values that are counted as one. -/
theorem not_isTopValues_trueAndOne :
    ¬ ∀ (records : List (Record Value)) (result : Dict PyStr (KeyFrequency Value)),
      computeValueFrequency Value.objects (fun _ => 0) id records (some 5) 12 = some result →
      ∀ key, IsTopValues Value.objects (valuesOf records key)
        (((result.get? key).map (·.topValues)).getD []) := by
  intro h
  obtain ⟨result, hresult⟩ := exists_computeValueFrequency_trueAndOne
  have htop := h trueAndOne result hresult (ofString "n")
  rw [topValues_eq Value.objects (fun _ => 0) id hresult,
    show valuesOf trueAndOne (ofString "n") = [.bool true, .int 1] by decide] at htop
  exact (isTopValues_mostCommon_iff _ _).mp htop 0 (.bool true) rfl (by decide)
    ⟨.bool true, by decide, .int 1, by decide, rfl, rfl, by decide⟩

theorem isTopValues_iff_trueAndOne :
    ∃ result, computeValueFrequency Value.objects (fun _ => 0) id trueAndOne (some 5) 12 =
        some result ∧
      (IsTopValues Value.objects (valuesOf trueAndOne (ofString "n"))
          (((result.get? (ofString "n")).map (·.topValues)).getD []) ↔
        ∀ i x, (keysOf Value.objects (valuesOf trueAndOne (ofString "n")))[i]? = some x →
          IsShown Value.objects (some 5) (valuesOf trueAndOne (ofString "n")) i x →
          ¬ Merges Value.objects (valuesOf trueAndOne (ofString "n")) x) := by
  obtain ⟨result, hresult⟩ := exists_computeValueFrequency_trueAndOne
  exact ⟨result, hresult, isTopValues_iff Value.objects (fun _ => 0) id hresult (ofString "n")⟩

end Analysis

end Persista
