import Persista.Json.Value
import Persista.Lib.Grouping

/-!
# Duplicate records

`record/analysis/dedup.py` and `record/analysis/dedup_approx.py`. The first groups the ids of
records under the hash of their metadata. The second counts the records whose hash a Bloom filter
says it has seen; it may say so of a hash it has not seen, and never misses one that it has.

The hash and the filter are parameters.

## Main results

* `Analysis.approx_agrees` — the groups are the classes of equal hashes, and the count is at least
  the records of the groups less one for each
-/

namespace Persista

namespace Analysis

open Json Grouping

/-- A record. -/
structure Record (V : Type) where
  id : PyStr
  metadata : Dict PyStr V

/-- The values of a metadata key. -/
def valuesOf {V : Type} (records : List (Record V)) (key : PyStr) : List V :=
  records.filterMap fun record => record.metadata.get? key

/-- A Bloom filter: `BloomFilter(expected_items=..., fp_rate=...)`, `none` when it raises, and
`add_and_check`. -/
structure BloomFilter (B F : Type) where
  create : ℤ → F → Option B
  addAndCheck : B → List UInt8 → B × Bool

/-- The filter after some items. -/
def BloomFilter.addAll {B F : Type} (bloom : BloomFilter B F) (b : B) (items : List (List UInt8)) :
    B :=
  items.foldl (fun b item => (bloom.addAndCheck b item).1) b

/-- `add_and_check` says of every item that was added before that it was. -/
def BloomFilter.Sound {B F : Type} (bloom : BloomFilter B F) : Prop :=
  ∀ n p b, bloom.create n p = some b → ∀ items, ∀ item ∈ items,
    (bloom.addAndCheck (bloom.addAll b items) item).2 = true

/-- And it says so of no other one, on this stream. -/
def BloomFilter.NoFalsePositive {B F : Type} (bloom : BloomFilter B F) (b : B)
    (stream : List (List UInt8)) : Prop :=
  ∀ before item after, stream = before ++ item :: after → item ∉ before →
    (bloom.addAndCheck (bloom.addAll b before) item).2 = false

/-- `s.encode("ascii")`; `none` when it raises. -/
def encodeAscii (s : PyStr) : Option (List UInt8) :=
  s.mapM fun c : CodePoint => if c.val < 128 then some (UInt8.ofNat c.val) else none

section Duplicates

variable {V B F : Type} (hashObject : Dict PyStr V → PyStr)

/-- `find_duplicate_record_ids(records)`. -/
def findDuplicateRecordIds (records : List (Record V)) : List (List PyStr) :=
  (groupAll (records.map fun record => (hashObject record.metadata, record.id))).values.filter
    fun group => decide (1 < group.length)

variable (bloom : BloomFilter B F)

/-- `if bloom.add_and_check(item): duplicate_count += 1`. -/
def countItem (state : B × ℕ) (item : List UInt8) : B × ℕ :=
  match bloom.addAndCheck state.1 item with
  | (b, true) => (b, state.2 + 1)
  | (b, false) => (b, state.2)

/-- One turn of the loop. -/
def countStep (state : B × ℕ) (record : Record V) : Option (B × ℕ) :=
  (encodeAscii (hashObject record.metadata)).map (countItem bloom state)

/-- `count_approx_duplicate_records(records, ...)`; `none` when it raises. -/
def countApproxDuplicateRecords (expectedRecordCount : ℤ) (fpRate : F) (records : List (Record V)) :
    Option ℕ := do
  let b ← bloom.create expectedRecordCount fpRate
  let state ← records.foldlM (countStep hashObject bloom) (b, 0)
  return state.2

end Duplicates

/-! ### Encoding -/

theorem toNat_of_ascii {c : CodePoint} {b : UInt8}
    (h : (if c.val < 128 then some (UInt8.ofNat c.val) else none) = some b) : c.val = b.toNat := by
  split at h
  · next hlt =>
    obtain rfl := Option.some.inj h
    rw [UInt8.toNat_ofNat', Nat.mod_eq_of_lt (by omega)]
  · exact absurd h (Option.some_ne_none b).symm

theorem map_val_of_encodeAscii {s : PyStr} {item : List UInt8} (h : encodeAscii s = some item) :
    s.map Fin.val = item.map UInt8.toNat := by
  induction s generalizing item with
  | nil =>
    obtain rfl := Option.some.inj h
    rfl
  | cons c s ih =>
    obtain ⟨b, bs, hb, hbs, rfl⟩ := mapM_cons_eq_some.mp h
    rw [List.map_cons, List.map_cons, toNat_of_ascii hb, ih hbs]

/-- Texts with the same bytes are the same. -/
theorem encodeAscii_inj {s t : PyStr} {item : List UInt8} (hs : encodeAscii s = some item)
    (ht : encodeAscii t = some item) : s = t :=
  List.map_injective_iff.mpr Fin.val_injective
    ((map_val_of_encodeAscii hs).trans (map_val_of_encodeAscii ht).symm)

/-! ### The exact groups -/

section Duplicates

variable {V B F : Type} (hashObject : Dict PyStr V → PyStr)

/-- The hash of the metadata of the record at a position. -/
def hashAt (records : List (Record V)) (i : ℕ) : Option PyStr :=
  records[i]?.map fun record => hashObject record.metadata

/-- The ids at some positions. -/
def idsAt (records : List (Record V)) (group : List ℕ) : List (Option PyStr) :=
  group.map fun i => records[i]?.map Record.id

theorem findDuplicateRecordIds_eq (records : List (Record V)) :
    (findDuplicateRecordIds hashObject records).map (List.map some) =
      (groupsOf (hashAt hashObject records) records.length).map (idsAt records) := by
  have hvalues := filter_values_groupAll
    (records.map fun record => (hashObject record.metadata, record.id))
  simp only [List.getElem?_map, Option.map_map, Function.comp_def, List.length_map] at hvalues
  exact hvalues

theorem excess_findDuplicateRecordIds (records : List (Record V)) :
    excess (findDuplicateRecordIds hashObject records) =
      excess (groupsOf (hashAt hashObject records) records.length) := by
  have hsome := excess_map (fun group : List PyStr => group.map some)
    (fun _ => List.length_map some) (findDuplicateRecordIds hashObject records)
  rw [← hsome, findDuplicateRecordIds_eq]
  exact excess_map (idsAt records) (fun _ => List.length_map _) _

/-! ### The count -/

variable (bloom : BloomFilter B F)

theorem foldlM_countStep (state : B × ℕ) (records : List (Record V)) :
    records.foldlM (countStep hashObject bloom) state =
      (records.mapM fun record => encodeAscii (hashObject record.metadata)).map
        fun items => items.foldl (countItem bloom) state := by
  induction records generalizing state with
  | nil => rfl
  | cons record records ih =>
    rw [List.foldlM_cons, List.mapM_cons, countStep]
    cases encodeAscii (hashObject record.metadata) with
    | none => rfl
    | some item =>
      show records.foldlM (countStep hashObject bloom) (countItem bloom state item) = _
      rw [ih]
      cases records.mapM fun record => encodeAscii (hashObject record.metadata) <;> rfl

variable {bloom}

theorem fst_countItem (state : B × ℕ) (item : List UInt8) :
    (countItem bloom state item).1 = (bloom.addAndCheck state.1 item).1 := by
  rw [countItem]
  rcases bloom.addAndCheck state.1 item with ⟨b, _ | _⟩ <;> rfl

theorem snd_countItem (state : B × ℕ) (item : List UInt8) :
    (countItem bloom state item).2 =
      if (bloom.addAndCheck state.1 item).2 then state.2 + 1 else state.2 := by
  rw [countItem]
  rcases bloom.addAndCheck state.1 item with ⟨b, _ | _⟩ <;> rfl

/-- The count after any prefix: the items that are no first ones are counted, and without false
positives nothing else is. -/
theorem count_prefix {K : Type} [DecidableEq K] (hsound : bloom.Sound) {e : ℤ} {p : F} {b : B}
    (hb : bloom.create e p = some b) {items : List (List UInt8)} {key : ℕ → K}
    (hkey : ∀ i < items.length, ∀ j < items.length, key i = key j ↔ items[i]? = items[j]?)
    {n : ℕ} (hn : n ≤ items.length) :
    ((items.take n).foldl (countItem bloom) (b, 0)).1 = bloom.addAll b (items.take n) ∧
      n ≤ ((items.take n).foldl (countItem bloom) (b, 0)).2 + (firsts key n).length ∧
      (bloom.NoFalsePositive b items →
        ((items.take n).foldl (countItem bloom) (b, 0)).2 + (firsts key n).length = n) := by
  induction n with
  | zero => exact ⟨rfl, Nat.zero_le _, fun _ => rfl⟩
  | succ n ih =>
    obtain ⟨hfilter, hle, heq⟩ := ih (by omega)
    have hlt : n < items.length := by omega
    have hseen : (∃ i < n, key i = key n) ↔ items[n] ∈ items.take n := by
      rw [List.mem_take_iff_getElem]
      constructor
      · rintro ⟨i, hi, hik⟩
        have hget := (hkey i (by omega) n hlt).mp hik
        rw [List.getElem?_eq_getElem (by omega), List.getElem?_eq_getElem hlt] at hget
        exact ⟨i, by omega, Option.some.inj hget⟩
      · rintro ⟨i, hi, hget⟩
        refine ⟨i, by omega, (hkey i (by omega) n hlt).mpr ?_⟩
        rw [List.getElem?_eq_getElem (by omega), List.getElem?_eq_getElem hlt, hget]
    have hsplit : items = items.take n ++ items[n] :: items.drop (n + 1) := by
      rw [List.getElem_cons_drop, List.take_append_drop]
    rw [List.take_succ_eq_append_getElem hlt, List.foldl_append, List.foldl_cons, List.foldl_nil,
      fst_countItem, snd_countItem, hfilter, firsts_succ]
    have hstep : bloom.addAll b (items.take n ++ [items[n]]) =
        (bloom.addAndCheck (bloom.addAll b (items.take n)) items[n]).1 := by
      rw [BloomFilter.addAll, List.foldl_append]
      rfl
    refine ⟨hstep.symm, ?_⟩
    by_cases h : ∃ i < n, key i = key n
    · rw [if_pos h, hsound e p b hb _ _ (hseen.mp h), if_pos rfl]
      exact ⟨by omega, fun hno => by have := heq hno; omega⟩
    · rw [if_neg h, List.length_append, List.length_singleton]
      constructor
      · split <;> omega
      · intro hno
        have hfalse := hno _ _ _ hsplit fun hmem => h (hseen.mpr hmem)
        have heq := heq hno
        rw [hfalse, if_neg Bool.false_ne_true]
        omega

/-- Records have the same hash when the same bytes are fed to the filter. -/
theorem hashAt_eq_iff {records : List (Record V)} {items : List (List UInt8)}
    (hitems : (records.mapM fun record => encodeAscii (hashObject record.metadata)) = some items) :
    items.length = records.length ∧ ∀ i < items.length, ∀ j < items.length,
      hashAt hashObject records i = hashAt hashObject records j ↔ items[i]? = items[j]? := by
  have hmap := mapM_eq_some_iff.mp hitems
  have hlen := congrArg List.length hmap
  rw [List.length_map, List.length_map] at hlen
  have hget : ∀ i : ℕ, (hashAt hashObject records i).map encodeAscii = items[i]?.map some := by
    intro i
    rw [← List.getElem?_map, ← hmap, List.getElem?_map, hashAt, Option.map_map]
    rfl
  refine ⟨hlen.symm, fun i hi j hj => ?_⟩
  have hi' := hget i
  have hj' := hget j
  rw [List.getElem?_eq_getElem hi] at hi' ⊢
  rw [List.getElem?_eq_getElem hj] at hj' ⊢
  obtain ⟨s, hs, hsi⟩ := Option.map_eq_some_iff.mp hi'
  obtain ⟨t, ht, htj⟩ := Option.map_eq_some_iff.mp hj'
  rw [hs, ht, Option.some.injEq, Option.some.injEq]
  constructor
  · intro hst
    rw [hst, htj] at hsi
    exact (Option.some.inj hsi).symm
  · intro hij
    rw [hij] at hsi
    exact encodeAscii_inj hsi htj

/-- The groups are the classes of equal hashes with two records or more. The count is at least their
records less one for each, and it is that number when the filter has no false positive. It raises
when a hash is not ASCII. -/
theorem approx_agrees (hsound : bloom.Sound) (expectedRecordCount : ℤ) (fpRate : F)
    (records : List (Record V)) :
    (∃ groups : List (List ℕ),
      (findDuplicateRecordIds hashObject records).map (List.map some) =
        groups.map (idsAt records) ∧
      IsGrouping records.length
        (fun i j => hashAt hashObject records i = hashAt hashObject records j) groups) ∧
    ∀ b items, bloom.create expectedRecordCount fpRate = some b →
      (records.mapM fun record => encodeAscii (hashObject record.metadata)) = some items →
      ∃ count,
        countApproxDuplicateRecords hashObject bloom expectedRecordCount fpRate records =
          some count ∧
        excess (findDuplicateRecordIds hashObject records) ≤ count ∧
        (bloom.NoFalsePositive b items →
          count = excess (findDuplicateRecordIds hashObject records)) := by
  refine ⟨⟨_, findDuplicateRecordIds_eq hashObject records,
    isGrouping_groupsOf fun i _ j _ => Iff.rfl⟩, fun b items hb hitems => ?_⟩
  obtain ⟨hlen, hkey⟩ := hashAt_eq_iff hashObject hitems
  obtain ⟨-, hle, heq⟩ := count_prefix hsound hb hkey (le_refl items.length)
  rw [List.take_length] at hle heq
  have htotal := excess_groupsOf (hashAt hashObject records) records.length
  rw [hlen] at hle heq
  rw [excess_findDuplicateRecordIds]
  refine ⟨(items.foldl (countItem bloom) (b, 0)).2, ?_, ?_, fun hno => ?_⟩
  · rw [countApproxDuplicateRecords, hb]
    show (records.foldlM (countStep hashObject bloom) (b, 0)).bind (fun state => some state.2) = _
    rw [foldlM_countStep, hitems]
    rfl
  · omega
  · have heq := heq hno
    omega

end Duplicates

/-- A filter that remembers what it was given. -/
def exactFilter : BloomFilter (List (List UInt8)) Unit where
  create _ _ := some []
  addAndCheck b item := (item :: b, decide (item ∈ b))

theorem exactFilter_addAll (b items : List (List UInt8)) :
    exactFilter.addAll b items = items.reverse ++ b := by
  induction items generalizing b with
  | nil => rfl
  | cons item items ih =>
    show exactFilter.addAll (item :: b) items = _
    rw [ih, List.reverse_cons, List.append_assoc]
    rfl

theorem exactFilter_sound : exactFilter.Sound := by
  intro n p b hb items item hitem
  obtain rfl := Option.some.inj hb
  rw [exactFilter_addAll]
  exact decide_eq_true (by simpa using hitem)

/-- The first key of the metadata. -/
def firstKey (metadata : Dict PyStr Unit) : PyStr := metadata.keys.headD []

theorem approx_agrees_first_key :
    ∃ count, countApproxDuplicateRecords firstKey exactFilter 1000 ()
        [⟨ofString "a", Dict.ofList [(ofString "x", ())]⟩, ⟨ofString "b", ∅⟩,
          ⟨ofString "c", Dict.ofList [(ofString "x", ())]⟩] = some count ∧ 1 ≤ count := by
  obtain ⟨count, hcount, hle, -⟩ := (approx_agrees firstKey exactFilter_sound 1000 ()
    [⟨ofString "a", Dict.ofList [(ofString "x", ())]⟩, ⟨ofString "b", ∅⟩,
      ⟨ofString "c", Dict.ofList [(ofString "x", ())]⟩]).2 [] [[120], [], [120]] rfl (by decide)
  exact ⟨count, hcount, hle⟩

end Analysis

end Persista
