import Persista.Lib.Tally
import Persista.Record.Dedup
import Persista.Record.Objects
import Mathlib.Data.List.Lex
import Mathlib.Data.Rat.Defs
import Mathlib.Order.Fin.Basic

/-!
# `MetadataStats`

`record/analysis/metadata_stats.py`. The statistics are updated one record at a time; `to_dict`
makes a report of them. For each key there are counters, the names of the types, and a sample of the
values, which stops growing at the first value that is left out.

`update` asks `isinstance(value, Hashable)`, which a tuple passes whatever its elements are, and
then adds the value to a set. A tuple with an element that cannot be hashed raises there, after the
counters of its key have been updated and before the other keys of the record. `to_dict` sorts the
samples by `str`, and raises when a value of a sample has none.

## The statistics of one key

The dictionaries of the code are read key by key (`MetadataStats.view`), and a value changes the
statistics of its key alone, the way `KeyStats.add` says.

## Main results

* `Analysis.MetadataStats.updateItem_spec` — what a value does to the statistics
* `Analysis.MetadataStats.update_spec` — what a record does to them, and when it raises
* `Analysis.MetadataStats.isSome_toDict_iff` — when the report is made
-/

namespace Persista

/-- `sorted(values, key=f)`. -/
def sortedBy {V K : Type} [LinearOrder K] (f : V → K) (values : List V) : List V :=
  values.insertionSort fun v w => f v ≤ f w

namespace Analysis

open Json

variable {V Ty : Type}

/-- `TypeError`. -/
inductive TypeError
  | unhashable

/-- The statistics. A set is the list of its elements, in the order they were added. -/
structure MetadataStats (V : Type) where
  nSampleValues : Option ℕ
  count : ℕ
  missingMetadataCount : ℕ
  totalKeys : ℕ
  minKeys : Option ℕ
  maxKeys : Option ℕ
  keyCounts : Dict PyStr ℕ
  keyNoneCounts : Dict PyStr ℕ
  keyTypes : Dict PyStr (List PyStr)
  keyValues : Dict PyStr (List V)
  keyValuesTruncated : Dict PyStr Bool

namespace MetadataStats

/-- `MetadataStats(n_sample_values=...)`. -/
def init (nSampleValues : Option ℕ) : MetadataStats V where
  nSampleValues := nSampleValues
  count := 0
  missingMetadataCount := 0
  totalKeys := 0
  minKeys := none
  maxKeys := none
  keyCounts := ∅
  keyNoneCounts := ∅
  keyTypes := ∅
  keyValues := ∅
  keyValuesTruncated := ∅

variable (py : Objects V Ty)

/-- `value in values`. -/
def contains (values : List V) (v : V) : Except TypeError Bool :=
  if py.hashes v then .ok (values.any (py.same · v)) else .error .unhashable

/-- `values.add(value)`. -/
def addTo (values : List V) (v : V) : Except TypeError (List V) :=
  if py.hashes v then .ok (Tally.addNew py.same values v) else .error .unhashable

/-- `n_sample_values is not None and len(values) >= n_sample_values and value not in values`. -/
def isNewAndFull (nSampleValues : Option ℕ) (values : List V) (v : V) : Except TypeError Bool :=
  match nSampleValues with
  | none => .ok false
  | some n => if n ≤ values.length then (contains py values v).map (!·) else .ok false

/-- The sampling of a value, once `values` is there. -/
def sampleValue (s : MetadataStats V) (key : PyStr) (values : List V) (v : V) :
    MetadataStats V × Except TypeError Unit :=
  if !py.isHashable v then
    ({ s with keyValuesTruncated := s.keyValuesTruncated.set key true }, .ok ())
  else
    match isNewAndFull py s.nSampleValues values v with
    | .error e => (s, .error e)
    | .ok true => ({ s with keyValuesTruncated := s.keyValuesTruncated.set key true }, .ok ())
    | .ok false =>
      match addTo py values v with
      | .error e => (s, .error e)
      | .ok values => ({ s with keyValues := s.keyValues.set key values }, .ok ())

/-- The counters of a value. -/
def countValue (s : MetadataStats V) (key : PyStr) (v : V) : MetadataStats V :=
  { s with
    keyCounts := s.keyCounts.set key ((s.keyCounts.get? key).getD 0 + 1)
    keyTypes := s.keyTypes.set key
      (Tally.addNew (fun name name' => decide (name = name')) ((s.keyTypes.get? key).getD [])
        (py.typeName (py.typeOf v)))
    keyNoneCounts :=
      if py.isNone v || py.isEmptyStr v then
        s.keyNoneCounts.set key ((s.keyNoneCounts.get? key).getD 0 + 1)
      else s.keyNoneCounts }

/-- One turn of the loop of `update`. -/
def updateItem (s : MetadataStats V) (item : PyStr × V) : MetadataStats V × Except TypeError Unit :=
  let s := countValue py s item.1 item.2
  if (s.keyValuesTruncated.get? item.1).getD false then (s, .ok ())
  else
    let values := (s.keyValues.get? item.1).getD []
    sampleValue py { s with keyValues := s.keyValues.set item.1 values } item.1 values item.2

/-- The loop of `update`. -/
def updateItems (s : MetadataStats V) : List (PyStr × V) → MetadataStats V × Except TypeError Unit
  | [] => (s, .ok ())
  | item :: items =>
    match updateItem py s item with
    | (s, .ok ()) => updateItems s items
    | (s, .error e) => (s, .error e)

/-- `if self.min_keys is None or n_keys < self.min_keys: self.min_keys = n_keys`. -/
def lower : Option ℕ → ℕ → Option ℕ
  | none, n => some n
  | some least, n => if n < least then some n else some least

/-- `if self.max_keys is None or n_keys > self.max_keys: self.max_keys = n_keys`. -/
def raise : Option ℕ → ℕ → Option ℕ
  | none, n => some n
  | some greatest, n => if greatest < n then some n else some greatest

/-- The counters of a record. -/
def countRecord (s : MetadataStats V) (metadata : Dict PyStr V) : MetadataStats V :=
  { s with
    count := s.count + 1
    missingMetadataCount :=
      if metadata.entries = [] then s.missingMetadataCount + 1 else s.missingMetadataCount
    totalKeys := s.totalKeys + metadata.length
    minKeys := lower s.minKeys metadata.length
    maxKeys := raise s.maxKeys metadata.length }

/-- `update(record)`: the statistics afterwards, also when it raises. -/
def update (s : MetadataStats V) (record : Record V) : MetadataStats V × Except TypeError Unit :=
  updateItems py (countRecord s record.metadata) record.metadata.entries

/-- `update` for each record, up to the first that raises. -/
def updateAll (s : MetadataStats V) : List (Record V) → MetadataStats V × Except TypeError Unit
  | [] => (s, .ok ())
  | record :: records =>
    match update py s record with
    | (s, .ok ()) => updateAll s records
    | (s, .error e) => (s, .error e)

/-- The report of a key. -/
structure KeyReport (V : Type) where
  presentInRecords : ℕ
  missingInRecords : ℕ
  valueTypes : List PyStr
  noneOrEmptyCount : ℕ
  uniqueValuesSample : List V
  uniqueValuesSampleTruncated : Bool

/-- The report. -/
structure Report (V : Type) where
  count : ℕ
  missingMetadataCount : ℕ
  avgKeys : ℚ
  minKeys : Option ℕ
  maxKeys : Option ℕ
  distinctKeysSeen : ℕ
  perKey : Dict PyStr (KeyReport V)

/-- `sorted(values, key=str)`; `none` when `str` raises. -/
def sortedByStr (values : List V) : Option (List V) :=
  if values.all fun v => (py.str v).isSome then some (sortedBy py.text values) else none

/-- The report of a key in `to_dict`; `none` when it raises. -/
def keyReport (s : MetadataStats V) (key : PyStr) : Option (KeyReport V) := do
  let sample ← sortedByStr py (py.iter ((s.keyValues.get? key).getD []))
  return {
    presentInRecords := (s.keyCounts.get? key).getD 0
    missingInRecords := s.count - (s.keyCounts.get? key).getD 0
    valueTypes := sortedBy id ((s.keyTypes.get? key).getD [])
    noneOrEmptyCount := (s.keyNoneCounts.get? key).getD 0
    uniqueValuesSample := sample
    uniqueValuesSampleTruncated := (s.keyValuesTruncated.get? key).getD false }

/-- `to_dict()`; `none` when it raises. -/
def toDict (s : MetadataStats V) : Option (Report V) := do
  let perKey ← (sortedBy id s.keyCounts.keys).mapM fun key =>
    (keyReport py s key).map fun report => (key, report)
  return {
    count := s.count
    missingMetadataCount := s.missingMetadataCount
    avgKeys := if s.count ≠ 0 then s.totalKeys / s.count else 0
    minKeys := s.minKeys
    maxKeys := s.maxKeys
    distinctKeysSeen := s.keyCounts.length
    perKey := .ofList perKey }

theorem sortedByStr_eq_some_iff {values sorted : List V} :
    sortedByStr py values = some sorted ↔
      (∀ v ∈ values, (py.str v).isSome) ∧ sortedBy py.text values = sorted := by
  rw [sortedByStr, Option.ite_none_right_eq_some, List.all_eq_true, Option.some.injEq]

/-- What the report of a key says. -/
theorem keyReport_eq_some {s : MetadataStats V} {key : PyStr} {report : KeyReport V}
    (h : keyReport py s key = some report) :
    report = {
      presentInRecords := (s.keyCounts.get? key).getD 0
      missingInRecords := s.count - (s.keyCounts.get? key).getD 0
      valueTypes := sortedBy id ((s.keyTypes.get? key).getD [])
      noneOrEmptyCount := (s.keyNoneCounts.get? key).getD 0
      uniqueValuesSample := sortedBy py.text (py.iter ((s.keyValues.get? key).getD []))
      uniqueValuesSampleTruncated := (s.keyValuesTruncated.get? key).getD false } := by
  obtain ⟨sample, hsample, hreport⟩ := Option.bind_eq_some_iff.mp h
  obtain ⟨-, rfl⟩ := (sortedByStr_eq_some_iff py).mp hsample
  exact (Option.some.inj hreport).symm

/-- What the report says. -/
theorem toDict_eq_some {s : MetadataStats V} {report : Report V} (h : toDict py s = some report) :
    ∃ perKey, (sortedBy id s.keyCounts.keys).mapM (fun key =>
        (keyReport py s key).map fun report => (key, report)) = some perKey ∧
      report = {
        count := s.count
        missingMetadataCount := s.missingMetadataCount
        avgKeys := if s.count ≠ 0 then s.totalKeys / s.count else 0
        minKeys := s.minKeys
        maxKeys := s.maxKeys
        distinctKeysSeen := s.keyCounts.length
        perKey := .ofList perKey } := by
  obtain ⟨perKey, hperKey, hreport⟩ := Option.bind_eq_some_iff.mp h
  exact ⟨perKey, hperKey, (Option.some.inj hreport).symm⟩

/-- What is known of a key. -/
structure KeyStats (V : Type) where
  present : ℕ
  types : List PyStr
  nones : ℕ
  sample : List V
  truncated : Bool

/-- The statistics of a key. -/
def view (s : MetadataStats V) (key : PyStr) : KeyStats V where
  present := (s.keyCounts.get? key).getD 0
  types := (s.keyTypes.get? key).getD []
  nones := (s.keyNoneCounts.get? key).getD 0
  sample := (s.keyValues.get? key).getD []
  truncated := (s.keyValuesTruncated.get? key).getD false

/-- The counters of a value. -/
def KeyStats.countValue (ks : KeyStats V) (v : V) : KeyStats V :=
  { ks with
    present := ks.present + 1
    types :=
      Tally.addNew (fun name name' => decide (name = name')) ks.types (py.typeName (py.typeOf v))
    nones := if py.isNone v || py.isEmptyStr v then ks.nones + 1 else ks.nones }

/-- The sampling of a value. -/
def KeyStats.sampleValue (nSampleValues : Option ℕ) (ks : KeyStats V) (v : V) :
    KeyStats V × Except TypeError Unit :=
  if !py.isHashable v then ({ ks with truncated := true }, .ok ())
  else
    match isNewAndFull py nSampleValues ks.sample v with
    | .error e => (ks, .error e)
    | .ok true => ({ ks with truncated := true }, .ok ())
    | .ok false =>
      match addTo py ks.sample v with
      | .error e => (ks, .error e)
      | .ok sample => ({ ks with sample := sample }, .ok ())

/-- A value changes the statistics of its key. -/
def KeyStats.add (nSampleValues : Option ℕ) (ks : KeyStats V) (v : V) :
    KeyStats V × Except TypeError Unit :=
  let ks := ks.countValue py v
  if ks.truncated then (ks, .ok ()) else ks.sampleValue py nSampleValues v

/-- The statistics that no value of a key changes. -/
structure SameRecords (s s' : MetadataStats V) : Prop where
  nSampleValues : s'.nSampleValues = s.nSampleValues
  count : s'.count = s.count
  missingMetadataCount : s'.missingMetadataCount = s.missingMetadataCount
  totalKeys : s'.totalKeys = s.totalKeys
  minKeys : s'.minKeys = s.minKeys
  maxKeys : s'.maxKeys = s.maxKeys

/-- A key that is there has been counted. -/
def Counted (s : MetadataStats V) : Prop := ∀ key n, s.keyCounts.get? key = some n → n ≠ 0

/-- From `s` to `s'` the statistics of `key` have become `ks`, and the others have stayed. -/
structure Moves (s s' : MetadataStats V) (key : PyStr) (ks : KeyStats V) : Prop where
  view_eq : ∀ j, view s' j = if j = key then ks else view s j
  sameRecords : SameRecords s s'
  counted : Counted s → Counted s'

theorem moves_countValue (s : MetadataStats V) (key : PyStr) (v : V) :
    Moves s (countValue py s key v) key ((view s key).countValue py v) where
  sameRecords := ⟨rfl, rfl, rfl, rfl, rfl, rfl⟩
  counted hs j n hn := by
    rw [countValue, Dict.get?_set] at hn
    split at hn
    · rw [← Option.some.inj hn]
      exact Nat.succ_ne_zero _
    · exact hs j n hn
  view_eq j := by
    by_cases h : j = key
    · subst h
      rw [if_pos rfl]
      simp only [view, countValue, KeyStats.countValue, Dict.get?_set, if_true, Option.getD_some]
      split <;> simp
    · rw [if_neg h]
      simp only [view, countValue, Dict.get?_set, if_neg h]
      split <;> simp [h]

theorem moves_sample (s : MetadataStats V) (key : PyStr) (values : List V) :
    Moves s { s with keyValues := s.keyValues.set key values } key
      { view s key with sample := values } where
  sameRecords := ⟨rfl, rfl, rfl, rfl, rfl, rfl⟩
  counted hs := hs
  view_eq j := by
    by_cases h : j = key
    · subst h
      simp [view]
    · simp [view, h]

theorem moves_truncated (s : MetadataStats V) (key : PyStr) :
    Moves s { s with keyValuesTruncated := s.keyValuesTruncated.set key true } key
      { view s key with truncated := true } where
  sameRecords := ⟨rfl, rfl, rfl, rfl, rfl, rfl⟩
  counted hs := hs
  view_eq j := by
    by_cases h : j = key
    · subst h
      simp [view]
    · simp [view, h]

variable {py}

theorem Moves.refl (s : MetadataStats V) (key : PyStr) : Moves s s key (view s key) where
  sameRecords := ⟨rfl, rfl, rfl, rfl, rfl, rfl⟩
  counted hs := hs
  view_eq j := by
    split
    · next h => rw [h]
    · rfl

theorem SameRecords.trans {s s' s'' : MetadataStats V} (h : SameRecords s s')
    (h' : SameRecords s' s'') : SameRecords s s'' where
  nSampleValues := h'.nSampleValues.trans h.nSampleValues
  count := h'.count.trans h.count
  missingMetadataCount := h'.missingMetadataCount.trans h.missingMetadataCount
  totalKeys := h'.totalKeys.trans h.totalKeys
  minKeys := h'.minKeys.trans h.minKeys
  maxKeys := h'.maxKeys.trans h.maxKeys

theorem Moves.trans {s s' s'' : MetadataStats V} {key : PyStr} {ks ks' : KeyStats V}
    (h : Moves s s' key ks) (h' : Moves s' s'' key ks') : Moves s s'' key ks' where
  sameRecords := h.sameRecords.trans h'.sameRecords
  counted hs := h'.counted (h.counted hs)
  view_eq j := by
    rw [h'.view_eq]
    split
    · rfl
    · next hj => rw [h.view_eq, if_neg hj]

theorem Moves.view_self {s s' : MetadataStats V} {key : PyStr} {ks : KeyStats V}
    (h : Moves s s' key ks) : view s' key = ks := by
  rw [h.view_eq, if_pos rfl]

variable (py)

theorem sampleValue_spec (s : MetadataStats V) (key : PyStr) (v : V) :
    (sampleValue py s key (view s key).sample v).2 =
        ((view s key).sampleValue py s.nSampleValues v).2 ∧
      Moves s (sampleValue py s key (view s key).sample v).1 key
        ((view s key).sampleValue py s.nSampleValues v).1 := by
  rw [sampleValue, KeyStats.sampleValue]
  cases py.isHashable v with
  | false => exact ⟨rfl, moves_truncated s key⟩
  | true =>
    simp only [Bool.not_true, Bool.false_eq_true, if_false]
    cases isNewAndFull py s.nSampleValues (view s key).sample v with
    | error e => exact ⟨rfl, .refl s key⟩
    | ok isNew =>
      cases isNew with
      | true => exact ⟨rfl, moves_truncated s key⟩
      | false =>
        cases addTo py (view s key).sample v with
        | error e => exact ⟨rfl, .refl s key⟩
        | ok values => exact ⟨rfl, moves_sample s key values⟩

/-- What a value does to the statistics: those of its key change as `KeyStats.add` says, and the
others stay. -/
theorem updateItem_spec (s : MetadataStats V) (key : PyStr) (v : V) :
    (updateItem py s (key, v)).2 = ((view s key).add py s.nSampleValues v).2 ∧
      Moves s (updateItem py s (key, v)).1 key ((view s key).add py s.nSampleValues v).1 := by
  have hcount := moves_countValue py s key v
  have htruncated : ((countValue py s key v).keyValuesTruncated.get? key).getD false =
      ((view s key).countValue py v).truncated := rfl
  rw [updateItem, KeyStats.add]
  simp only [htruncated]
  split
  · exact ⟨rfl, hcount⟩
  · -- `setdefault` changes nothing that is looked at
    have hset := moves_sample (countValue py s key v) key
      (((countValue py s key v).keyValues.get? key).getD [])
    have hview := (hcount.trans hset).view_self
    rw [hcount.view_self] at hview
    obtain ⟨hraises, hmoves⟩ := sampleValue_spec py
      { countValue py s key v with
        keyValues := (countValue py s key v).keyValues.set key
          (((countValue py s key v).keyValues.get? key).getD []) } key v
    rw [hview] at hraises hmoves
    exact ⟨hraises, (hcount.trans hset).trans hmoves⟩

/-! ### One record -/

theorem error_ne_ok {e : TypeError} : (.error e : Except TypeError Unit) ≠ .ok () := by
  intro h
  cases h

/-- What the values of a record do to the statistics when none of them raises. -/
structure Updates (s s' : MetadataStats V) (items : List (PyStr × V)) : Prop where
  sameRecords : SameRecords s s'
  counted : Counted s → Counted s'
  view_of_mem : ∀ key v, (key, v) ∈ items →
    view s' key = ((view s key).add py s.nSampleValues v).1
  view_of_notMem : ∀ key, key ∉ items.map Prod.fst → view s' key = view s key

variable {py}

theorem Updates.nil (s : MetadataStats V) : Updates py s s [] :=
  ⟨⟨rfl, rfl, rfl, rfl, rfl, rfl⟩, fun hs => hs, fun _ _ h => absurd h List.not_mem_nil,
    fun _ _ => rfl⟩

/-- The statistics of the keys that come after a value are as they were. -/
theorem Moves.view_of_mem {s s' : MetadataStats V} {key : PyStr} {ks : KeyStats V}
    (h : Moves s s' key ks) {items : List (PyStr × V)} (hkey : key ∉ items.map Prod.fst)
    {j : PyStr} {w : V} (hmem : (j, w) ∈ items) : view s' j = view s j := by
  have hne : j ≠ key := fun heq => hkey (List.mem_map.mpr ⟨(j, w), hmem, heq⟩)
  rw [h.view_eq, if_neg hne]

/-- A value, and the values that come after it. -/
theorem Updates.cons {s s' s'' : MetadataStats V} {key : PyStr} {v : V}
    {items : List (PyStr × V)} (hkey : key ∉ items.map Prod.fst)
    (hmoves : Moves s s' key ((view s key).add py s.nSampleValues v).1)
    (h : Updates py s' s'' items) : Updates py s s'' ((key, v) :: items) where
  sameRecords := hmoves.sameRecords.trans h.sameRecords
  counted hs := h.counted (hmoves.counted hs)
  view_of_mem j w hmem := by
    rcases List.mem_cons.mp hmem with heq | hmem
    · obtain ⟨rfl, rfl⟩ := Prod.mk.inj heq
      rw [h.view_of_notMem _ hkey]
      exact hmoves.view_self
    · rw [h.view_of_mem j w hmem, hmoves.view_of_mem hkey hmem, hmoves.sameRecords.nSampleValues]
  view_of_notMem j hj := by
    rw [List.map_cons, List.mem_cons, not_or] at hj
    rw [h.view_of_notMem j hj.2, hmoves.view_eq, if_neg hj.1]

variable (py)

/-- The values of a record raise when one of them raises, each at the statistics that its key had
before the record. -/
theorem updateItems_spec {items : List (PyStr × V)} (hnodup : (items.map Prod.fst).Nodup)
    (s : MetadataStats V) :
    ((updateItems py s items).2 = .ok () ↔
      ∀ key v, (key, v) ∈ items → ((view s key).add py s.nSampleValues v).2 = .ok ()) ∧
    ((updateItems py s items).2 = .ok () → Updates py s (updateItems py s items).1 items) := by
  induction items generalizing s with
  | nil =>
    exact ⟨iff_of_true rfl fun key v h => absurd h List.not_mem_nil, fun _ => .nil s⟩
  | cons item items ih =>
    obtain ⟨key, v⟩ := item
    obtain ⟨hkey, hnodup⟩ := List.nodup_cons.mp hnodup
    obtain ⟨hraises, hmoves⟩ := updateItem_spec py s key v
    rcases hitem : updateItem py s (key, v) with ⟨s', e | u⟩
    · -- the first value raises
      rw [hitem] at hraises
      have hall : updateItems py s ((key, v) :: items) = (s', .error e) := by
        rw [updateItems, hitem]
      rw [hall]
      refine ⟨iff_of_false error_ne_ok fun h => ?_, fun h => absurd h error_ne_ok⟩
      exact error_ne_ok (hraises.trans (h key v List.mem_cons_self))
    · rw [hitem] at hraises hmoves
      have hall : updateItems py s ((key, v) :: items) = updateItems py s' items := by
        rw [updateItems, hitem]
      obtain ⟨hiff, hrest⟩ := ih hnodup s'
      have hn : s'.nSampleValues = s.nSampleValues := hmoves.sameRecords.nSampleValues
      rw [hall]
      refine ⟨?_, fun hok => .cons hkey hmoves (hrest hok)⟩
      rw [hiff, hn]
      constructor
      · intro h j w hmem
        rcases List.mem_cons.mp hmem with heq | hmem
        · obtain ⟨rfl, rfl⟩ := Prod.mk.inj heq
          exact hraises.symm
        · rw [← hmoves.view_of_mem hkey hmem]
          exact h j w hmem
      · intro h j w hmem
        rw [hmoves.view_of_mem hkey hmem]
        exact h j w (List.mem_cons_of_mem _ hmem)

/-- What a record does to the statistics. -/
theorem update_spec (s : MetadataStats V) (record : Record V) :
    ((update py s record).2 = .ok () ↔
      ∀ key v, record.metadata.get? key = some v →
        ((view s key).add py s.nSampleValues v).2 = .ok ()) ∧
    ((update py s record).2 = .ok () →
      SameRecords (countRecord s record.metadata) (update py s record).1 ∧
      (Counted s → Counted (update py s record).1) ∧
      (∀ key v, record.metadata.get? key = some v →
        view (update py s record).1 key = ((view s key).add py s.nSampleValues v).1) ∧
      ∀ key, record.metadata.get? key = none → view (update py s record).1 key = view s key) := by
  obtain ⟨hiff, hrest⟩ :=
    updateItems_spec py record.metadata.nodup (countRecord s record.metadata)
  simp only [← Dict.get?_eq_some_iff] at hiff
  refine ⟨hiff, fun hok => ?_⟩
  obtain ⟨hsame, hcounted, hin, hout⟩ := hrest hok
  exact ⟨hsame, hcounted, fun key v hv => hin key v (Dict.get?_eq_some_iff.mp hv),
    fun key hnone => hout key (Dict.get?_eq_none_iff.mp hnone)⟩

end MetadataStats

end Analysis

end Persista
