import Persista.Record.MetadataReference

/-!
# `compute_schema_shapes`

`record/analysis/schema_shapes.py` groups the ids of records under the sorted keys of their
metadata. The shapes say more than `compute_metadata_stats`, which counts key by key: what that
report says of how many records there are, of how many keys they have and of how often each key is
there can be read off them.

## Main results

* `Analysis.isShapes` — the groups are the records with the same set of keys
* `Analysis.schema_shapes_law` — the report of `compute_metadata_stats`, read off the shapes
-/

namespace Persista

namespace Analysis

open Json Grouping

variable {V Ty : Type}

/-- `tuple(sorted(record.metadata.keys()))`. -/
def shape (record : Record V) : List PyStr := sortedBy id record.metadata.keys

/-- `compute_schema_shapes(records)`. -/
def computeSchemaShapes (records : List (Record V)) : Dict (List PyStr) (List PyStr) :=
  groupAll (records.map fun record => (shape record, record.id))

/-! ### The shapes -/

/-- The ids of these records, each under the keys of its record, in the order they came. -/
structure IsShapes (records : List (Record V)) (shapes : Dict (List PyStr) (List PyStr)) :
    Prop where
  same : ∀ record ∈ records, ∀ record' ∈ records, shape record = shape record' ↔
    ∀ key, key ∈ record.metadata.keys ↔ key ∈ record'.metadata.keys
  keys : ∀ s, s ∈ shapes.keys ↔ ∃ record ∈ records, shape record = s
  group : ∀ s ids, shapes.get? s = some ids →
    ids = (records.filter fun record => decide (shape record = s)).map Record.id
  all : shapes.values.flatten.Perm (records.map Record.id)

theorem mem_shape {record : Record V} {key : PyStr} :
    key ∈ shape record ↔ key ∈ record.metadata.keys :=
  (MetadataStats.perm_sortedBy id record.metadata.keys).mem_iff

theorem length_shape (record : Record V) : (shape record).length = record.metadata.length :=
  (MetadataStats.perm_sortedBy id record.metadata.keys).length_eq.trans (Dict.length_keys _)

/-- A shape is the set of its keys. -/
theorem shape_eq_iff {record record' : Record V} :
    shape record = shape record' ↔
      ∀ key, key ∈ record.metadata.keys ↔ key ∈ record'.metadata.keys := by
  constructor
  · intro h key
    rw [← mem_shape, h, mem_shape]
  · intro h
    have hperm : record.metadata.keys.Perm record'.metadata.keys :=
      (List.perm_ext_iff_of_nodup record.metadata.nodup record'.metadata.nodup).mpr h
    have hsorted : ∀ record : Record V, (shape record).Pairwise (· ≤ ·) := fun record =>
      List.pairwise_insertionSort (· ≤ ·) _
    refine List.Perm.eq_of_pairwise' (hsorted record) (hsorted record') ?_
    exact ((MetadataStats.perm_sortedBy id _).trans hperm).trans
      (MetadataStats.perm_sortedBy id _).symm

theorem isShapes (records : List (Record V)) : IsShapes records (computeSchemaShapes records) := by
  refine ⟨fun record _ record' _ => shape_eq_iff, fun s => ?_, fun s ids hids => ?_, ?_⟩
  · rw [computeSchemaShapes, mem_keys_groupAll, List.map_map, List.mem_map]
    rfl
  · have hgroup := getD_groupAll (records.map fun record => (shape record, record.id)) s
    rw [computeSchemaShapes] at hids
    rw [hids, Option.getD_some] at hgroup
    rw [hgroup, List.filter_map, List.map_map]
    rfl
  · have hperm := (perm_ungroup (records.map fun record => (shape record, record.id))).map Prod.snd
    rw [List.map_flatMap, List.map_map] at hperm
    refine List.Perm.trans (List.Perm.of_eq ?_) hperm
    rw [computeSchemaShapes, Dict.values, ← List.flatMap_def]
    refine List.flatMap_congr fun g _ => ?_
    rw [List.map_map]
    exact (List.map_id _).symm

/-! ### The report, read off the shapes -/

open MetadataStats

/-- What a report of `compute_metadata_stats` has in common with the shapes. -/
structure ReadOff (shapes : Dict (List PyStr) (List PyStr)) (report : Report V) : Prop where
  count : report.count = (shapes.entries.map fun g => g.2.length).sum
  missing : report.missingMetadataCount = ((shapes.get? []).getD []).length
  avgKeys : report.avgKeys = if report.count ≠ 0 then
    (((shapes.entries.map fun g => g.1.length * g.2.length).sum : ℕ) : ℚ) / report.count else 0
  minKeys : IsMin (shapes.keys.map List.length) report.minKeys
  maxKeys : IsMax (shapes.keys.map List.length) report.maxKeys
  keys : ∀ key, key ∈ report.perKey.keys ↔ ∃ s ∈ shapes.keys, key ∈ s
  present : ∀ key keyReport, report.perKey.get? key = some keyReport →
    keyReport.presentInRecords =
      (shapes.entries.map fun g => if key ∈ g.1 then g.2.length else 0).sum

theorem eq_nil_congr {ns ns' : List ℕ} (h : ∀ n, n ∈ ns ↔ n ∈ ns') (hns : ns = []) : ns' = [] :=
  List.eq_nil_iff_forall_not_mem.mpr fun n hn => by
    rw [← h, hns] at hn
    exact List.not_mem_nil hn

theorem isMin_congr {ns ns' : List ℕ} (h : ∀ n, n ∈ ns ↔ n ∈ ns') {least : Option ℕ}
    (hmin : IsMin ns least) : IsMin ns' least := by
  cases least with
  | none => exact eq_nil_congr h hmin
  | some m => exact ⟨(h m).mp hmin.1, fun n hn => hmin.2 n ((h n).mpr hn)⟩

theorem isMax_congr {ns ns' : List ℕ} (h : ∀ n, n ∈ ns ↔ n ∈ ns') {greatest : Option ℕ}
    (hmax : IsMax ns greatest) : IsMax ns' greatest := by
  cases greatest with
  | none => exact eq_nil_congr h hmax
  | some m => exact ⟨(h m).mp hmax.1, fun n hn => hmax.2 n ((h n).mpr hn)⟩

/-- The lengths of the shapes are those of the records. -/
theorem mem_lengths (records : List (Record V)) (n : ℕ) :
    n ∈ records.map (fun record => record.metadata.length) ↔
      n ∈ (computeSchemaShapes records).keys.map List.length := by
  rw [List.mem_map, List.mem_map]
  constructor
  · rintro ⟨record, hrecord, rfl⟩
    exact ⟨shape record, ((isShapes records).keys _).mpr ⟨record, hrecord, rfl⟩,
      length_shape record⟩
  · rintro ⟨s, hs, rfl⟩
    obtain ⟨record, hrecord, rfl⟩ := ((isShapes records).keys s).mp hs
    exact ⟨record, hrecord, (length_shape record).symm⟩

/-- A number of each shape, for every record. -/
theorem sum_shapes (f : List PyStr → ℕ) (records : List (Record V)) :
    ((computeSchemaShapes records).entries.map fun g => f g.1 * g.2.length).sum =
      (records.map fun record => f (shape record)).sum := by
  rw [computeSchemaShapes, sum_groups, List.map_map]
  rfl

theorem length_valuesOf (records : List (Record V)) (key : PyStr) :
    (valuesOf records key).length =
      (records.map fun record => if key ∈ shape record then 1 else 0).sum := by
  induction records with
  | nil => rfl
  | cons record records ih =>
    rw [List.map_cons, List.sum_cons, ← ih, valuesOf, List.filterMap_cons]
    by_cases hkey : key ∈ record.metadata.keys
    · obtain ⟨v, hv⟩ := Option.isSome_iff_exists.mp (Dict.isSome_get?_iff.mpr hkey)
      rw [hv, if_pos (mem_shape.mpr hkey), List.length_cons, Nat.add_comm]
      rfl
    · rw [Dict.get?_eq_none_iff.mpr hkey, if_neg fun h => hkey (mem_shape.mp h), Nat.zero_add]
      rfl

theorem valuesOf_ne_nil_iff (records : List (Record V)) (key : PyStr) :
    valuesOf records key ≠ [] ↔ ∃ s ∈ (computeSchemaShapes records).keys, key ∈ s := by
  constructor
  · intro h
    obtain ⟨v, hv⟩ := List.exists_mem_of_ne_nil _ h
    obtain ⟨record, hrecord, hget⟩ := List.mem_filterMap.mp hv
    refine ⟨shape record, ((isShapes records).keys _).mpr ⟨record, hrecord, rfl⟩, ?_⟩
    exact mem_shape.mpr (Dict.isSome_get?_iff.mp (by rw [hget]; rfl))
  · rintro ⟨s, hs, hkey⟩
    obtain ⟨record, hrecord, rfl⟩ := ((isShapes records).keys s).mp hs
    obtain ⟨v, hv⟩ := Option.isSome_iff_exists.mp (Dict.isSome_get?_iff.mpr (mem_shape.mp hkey))
    exact List.ne_nil_of_mem (List.mem_filterMap.mpr ⟨record, hrecord, hv⟩)

/-- **The report of `compute_metadata_stats`, read off the shapes**: how many records there are, how
many of them have no metadata, how many keys they have on average, at least and at most, which keys
there are, and how many records have each. -/
theorem schema_shapes_law (py : Objects V Ty) (nSampleValues : Option ℕ)
    (records : List (Record V)) (stats : MetadataStats V)
    (hrun : updateAll py (init nSampleValues) records = (stats, .ok ())) (report : Report V)
    (hdict : toDict py stats = some report) :
    IsShapes records (computeSchemaShapes records) ∧
      ReadOff (computeSchemaShapes records) report := by
  obtain ⟨hiff, hreads⟩ := updateAll_spec py nSampleValues records
  rw [hrun] at hiff hreads
  have hreport := isReport (hreads rfl) (hiff.mp rfl) hdict
  have hcount : report.count =
      ((computeSchemaShapes records).entries.map fun g => g.2.length).sum := by
    have hsum := sum_shapes (fun _ => 1) records
    simp only [Nat.one_mul] at hsum
    rw [hreport.count, hsum]
    simp
  refine ⟨isShapes records, hcount, ?_, ?_, isMin_congr (mem_lengths records) hreport.minKeys,
    isMax_congr (mem_lengths records) hreport.maxKeys, fun key => ?_, fun key keyReport hkey => ?_⟩
  · rw [hreport.missing, computeSchemaShapes, getD_groupAll, List.length_map, List.filter_map,
      List.length_map, ← List.countP_eq_length_filter]
    refine List.countP_congr fun record _ => ?_
    show decide (record.metadata.entries = []) = true ↔ decide (shape record = []) = true
    rw [decide_eq_true_iff, decide_eq_true_iff, ← List.length_eq_zero_iff,
      ← List.length_eq_zero_iff, length_shape]
    exact Iff.rfl
  · have hkeys : (records.flatMap fun record => record.metadata.entries).length =
        (records.map fun record => (shape record).length).sum := by
      rw [List.length_flatMap]
      exact congrArg List.sum (List.map_congr_left fun record _ => (length_shape record).symm)
    rw [hreport.avgKeys, hreport.count, sum_shapes List.length, hkeys]
  · obtain ⟨keys, -, hmem, hperKey, -⟩ := hreport.keys
    rw [hperKey, (perm_sortedBy id keys).mem_iff, hmem]
    exact valuesOf_ne_nil_iff records key
  · rw [(hreport.perKey key keyReport hkey).present, length_valuesOf,
      ← sum_shapes fun s => if key ∈ s then 1 else 0]
    refine congrArg List.sum (List.map_congr_left fun g _ => ?_)
    split
    · exact Nat.one_mul _
    · exact Nat.zero_mul _

/-- Two records with a page, and one without. -/
def threeRecords : List (Record Value) :=
  [⟨ofString "a", .ofList [(ofString "source", .str (ofString "a")), (ofString "page", .int 1)]⟩,
    ⟨ofString "b", .ofList [(ofString "page", .int 2), (ofString "source", .str (ofString "b"))]⟩,
    ⟨ofString "c", .ofList [(ofString "source", .str (ofString "c"))]⟩]

theorem schema_shapes_law_three : ∃ stats report,
    updateAll Value.objects (init (some 3)) threeRecords = (stats, .ok ()) ∧
      toDict Value.objects stats = some report ∧
        ReadOff (computeSchemaShapes threeRecords) report :=
  ⟨_, _, rfl, rfl, (schema_shapes_law Value.objects (some 3) threeRecords _ rfl _ rfl).2⟩

end Analysis

end Persista
