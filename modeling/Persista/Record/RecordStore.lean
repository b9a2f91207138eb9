import Persista.Json.Equality
import Persista.Store.Backends

/-!
# `RecordStore` over any store

`record/store/record.py`. A record store keeps the metadata of a record as a value under its id, in
any store. Of records with the same id `set_many` keeps the last, `get_many` zips the ids with the
values strictly, and `filter` scans the store when the store has no `filter_items`.

Over a store that is a map, a record store is a map from ids to records, each under its own id.

## Main results

* `Records.refines` — a write call is the operation on the map of records
* `Records.record_store_law` — over every run, the answers are those of the map
* `Records.filter_eq_iff` — when the scan is `filter_by_metadata` of all records
-/

namespace Persista

namespace Records

open Json BaseStore

/-- A record, its id a key of the store. -/
structure Record (K : Type) where
  id : K
  metadata : Dict PyStr PyVal

variable {σ K : Type} (store : BaseStore σ K (Dict PyStr PyVal))

/-! ### The calls -/

/-- `_to_value(record)`. -/
def toValue (record : Record K) : Dict PyStr PyVal := record.metadata

/-- `_from_value(record_id, value)`. -/
def fromValue (recordId : K) (value : Dict PyStr PyVal) : Record K := ⟨recordId, value⟩

/-- `zip(a, b, strict=True)`, run to its end. -/
def zipStrict {A B : Type} (a : List A) (b : List B) : Except (StoreError K) (List (A × B)) :=
  if b.length < a.length then .error (.valueError "zip() argument 2 is shorter than argument 1")
  else if a.length < b.length then
    .error (.valueError "zip() argument 2 is longer than argument 1")
  else .ok (a.zip b)

/-- `{record.id: self._to_value(record) for record in records}`. -/
def items [LinearOrder K] (records : List (Record K)) : Dict K (Dict PyStr PyVal) :=
  .ofList (records.map fun record => (record.id, toValue record))

/-- `get`. -/
def get (s : σ) (recordId : K) : Except (StoreError K) (Option (Record K)) := do
  let value ← store.get s recordId
  return value.map (fromValue recordId)

/-- `get_many`. -/
def getMany (s : σ) (recordIds : List K) : Except (StoreError K) (List (Option (Record K))) := do
  let values ← store.getMany s recordIds
  let pairs ← zipStrict recordIds values
  return pairs.map fun pair => pair.2.map (fromValue pair.1)

/-- The records of a batch. -/
def batchRecords (batch : Dict K (Dict PyStr PyVal)) : List (Record K) :=
  batch.entries.map fun item => fromValue item.1 item.2

/-- `iter_batches`, run to its end. -/
def iterBatches (s : σ) (batchSize : ℤ) : Except (StoreError K) (List (List (Record K))) := do
  let batches ← store.iterBatches s batchSize
  return batches.map batchRecords

/-- `values`: `for batch in self.iter_batches(batch_size): yield from batch`. -/
def values (s : σ) (batchSize : ℤ) : Except (StoreError K) (List (Record K)) := do
  let batches ← iterBatches store s batchSize
  return batches.flatten

section Filter

variable {N : Type} [DecidableEq N] (num : Numbers N)

/-- `_matches(record, metadata_filters)`. -/
def «matches» (record : Record K) (filters : Dict PyStr PyVal) : Bool :=
  filters.entries.all fun field => ((record.metadata.get? field.1).getD .none).eq num field.2

/-- `filter`, on a store without `filter_items`. -/
def filter (s : σ) (filters : Dict PyStr PyVal) : Except (StoreError K) (List (Record K)) := do
  let batches ← store.iterBatches s 32
  return batches.flatMap fun batch =>
    (batchRecords batch).filter fun record => «matches» num record filters

/-- `filter_by_metadata(records, metadata_key, value)`. `_MISSING` equals no value. -/
def filterByMetadata (records : List (Record K)) (metadataKey : PyStr) (value : PyVal) :
    List (Record K) :=
  records.filter fun record =>
    match record.metadata.get? metadataKey with
    | some v => v.eq num value
    | none => false

end Filter

/-- The write calls of a record store. -/
inductive Call (K : Type)
  | setMany (records : List (Record K))
  | delete (recordId : K)
  | deleteMany (recordIds : List K)
  | clear

/-- What a write call asks of the store. -/
def Call.op [LinearOrder K] : Call K → StoreOp K (Dict PyStr PyVal)
  | .setMany records => .setMany (items records) .overwrite
  | .delete recordId => .delete recordId
  | .deleteMany recordIds => .deleteMany recordIds
  | .clear => .clear

/-- The write calls, dispatched. -/
def exec [LinearOrder K] (s : σ) (call : Call K) : Except (StoreError K) σ := store.exec s call.op

/-! ### A map of records -/

/-- What a record store is for: a record under its id. -/
abbrev RecordMap (K : Type) := K → Option (Record K)

/-- A write call on a map of records. -/
def RecordMap.exec [LinearOrder K] (m : RecordMap K) : Call K → RecordMap K
  | .setMany records => records.foldl (fun m record => Function.update m record.id (some record)) m
  | .delete recordId => fun id => if id = recordId then none else m id
  | .deleteMany recordIds => fun id => if id ∈ recordIds then none else m id
  | .clear => fun _ => none

/-- The records are those of the map, each once. -/
structure ListsRecords (m : RecordMap K) (records : List (Record K)) : Prop where
  nodup : (records.map Record.id).Nodup
  mem_iff : ∀ record, record ∈ records ↔ m record.id = some record

/-- The read calls answer from a map of records. -/
structure Answers {N : Type} [DecidableEq N] (num : Numbers N) (s : σ) (m : RecordMap K) :
    Prop where
  get (recordId : K) : get store s recordId = .ok (m recordId)
  getMany (recordIds : List K) : getMany store s recordIds = .ok (recordIds.map m)
  contains (recordId : K) : store.contains s recordId = .ok (m recordId).isSome
  containsMany (recordIds : List K) :
    store.containsMany s recordIds = .ok (recordIds.map fun id => (m id).isSome)
  keys : ∃ ids, store.keys s = .ok ids ∧ ids.Nodup ∧ ∀ id, id ∈ ids ↔ (m id).isSome
  count : ∃ records, ListsRecords m records ∧ store.count s = .ok records.length
  iterBatches (batchSize : ℤ) (hb : 1 ≤ batchSize) :
    ∃ batches, iterBatches store s batchSize = .ok batches ∧ ListsRecords m batches.flatten ∧
      ∀ batch ∈ batches, batch.length ≤ batchSize.toNat
  filter (filters : Dict PyStr PyVal) :
    ∃ records, ListsRecords m records ∧
      filter store num s filters = .ok (records.filter fun record => «matches» num record filters)

/-! ### The map behind a map of values -/

/-- The records that some values are. -/
def recordsOf (m : Contents K (Dict PyStr PyVal)) : RecordMap K := fun id =>
  (m id).map (fromValue id)

theorem isSome_recordsOf {m : Contents K (Dict PyStr PyVal)} (id : K) :
    (recordsOf m id).isSome = (m id).isSome := Option.isSome_map

/-- Every record is kept under its own id. -/
theorem recordsOf_eq_some_iff {m : Contents K (Dict PyStr PyVal)} {record : Record K} :
    recordsOf m record.id = some record ↔ m record.id = some record.metadata := by
  rw [recordsOf, Option.map_eq_some_iff]
  constructor
  · rintro ⟨value, hvalue, heq⟩
    rw [hvalue, ← heq, fromValue]
  · intro hvalue
    exact ⟨record.metadata, hvalue, rfl⟩

/-! ### The read calls -/

variable {store}

theorem zipStrict_map {A B : Type} (a : List A) (f : A → B) :
    (zipStrict a (a.map f) : Except (StoreError K) _) = .ok (a.map fun x => (x, f x)) := by
  rw [zipStrict, List.length_map, if_neg (Nat.lt_irrefl _), if_neg (Nat.lt_irrefl _),
    List.map_prod_left_eq_zip]

theorem get_eq {s : σ} {m : Contents K (Dict PyStr PyVal)} (h : Reads store s m) (recordId : K) :
    get store s recordId = .ok (recordsOf m recordId) := by
  rw [get, h.get]
  rfl

theorem getMany_eq {s : σ} {m : Contents K (Dict PyStr PyVal)} (h : Reads store s m)
    (recordIds : List K) : getMany store s recordIds = .ok (recordIds.map (recordsOf m)) := by
  rw [getMany, h.getMany, Refinement.ok_bind, zipStrict_map, Refinement.ok_bind]
  refine congrArg Except.ok ?_
  rw [List.map_map]
  rfl

theorem map_id_batchRecords (batch : Dict K (Dict PyStr PyVal)) :
    (batchRecords batch).map Record.id = batch.keys := by
  rw [batchRecords, List.map_map]
  rfl

/-- The records of batches that yield a map. -/
theorem listsRecords_of_yields {m : Contents K (Dict PyStr PyVal)} {batchSize : ℕ}
    {batches : List (Dict K (Dict PyStr PyVal))} (h : Yields m batchSize batches) :
    ListsRecords (recordsOf m) (batches.map batchRecords).flatten where
  nodup := by
    rw [← List.flatMap_def, List.map_flatMap]
    simp only [map_id_batchRecords]
    exact h.nodup
  mem_iff record := by
    rw [recordsOf_eq_some_iff, ← h.mem_iff, ← List.flatMap_def, List.mem_flatMap,
      List.mem_flatMap]
    refine exists_congr fun batch => and_congr_right fun _ => ?_
    rw [batchRecords, List.mem_map]
    constructor
    · rintro ⟨⟨id, value⟩, hmem, rfl⟩
      exact hmem
    · intro hmem
      exact ⟨_, hmem, rfl⟩

/-- The ids of records that are listed are the keys. -/
theorem ListsRecords.length_eq {m : Contents K (Dict PyStr PyVal)} {records : List (Record K)}
    {keys : List K} (h : ListsRecords (recordsOf m) records) (hkeys : Lists m keys) :
    records.length = keys.length := by
  have hids : Lists m (records.map Record.id) := by
    refine ⟨h.nodup, fun id => ?_⟩
    rw [← isSome_recordsOf, Option.isSome_iff_exists, List.mem_map]
    constructor
    · rintro ⟨record, hmem, rfl⟩
      exact ⟨record, (h.mem_iff record).mp hmem⟩
    · rintro ⟨record, hget⟩
      obtain ⟨value, -, rfl⟩ := Option.map_eq_some_iff.mp hget
      exact ⟨fromValue id value, (h.mem_iff _).mpr hget, rfl⟩
  rw [← List.length_map Record.id, hids.length_eq hkeys]

section Scan

variable {N : Type} [DecidableEq N] (num : Numbers N)

/-- The scan of `filter` is that of `values`. -/
theorem filter_eq (s : σ) (filters : Dict PyStr PyVal) :
    filter store num s filters = (values store s 32).map fun records =>
      records.filter fun record => «matches» num record filters := by
  rw [filter, values, iterBatches]
  cases store.iterBatches s 32 with
  | error e => rfl
  | ok batches =>
    refine congrArg Except.ok ?_
    simp only [List.filter_flatten, List.map_map, List.flatMap_def]
    rfl

/-- **The read calls of a store that reads as a map.** -/
theorem answers {s : σ} {m : Contents K (Dict PyStr PyVal)} (h : Reads store s m) :
    Answers store num s (recordsOf m) where
  get := get_eq h
  getMany := getMany_eq h
  contains recordId := by rw [h.contains, isSome_recordsOf]
  containsMany recordIds := by
    rw [h.containsMany]
    exact congrArg Except.ok (List.map_congr_left fun id _ => (isSome_recordsOf id).symm)
  keys := by
    obtain ⟨ids, hids, hlists⟩ := h.keys
    exact ⟨ids, hids, hlists.nodup, fun id => by rw [hlists.mem_iff, isSome_recordsOf]⟩
  count := by
    obtain ⟨ids, hcount, hlists⟩ := h.count
    obtain ⟨batches, -, hyields⟩ := h.iterBatches 1 le_rfl
    have hrecords := listsRecords_of_yields hyields
    exact ⟨_, hrecords, by rw [hcount, hrecords.length_eq hlists]⟩
  iterBatches batchSize hb := by
    obtain ⟨batches, hbatches, hyields⟩ := h.iterBatches batchSize hb
    refine ⟨batches.map batchRecords, ?_, listsRecords_of_yields hyields, fun batch hmem => ?_⟩
    · rw [iterBatches, hbatches]
      rfl
    · obtain ⟨batch, hbatch, rfl⟩ := List.mem_map.mp hmem
      rw [batchRecords, List.length_map]
      exact hyields.length_le batch hbatch
  filter filters := by
    obtain ⟨batches, hbatches, hyields⟩ := h.iterBatches 32 (by decide)
    refine ⟨_, listsRecords_of_yields hyields, ?_⟩
    rw [filter_eq, values, iterBatches, hbatches]
    rfl

variable {num}

/-- A field that is missing is compared as `None`. -/
theorem matches_singleton (record : Record K) (metadataKey : PyStr) (value : PyVal) :
    «matches» num record (Dict.ofList [(metadataKey, value)]) =
      match record.metadata.get? metadataKey with
      | some v => v.eq num value
      | none => PyVal.none.eq num value := by
  simp only [«matches», Dict.ofList, Dict.setAll_cons, Dict.setAll_nil, Dict.set,
    Dict.entries_empty, Dict.setList, List.all_cons, List.all_nil, Bool.and_true]
  cases record.metadata.get? metadataKey with
  | none => rfl
  | some v => rfl

end Scan

/-! ### The write calls -/

variable [LinearOrder K]

/-- Writing a dictionary writes the pairs it was made of, one after the other. -/
theorem write_ofList {V : Type} (m : Contents K V) (pairs : List (K × V)) :
    m.write (Dict.ofList pairs).entries = m.write pairs := by
  have aux : ∀ (pairs : List (K × V)) (d : Dict K V) (k : K),
      ((d.setAll pairs).get? k).or (m k) =
        Contents.write (fun k => (d.get? k).or (m k)) pairs k := by
    intro pairs
    induction pairs with
    | nil => exact fun _ _ => rfl
    | cons pair pairs ih =>
      intro d k
      rw [Dict.setAll_cons, ih, Contents.write_cons]
      congr 1
      funext j
      rw [Dict.get?_set, Function.update_apply]
      split
      · rfl
      · rfl
  funext k
  rw [Contents.write_entries, Dict.ofList, aux]
  rfl

theorem recordsOf_write (m : Contents K (Dict PyStr PyVal)) (records : List (Record K)) :
    recordsOf (m.write (records.map fun record => (record.id, toValue record))) =
      (recordsOf m).exec (.setMany records) := by
  induction records generalizing m with
  | nil => rfl
  | cons record records ih =>
    rw [List.map_cons, Contents.write_cons, ih]
    change List.foldl _ _ records = List.foldl _ (Function.update (recordsOf m) _ _) records
    congr 1
    funext id
    rw [recordsOf, Function.update_apply, Function.update_apply, recordsOf]
    split
    · next h =>
      rw [h]
      rfl
    · rfl

/-- **A write call** never raises, and is the operation on the map of records. -/
theorem recordsOf_exec (m : Contents K (Dict PyStr PyVal)) (call : Call K) :
    ∃ m', m.exec call.op = .ok m' ∧ recordsOf m' = (recordsOf m).exec call := by
  cases call with
  | setMany records =>
    have hset : m.setMany (items records) .overwrite = .ok (m.write (items records).entries) :=
      if_pos rfl
    refine ⟨_, hset, ?_⟩
    rw [items, write_ofList, recordsOf_write]
  | delete recordId =>
    refine ⟨_, rfl, funext fun id => ?_⟩
    simp only [recordsOf, Contents.delete, RecordMap.exec, List.mem_singleton]
    split
    · rfl
    · rfl
  | deleteMany recordIds =>
    refine ⟨_, rfl, funext fun id => ?_⟩
    simp only [recordsOf, Contents.delete, RecordMap.exec]
    split
    · rfl
    · rfl
  | clear => exact ⟨_, rfl, rfl⟩

/-! ### The law -/

section Law

variable {contents : σ → Contents K (Dict PyStr PyVal)} {Good : σ → Prop} {N : Type}
  [DecidableEq N] (num : Numbers N)

/-- **One write call.** -/
theorem step (h : IsMap store contents Good) {s : σ} (hs : Good s) (call : Call K) :
    ∃ s', exec store s call = .ok s' ∧ Good s' ∧
      recordsOf (contents s') = (recordsOf (contents s)).exec call := by
  obtain ⟨m, hm, hrecords⟩ := recordsOf_exec (contents s) call
  have hcomm : (store.exec s call.op).map contents = (contents s).exec call.op := h.refines.comm hs
  rw [hm] at hcomm
  cases he : store.exec s call.op with
  | error e =>
    rw [he] at hcomm
    cases hcomm
  | ok s' =>
    rw [he] at hcomm
    obtain rfl := Except.ok.inj hcomm
    exact ⟨s', he, h.refines.inv hs he, hrecords⟩

/-- A run of write calls: none raises, and the records are those of the same run on a map. -/
theorem run (h : IsMap store contents Good) {s : σ} (hs : Good s) (calls : List (Call K)) :
    ∃ s', Refinement.runOps (exec store) s calls = (s', calls.map fun _ => .ok ()) ∧ Good s' ∧
      recordsOf (contents s') = calls.foldl RecordMap.exec (recordsOf (contents s)) := by
  induction calls generalizing s with
  | nil => exact ⟨s, rfl, hs, rfl⟩
  | cons call calls ih =>
    obtain ⟨s', hs', hgood, hrecords⟩ := step h hs call
    obtain ⟨s'', hrun, hgood', hrecords'⟩ := ih hgood
    refine ⟨s'', ?_, hgood', ?_⟩
    · simp only [Refinement.runOps, hs', Refinement.attempt, hrun]
      rfl
    · rw [hrecords', List.foldl_cons, hrecords]

/-- **A record store over a store that is a map.** Over every run of write calls none raises, and
what the record store is asked afterwards it answers from the map of records of the same run. -/
theorem record_store_law (h : IsMap store contents Good) {s : σ} (hs : Good s)
    (calls : List (Call K)) :
    ∃ s', Refinement.runOps (exec store) s calls = (s', calls.map fun _ => .ok ()) ∧
      Answers store num s' (calls.foldl RecordMap.exec (recordsOf (contents s))) := by
  obtain ⟨s', hrun, hgood, hrecords⟩ := run h hs calls
  exact ⟨s', hrun, hrecords ▸ answers num (h.reads hgood)⟩

/-- Numbers, as far as there are no floats. -/
def wholeNumbers : Numbers ℤ := ⟨fun n => n, fun _ => 0⟩

/-- Two records with one id, and a third one that is deleted. -/
def threeRecords : List (Call String) :=
  [.setMany [⟨"a", ∅⟩, ⟨"b", ∅⟩, ⟨"a", .ofList [(ofString "page", .int 1)]⟩], .delete "b"]

theorem record_store_law_memory :
    ∃ s', Refinement.runOps (exec (InMemoryStore.baseStore byPosition))
        InMemoryStore.init.open threeRecords = (s', [.ok (), .ok ()]) ∧
      Answers (InMemoryStore.baseStore byPosition) wholeNumbers s'
        (threeRecords.foldl RecordMap.exec fun _ => none) :=
  record_store_law wholeNumbers (InMemoryStore.isMap byPosition) InMemoryStore.opened_open_init
    threeRecords

/-- **Two ways to filter on one field.** The scan of `filter` also finds the records without the
field when the value is `None`; `filter_by_metadata` of all records does not. They agree when the
value is another one or every record has the field. -/
theorem filter_eq_iff (h : IsMap store contents Good) {s : σ} (hs : Good s) (metadataKey : PyStr)
    (value : PyVal) :
    filter store num s (Dict.ofList [(metadataKey, value)]) =
        (values store s 32).map (fun records => filterByMetadata num records metadataKey value) ↔
      (value = .none → ∀ id record, recordsOf (contents s) id = some record →
        metadataKey ∈ record.metadata.keys) := by
  obtain ⟨batches, hbatches, hlists, -⟩ := (answers num (h.reads hs)).iterBatches 32 (by decide)
  have hvalues : values store s 32 = .ok batches.flatten := by
    rw [values, hbatches]
    rfl
  have hown : ∀ {id record}, recordsOf (contents s) id = some record →
      record ∈ batches.flatten := by
    intro id record hrecord
    obtain ⟨metadata, hmetadata, rfl⟩ := Option.map_eq_some_iff.mp hrecord
    exact (hlists.mem_iff _).mpr hrecord
  rw [filter_eq, hvalues, Refinement.map_ok, Refinement.map_ok, Except.ok.injEq]
  constructor
  · intro heq hvalue id record hrecord
    by_contra hno
    have hmem : record ∈ batches.flatten.filter fun record =>
        «matches» num record (Dict.ofList [(metadataKey, value)]) := by
      refine List.mem_filter.mpr ⟨hown hrecord, ?_⟩
      rw [matches_singleton, Dict.get?_eq_none_iff.mpr hno]
      exact (none_eq_iff num).mpr hvalue
    rw [heq, filterByMetadata, List.mem_filter, Dict.get?_eq_none_iff.mpr hno] at hmem
    exact Bool.noConfusion hmem.2
  · intro hall
    refine List.filter_congr fun record hmem => ?_
    rw [matches_singleton]
    cases hget : record.metadata.get? metadataKey with
    | some v => rfl
    | none =>
      rw [Bool.eq_false_iff]
      intro hnone
      have hkey := hall ((none_eq_iff num).mp hnone) record.id record
        ((hlists.mem_iff record).mp hmem)
      exact Dict.get?_eq_none_iff.mp hget hkey

/-- A record with a page, and a record without metadata. -/
def oneWithPage : InMemoryStore String (Dict PyStr PyVal) :=
  ⟨Dict.ofList [("a", Dict.ofList [(ofString "page", .int 1)]), ("b", ∅)], false⟩

theorem filter_eq_iff_memory :
    filter (InMemoryStore.baseStore byPosition) wholeNumbers oneWithPage
        (Dict.ofList [(ofString "page", .int 1)]) =
      (values (InMemoryStore.baseStore byPosition) oneWithPage 32).map (fun records =>
        filterByMetadata wholeNumbers records (ofString "page") (.int 1)) ∧
    ¬ filter (InMemoryStore.baseStore byPosition) wholeNumbers oneWithPage
        (Dict.ofList [(ofString "page", .none)]) =
      (values (InMemoryStore.baseStore byPosition) oneWithPage 32).map (fun records =>
        filterByMetadata wholeNumbers records (ofString "page") .none) := by
  constructor
  · exact (filter_eq_iff wholeNumbers (InMemoryStore.isMap byPosition)
      (s := oneWithPage) rfl (ofString "page") (.int 1)).mpr fun hnone => by cases hnone
  · intro heq
    have hall := (filter_eq_iff wholeNumbers (InMemoryStore.isMap byPosition)
      (s := oneWithPage) rfl (ofString "page") .none).mp heq rfl
    exact absurd (hall "b" ⟨"b", ∅⟩ rfl) (by decide)

end Law

end Records

end Persista
