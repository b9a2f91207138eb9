import Persista.Store.BaseStore
import Persista.Lib.Snapshot
import Persista.Store.SqliteCoherence

/-!
# The stores on a table: DuckDB and Postgres

`store/duckdb.py` and `store/postgres.py`: one row per key, as in SQLite, and every statement takes
all of its keys at once, as `IN (...)` or `= ANY(...)`. `get_many` and `contains_many` ask for the
rows of some keys and collect what comes back, a row or a key at a time; the database answers in an
order of its own, and a key that is asked for twice is answered once.

The two classes have the same calls. They differ in how rows come in batches: DuckDB is asked for
one sorted page after the other, Postgres has a cursor on the server, whose rows the synchronous
API cuts and the asynchronous one collects. Subclasses differ in the layout of a row.

The table has no other clients here: the locks of a Postgres `set_many` are granted at once, and its
transaction sees what it would see without.

## Main results

* `TableStore.get?_byKey` — what comes back is the value of each key that was asked for
* `TableStore.refines` — a write call on an open store is the operation on what it holds
* `BaseDuckDBStore.cutsRows`, `BasePostgresStore.cutsRows` — batches hold each row once
-/

namespace Persista

variable {K V R : Type}

/-- The order in which a query without `ORDER BY` answers. -/
structure ScanOrder (K R : Type) where
  rows : Table K R → List (K × R)
  perm : ∀ table, (rows table).Perm table.entries

/-- The state of a store on a table: the table and `_closed`. -/
structure TableStore (K R : Type) where
  table : Table K R
  closed : Bool

namespace TableStore

/-- What a class of stores has of its own: its name in messages, the layout of a row, the order of
rows, and the batches that a table comes in. -/
structure Backend (K V R : Type) where
  name : String
  layout : Layout V R
  scan : ScanOrder K R
  batches (batchSize : ℕ) (table : Table K R) : List (Table K R)

/-- A store just opened on a new database. -/
def opened : TableStore K R := ⟨∅, false⟩

variable (backend : Backend K V R)

/-- `_check_open`. -/
def checkOpen (s : TableStore K R) : Except (StoreError K) Unit :=
  if s.closed then .error (.runtimeError (notOpenMsg backend.name)) else .ok ()

variable [LinearOrder K]

/-- The row of a key, turned into a value. -/
def lookup (s : TableStore K R) (key : K) : Option V :=
  (s.table.get? key).map backend.layout.rowToValue

/-- The flags of `contains_many`. -/
def existing (s : TableStore K R) (keys : List K) : List Bool :=
  if keys = [] then []
  else
    let existing := (backend.scan.rows (s.table.selectIn keys)).map Prod.fst
    keys.map fun key => decide (key ∈ existing)

/-- `get`. -/
def get (s : TableStore K R) (key : K) : Except (StoreError K) (Option V) := do
  s.checkOpen backend
  return s.lookup backend key

/-- `get_many`: `dict(self._row_to_kv(row) for row in rows)`, read in the order of the keys. -/
def getMany (s : TableStore K R) (keys : List K) :
    Except (StoreError K) (List (Option V)) := do
  s.checkOpen backend
  if keys = [] then
    return []
  let byKey := Dict.ofList ((backend.scan.rows (s.table.selectIn keys)).map fun row =>
    (row.1, backend.layout.rowToValue row.2))
  return keys.map byKey.get?

/-- `contains`: `SELECT 1 ... WHERE key = ? LIMIT 1`. -/
def contains (s : TableStore K R) (key : K) : Except (StoreError K) Bool := do
  s.checkOpen backend
  return (s.table.get? key).isSome

/-- `contains_many`. -/
def containsMany (s : TableStore K R) (keys : List K) :
    Except (StoreError K) (List Bool) := do
  s.checkOpen backend
  return s.existing backend keys

/-- `keys`: `SELECT key FROM store`. -/
def keys (s : TableStore K R) : Except (StoreError K) (List K) := do
  s.checkOpen backend
  return (backend.scan.rows s.table).map Prod.fst

/-- `iter_batches`, run to its end. -/
def iterBatches (s : TableStore K R) (batchSize : ℤ) :
    Except (StoreError K) (List (Dict K V)) := do
  validateBatchSize batchSize
  s.checkOpen backend
  return (backend.batches batchSize.toNat s.table).map (·.mapValues backend.layout.rowToValue)

/-- `count`: `SELECT COUNT(*) FROM store`. -/
def count (s : TableStore K R) : Except (StoreError K) ℕ := do
  s.checkOpen backend
  return s.table.length

/-- `_set_many`: one `INSERT OR REPLACE` per item. -/
def insertMany (s : TableStore K R) (items : Dict K V) : TableStore K R :=
  if items.entries = [] then s
  else { s with table := s.table.executemany (rows backend.layout items) }

/-- `set_many`. -/
def setMany [ShallowMerge V] (s : TableStore K R) (items : Dict K V)
    (onConflict : OnConflict) : Except (StoreError K) (TableStore K R) := do
  s.checkOpen backend
  if items.entries = [] then
    return s
  if onConflict = .overwrite then
    return s.insertMany backend items
  let toWrite ← resolveConflicts items onConflict (s.existing backend) (s.lookup backend)
  return s.insertMany backend toWrite

/-- `set`. -/
def set [ShallowMerge V] (s : TableStore K R) (key : K) (value : V)
    (onConflict : OnConflict) : Except (StoreError K) (TableStore K R) :=
  s.setMany backend (Dict.ofList [(key, value)]) onConflict

/-- `delete`. -/
def delete (s : TableStore K R) (key : K) : Except (StoreError K) (TableStore K R) := do
  s.checkOpen backend
  return { s with table := s.table.deleteIn [key] }

/-- `delete_many`. -/
def deleteMany (s : TableStore K R) (keys : List K) :
    Except (StoreError K) (TableStore K R) := do
  s.checkOpen backend
  if keys = [] then
    return s
  return { s with table := s.table.deleteIn keys }

/-- `clear`: `DELETE FROM store`. -/
def clear (s : TableStore K R) : Except (StoreError K) (TableStore K R) := do
  s.checkOpen backend
  return { s with table := ∅ }

/-- The write calls, dispatched. -/
def exec [ShallowMerge V] (s : TableStore K R) :
    StoreOp K V → Except (StoreError K) (TableStore K R)
  | .set key value onConflict => s.set backend key value onConflict
  | .setMany items onConflict => s.setMany backend items onConflict
  | .delete key => s.delete backend key
  | .deleteMany keys => s.deleteMany backend keys
  | .clear => s.clear backend

/-- The store, by its calls. -/
def baseStore [ShallowMerge V] : BaseStore (TableStore K R) K V where
  exec := exec backend
  get := get backend
  getMany := getMany backend
  contains := contains backend
  containsMany := containsMany backend
  keys := keys backend
  iterBatches := iterBatches backend
  count := count backend

/-! ### An open store reads and writes its rows -/

/-- The store is open. -/
def Opened (s : TableStore K R) : Prop := s.closed = false

variable {backend} {s s' : TableStore K R}

omit [LinearOrder K] in
theorem checkOpen_of_opened (h : s.Opened) : s.checkOpen backend = .ok () := by
  simp [checkOpen, show s.closed = false from h]

/-- The keys that come back are those that are there. -/
theorem mem_scan_selectIn {keys : List K} {k : K} (hk : k ∈ keys) :
    k ∈ (backend.scan.rows (s.table.selectIn keys)).map Prod.fst ↔ (s.table.get? k).isSome := by
  rw [((backend.scan.perm _).map Prod.fst).mem_iff]
  change k ∈ (s.table.selectIn keys).keys ↔ _
  rw [Table.mem_keys_selectIn, Dict.isSome_get?_iff]
  exact and_iff_left hk

variable (backend) in
theorem existing_eq (s : TableStore K R) (keys : List K) :
    s.existing backend keys = Contents.containsMany (s.lookup backend) keys := by
  rw [existing, Contents.containsMany]
  split
  · next h => rw [h, List.map_nil]
  · refine List.map_congr_left fun k hk => ?_
    rw [Bool.eq_iff_iff, decide_eq_true_iff, mem_scan_selectIn hk, lookup, Option.isSome_map]

/-- The rows that come back, collected and read under one of the keys. -/
theorem get?_byKey {keys : List K} {k : K} (hk : k ∈ keys) :
    (Dict.ofList ((backend.scan.rows (s.table.selectIn keys)).map fun row =>
      (row.1, backend.layout.rowToValue row.2))).get? k = s.lookup backend k := by
  have hperm := backend.scan.perm (s.table.selectIn keys)
  have hfst : ((backend.scan.rows (s.table.selectIn keys)).map fun row =>
      (row.1, backend.layout.rowToValue row.2)).map Prod.fst =
        (backend.scan.rows (s.table.selectIn keys)).map Prod.fst := by
    rw [List.map_map]
    rfl
  have hnd : (((backend.scan.rows (s.table.selectIn keys)).map fun row =>
      (row.1, backend.layout.rowToValue row.2)).map Prod.fst).Nodup := by
    rw [hfst, (hperm.map Prod.fst).nodup_iff]
    exact (s.table.selectIn keys).nodup
  refine Option.ext fun v => ?_
  rw [Dict.get?_eq_some_iff, Dict.entries_ofList hnd, List.mem_map, lookup,
    Option.map_eq_some_iff]
  have hselect : ∀ r, (k, r) ∈ backend.scan.rows (s.table.selectIn keys) ↔
      s.table.get? k = some r := by
    intro r
    rw [hperm.mem_iff, ← Dict.get?_eq_some_iff, Table.get?_selectIn, if_pos hk]
  constructor
  · rintro ⟨⟨j, r⟩, hrow, heq⟩
    obtain ⟨rfl, rfl⟩ := Prod.mk.inj heq
    exact ⟨r, (hselect r).mp hrow, rfl⟩
  · rintro ⟨r, hr, rfl⟩
    exact ⟨(k, r), (hselect r).mpr hr, rfl⟩

/-! ### The write calls -/

theorem lookup_insertMany
    (hround : ∀ v, backend.layout.rowToValue (backend.layout.valueToRow v) = v)
    (s : TableStore K R) (items : Dict K V) :
    lookup backend (s.insertMany backend items) =
      Contents.write (s.lookup backend) items.entries := by
  have hrows : (s.insertMany backend items).table.get? =
      Contents.writeRows backend.layout s.table.get?
      items := by
    funext k
    rw [insertMany]
    split
    · next h =>
      obtain rfl : items = ∅ := Dict.ext h
      rfl
    · rw [Contents.writeRows, rows, Contents.write_entries]
      exact Table.get?_executemany (items.mapValues backend.layout.valueToRow).nodup k
  have hread := Contents.read_writeRows (m := s.table.get?) hround items
  rw [← hrows] at hread
  exact hread

/-- `set_many` of an open store. -/
theorem setMany_of_opened [ShallowMerge V]
    (hround : ∀ v, backend.layout.rowToValue (backend.layout.valueToRow v) = v) (h : s.Opened)
    (items : Dict K V) (onConflict : OnConflict) :
    (s.setMany backend items onConflict).map (lookup backend) =
      Contents.setMany (s.lookup backend) items onConflict := by
  have hexist : s.existing backend = Contents.containsMany (s.lookup backend) :=
    funext (existing_eq backend s)
  rw [setMany, checkOpen_of_opened h, Refinement.ok_bind, Contents.setMany]
  by_cases hi : items.entries = []
  · obtain rfl : items = ∅ := Dict.ext hi
    rw [if_pos hi]
    cases onConflict with
    | overwrite => rfl
    | raise | skip | merge => rfl
  · rw [if_neg hi]
    by_cases ho : onConflict = .overwrite
    · rw [if_pos ho, if_pos ho]
      exact congrArg Except.ok (lookup_insertMany hround s items)
    · rw [if_neg ho, if_neg ho, hexist]
      cases resolveConflicts items onConflict (Contents.containsMany (s.lookup backend))
        (s.lookup backend) with
      | error e => rfl
      | ok toWrite => exact congrArg Except.ok (lookup_insertMany hround s toWrite)

theorem opened_insertMany (h : s.Opened) (items : Dict K V) :
    (s.insertMany backend items).Opened := by
  rw [insertMany]
  split
  · exact h
  · exact h

theorem opened_setMany [ShallowMerge V] (h : s.Opened) {items : Dict K V}
    {onConflict : OnConflict} (hs : s.setMany backend items onConflict = .ok s') :
    s'.Opened := by
  rw [setMany, checkOpen_of_opened h, Refinement.ok_bind] at hs
  split at hs
  · exact Except.ok.inj hs ▸ h
  · split at hs
    · exact Except.ok.inj hs ▸ opened_insertMany h items
    · cases hr : resolveConflicts items onConflict (s.existing backend) (s.lookup backend) with
      | error e =>
        rw [hr] at hs
        cases hs
      | ok toWrite =>
        rw [hr] at hs
        exact Except.ok.inj hs ▸ opened_insertMany h toWrite

theorem lookup_deleteIn (s : TableStore K R) (keys : List K) (closed : Bool) :
    lookup backend ⟨s.table.deleteIn keys, closed⟩ = Contents.delete (s.lookup backend) keys := by
  funext k
  rw [lookup, Table.get?_deleteIn, Contents.delete, lookup]
  split <;> rfl

variable (backend) in
theorem refines [ShallowMerge V]
    (hround : ∀ v, backend.layout.rowToValue (backend.layout.valueToRow v) = v) :
    Refinement.Refines (exec backend) Contents.exec (lookup backend) Opened where
  inv {s s' op} hs he := by
    have hcheck : s.checkOpen backend = .ok () := checkOpen_of_opened hs
    cases op with
    | set key value onConflict => exact opened_setMany hs he
    | setMany items onConflict => exact opened_setMany hs he
    | delete key =>
      rw [exec, delete, hcheck] at he
      exact Except.ok.inj he ▸ hs
    | deleteMany keys =>
      rw [exec, deleteMany, hcheck, Refinement.ok_bind] at he
      split at he
      · exact Except.ok.inj he ▸ hs
      · exact Except.ok.inj he ▸ hs
    | clear =>
      rw [exec, clear, hcheck] at he
      exact Except.ok.inj he ▸ hs
  comm {s op} hs := by
    have hcheck : s.checkOpen backend = .ok () := checkOpen_of_opened hs
    cases op with
    | set key value onConflict => exact setMany_of_opened hround hs _ onConflict
    | setMany items onConflict => exact setMany_of_opened hround hs items onConflict
    | delete key =>
      rw [exec, delete, hcheck]
      exact congrArg Except.ok (lookup_deleteIn s [key] s.closed)
    | deleteMany keys =>
      rw [exec, deleteMany, hcheck, Refinement.ok_bind]
      by_cases hk : keys = []
      · rw [if_pos hk, hk]
        exact congrArg Except.ok (funext fun k => (if_neg List.not_mem_nil).symm)
      · rw [if_neg hk]
        exact congrArg Except.ok (lookup_deleteIn s keys s.closed)
    | clear =>
      rw [exec, clear, hcheck]
      rfl

/-! ### The read calls -/

theorem getMany_of_opened (h : s.Opened) (keys : List K) :
    s.getMany backend keys = .ok (keys.map (s.lookup backend)) := by
  rw [getMany, checkOpen_of_opened h, Refinement.ok_bind]
  by_cases hk : keys = []
  · rw [if_pos hk, hk]
    rfl
  · rw [if_neg hk]
    exact congrArg Except.ok (List.map_congr_left fun k hmem => get?_byKey hmem)

/-! ### Batches -/

/-- The batches of a table hold each of its rows once, and are not too long. -/
def Backend.CutsRows (backend : Backend K V R) : Prop :=
  ∀ batchSize, 1 ≤ batchSize → ∀ t : Table K R, ∃ t' : Table K R, t'.get? = t.get? ∧
    ((backend.batches batchSize t).map Dict.entries).flatten = t'.entries ∧
    ∀ b ∈ backend.batches batchSize t, b.length ≤ batchSize

/-- The rows that a scan answers, as a table. -/
theorem entries_ofList_scan (scan : ScanOrder K R) (t : Table K R) :
    (Dict.ofList (scan.rows t)).entries = scan.rows t :=
  Dict.entries_ofList (((scan.perm t).map Prod.fst).nodup_iff.mpr t.nodup)

theorem get?_ofList_scan (scan : ScanOrder K R) (t : Table K R) :
    (Dict.ofList (scan.rows t)).get? = t.get? := by
  funext k
  refine Option.ext fun r => ?_
  rw [Dict.get?_eq_some_iff, entries_ofList_scan, (scan.perm t).mem_iff, ← Dict.get?_eq_some_iff]

end TableStore

namespace BaseDuckDBStore

variable [LinearOrder K] (layout : Layout V R) (scan : ScanOrder K R)

/-- `iter_batches` asks for one sorted page after the other. -/
def backend : TableStore.Backend K V R := ⟨"DuckDBStore", layout, scan, Paging.iterBatches⟩

/-- `BaseDuckDBStore`, by its calls. -/
def baseStore [ShallowMerge V] : BaseStore (TableStore K R) K V :=
  TableStore.baseStore (backend layout scan)

theorem cutsRows : (backend (K := K) layout scan).CutsRows := fun _ hb t =>
  ⟨_, SQLiteStore.get?_orderByKey t, Paging.flatten_iterBatches hb t,
    fun _ hmem => (SQLiteStore.length_drain hmem).2⟩

end BaseDuckDBStore

namespace BasePostgresStore

variable [LinearOrder K] (layout : Layout V R) (scan : ScanOrder K R)
  (batchify : Snapshot.Cutting (K × R)) (api : Api)

/-- The rows of a cursor: `iter_batches` cuts them with `batchify`, `aiter_batches` fills a batch
until it is full. -/
def backend : TableStore.Backend K V R where
  name := "PostgresStore"
  layout := layout
  scan := scan
  batches batchSize t :=
    match api with
    | .sync => (batchify.run (scan.rows t) batchSize).map Dict.ofList
    | .async => fillBatches batchSize (scan.rows t) ∅

/-- `BasePostgresStore`, by the calls of one of its APIs. -/
def baseStore [ShallowMerge V] : BaseStore (TableStore K R) K V :=
  TableStore.baseStore (backend layout scan batchify api)

theorem cutsRows : (backend (K := K) layout scan batchify api).CutsRows := by
  intro batchSize hb t
  have hnodup : ((scan.rows t).map Prod.fst).Nodup :=
    ((scan.perm t).map Prod.fst).nodup_iff.mpr t.nodup
  refine ⟨Dict.ofList (scan.rows t), TableStore.get?_ofList_scan scan t, ?_⟩
  rw [TableStore.entries_ofList_scan]
  cases api with
  | sync =>
    have hflat := batchify.flatten_run (scan.rows t) hb
    have hpart : ∀ part ∈ batchify.run (scan.rows t) batchSize,
        (Dict.entries ∘ Dict.ofList) part = part := fun part hmem => by
      refine Dict.entries_ofList (hnodup.sublist (List.Sublist.map Prod.fst ?_))
      rw [← hflat]
      exact List.sublist_flatten_of_mem hmem
    refine ⟨?_, fun b hmem => ?_⟩
    · change (((batchify.run (scan.rows t) batchSize).map Dict.ofList).map Dict.entries).flatten = _
      rw [List.map_map, List.map_congr_left (g := id) hpart, List.map_id, hflat]
    · obtain ⟨part, hrun, rfl⟩ := List.mem_map.mp hmem
      have hlength : (Dict.ofList part).length = part.length := congrArg _ (hpart part hrun)
      rw [hlength]
      exact batchify.length_le (scan.rows t) hb part hrun
  | async =>
    obtain ⟨hflat, hlen⟩ := SQLiteStore.fillBatches_spec (scan.rows t) ∅ (by simpa using hnodup) hb
    exact ⟨hflat, fun b hmem => (hlen b hmem).2⟩

end BasePostgresStore

end Persista
