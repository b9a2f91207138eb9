import Persista.Store.Paging
import Mathlib.Data.String.Basic

/-!
# `SQLiteStore`, both APIs

`store/sqlite.py`. The synchronous methods run on `_conn`, which `open` connects. Their twins run on
`_aconn`, which `_ensure_aconn` connects at the first asynchronous call that needs it; without the
package `aiosqlite` they run the synchronous methods in a thread. Both connect to the same
`database` argument.

Connections to a file see what the others have committed, and every write call commits before it
returns. A private database, `":memory:"` above all, belongs to its connection: `_aconn` starts on
an empty database of its own and stays there. Which arguments are private is SQLite's affair and a
parameter here.

A call runs to its end before the next one starts; an iterator is consumed by the call that makes
it.

## Main results

* `SQLiteStore.step_explained` — a call is the call on the table its API sees, whatever the database
* `SQLiteStore.coherent_of_one_api` — the calls of one API see one map, whatever the database
* `SQLiteStore.coherent_iff` — the calls of both APIs see one map exactly when the database is not
  private to its connection, or `aiosqlite` is not there
-/

namespace Persista

/-- The read calls of `BaseSQLiteStore`. -/
inductive ReadOp (K F : Type)
  | get (key : K)
  | getMany (keys : List K)
  | filter (fieldFilters : F)
  | filterItems (fieldFilters : F)
  | contains (key : K)
  | containsMany (keys : List K)
  | keys
  | values (batchSize : ℤ)
  | iterBatches (batchSize : ℤ)
  | count

/-- A call of a `BaseSQLiteStore`. -/
inductive StoreCall (K V F : Type)
  | read (op : ReadOp K F)
  | write (op : StoreOp K V)

/-- What a call returns; the items of an iterator. -/
inductive Result (K V : Type)
  | none
  | value (value : Option V)
  | optional (values : List (Option V))
  | values (values : List V)
  | items (items : Dict K V)
  | flag (found : Bool)
  | flags (found : List Bool)
  | keys (keys : List K)
  | batches (batches : List (Dict K V))
  | count (n : ℕ)

/-- `get` or `aget`. -/
inductive Api
  | sync
  | async
  deriving DecidableEq

/-- An open store seen by both APIs. -/
structure SQLiteStore (K R : Type) where
  /-- The table that `_conn` sees. -/
  conn : Table K R
  /-- The table that `_aconn` sees, when it is connected. -/
  aconn : Option (Table K R)
  closed : Bool

variable {K V R F : Type} [LinearOrder K]

/-- `SELECT * FROM store WHERE ...`. -/
def Table.selectWhere (t : Table K R) (condition : R → Bool) : Table K R where
  entries := t.entries.filter fun row => condition row.2
  nodup := t.nodup.sublist (List.filter_sublist.map Prod.fst)

/-- The loop of `aiter_batches` over the rows of its cursor, with the batch it fills. -/
def fillBatches (batchSize : ℕ) : List (K × R) → Table K R → List (Table K R)
  | [], batch => if batch.entries = [] then [] else [batch]
  | row :: rows, batch =>
    let batch := batch.set row.1 row.2
    if batchSize ≤ batch.length then batch :: fillBatches batchSize rows ∅
    else fillBatches batchSize rows batch

/-- `iter_batches` reads a page per batch, in the order of the keys; `aiter_batches` reads the table
once, in the order of its rows. -/
def Api.batches (api : Api) (batchSize : ℕ) (t : Table K R) : List (Table K R) :=
  match api with
  | .sync => Paging.iterBatches batchSize t
  | .async => fillBatches batchSize t.entries ∅

namespace SQLiteStore

/-- What is fixed for a store: its database argument, the layout of its rows, how many keys a
statement may bind, the `WHERE` clause of some field filters (which can raise `ValueError`), whether
`aiosqlite` is there, and the database arguments that give each connection a database of its own. -/
structure Config (K V R F : Type) where
  database : String
  layout : Layout V R
  maxSqlVariables : ℕ+
  filterWhere : F → Except (StoreError K) (R → Bool)
  aiosqlite : Bool
  isPrivate : String → Bool

/-- The connections of the store do not share a database. -/
def Config.apart (config : Config K V R F) : Bool := config.isPrivate config.database

variable (config : Config K V R F)

/-! ### The statements of a call, on one connection -/

/-- `filter_items`. -/
def filterItems (s : BaseSQLiteStore K R) (fieldFilters : F) :
    Except (StoreError K) (Dict K V) := do
  s.checkOpen
  let condition ← config.filterWhere fieldFilters
  return (s.table.selectWhere condition).mapValues config.layout.rowToValue

/-- `iter_batches`. -/
def iterBatches (api : Api) (s : BaseSQLiteStore K R) (batchSize : ℤ) :
    Except (StoreError K) (List (Dict K V)) := do
  validateBatchSize batchSize
  s.checkOpen
  return (api.batches batchSize.toNat s.table).map fun rows =>
    rows.mapValues config.layout.rowToValue

/-- A read call. -/
def read (api : Api) (s : BaseSQLiteStore K R) :
    ReadOp K F → Except (StoreError K) (Result K V)
  | .get key => (s.get config.layout key).map .value
  | .getMany keys => (s.getMany config.layout config.maxSqlVariables keys).map .optional
  | .filter fieldFilters =>
    (filterItems config s fieldFilters).map fun items => .values items.values
  | .filterItems fieldFilters => (filterItems config s fieldFilters).map .items
  | .contains key => (s.contains key).map .flag
  | .containsMany keys => (s.containsMany config.maxSqlVariables keys).map .flags
  | .keys => s.keys.map .keys
  | .values batchSize =>
    (iterBatches config api s batchSize).map fun batches => .values (batches.flatMap Dict.values)
  | .iterBatches batchSize => (iterBatches config api s batchSize).map .batches
  | .count => s.count.map .count

/-- A call: what it returns or raises, and the table after it. -/
def execute [ShallowMerge V] (api : Api) (s : BaseSQLiteStore K R) :
    StoreCall K V F → Except (StoreError K) (Result K V) × Table K R
  | .read op => (read config api s op, s.table)
  | .write op =>
    match s.exec config.layout config.maxSqlVariables op with
    | .ok s' => (.ok .none, s'.table)
    | .error e => (.error e, s.table)

/-! ### The two connections -/

/-- A store that has just been opened on a database with these rows; a private database is new. -/
def opened (table : Table K R) : SQLiteStore K R :=
  ⟨if config.apart then ∅ else table, none, false⟩

/-- `_ensure_aconn`: the table that `_aconn` sees. A new connection to a private database sees a new
one, and `CREATE TABLE IF NOT EXISTS` leaves the rows as they are. -/
def ensureAconn (s : SQLiteStore K R) : Except (StoreError K) (Table K R) := do
  (⟨s.conn, s.closed⟩ : BaseSQLiteStore K R).checkOpen
  return s.aconn.getD (if config.apart then ∅ else s.conn)

/-- A synchronous call. What it commits to a file is seen by `_aconn`. -/
def call [ShallowMerge V] (s : SQLiteStore K R) (c : StoreCall K V F) :
    Except (StoreError K) (Result K V) × SQLiteStore K R :=
  let (result, table) := execute config .sync ⟨s.conn, s.closed⟩ c
  (result, { s with
    conn := table
    aconn := if config.apart then s.aconn else s.aconn.map fun _ => table })

/-- What an asynchronous call returns before it looks for a connection. -/
def early : StoreCall K V F → Option (Except (StoreError K) (Result K V))
  | .read (.getMany keys) => if keys = [] then some (.ok (.optional [])) else none
  | .read (.containsMany keys) => if keys = [] then some (.ok (.flags [])) else none
  | .read (.values batchSize) | .read (.iterBatches batchSize) =>
    match validateBatchSize batchSize with
    | .error e => some (.error e)
    | .ok () => none
  | .write (.setMany items _) => if items.entries = [] then some (.ok .none) else none
  | .write (.deleteMany keys) => if keys = [] then some (.ok .none) else none
  | _ => none

/-- An asynchronous call. -/
def acall [ShallowMerge V] (s : SQLiteStore K R) (c : StoreCall K V F) :
    Except (StoreError K) (Result K V) × SQLiteStore K R :=
  match early c with
  | some result => (result, s)
  | none =>
    if config.aiosqlite then
      match ensureAconn config s with
      | .error e => (.error e, s)
      | .ok table =>
        let (result, table) := execute config .async ⟨table, s.closed⟩ c
        (result, { s with
          aconn := some table
          conn := if config.apart then s.conn else table })
    -- `asyncio.to_thread` runs the synchronous method
    else call config s c

/-- A call of either API. -/
def step [ShallowMerge V] (s : SQLiteStore K R) :
    Api → StoreCall K V F → Except (StoreError K) (Result K V) × SQLiteStore K R
  | .sync, c => call config s c
  | .async, c => acall config s c

/-- What the calls of a sequence return or raise. -/
def run [ShallowMerge V] (s : SQLiteStore K R) :
    List (Api × StoreCall K V F) → List (Except (StoreError K) (Result K V))
  | [] => []
  | (api, c) :: calls =>
    let (result, s) := step config s api c
    result :: run s calls

/-! ### One map -/

/-- What a read call may return when the map, in some order, is `t`. -/
def AnswersOn (t : Table K R) (result : Except (StoreError K) (Result K V)) :
    ReadOp K F → Prop
  | .get key => result = .ok (.value ((t.mapValues config.layout.rowToValue).get? key))
  | .getMany keys =>
    result = .ok (.optional (keys.map (t.mapValues config.layout.rowToValue).get?))
  | .filter fieldFilters => result = (config.filterWhere fieldFilters).map fun condition =>
      .values ((t.selectWhere condition).mapValues config.layout.rowToValue).values
  | .filterItems fieldFilters => result = (config.filterWhere fieldFilters).map fun condition =>
      .items ((t.selectWhere condition).mapValues config.layout.rowToValue)
  | .contains key => result = .ok (.flag (t.get? key).isSome)
  | .containsMany keys => result = .ok (.flags (keys.map fun key => (t.get? key).isSome))
  | .keys => result = .ok (.keys t.keys)
  | .values batchSize => result = (validateBatchSize batchSize).map fun _ =>
      .values (t.mapValues config.layout.rowToValue).values
  | .iterBatches batchSize =>
    match (validateBatchSize batchSize : Except (StoreError K) Unit) with
    | .error e => result = .error e
    | .ok () => ∃ batches, result = .ok (.batches batches) ∧
        (batches.map Dict.entries).flatten = (t.mapValues config.layout.rowToValue).entries ∧
        ∀ b ∈ batches, 0 < b.length ∧ b.length ≤ batchSize
  | .count => result = .ok (.count t.length)

/-- What a call may return on the map `m`. -/
def Answers [ShallowMerge V] (m : Contents K R) (result : Except (StoreError K) (Result K V)) :
    StoreCall K V F → Prop
  | .read op => ∃ t : Table K R, t.get? = m ∧ AnswersOn config t result op
  | .write op => result = (m.atomicExec config.layout op).1.map fun _ => .none

/-- The map after a call. -/
def next [ShallowMerge V] (m : Contents K R) : StoreCall K V F → Contents K R
  | .read _ => m
  | .write op => (m.atomicExec config.layout op).2

/-- The results are those of the calls on one map. -/
def Explained [ShallowMerge V] (m : Contents K R) :
    List (Api × StoreCall K V F) → List (Except (StoreError K) (Result K V)) → Prop
  | (_, c) :: calls, result :: results =>
    Answers config m result c ∧ Explained (next config m c) calls results
  | [], [] => True
  | _, _ => False

/-! ### Batches -/

variable {config} {api : Api}

theorem get?_orderByKey (t : Table K R) : (Table.orderByKey t).get? = t.get? := by
  funext k
  refine Option.ext fun row => ?_
  rw [Dict.get?_eq_some_iff, Dict.get?_eq_some_iff]
  exact (List.perm_insertionSort _ t.entries).mem_iff

theorem length_drain {batchSize : ℕ} {t b : Table K R} {fuel : ℕ} {g : Paging.Gen}
    (hb : b ∈ Paging.drain batchSize t fuel g) : 0 < b.length ∧ b.length ≤ batchSize := by
  induction fuel generalizing g with
  | zero => cases hb
  | succ fuel ih =>
    cases g with
    | returned => cases hb
    | fetching offset =>
      have hpage : (Paging.page t batchSize offset).length ≤ batchSize := by
        rw [Dict.length, Paging.entries_page]
        exact List.length_take_le _ _
      simp only [Paging.drain, Paging.Gen.next] at hb
      by_cases hnil : (Paging.page t batchSize offset).entries = []
      · simp [hnil] at hb
      · have hpos : 0 < (Paging.page t batchSize offset).length := List.length_pos_iff.mpr hnil
        rw [if_neg hnil] at hb
        split_ifs at hb
        · rcases List.mem_cons.mp hb with rfl | hb
          · exact ⟨hpos, hpage⟩
          · exact ih hb
        · rcases List.mem_cons.mp hb with rfl | hb
          · exact ⟨hpos, hpage⟩
          · exact ih hb

/-- A row of a cursor goes to the end of the batch. -/
theorem set_row {row : K × R} {rows : List (K × R)} {batch : Table K R}
    (hnd : (batch.keys ++ (row :: rows).map Prod.fst).Nodup) :
    (batch.set row.1 row.2).entries = batch.entries ++ [row] ∧
      (batch.set row.1 row.2).length = batch.length + 1 ∧
      ((batch.set row.1 row.2).keys ++ rows.map Prod.fst).Nodup := by
  rw [List.map_cons, List.nodup_middle, List.nodup_cons, List.mem_append, not_or] at hnd
  have hset : (batch.set row.1 row.2).entries = batch.entries ++ [row] :=
    Dict.entries_set_of_not_mem hnd.1.1
  refine ⟨hset, ?_, ?_⟩
  · rw [Dict.length, hset, List.length_append]
    rfl
  · rw [Dict.keys, hset, List.map_append, List.append_assoc, List.map_singleton,
      List.singleton_append, List.nodup_middle, List.nodup_cons, List.mem_append, not_or]
    exact hnd

/-- The batches of a cursor are the rows left, cut where a batch is full. -/
theorem fillBatches_spec {batchSize : ℕ} (rows : List (K × R)) (batch : Table K R)
    (hnd : (batch.keys ++ rows.map Prod.fst).Nodup) (hlt : batch.length < batchSize) :
    ((fillBatches batchSize rows batch).map Dict.entries).flatten = batch.entries ++ rows ∧
      ∀ b ∈ fillBatches batchSize rows batch, 0 < b.length ∧ b.length ≤ batchSize := by
  induction rows generalizing batch with
  | nil =>
    by_cases h : batch.entries = []
    · simp [fillBatches, h]
    · simp only [fillBatches, if_neg h]
      simp [Dict.length, List.length_pos_iff.mpr h]
      exact hlt.le
  | cons row rows ih =>
    obtain ⟨hset, hlen, hnd⟩ := set_row hnd
    simp only [fillBatches]
    split_ifs with hfull
    · obtain ⟨hflat, hsize⟩ := ih ∅
        (by simpa using (List.nodup_append.mp hnd).2.1) (Nat.zero_lt_of_lt hlt)
      refine ⟨by simp [hflat, hset], fun b hb => ?_⟩
      rcases List.mem_cons.mp hb with rfl | hb
      · omega
      · exact hsize b hb
    · obtain ⟨hflat, hsize⟩ := ih (batch.set row.1 row.2) hnd (by omega)
      exact ⟨by simp [hflat, hset], hsize⟩

/-- **The batches of either API** hold each row once. -/
theorem batches_spec (api : Api) (batchSize : ℕ) (h : 1 ≤ batchSize) (t : Table K R) :
    ∃ t' : Table K R, t'.get? = t.get? ∧
      ((api.batches batchSize t).map Dict.entries).flatten = t'.entries ∧
      ∀ b ∈ api.batches batchSize t, 0 < b.length ∧ b.length ≤ batchSize := by
  cases api with
  | sync =>
    exact ⟨_, get?_orderByKey t, Paging.flatten_iterBatches h t, fun _ hb => length_drain hb⟩
  | async =>
    obtain ⟨hflat, hlen⟩ := fillBatches_spec t.entries ∅ (by simpa using t.nodup) h
    exact ⟨t, rfl, hflat, hlen⟩

/-! ### A call on one connection -/

variable {s : BaseSQLiteStore K R}

theorem iterBatches_of_lt {batchSize : ℤ} (hb : batchSize < 1) :
    iterBatches config api s batchSize =
      (validateBatchSize batchSize : Except (StoreError K) Unit).map fun _ => [] := by
  simp [iterBatches, validateBatchSize, hb]

theorem iterBatches_of_le (h : s.Opened) (api : Api) {batchSize : ℤ} (hb : ¬ batchSize < 1) :
    ∃ t : Table K R, t.get? = s.table.get? ∧ ∃ batches,
      iterBatches config api s batchSize = .ok batches ∧
      (batches.map Dict.entries).flatten = (t.mapValues config.layout.rowToValue).entries ∧
      ∀ b ∈ batches, 0 < b.length ∧ b.length ≤ batchSize := by
  obtain ⟨t, ht, hflat, hsize⟩ := batches_spec api batchSize.toNat (by omega) s.table
  refine ⟨t, ht, (api.batches batchSize.toNat s.table).map fun rows =>
    rows.mapValues config.layout.rowToValue, ?_, ?_, ?_⟩
  · simp [iterBatches, validateBatchSize, hb, BaseSQLiteStore.checkOpen_of_opened h]
  · simp only [Dict.mapValues, ← hflat, List.map_map, List.map_flatten]
    rfl
  · intro b hb'
    obtain ⟨rows, hrows, rfl⟩ := List.mem_map.mp hb'
    have hlen : (rows.mapValues config.layout.rowToValue).length = rows.length := by
      simp [Dict.length, Dict.mapValues]
    have := hsize rows hrows
    omega

/-- A read call answers from the table of its connection. -/
theorem read_answers (h : s.Opened) (api : Api) (op : ReadOp K F) :
    ∃ t : Table K R, t.get? = s.table.get? ∧ AnswersOn config t (read config api s op) op := by
  have hlookup : s.lookup config.layout = (s.table.mapValues config.layout.rowToValue).get? := by
    funext k
    rw [Dict.get?_mapValues, BaseSQLiteStore.lookup]
  have hfilter : ∀ f, filterItems config s f = (config.filterWhere f).map fun condition =>
      (s.table.selectWhere condition).mapValues config.layout.rowToValue := by
    intro f
    rw [filterItems, BaseSQLiteStore.checkOpen_of_opened h, Refinement.ok_bind]
    cases config.filterWhere f <;> rfl
  cases op with
  | get key =>
    refine ⟨s.table, rfl, ?_⟩
    simp [read, AnswersOn, BaseSQLiteStore.get_of_opened h, hlookup]
  | getMany keys =>
    refine ⟨s.table, rfl, ?_⟩
    simp [read, AnswersOn, BaseSQLiteStore.getMany_of_opened h, hlookup]
  | filter f =>
    refine ⟨s.table, rfl, ?_⟩
    rw [AnswersOn, read, hfilter]
    cases config.filterWhere f <;> rfl
  | filterItems f =>
    refine ⟨s.table, rfl, ?_⟩
    rw [AnswersOn, read, hfilter]
    cases config.filterWhere f <;> rfl
  | contains key =>
    refine ⟨s.table, rfl, ?_⟩
    simp [read, AnswersOn, BaseSQLiteStore.contains, BaseSQLiteStore.checkOpen_of_opened h]
  | containsMany keys =>
    refine ⟨s.table, rfl, ?_⟩
    simp [read, AnswersOn, BaseSQLiteStore.containsMany_of_opened config.layout h,
      Contents.containsMany, BaseSQLiteStore.lookup]
  | keys =>
    refine ⟨s.table, rfl, ?_⟩
    simp [read, AnswersOn, BaseSQLiteStore.keys, BaseSQLiteStore.checkOpen_of_opened h]
  | values batchSize =>
    by_cases hb : batchSize < 1
    · refine ⟨s.table, rfl, ?_⟩
      simp [read, AnswersOn, iterBatches_of_lt hb, validateBatchSize, hb]
    · obtain ⟨t, ht, batches, hbatches, hflat, -⟩ := iterBatches_of_le h api hb
      have hvalues : batches.flatMap Dict.values =
          (t.mapValues config.layout.rowToValue).values := by
        rw [Dict.values, ← hflat, List.map_flatten, List.map_map, List.flatMap_def]
        rfl
      exact ⟨t, ht, by simp [read, AnswersOn, hbatches, validateBatchSize, hb, hvalues]⟩
  | iterBatches batchSize =>
    by_cases hb : batchSize < 1
    · refine ⟨s.table, rfl, ?_⟩
      simp [read, AnswersOn, iterBatches_of_lt hb, validateBatchSize, hb]
    · obtain ⟨t, ht, batches, hbatches, hspec⟩ := iterBatches_of_le h api hb
      refine ⟨t, ht, ?_⟩
      simp only [AnswersOn, validateBatchSize, if_neg hb]
      exact ⟨batches, by rw [read, hbatches]; rfl, hspec⟩
  | count =>
    refine ⟨s.table, rfl, ?_⟩
    simp [read, AnswersOn, BaseSQLiteStore.count, BaseSQLiteStore.checkOpen_of_opened h]

variable (config) in
/-- A write call is the call on the rows. -/
theorem atomicExec_of_exec [ShallowMerge V] (h : s.Opened) (op : StoreOp K V) :
    s.contents.atomicExec config.layout op =
      match s.exec config.layout config.maxSqlVariables op with
      | .ok s' => (.ok (), s'.contents)
      | .error e => (.error e, s.contents) := by
  have hset : ∀ items onConflict,
      Contents.atomicSetMany config.layout items onConflict s.contents =
        match s.setMany config.layout config.maxSqlVariables items onConflict with
        | .ok s' => (.ok (), s'.contents)
        | .error e => (.error e, s.contents) := by
    intro items onConflict
    rw [Contents.atomicSetMany, ← BaseSQLiteStore.map_contents_setMany config.maxSqlVariables h]
    cases s.setMany config.layout config.maxSqlVariables items onConflict <;> rfl
  cases op with
  | set key value onConflict => exact hset _ onConflict
  | setMany items onConflict => exact hset items onConflict
  | delete key =>
    simp only [BaseSQLiteStore.exec, BaseSQLiteStore.delete, BaseSQLiteStore.checkOpen_of_opened h]
    refine congrArg (Prod.mk _) (funext fun k => ?_)
    by_cases hk : k = key <;> simp [BaseSQLiteStore.contents, Contents.delete, hk]
  | deleteMany keys =>
    simp only [BaseSQLiteStore.exec, BaseSQLiteStore.deleteMany,
      BaseSQLiteStore.checkOpen_of_opened h]
    by_cases hk : keys = []
    · simp only [hk, if_true]
      exact congrArg (Prod.mk _) (funext fun k => by simp [Contents.delete])
    · simp only [hk, if_false]
      refine congrArg (Prod.mk _) (funext fun k => ?_)
      simp only [BaseSQLiteStore.contents, Contents.delete, get?_deleteChunks,
        mem_chunk config.maxSqlVariables.pos]
  | clear =>
    simp only [BaseSQLiteStore.exec, BaseSQLiteStore.clear, BaseSQLiteStore.checkOpen_of_opened h]
    rfl

/-- **A call on one connection** answers from the table before it and leaves the table after it. -/
theorem execute_answers [ShallowMerge V] (h : s.Opened) (api : Api) (c : StoreCall K V F) :
    Answers config s.contents (execute config api s c).1 c ∧
      (execute config api s c).2.get? = next config s.contents c := by
  cases c with
  | read op => exact ⟨read_answers h api op, rfl⟩
  | write op =>
    have hexec := atomicExec_of_exec config h op
    simp only [execute, Answers, next]
    cases hs : s.exec config.layout config.maxSqlVariables op with
    | ok s' =>
      rw [hs] at hexec
      exact ⟨by rw [hexec]; rfl, by rw [hexec]; rfl⟩
    | error e =>
      rw [hs] at hexec
      exact ⟨by rw [hexec]; rfl, by rw [hexec]; rfl⟩

/-! ### The two connections -/

/-- The calls of both APIs see one database. -/
def Config.Linked (config : Config K V R F) : Prop := config.aiosqlite → config.apart = false

/-- The table that an API sees: without `aiosqlite`, both see that of `_conn`. -/
def seen (config : Config K V R F) (s : SQLiteStore K R) : Api → Table K R
  | .sync => s.conn
  | .async =>
    if config.aiosqlite then s.aconn.getD (if config.apart then ∅ else s.conn) else s.conn

/-- The store is open, and one that has a single database shows it to both APIs. -/
structure Inv (config : Config K V R F) (s : SQLiteStore K R) : Prop where
  closed : s.closed = false
  linked : config.Linked → seen config s .sync = seen config s .async

variable {s : SQLiteStore K R}

variable (config) in
omit [LinearOrder K] in
theorem inv_opened (table : Table K R) : Inv config (opened config table) where
  closed := rfl
  linked _ := by
    simp only [seen, opened, Option.getD_none]
    split_ifs <;> rfl

omit [LinearOrder K] in
theorem Inv.eq_sync (h : Inv config s) (hlinked : config.Linked) (api : Api) :
    seen config s api = seen config s .sync := by
  cases api with
  | sync => rfl
  | async => exact (h.linked hlinked).symm

/-- What an asynchronous call returns early is what it would return. -/
theorem early_answers [ShallowMerge V] {c : StoreCall K V F}
    {result : Except (StoreError K) (Result K V)} (h : early c = some result) (t : Table K R) :
    Answers config t.get? result c ∧ next config t.get? c = t.get? := by
  cases c with
  | read op =>
    refine ⟨⟨t, rfl, ?_⟩, rfl⟩
    cases op with
    | getMany keys =>
      by_cases hk : keys = [] <;> simp only [early, hk, if_true, if_false] at h <;> cases h
      rw [hk]
      rfl
    | containsMany keys =>
      by_cases hk : keys = [] <;> simp only [early, hk, if_true, if_false] at h <;> cases h
      rw [hk]
      rfl
    | values batchSize =>
      by_cases hb : batchSize < 1 <;>
        simp only [early, validateBatchSize, hb, if_true, if_false] at h <;> cases h
      simp [AnswersOn, validateBatchSize, hb]
    | iterBatches batchSize =>
      by_cases hb : batchSize < 1 <;>
        simp only [early, validateBatchSize, hb, if_true, if_false] at h <;> cases h
      simp [AnswersOn, validateBatchSize, hb]
    | _ => cases h
  | write op =>
    cases op with
    | setMany items onConflict =>
      by_cases hi : items.entries = [] <;> simp only [early, hi, if_true, if_false] at h <;> cases h
      obtain rfl : items = ∅ := Dict.ext hi
      simp only [Answers, next, Contents.atomicExec, Contents.atomicSetMany_empty]
      simp
    | deleteMany keys =>
      by_cases hk : keys = [] <;> simp only [early, hk, if_true, if_false] at h <;> cases h
      exact ⟨rfl, funext fun k => by simp [next, Contents.atomicExec, Contents.delete, hk]⟩
    | _ => cases h

/-- A synchronous call. -/
theorem call_explained [ShallowMerge V] (h : Inv config s) (c : StoreCall K V F) :
    Answers config s.conn.get? (call config s c).1 c ∧
      (call config s c).2.conn.get? = next config s.conn.get? c ∧
      Inv config (call config s c).2 := by
  obtain ⟨hanswers, hnext⟩ := execute_answers (s := ⟨s.conn, s.closed⟩) h.closed .sync c
  refine ⟨hanswers, hnext, h.closed, fun hlinked => ?_⟩
  by_cases ha : config.aiosqlite
  · simp only [call, seen, hlinked ha, ha, if_true]
    cases s.aconn <;> rfl
  · simp [seen, ha]

/-- **A call of either API.** It answers from the table its API sees and leaves the table its API
sees. -/
theorem step_explained [ShallowMerge V] (h : Inv config s) (api : Api) (c : StoreCall K V F) :
    Answers config (seen config s api).get? (step config s api c).1 c ∧
      (seen config (step config s api c).2 api).get? = next config (seen config s api).get? c ∧
      Inv config (step config s api c).2 := by
  cases api with
  | sync => exact call_explained h c
  | async =>
    simp only [step, acall]
    cases he : early c with
    | some result =>
      obtain ⟨hanswers, hnext⟩ := early_answers he (seen config s .async)
      exact ⟨hanswers, hnext.symm, h⟩
    | none =>
      by_cases ha : config.aiosqlite
      · have hensure : ensureAconn config s = .ok (seen config s .async) := by
          simp [ensureAconn, seen, ha,
            BaseSQLiteStore.checkOpen_of_opened (s := ⟨s.conn, s.closed⟩) h.closed]
        obtain ⟨hanswers, hnext⟩ :=
          execute_answers (s := ⟨seen config s .async, s.closed⟩) h.closed .async c
        simp only [ha, if_true, hensure]
        refine ⟨hanswers, ?_, h.closed, fun hlinked => ?_⟩
        · simp only [seen, ha, if_true] at hnext ⊢
          exact hnext
        · simp [seen, ha, hlinked ha]
      · obtain ⟨hanswers, hnext, hinv⟩ := call_explained h c
        simp only [seen, ha]
        exact ⟨hanswers, hnext, hinv⟩

/-- **A run** in which all calls see the same map. -/
theorem run_explained [ShallowMerge V] (h : Inv config s) {calls : List (Api × StoreCall K V F)}
    (api : Api) (hcalls : config.Linked ∨ ∀ c ∈ calls, c.1 = api) :
    Explained config (seen config s api).get? calls (run config s calls) := by
  induction calls generalizing s with
  | nil => trivial
  | cons call calls ih =>
    obtain ⟨api', c⟩ := call
    obtain ⟨hanswers, hnext, hinv⟩ := step_explained h api' c
    have hsame : ∀ {s : SQLiteStore K R}, Inv config s →
        seen config s api' = seen config s api := by
      intro s hs
      rcases hcalls with hlinked | hcalls
      · rw [hs.eq_sync hlinked api', hs.eq_sync hlinked api]
      · rw [show api' = api from hcalls _ List.mem_cons_self]
    rw [hsame h] at hanswers hnext
    rw [hsame hinv] at hnext
    refine ⟨hanswers, ?_⟩
    rw [← hnext]
    exact ih hinv (hcalls.imp id fun hc c hmem => hc c (List.mem_cons_of_mem _ hmem))

/-! ### One map for both APIs -/

/-- The store is one map: the results of every sequence of calls are those of the same calls on a
single map, which starts with the rows of the database. -/
def Coherent [ShallowMerge V] (config : Config K V R F) : Prop :=
  ∀ (table : Table K R) (calls : List (Api × StoreCall K V F)),
    Explained config (opened config table).conn.get? calls (run config (opened config table) calls)

/-- The calls of one API see one map, whatever the database. -/
theorem coherent_of_one_api [ShallowMerge V] (table : Table K R)
    {calls : List (Api × StoreCall K V F)} {api : Api} (hcalls : ∀ c ∈ calls, c.1 = api) :
    Explained config (seen config (opened config table) api).get? calls
      (run config (opened config table) calls) :=
  run_explained (inv_opened config table) api (.inr hcalls)

/-- The first asynchronous call finds a private database empty. -/
theorem get_none_of_apart [ShallowMerge V] (ha : config.aiosqlite) (hp : config.apart)
    (h : Inv config s) (haconn : s.aconn = none) (key : K) :
    (step config s .async (.read (.get key) : StoreCall K V F)).1 = .ok (.value none) := by
  obtain ⟨⟨t, ht, hvalue⟩, -⟩ := step_explained h .async (.read (.get key) : StoreCall K V F)
  rw [hvalue, Dict.get?_mapValues, ht]
  simp [seen, ha, hp, haconn]

/-- `set`, then `aget`. -/
def setThenAget (key : K) (value : V) : List (Api × StoreCall K V F) :=
  [(.sync, .write (.set key value .overwrite)), (.async, .read (.get key))]

/-- No map explains that `aget` does not find what `set` wrote. -/
theorem not_explained_of_apart [ShallowMerge V] (ha : config.aiosqlite) (hp : config.apart)
    (table : Table K R) (key : K) (value : V) :
    ¬ Explained config (opened config table).conn.get? (setThenAget key value)
      (run config (opened config table) (setThenAget key value)) := by
  intro h
  simp only [setThenAget, run, Explained] at h
  obtain ⟨-, ⟨t, ht, hvalue⟩, -⟩ := h
  obtain ⟨-, -, hinv⟩ := step_explained (inv_opened config table) .sync
    (.write (.set key value .overwrite))
  have haconn : (step config (opened config table) .sync
      (.write (.set key value .overwrite))).2.aconn = none := by simp [step, call, opened, hp]
  rw [AnswersOn, get_none_of_apart ha hp hinv haconn key] at hvalue
  have hget : none = (t.mapValues config.layout.rowToValue).get? key := by simpa using hvalue
  rw [Dict.get?_mapValues, ht] at hget
  simp [next, Contents.atomicExec, Contents.atomicSetMany_overwrite, Contents.writeRows_apply,
    Dict.ofList] at hget

/-- **When the two APIs are coherent.** -/
theorem coherent_iff [ShallowMerge V] [Inhabited K] [Inhabited V] (config : Config K V R F) :
    Coherent config ↔ (config.aiosqlite → config.isPrivate config.database = false) := by
  constructor
  · intro h ha
    by_contra hp
    have hp : config.apart = true := by simpa [Config.apart] using hp
    exact not_explained_of_apart ha hp ∅ default default (h ∅ _)
  · intro h table calls
    exact run_explained (inv_opened config table) .sync (.inl h)

/-- The in-memory store that is the default. -/
def memory : Config String (Dict String ℕ) (Dict String ℕ) Unit where
  database := ":memory:"
  layout := ⟨id, id⟩
  maxSqlVariables := 900
  filterWhere _ := .ok fun _ => true
  aiosqlite := true
  isPrivate := (· == ":memory:")

/-- **The value is not there.** -/
theorem memory_not_coherent :
    run memory (opened memory ∅) (setThenAget "k" (.ofList [("n", 1)])) =
        [.ok .none, .ok (.value none)] ∧
      ¬ Explained memory (opened memory ∅).conn.get? (setThenAget "k" (.ofList [("n", 1)]))
        (run memory (opened memory ∅) (setThenAget "k" (.ofList [("n", 1)]))) :=
  ⟨rfl, not_explained_of_apart rfl rfl ∅ "k" _⟩

end SQLiteStore

end Persista
