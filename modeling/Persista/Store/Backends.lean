import Persista.Store.FileKeys
import Persista.Store.KeySnapshot
import Persista.Store.TableStore

/-!
# The backends keep the promise of `BaseStore`

The in-memory, SQLite, DuckDB, Postgres, LMDB and file stores as `BaseStore`s. They hold their pairs
in different orders and cut them into batches in different ways: the in-memory and the file store
cut pairs, the SQL stores ask for pages, or cut the rows of a cursor, or fill batches from one, LMDB
cuts its sorted keys and reads them batch by batch. What none of them does is lose a pair, repeat
one, or change one.

The other clients of a database are not here; a store that is one of many is a matter of the
sessions and tasks of its backend. Keys are those that the backend takes. LMDB takes keys of 1 to
511 bytes (`LmdbStore.Key`) and raises `BadValsizeError` for others.

## Main results

* `yields_cut`, `yields_rows`, `yields_read` — the three ways to batches
* `InMemoryStore.isMap` and the like — each backend is a map
* `backends_follow_one_map` — what that says of runs
-/

namespace Persista

open BaseStore

variable {K V R F : Type} [LinearOrder K]

/-! ### Batches -/

/-- A batch of pairs with distinct keys, in a dictionary. -/
theorem entries_ofList_of_mem {pairs : List (K × V)} (hnd : (pairs.map Prod.fst).Nodup)
    {batches : List (List (K × V))} (hflat : batches.flatten = pairs) {batch : List (K × V)}
    (hbatch : batch ∈ batches) : (Dict.ofList batch).entries = batch := by
  refine Dict.entries_ofList (hnd.sublist (List.Sublist.map Prod.fst ?_))
  rw [← hflat]
  exact List.sublist_flatten_of_mem hbatch

/-- **Pairs that are cut.** -/
theorem yields_cut (batchify : Snapshot.Cutting (K × V)) {m : Contents K V}
    {pairs : List (K × V)} (hnd : (pairs.map Prod.fst).Nodup)
    (hmem : ∀ k v, (k, v) ∈ pairs ↔ m k = some v) {batchSize : ℕ} (hb : 1 ≤ batchSize) :
    Yields m batchSize ((batchify.run pairs batchSize).map Dict.ofList) := by
  have hflat := batchify.flatten_run pairs hb
  refine Yields.of_entries hnd hmem ?_ fun batch hbatch => ?_
  · rw [List.map_map]
    refine (congrArg List.flatten (List.map_congr_left (g := id) fun batch hbatch => ?_)).trans
      ((congrArg List.flatten (List.map_id _)).trans hflat)
    exact entries_ofList_of_mem hnd hflat hbatch
  · obtain ⟨part, hpart, rfl⟩ := List.mem_map.mp hbatch
    rw [Dict.length, entries_ofList_of_mem hnd hflat hpart]
    exact batchify.length_le pairs hb part hpart

/-- **Rows that come batch by batch**, and are turned into values. -/
theorem yields_rows (layout : Layout V R) {t t' : Table K R} (ht : t'.get? = t.get?)
    {batches : List (Table K R)} (hflat : (batches.map Dict.entries).flatten = t'.entries)
    {batchSize : ℕ} (hlen : ∀ b ∈ batches, b.length ≤ batchSize) :
    Yields (fun k => (t.get? k).map layout.rowToValue) batchSize
      (batches.map (·.mapValues layout.rowToValue)) := by
  have hkeys : ((t'.mapValues layout.rowToValue).entries.map Prod.fst).Nodup :=
    (t'.mapValues layout.rowToValue).nodup
  refine Yields.of_entries hkeys (fun k v => ?_) ?_ fun batch hbatch => ?_
  · rw [← Dict.get?_eq_some_iff, Dict.get?_mapValues, ht]
  · have hentries : Dict.entries ∘ (fun rows : Table K R => rows.mapValues layout.rowToValue) =
        List.map (fun row => (row.1, layout.rowToValue row.2)) ∘ Dict.entries := rfl
    rw [List.map_map, hentries, ← List.map_map, ← List.map_flatten, hflat]
    rfl
  · obtain ⟨rows, hrows, rfl⟩ := List.mem_map.mp hbatch
    have hsame : (rows.mapValues layout.rowToValue).length = rows.length := List.length_map _
    rw [hsame]
    exact hlen rows hrows

/-- A read of keys that are all there. -/
theorem keys_readBatch {m : Contents K V} {keys : List K} (hnd : keys.Nodup)
    (hall : ∀ k ∈ keys, (m k).isSome) : (Snapshot.readBatch m keys).keys = keys := by
  have hfst : (keys.filterMap fun k => (m k).map (k, ·)).map Prod.fst = keys := by
    rw [List.map_filterMap]
    refine (List.filterMap_congr fun k hk => ?_).trans List.filterMap_some
    obtain ⟨v, hv⟩ := Option.isSome_iff_exists.mp (hall k hk)
    rw [hv]
    rfl
  rw [Snapshot.readBatch, Dict.keys, Dict.entries_ofList (hfst.symm ▸ hnd), hfst]

/-- The rows of a table have the keys of its values. -/
theorem lists_rows (layout : Layout V R) (t : Table K R) :
    Lists (fun k => (t.get? k).map layout.rowToValue) t.keys where
  nodup := t.nodup
  mem_iff k := by rw [Option.isSome_map, Dict.isSome_get?_iff]

/-- **Keys that are cut, and read batch by batch.** -/
theorem yields_read (batchify : Snapshot.Cutting K) {m : Contents K V} {keys : List K}
    (h : Lists m keys) {batchSize : ℕ} (hb : 1 ≤ batchSize) :
    Yields m batchSize ((batchify.run keys batchSize).map (Snapshot.readBatch m)) where
  nodup := by
    have hkeys : ∀ batch ∈ batchify.run keys batchSize,
        (Snapshot.readBatch m batch).keys = batch := by
      intro batch hbatch
      have hsub : batch.Sublist keys := by
        rw [← batchify.flatten_run keys hb]
        exact List.sublist_flatten_of_mem hbatch
      exact keys_readBatch (h.nodup.sublist hsub) fun k hk => (h.mem_iff k).mp (hsub.subset hk)
    rw [List.flatMap_def, List.map_map]
    refine (congrArg List.Nodup (congrArg List.flatten ((List.map_congr_left hkeys).trans
      (List.map_id' _)))).mpr ?_
    rw [batchify.flatten_run keys hb]
    exact h.nodup
  mem_iff k v := by
    simp only [List.mem_flatMap, List.mem_map, exists_exists_and_eq_and, ← Dict.get?_eq_some_iff,
      Snapshot.get?_readBatch]
    constructor
    · rintro ⟨batch, -, hget⟩
      split at hget
      · exact hget
      · cases hget
    · intro hv
      have hmem : k ∈ keys := (h.mem_iff k).mpr (by rw [hv]; rfl)
      rw [← batchify.flatten_run keys hb] at hmem
      obtain ⟨batch, hbatch, hk⟩ := List.mem_flatten.mp hmem
      exact ⟨batch, hbatch, by rw [if_pos hk, hv]⟩
  length_le batch hbatch := by
    obtain ⟨part, hpart, rfl⟩ := List.mem_map.mp hbatch
    exact (Snapshot.length_readBatch_le m part).trans (batchify.length_le keys hb part hpart)

/-! ### In memory -/

namespace InMemoryStore

/-- `iter_batches`, run to its end: the pairs are listed once and cut. -/
def iterBatches (batchify : Snapshot.Cutting (K × V)) (s : InMemoryStore K V) (batchSize : ℤ) :
    Except (StoreError K) (List (Dict K V)) := do
  validateBatchSize batchSize
  s.checkOpen
  return (batchify.run s.data.entries batchSize.toNat).map Dict.ofList

/-- The store, by its calls. -/
def baseStore [ShallowMerge V] (batchify : Snapshot.Cutting (K × V)) :
    BaseStore (InMemoryStore K V) K V where
  exec := exec
  get := get
  getMany := getMany
  contains := contains
  containsMany := containsMany
  keys := keys
  iterBatches := iterBatches batchify
  count := count

theorem isMap [ShallowMerge V] (batchify : Snapshot.Cutting (K × V)) :
    IsMap (baseStore batchify) contents (Opened (V := V)) where
  refines := refines
  reads {s} h := {
    get key := get_of_opened h key
    getMany keys := getMany_of_opened h keys
    contains key := contains_of_opened h key
    containsMany keys := containsMany_of_opened h keys
    keys := by
      refine ⟨s.data.keys, ?_, lists_keys s.data⟩
      simp [baseStore, keys, checkOpen_of_opened h]
    count := by
      refine ⟨s.data.keys, ?_, lists_keys s.data⟩
      simp [baseStore, count, checkOpen_of_opened h, Dict.length_keys]
    iterBatches batchSize hb := by
      refine ⟨_, ?_, yields_cut batchify s.data.nodup (fun k v => Dict.get?_eq_some_iff.symm)
        (by omega)⟩
      simp [baseStore, iterBatches, validateBatchSize_of_le hb, checkOpen_of_opened h]
    refuses _ _ he := by
      simp [baseStore, iterBatches, he] }

end InMemoryStore

/-! ### The SQL stores -/

namespace SQLiteStore

variable (config : Config K V R F)

/-- The store as one of its connections has it, by its calls. -/
def baseStore [ShallowMerge V] (api : Api) : BaseStore (BaseSQLiteStore K R) K V where
  exec := BaseSQLiteStore.exec config.layout config.maxSqlVariables
  get := BaseSQLiteStore.get config.layout
  getMany := BaseSQLiteStore.getMany config.layout config.maxSqlVariables
  contains := BaseSQLiteStore.contains
  containsMany := BaseSQLiteStore.containsMany config.maxSqlVariables
  keys := BaseSQLiteStore.keys
  iterBatches := iterBatches config api
  count := BaseSQLiteStore.count

theorem isMap [ShallowMerge V]
    (hround : ∀ v, config.layout.rowToValue (config.layout.valueToRow v) = v) (api : Api) :
    IsMap (baseStore config api) (BaseSQLiteStore.lookup config.layout)
      BaseSQLiteStore.Opened where
  refines := BaseSQLiteStore.refines config.layout config.maxSqlVariables hround
  reads {s} h := {
    get key := BaseSQLiteStore.get_of_opened h key
    getMany keys := BaseSQLiteStore.getMany_of_opened h keys
    contains key := BaseSQLiteStore.contains_of_opened config.layout h key
    containsMany keys := BaseSQLiteStore.containsMany_of_opened config.layout h keys
    keys := by
      refine ⟨s.table.keys, ?_, lists_rows config.layout s.table⟩
      simp [baseStore, BaseSQLiteStore.keys, BaseSQLiteStore.checkOpen_of_opened h]
    count := by
      refine ⟨s.table.keys, ?_, lists_rows config.layout s.table⟩
      simp [baseStore, BaseSQLiteStore.count, BaseSQLiteStore.checkOpen_of_opened h,
        Dict.length_keys]
    iterBatches batchSize hb := by
      obtain ⟨t, ht, hflat, hsize⟩ := batches_spec api batchSize.toNat (by omega) s.table
      refine ⟨_, ?_, yields_rows config.layout ht hflat fun b hmem => (hsize b hmem).2⟩
      simp [baseStore, iterBatches, validateBatchSize_of_le hb,
        BaseSQLiteStore.checkOpen_of_opened h]
    refuses _ _ he := by
      simp [baseStore, iterBatches, he] }

end SQLiteStore

namespace TableStore

theorem isMap [ShallowMerge V] (backend : Backend K V R) (hcuts : backend.CutsRows)
    (hround : ∀ v, backend.layout.rowToValue (backend.layout.valueToRow v) = v) :
    IsMap (baseStore backend) (lookup backend) Opened where
  refines := refines backend hround
  reads {s} h := {
    get key := by
      simp [baseStore, get, checkOpen_of_opened h]
    getMany keys := getMany_of_opened h keys
    contains key := by
      simp [baseStore, contains, checkOpen_of_opened h, lookup]
    containsMany keys := by
      simp [baseStore, containsMany, checkOpen_of_opened h, existing_eq backend]
    keys := by
      have hperm := (backend.scan.perm s.table).map Prod.fst
      refine ⟨(backend.scan.rows s.table).map Prod.fst, ?_,
        hperm.nodup_iff.mpr s.table.nodup, fun k => ?_⟩
      · simp [baseStore, keys, checkOpen_of_opened h]
      · rw [hperm.mem_iff]
        exact (lists_rows backend.layout s.table).mem_iff k
    count := by
      refine ⟨s.table.keys, ?_, lists_rows backend.layout s.table⟩
      simp [baseStore, count, checkOpen_of_opened h, Dict.length_keys]
    iterBatches batchSize hb := by
      obtain ⟨t, ht, hflat, hlen⟩ := hcuts batchSize.toNat (by omega) s.table
      refine ⟨_, ?_, yields_rows backend.layout ht hflat hlen⟩
      simp [baseStore, iterBatches, validateBatchSize_of_le hb, checkOpen_of_opened h]
    refuses _ _ he := by
      simp [baseStore, iterBatches, he] }

end TableStore

theorem BaseDuckDBStore.isMap [ShallowMerge V] (layout : Layout V R) (scan : ScanOrder K R)
    (hround : ∀ v, layout.rowToValue (layout.valueToRow v) = v) :
    IsMap (baseStore layout scan) (TableStore.lookup (backend layout scan)) TableStore.Opened :=
  TableStore.isMap _ (cutsRows layout scan) hround

theorem BasePostgresStore.isMap [ShallowMerge V] (layout : Layout V R) (scan : ScanOrder K R)
    (batchify : Snapshot.Cutting (K × R)) (api : Api)
    (hround : ∀ v, layout.rowToValue (layout.valueToRow v) = v) :
    IsMap (baseStore layout scan batchify api)
      (TableStore.lookup (backend layout scan batchify api)) TableStore.Opened :=
  TableStore.isMap _ (cutsRows layout scan batchify api) hround

/-! ### LMDB -/

namespace LmdbStore

/-- A key that LMDB takes. -/
abbrev Key := {key : StoreKey // (Utf8.encode key.text).length ∈ Set.Icc 1 511}

/-- An environment, its entries in any order, and `_closed`. -/
structure Environment (K R : Type) where
  entries : Dict K R
  closed : Bool

/-- A layout that encodes every value. -/
def codec (layout : Layout V R) : Codec V R Empty := ⟨fun v => .ok (layout.valueToRow v),
  layout.rowToValue⟩

/-- What a write raises when its encoder does not. -/
def raised : WriteError K Empty → StoreError K
  | .store error => error

variable (layout : Layout V R) (batchify : Snapshot.Cutting K)

/-- The store that reads and writes the environment. -/
def Environment.store (s : Environment K R) : LmdbStore K R := ⟨s.entries.get?, s.closed⟩

/-- What a write call raises. -/
def outcome [ShallowMerge V] (s : Environment K R) : StoreOp K V → Except (StoreError K) Unit
  | .set key value onConflict =>
    (setMany (codec layout) s.store (Dict.ofList [(key, value)]) onConflict).1.mapError raised
  | .setMany items onConflict =>
    (setMany (codec layout) s.store items onConflict).1.mapError raised
  | .delete _ | .deleteMany _ | .clear => s.store.checkOpen

/-- A write call: what it raises, or the environment after it. -/
def write [ShallowMerge V] (s : Environment K R) (op : StoreOp K V) :
    Except (StoreError K) (Environment K R) := do
  outcome layout s op
  return { s with entries := exec (codec layout) s.entries op }

/-- `keys`, in the order of the cursor. -/
def keys (s : Environment K R) : Except (StoreError K) (List K) := do
  s.store.checkOpen
  return (source (codec layout)).list s.entries

/-- `iter_batches`, run to its end. -/
def iterBatches (s : Environment K R) (batchSize : ℤ) :
    Except (StoreError K) (List (Dict K V)) := do
  validateBatchSize batchSize
  s.store.checkOpen
  return (batchify.run ((source (codec layout)).list s.entries) batchSize.toNat).map
    (Snapshot.readBatch ((source (codec layout)).read s.entries))

/-- The store, by its calls. -/
def baseStore [ShallowMerge V] (layout : Layout V R) (batchify : Snapshot.Cutting Key) :
    BaseStore (Environment Key R) Key V where
  exec := write layout
  get s key := s.store.get (codec layout) key
  getMany s keys := do
    s.store.checkOpen
    return keys.map (s.store.contents (codec layout))
  contains s key := do
    s.store.checkOpen
    return (s.store.env key).isSome
  containsMany s keys := s.store.containsMany keys
  keys := keys layout
  iterBatches := iterBatches layout batchify
  count s := do
    s.store.checkOpen
    return s.entries.length

variable {layout} {s : LmdbStore K R}

theorem fst_writeItems (s : LmdbStore K R) (items : Dict K V) :
    (s.writeItems (codec layout) items).1 = .ok () := by
  have hput : ∀ (rows : List (K × V)) (txn : Contents K R),
      (putMany (codec layout) txn rows).1 = .ok () := by
    intro rows
    induction rows with
    | nil => exact fun _ => rfl
    | cons row rows ih => exact fun txn => ih _
  have hbegin : ∀ p : Except (WriteError K Empty) Unit × Contents K R, p.1 = .ok () →
      (begin s.env fun _ => p).1 = .ok () := by
    rintro ⟨-, txn⟩ rfl
    rfl
  rw [writeItems_eq]
  exact hbegin _ (hput items.entries s.env)

/-- **`set_many` with an encoder that does not raise** is `set_many` on what the store holds. -/
theorem map_contents_setMany [ShallowMerge V]
    (hround : ∀ v, layout.rowToValue (layout.valueToRow v) = v) (h : s.closed = false)
    (items : Dict K V) (onConflict : OnConflict) :
    ((setMany (codec layout) s items onConflict).1.mapError raised).map (fun _ =>
      (setMany (codec layout) s items onConflict).2.contents (codec layout)) =
      (s.contents (codec layout)).setMany items onConflict := by
  have hcodec : (codec layout).RoundTrip := by
    intro value raw he
    obtain rfl := Except.ok.inj he
    exact hround value
  have hwrite : ∀ toWrite : Dict K V,
      ((s.writeItems (codec layout) toWrite).2.contents (codec layout)) =
        (s.contents (codec layout)).write toWrite.entries := by
    intro toWrite
    exact (contents_writeItems hcodec (Prod.ext (fst_writeItems s toWrite) rfl)).2
  by_cases ho : onConflict = .overwrite
  · have hset : setMany (codec layout) s items onConflict = s.writeItems (codec layout) items := by
      rw [setMany]
      simp only [checkOpen, h, Bool.false_eq_true, if_false, if_pos ho]
      split
      · next hi =>
        rw [writeItems, if_pos hi]
      · rfl
    rw [hset, fst_writeItems, Contents.setMany, if_pos ho]
    exact congrArg Except.ok (hwrite items)
  · rw [setMany_of_resolve (codec layout) h ho, Contents.setMany, if_neg ho]
    cases resolveConflicts items onConflict (s.contents (codec layout)).containsMany
      (s.contents (codec layout)) with
    | error e => rfl
    | ok toWrite =>
      simp only [fst_writeItems]
      exact congrArg Except.ok (hwrite toWrite)

/-- What the environment holds. -/
def Environment.contents (layout : Layout V R) (s : Environment K R) : Contents K V :=
  s.store.contents (codec layout)

omit [LinearOrder K] in
theorem checkOpen_of_opened (h : s.closed = false) : s.checkOpen = .ok () := by
  simp [checkOpen, h]

theorem contents_exec [ShallowMerge V] (s : Environment K R) (op : StoreOp K V) :
    Environment.contents layout { s with entries := exec (codec layout) s.entries op } =
      fun k => ((exec (codec layout) s.entries op).get? k).map layout.rowToValue := rfl

theorem contents_delete (s : Environment K R) (keys : List K) :
    (fun k => (Contents.delete s.entries.get? keys k).map layout.rowToValue) =
      (s.contents layout).delete keys := by
  funext k
  rw [Contents.delete, Contents.delete]
  split
  · rfl
  · rfl

theorem refines [ShallowMerge V] (hround : ∀ v, layout.rowToValue (layout.valueToRow v) = v) :
    Refinement.Refines (write (K := K) layout) (Contents.exec (V := V))
      (Environment.contents layout) fun s => s.closed = false where
  inv {s s' op} h he := by
    cases ho : outcome layout s op with
    | error e =>
      rw [write, ho] at he
      cases he
    | ok _ =>
      rw [write, ho] at he
      exact Except.ok.inj he ▸ h
  comm {s op} h := by
    have hopen : s.store.checkOpen = .ok () := checkOpen_of_opened h
    have hstore : s.store = ⟨s.entries.get?, false⟩ := congrArg (LmdbStore.mk s.entries.get?) h
    have hset : ∀ (items : Dict K V) (onConflict : OnConflict) (env : Dict K R),
        env.get? = (setMany (codec layout) ⟨s.entries.get?, false⟩ items onConflict).2.env →
        ((do
          (setMany (codec layout) s.store items onConflict).1.mapError raised
          return { s with entries := env } : Except (StoreError K) (Environment K R))).map
            (Environment.contents layout) = (s.contents layout).setMany items onConflict := by
      intro items onConflict env henv
      have hmap := map_contents_setMany (s := s.store) hround h items onConflict
      rw [Environment.contents, ← hmap]
      cases (setMany (codec layout) s.store items onConflict).1.mapError raised with
      | error e => rfl
      | ok _ =>
        refine congrArg Except.ok (funext fun k => ?_)
        rw [hstore]
        exact congrArg (fun m : Contents K R => (m k).map layout.rowToValue) henv
    cases op with
    | set key value onConflict => exact hset _ _ _ (get?_exec (codec layout) s.entries _)
    | setMany items onConflict => exact hset _ _ _ (get?_exec (codec layout) s.entries _)
    | delete key =>
      simp only [write, outcome, hopen, Refinement.ok_bind, Refinement.pure_ok,
        Refinement.map_ok, contents_exec, get?_exec]
      exact congrArg Except.ok (contents_delete s [key])
    | deleteMany keys =>
      simp only [write, outcome, hopen, Refinement.ok_bind, Refinement.pure_ok,
        Refinement.map_ok, contents_exec, get?_exec]
      exact congrArg Except.ok (contents_delete s keys)
    | clear =>
      simp only [write, outcome, hopen, Refinement.ok_bind]
      rfl

theorem isMap [ShallowMerge V] (layout : Layout V R) (batchify : Snapshot.Cutting Key)
    (hround : ∀ v, layout.rowToValue (layout.valueToRow v) = v) :
    IsMap (baseStore layout batchify) (Environment.contents layout) fun s => s.closed = false where
  refines := refines hround
  reads {s} h := {
    get key := get_eq_ok_iff.mpr ⟨h, rfl⟩
    getMany keys := by
      simp [baseStore, checkOpen_of_opened (s := s.store) h, Environment.contents]
    contains key := by
      simp [baseStore, checkOpen_of_opened (s := s.store) h, Environment.contents, contents]
    containsMany keys := by
      refine containsMany_eq_ok_iff.mpr ⟨h, ?_⟩
      rw [Environment.contents, containsMany_contents]
      rfl
    keys := by
      refine ⟨(Table.orderByKey s.entries).keys, ?_, ?_, fun k => ?_⟩
      · simp [baseStore, keys, checkOpen_of_opened (s := s.store) h, source]
      · exact (Table.orderByKey s.entries).nodup
      · exact ((source_lists (codec layout) s.entries).mem_iff k)
    count := by
      refine ⟨s.entries.keys, ?_, lists_rows layout s.entries⟩
      simp [baseStore, checkOpen_of_opened (s := s.store) h, Dict.length_keys]
    iterBatches batchSize hb := by
      have hlists := source_lists (codec layout) s.entries
      refine ⟨_, ?_, yields_read batchify ⟨hlists.nodup, hlists.mem_iff⟩ (by omega)⟩
      simp [baseStore, iterBatches, validateBatchSize_of_le hb,
        checkOpen_of_opened (s := s.store) h]
    refuses _ _ he := by
      simp [baseStore, iterBatches, he] }

end LmdbStore

/-! ### Files -/

namespace FileDirectory

variable {V R : Type} (store : FileDirectory V R)

/-- The pairs of `iter_batches`, as the generator lists them. -/
def items (files : Files R) : List (StoreKey × V) :=
  (store.iterFiles files).filterMap fun p =>
    (files.get? p).map fun raw => (store.pathToKey p, store.format.rowToValue raw)

/-- The store, by its calls; it is open. -/
def baseStore [ShallowMerge V] (batchify : Snapshot.Cutting (StoreKey × V)) :
    BaseStore (Files R) StoreKey V where
  exec := store.exec
  get files key := .ok (store.get files key)
  getMany files keys := .ok (keys.map (store.get files))
  contains files key := .ok (store.contains files key)
  containsMany files keys := .ok (store.containsMany files keys)
  keys files := .ok (store.keys files)
  iterBatches files batchSize := do
    validateBatchSize batchSize
    return (batchify.run (store.items files) batchSize.toNat).map Dict.ofList
  count files := .ok (store.count files)

variable {store} {outside files : Files R}

/-- Every file that is listed is there. -/
theorem map_fst_items (h : store.Owned outside files) :
    (store.items files).map Prod.fst = store.keys files := by
  rw [items, List.map_filterMap, keys, ← List.filterMap_eq_map]
  refine List.filterMap_congr fun p hp => ?_
  obtain ⟨key, -, hmem⟩ := (mem_iterFiles h).mp hp
  obtain ⟨raw, hraw⟩ := Option.isSome_iff_exists.mp (Dict.isSome_get?_iff.mpr hmem)
  rw [hraw]
  rfl

theorem mem_items (h : store.Owned outside files) (key : StoreKey) (value : V) :
    (key, value) ∈ store.items files ↔ store.contents files key = some value := by
  rw [items, List.mem_filterMap, contents, get]
  constructor
  · rintro ⟨p, hp, hpair⟩
    obtain ⟨key', rfl, -⟩ := (mem_iterFiles h).mp hp
    obtain ⟨raw, hraw, heq⟩ := Option.map_eq_some_iff.mp hpair
    obtain ⟨rfl, rfl⟩ := Prod.mk.inj heq
    rw [pathToKey_keyToPath, hraw]
    rfl
  · intro hget
    obtain ⟨raw, hraw, rfl⟩ := Option.map_eq_some_iff.mp hget
    have hmem : store.keyToPath key ∈ files.keys := Dict.isSome_get?_iff.mp (by rw [hraw]; rfl)
    refine ⟨store.keyToPath key, (mem_iterFiles h).mpr ⟨key, rfl, hmem⟩, ?_⟩
    rw [hraw, pathToKey_keyToPath]
    rfl

theorem lists_files (h : store.Owned outside files) :
    Lists (store.contents files) (store.keys files) :=
  ⟨nodup_keys h, fun _ => mem_keys_iff h⟩

theorem isMap [ShallowMerge V] (store : FileDirectory V R)
    (batchify : Snapshot.Cutting (StoreKey × V))
    (hround : ∀ v, store.format.rowToValue (store.format.valueToRow v) = v) (outside : Files R) :
    IsMap (store.baseStore batchify) store.contents (store.Owned outside) where
  refines := refines hround outside
  reads {files} h := {
    get _ := rfl
    getMany _ := rfl
    contains _ := congrArg Except.ok Option.isSome_map.symm
    containsMany keys := by
      refine congrArg Except.ok (List.map_congr_left fun key _ => ?_)
      exact Option.isSome_map.symm
    keys := ⟨_, rfl, lists_files h⟩
    count := by
      refine ⟨store.keys files, ?_, lists_files h⟩
      simp [baseStore, count, keys]
    iterBatches batchSize hb := by
      refine ⟨_, ?_, yields_cut batchify (map_fst_items h ▸ nodup_keys h) (mem_items h) (by omega)⟩
      simp [baseStore, validateBatchSize_of_le hb]
    refuses _ _ he := by
      simp [baseStore, he] }

end FileDirectory

/-! ### All of them -/

/-- **The backends follow one map.** A store that has just been opened, of every kind but Redis,
with rows that read back, does over every run of write calls what an empty map does: it raises the
same at the same places, and it answers from the map, every key once, every pair once, in batches no
longer than asked for. The layout, the order of a scan or of a directory, the chunk size, the API
and the cutting do not matter. -/
theorem backends_follow_one_map [ShallowMerge V] (config : SQLiteStore.Config K V R F)
    (layout : Layout V R) (scan : ScanOrder K R) (directory : FileDirectory V R)
    (pairs : Snapshot.Cutting (K × V)) (rows : Snapshot.Cutting (K × R))
    (keys : Snapshot.Cutting LmdbStore.Key) (files : Snapshot.Cutting (StoreKey × V))
    (outside : Files R)
    (hconfig : ∀ v, config.layout.rowToValue (config.layout.valueToRow v) = v)
    (hlayout : ∀ v, layout.rowToValue (layout.valueToRow v) = v)
    (hformat : ∀ v, directory.format.rowToValue (directory.format.valueToRow v) = v)
    (hfresh : ∀ p ∈ outside.keys, p.parent ≠ directory.path) :
    Follows (InMemoryStore.baseStore pairs) InMemoryStore.init.open (fun _ => none) ∧
    (∀ api, Follows (SQLiteStore.baseStore config api) BaseSQLiteStore.opened fun _ => none) ∧
    Follows (BaseDuckDBStore.baseStore layout scan) TableStore.opened (fun _ => none) ∧
    (∀ api, Follows (BasePostgresStore.baseStore layout scan rows api) TableStore.opened
      fun _ => none) ∧
    Follows (LmdbStore.baseStore layout keys) ⟨∅, false⟩ (fun _ => none) ∧
    Follows (directory.baseStore files) outside fun _ => none := by
  refine ⟨(InMemoryStore.isMap pairs).follows InMemoryStore.opened_open_init,
    fun api => (SQLiteStore.isMap config hconfig api).follows rfl,
    (BaseDuckDBStore.isMap layout scan hlayout).follows rfl,
    fun api => (BasePostgresStore.isMap layout scan rows api hlayout).follows rfl,
    (LmdbStore.isMap layout keys hlayout).follows rfl, ?_⟩
  have hempty : directory.contents outside = fun _ => none := by
    funext key
    have hno : directory.keyToPath key ∉ outside.keys := fun hmem =>
      hfresh _ hmem (FileDirectory.parent_keyToPath key)
    rw [FileDirectory.contents, FileDirectory.get, Dict.get?_eq_none_iff.mpr hno]
    rfl
  rw [← hempty]
  exact (FileDirectory.isMap directory files hformat outside).follows
    ⟨fun p hp hparent => absurd hparent (hfresh p hp), fun p _ => rfl⟩

/-- A table that is scanned in the order of its rows. -/
def inOrder {K R : Type} : ScanOrder K R := ⟨Dict.entries, fun _ => List.Perm.refl _⟩

theorem backends_follow_one_map_memory :
    (∀ api, Follows (SQLiteStore.baseStore SQLiteStore.memory api) BaseSQLiteStore.opened
      fun _ => none) ∧
    (∀ api, Follows (BasePostgresStore.baseStore (K := String) (SQLiteStore.memory.layout) inOrder
      byPosition api) TableStore.opened fun _ => none) ∧
    Follows (LmdbStore.baseStore SQLiteStore.memory.layout byPosition) ⟨∅, false⟩ (fun _ => none) ∧
    Follows (FileDirectory.jsonDirectory.baseStore byPosition) ∅ fun _ => none := by
  obtain ⟨-, hsqlite, -, hpostgres, hlmdb, hfiles⟩ := backends_follow_one_map SQLiteStore.memory
    SQLiteStore.memory.layout inOrder FileDirectory.jsonDirectory byPosition byPosition byPosition
    byPosition ∅ (fun _ => rfl) (fun _ => rfl) (fun _ => rfl) fun p hp => absurd hp List.not_mem_nil
  exact ⟨hsqlite, hpostgres, hlmdb, hfiles⟩

end Persista
