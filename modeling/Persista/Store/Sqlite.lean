import Persista.Store.InMemory
import Persista.Store.Rows
import Mathlib.Data.PNat.Basic

/-!
# `BaseSQLiteStore`, synchronous API

`store/sqlite.py`: one row per key. A table with a primary key is a finite map from keys to rows,
kept here as a `Dict` in rowid order; `INSERT OR REPLACE` removes the old row and inserts a new one,
so a replaced row moves to the end.

Statements bind at most `_MAX_SQL_VARIABLES` keys, so the batch methods cut their key list into
chunks and issue one `IN (...)` statement per chunk. The rows of a statement come back in an order
the caller did not choose, without duplicates and without the missing keys; `get_many` collects them
in a dictionary and reads it in the caller's order. The chunk size is a parameter: nothing below
depends on its being 900.

Subclasses differ in how a value is laid out in a row; `SQLiteStore` is the layout whose single
column is the JSON text of the value.

## Main results

* `mem_chunk` — the chunks hold the items, whatever the chunk size
* `get?_byKey` — after the loop over the chunks the dictionary holds what the table held
* `BaseSQLiteStore.refines` — on an open store every write call is the corresponding operation on
  the contents
-/

namespace Persista

/-! ### Chunks -/

/-- `range(0, stop, step)` for a positive step. -/
def rangeStep (stop step : ℕ) : List ℕ := (List.range ((stop + step - 1) / step)).map (· * step)

/-- `_chunk(items, size)`: `items[start : start + size]` for `start in range(0, len(items),
size)`. -/
def chunk {α : Type} (items : List α) (size : ℕ) : List (List α) :=
  (rangeStep items.length size).map fun start => (items.drop start).take size

theorem mem_rangeStep {stop step i : ℕ} (hs : 0 < step) (hi : i < stop) :
    i / step * step ∈ rangeStep stop step := by
  refine List.mem_map.mpr ⟨i / step, List.mem_range.mpr ?_, rfl⟩
  have hle : i / step + 1 ≤ (stop + step - 1) / step := by
    rw [← Nat.add_div_right i hs]
    exact Nat.div_le_div_right (by omega)
  omega

/-- **No item is lost or invented by chunking.** -/
theorem mem_chunk {α : Type} {items : List α} {size : ℕ} (hs : 0 < size) {x : α} :
    (∃ c ∈ chunk items size, x ∈ c) ↔ x ∈ items := by
  constructor
  · rintro ⟨c, hc, hx⟩
    obtain ⟨start, -, rfl⟩ := List.mem_map.mp hc
    exact List.mem_of_mem_drop (List.mem_of_mem_take hx)
  · intro hx
    obtain ⟨i, hi, rfl⟩ := List.mem_iff_getElem.mp hx
    refine ⟨_, List.mem_map.mpr ⟨_, mem_rangeStep hs hi, rfl⟩, ?_⟩
    have hmod := Nat.mod_lt i hs
    have hdiv := Nat.div_add_mod' i size
    refine List.mem_take_iff_getElem.mpr ⟨i % size, ?_, ?_⟩
    · simp only [List.length_drop]
      omega
    · simp only [List.getElem_drop, hdiv]

/-- The chunks respect the bound on the number of variables. -/
theorem length_le_of_mem_chunk {α : Type} {items c : List α} {size : ℕ}
    (hc : c ∈ chunk items size) : c.length ≤ size := by
  obtain ⟨start, -, rfl⟩ := List.mem_map.mp hc
  exact List.length_take_le _ _

theorem flatten_map_range {α : Type} (items : List α) (size n : ℕ) :
    ((List.range n).map fun i => (items.drop (i * size)).take size).flatten =
      items.take (n * size) := by
  induction n with
  | zero => simp
  | succ n ih =>
    rw [List.range_succ, List.map_append, List.flatten_append, ih, List.map_singleton,
      List.flatten_singleton, Nat.succ_mul, List.take_add]

/-- The chunks are consecutive runs. -/
theorem flatten_chunk {α : Type} {items : List α} {size : ℕ} (hs : 1 ≤ size) :
    (chunk items size).flatten = items := by
  rw [chunk, rangeStep, List.map_map]
  change ((List.range _).map fun i => (items.drop (i * size)).take size).flatten = _
  rw [flatten_map_range, List.take_of_length_le]
  have hdiv := Nat.div_add_mod' (items.length + size - 1) size
  have hmod := Nat.mod_lt (items.length + size - 1) hs
  omega

example : chunk [1, 2, 3, 4, 5] 2 = [[1, 2], [3, 4], [5]] := by decide

/-! ### Statements -/

variable {K V R : Type} [LinearOrder K]

/-- A table: the rows by primary key, in rowid order. -/
abbrev Table (K R : Type) := Dict K R

namespace Table

/-- `INSERT OR REPLACE INTO store VALUES (key, row)`. -/
def insertOrReplace (t : Table K R) (key : K) (row : R) : Table K R :=
  Dict.set (Dict.erase t key) key row

/-- `executemany("INSERT OR REPLACE ...", rows)`, every row accepted. -/
def executemany (t : Table K R) (rows : List (K × R)) : Table K R :=
  rows.foldl (fun t row => t.insertOrReplace row.1 row.2) t

/-- `SELECT * FROM store WHERE key IN (keys)`. -/
def selectIn (t : Table K R) (keys : List K) : Table K R :=
  Dict.filterKeys t fun k => decide (k ∈ keys)

/-- `DELETE FROM store WHERE key IN (keys)`. -/
def deleteIn (t : Table K R) (keys : List K) : Table K R :=
  Dict.filterKeys t fun k => decide (k ∉ keys)

@[simp] theorem get?_insertOrReplace (t : Table K R) (key : K) (row : R) (j : K) :
    (t.insertOrReplace key row).get? j = if j = key then some row else t.get? j := by
  by_cases h : j = key <;> simp [insertOrReplace, h]

theorem get?_executemany {t : Table K R} {rows : List (K × R)} (hnd : (rows.map Prod.fst).Nodup)
    (j : K) : (t.executemany rows).get? j = (rows.lookup j).or (t.get? j) := by
  induction rows generalizing t with
  | nil => rfl
  | cons row rows ih =>
    obtain ⟨k, r⟩ := row
    simp only [List.map_cons, List.nodup_cons] at hnd
    change (executemany (t.insertOrReplace k r) rows).get? j = _
    rw [ih hnd.2, get?_insertOrReplace, Dict.lookup_cons_ite]
    by_cases h : j = k
    · subst h
      simp [Dict.lookup_eq_none_of_not_mem hnd.1]
    · simp [h]

@[simp] theorem get?_selectIn (t : Table K R) (keys : List K) (j : K) :
    (t.selectIn keys).get? j = if j ∈ keys then t.get? j else none := by
  simp [selectIn]

@[simp] theorem get?_deleteIn (t : Table K R) (keys : List K) (j : K) :
    (t.deleteIn keys).get? j = if j ∈ keys then none else t.get? j := by
  simp [deleteIn]

theorem mem_keys_selectIn {t : Table K R} {keys : List K} {j : K} :
    j ∈ (t.selectIn keys).keys ↔ j ∈ t.keys ∧ j ∈ keys := by
  simp [selectIn, Dict.mem_keys_filterKeys]

end Table

/-! ### The loops over the chunks -/

/-- The loop of `get_many`: one `SELECT ... IN` per chunk, `by_key.update(rows)` after each. -/
def byKey (layout : Layout V R) (t : Table K R) (chunks : List (List K)) (acc : Dict K V) :
    Dict K V :=
  chunks.foldl (fun byKey c => byKey.update ((t.selectIn c).mapValues layout.rowToValue)) acc

/-- The loop of `contains_many`: `existing.update(row[0] for row in rows)` after each chunk. -/
def existingKeys (t : Table K R) (chunks : List (List K)) (acc : List K) : List K :=
  chunks.foldl (fun existing c => existing ++ (t.selectIn c).keys) acc

/-- The loop of `delete_many`. -/
def deleteChunks (t : Table K R) (chunks : List (List K)) : Table K R :=
  chunks.foldl (fun t c => t.deleteIn c) t

/-- Each key of some chunk is looked up in the table, whichever chunks it falls in. -/
theorem get?_byKey (layout : Layout V R) (t : Table K R) (chunks : List (List K)) (acc : Dict K V)
    (j : K) :
    (byKey layout t chunks acc).get? j =
      if ∃ c ∈ chunks, j ∈ c then ((t.get? j).map layout.rowToValue).or (acc.get? j)
      else acc.get? j := by
  induction chunks generalizing acc with
  | nil => simp [byKey]
  | cons c cs ih =>
    change (byKey layout t cs (acc.update ((t.selectIn c).mapValues layout.rowToValue))).get? j = _
    rw [ih, Dict.get?_update, Dict.get?_mapValues, Table.get?_selectIn]
    simp only [List.exists_mem_cons_iff]
    by_cases hc : j ∈ c
    · by_cases hcs : ∃ c ∈ cs, j ∈ c <;> cases t.get? j <;> simp [hc]
    · simp [hc]

theorem mem_existingKeys {t : Table K R} {chunks : List (List K)} {acc : List K} {j : K} :
    j ∈ existingKeys t chunks acc ↔ j ∈ acc ∨ (j ∈ t.keys ∧ ∃ c ∈ chunks, j ∈ c) := by
  induction chunks generalizing acc with
  | nil => simp [existingKeys]
  | cons c cs ih =>
    change j ∈ existingKeys t cs (acc ++ (t.selectIn c).keys) ↔ _
    rw [ih, List.mem_append, Table.mem_keys_selectIn, List.exists_mem_cons_iff]
    tauto

theorem get?_deleteChunks (t : Table K R) (chunks : List (List K)) (j : K) :
    (deleteChunks t chunks).get? j = if ∃ c ∈ chunks, j ∈ c then none else t.get? j := by
  induction chunks generalizing t with
  | nil => simp [deleteChunks]
  | cons c cs ih =>
    change (deleteChunks (t.deleteIn c) cs).get? j = _
    rw [ih, Table.get?_deleteIn]
    simp only [List.exists_mem_cons_iff]
    by_cases hc : j ∈ c <;> simp [hc]

/-! ### The store -/

/-- The state of a `BaseSQLiteStore` seen by its synchronous API. -/
structure BaseSQLiteStore (K R : Type) where
  table : Table K R
  closed : Bool

namespace BaseSQLiteStore

variable (layout : Layout V R) (maxSqlVariables : ℕ+)

/-- A store just opened on a new database. -/
def opened : BaseSQLiteStore K R := ⟨∅, false⟩

/-- `_check_open`. -/
def checkOpen (s : BaseSQLiteStore K R) : Except (StoreError K) Unit :=
  if s.closed then .error (.runtimeError (notOpenMsg "SQLiteStore")) else .ok ()

/-- `SELECT * FROM store WHERE key = ?`, and the row turned into a value. -/
def lookup (s : BaseSQLiteStore K R) (key : K) : Option V :=
  (s.table.get? key).map layout.rowToValue

/-- The flags of `contains_many`. -/
def existing (s : BaseSQLiteStore K R) (keys : List K) : List Bool :=
  if keys = [] then []
  else
    let existing := existingKeys s.table (chunk keys maxSqlVariables) []
    keys.map fun key => decide (key ∈ existing)

/-- `get`. -/
def get (s : BaseSQLiteStore K R) (key : K) : Except (StoreError K) (Option V) := do
  s.checkOpen
  return s.lookup layout key

/-- `get_many`. -/
def getMany (s : BaseSQLiteStore K R) (keys : List K) :
    Except (StoreError K) (List (Option V)) := do
  s.checkOpen
  if keys = [] then
    return []
  let byKey := byKey layout s.table (chunk keys maxSqlVariables) ∅
  return keys.map byKey.get?

/-- `contains`: `SELECT 1 ... WHERE key = ? LIMIT 1`. -/
def contains (s : BaseSQLiteStore K R) (key : K) : Except (StoreError K) Bool := do
  s.checkOpen
  return (s.table.get? key).isSome

/-- `contains_many`. -/
def containsMany (s : BaseSQLiteStore K R) (keys : List K) :
    Except (StoreError K) (List Bool) := do
  s.checkOpen
  return s.existing maxSqlVariables keys

/-- `keys`: `SELECT key FROM store`. -/
def keys (s : BaseSQLiteStore K R) : Except (StoreError K) (List K) := do
  s.checkOpen
  return s.table.keys

/-- `count`: `SELECT COUNT(*) FROM store`. -/
def count (s : BaseSQLiteStore K R) : Except (StoreError K) ℕ := do
  s.checkOpen
  return s.table.length

/-- `_set_many`: one `INSERT OR REPLACE` per item, then a commit. -/
def insertMany (s : BaseSQLiteStore K R) (items : Dict K V) : BaseSQLiteStore K R :=
  if items.entries = [] then s
  else { s with table := s.table.executemany (rows layout items) }

/-- `set_many`. -/
def setMany [ShallowMerge V] (s : BaseSQLiteStore K R) (items : Dict K V)
    (onConflict : OnConflict) : Except (StoreError K) (BaseSQLiteStore K R) := do
  s.checkOpen
  if items.entries = [] then
    return s
  if onConflict = .overwrite then
    return s.insertMany layout items
  let toWrite ← resolveConflicts items onConflict (s.existing maxSqlVariables) (s.lookup layout)
  return s.insertMany layout toWrite

/-- `set`. -/
def set [ShallowMerge V] (s : BaseSQLiteStore K R) (key : K) (value : V)
    (onConflict : OnConflict) : Except (StoreError K) (BaseSQLiteStore K R) :=
  s.setMany layout maxSqlVariables (Dict.ofList [(key, value)]) onConflict

/-- `delete`. -/
def delete (s : BaseSQLiteStore K R) (key : K) : Except (StoreError K) (BaseSQLiteStore K R) := do
  s.checkOpen
  return { s with table := s.table.deleteIn [key] }

/-- `delete_many`. -/
def deleteMany (s : BaseSQLiteStore K R) (keys : List K) :
    Except (StoreError K) (BaseSQLiteStore K R) := do
  s.checkOpen
  if keys = [] then
    return s
  return { s with table := deleteChunks s.table (chunk keys maxSqlVariables) }

/-- `clear`: `DELETE FROM store`. -/
def clear (s : BaseSQLiteStore K R) : Except (StoreError K) (BaseSQLiteStore K R) := do
  s.checkOpen
  return { s with table := ∅ }

/-- The write calls, dispatched. -/
def exec [ShallowMerge V] (s : BaseSQLiteStore K R) :
    StoreOp K V → Except (StoreError K) (BaseSQLiteStore K R)
  | .set key value onConflict => s.set layout maxSqlVariables key value onConflict
  | .setMany items onConflict => s.setMany layout maxSqlVariables items onConflict
  | .delete key => s.delete key
  | .deleteMany keys => s.deleteMany maxSqlVariables keys
  | .clear => s.clear

/-! ### An open store reads and writes its contents -/

/-- The rows the table holds. -/
def contents (s : BaseSQLiteStore K R) : Contents K R := s.table.get?

/-- The store is open. -/
def Opened (s : BaseSQLiteStore K R) : Prop := s.closed = false

variable {layout maxSqlVariables} {s s' : BaseSQLiteStore K R}

omit [LinearOrder K] in
theorem checkOpen_of_opened (h : s.Opened) : s.checkOpen = .ok () := by
  simp [checkOpen, show s.closed = false from h]

theorem get_of_opened (h : s.Opened) (key : K) :
    s.get layout key = .ok (s.lookup layout key) := by
  simp [get, checkOpen_of_opened h]

variable (layout maxSqlVariables) in
theorem existing_eq (s : BaseSQLiteStore K R) (keys : List K) :
    s.existing maxSqlVariables keys = Contents.containsMany (s.lookup layout) keys := by
  rw [existing, Contents.containsMany]
  split
  · next h => simp [h]
  · refine List.map_congr_left fun k hk => ?_
    have hm : (∃ c ∈ chunk keys maxSqlVariables, k ∈ c) ↔ k ∈ keys := mem_chunk maxSqlVariables.pos
    rw [Bool.eq_iff_iff, decide_eq_true_iff, mem_existingKeys, hm, ← Dict.isSome_get?_iff]
    simp [lookup, hk]

variable (layout) in
theorem containsMany_of_opened (h : s.Opened) (keys : List K) :
    s.containsMany maxSqlVariables keys = .ok (Contents.containsMany (s.lookup layout) keys) := by
  rw [← existing_eq layout maxSqlVariables]
  simp [containsMany, checkOpen_of_opened h]

/-- `get_many` answers in the order of the caller's list, duplicates included. -/
theorem getMany_of_opened (h : s.Opened) (keys : List K) :
    s.getMany layout maxSqlVariables keys = .ok (keys.map (s.lookup layout)) := by
  have hget : ∀ k ∈ keys, (byKey layout s.table (chunk keys maxSqlVariables) ∅).get? k =
      s.lookup layout k := by
    intro k hk
    rw [get?_byKey, if_pos ((mem_chunk maxSqlVariables.pos).mpr hk)]
    simp [lookup]
  by_cases hk : keys = []
  · simp [getMany, checkOpen_of_opened h, hk]
  · simp only [getMany, checkOpen_of_opened h, hk, if_false]
    exact congrArg Except.ok (List.map_congr_left hget)

variable (layout) in
theorem contains_of_opened (h : s.Opened) (key : K) :
    s.contains key = .ok (s.lookup layout key).isSome := by
  simp [contains, checkOpen_of_opened h, lookup]

theorem contents_insertMany (s : BaseSQLiteStore K R) (items : Dict K V) :
    (s.insertMany layout items).contents = s.contents.writeRows layout items := by
  funext k
  rw [insertMany]
  split
  · next h =>
    obtain rfl : items = ∅ := Dict.ext h
    rfl
  · rw [Contents.writeRows, rows, Contents.write_entries]
    exact Table.get?_executemany (items.mapValues layout.valueToRow).nodup k

variable (maxSqlVariables) in
/-- On an open store `set_many` is the call on rows, whatever the chunk size. -/
theorem map_contents_setMany [ShallowMerge V] (h : s.Opened) (items : Dict K V)
    (onConflict : OnConflict) :
    (s.setMany layout maxSqlVariables items onConflict).map contents =
      s.contents.setManyRows layout items onConflict := by
  have hexist : s.existing maxSqlVariables = s.contents.containsMany := by
    funext keys
    rw [existing_eq layout, ← Contents.containsMany_read layout]
    rfl
  by_cases hi : items.entries = []
  · obtain rfl : items = ∅ := Dict.ext hi
    rw [Contents.setManyRows_empty]
    simp only [setMany, checkOpen_of_opened h, Dict.entries_empty, if_true]
    rfl
  · simp only [setMany, checkOpen_of_opened h, hi, if_false, Contents.setManyRows, hexist]
    by_cases ho : onConflict = .overwrite
    · simp only [ho, if_true]
      exact congrArg Except.ok (contents_insertMany s items)
    · simp only [ho, if_false]
      change (resolveConflicts items onConflict _ (s.contents.read layout) >>= _).map _ =
        (resolveConflicts items onConflict _ (s.contents.read layout) >>= _)
      cases resolveConflicts items onConflict s.contents.containsMany (s.contents.read layout) with
      | error e => rfl
      | ok toWrite => exact congrArg Except.ok (contents_insertMany s toWrite)

theorem setMany_of_opened [ShallowMerge V]
    (hround : ∀ v, layout.rowToValue (layout.valueToRow v) = v)
    (h : s.Opened) (items : Dict K V) (onConflict : OnConflict) :
    (s.setMany layout maxSqlVariables items onConflict).map (lookup layout) =
      Contents.setMany (s.lookup layout) items onConflict := by
  change _ = (s.contents.read layout).setMany items onConflict
  rw [← Contents.map_read_setManyRows hround, ← map_contents_setMany maxSqlVariables h]
  cases s.setMany layout maxSqlVariables items onConflict <;> rfl

theorem setMany_opened [ShallowMerge V] {items : Dict K V} {onConflict : OnConflict}
    (hs : s.setMany layout maxSqlVariables items onConflict = .ok s') (h : s.Opened) :
    s'.Opened := by
  have hins : ∀ d : Dict K V, (s.insertMany layout d).Opened := by
    intro d
    rw [insertMany]
    split <;> exact h
  by_cases hi : items.entries = []
  · simp only [setMany, checkOpen_of_opened h, hi, if_true] at hs
    cases hs
    exact h
  · simp only [setMany, checkOpen_of_opened h, hi, if_false] at hs
    by_cases ho : onConflict = .overwrite
    · simp only [ho, if_true] at hs
      cases hs
      exact hins items
    · simp only [ho, if_false] at hs
      cases hr : resolveConflicts items onConflict (s.existing maxSqlVariables)
          (s.lookup layout) with
      | error e => rw [hr] at hs; cases hs
      | ok toWrite => rw [hr] at hs; cases hs; exact hins toWrite

theorem lookup_deleteIn (s : BaseSQLiteStore K R) (keys : List K) (closed : Bool) :
    lookup layout ⟨s.table.deleteIn keys, closed⟩ =
      Contents.delete (lookup layout s) keys := by
  funext k
  by_cases hk : k ∈ keys <;> simp [lookup, Contents.delete, hk]

theorem lookup_deleteChunks (s : BaseSQLiteStore K R) (keys : List K) (closed : Bool) :
    lookup layout ⟨deleteChunks s.table (chunk keys maxSqlVariables), closed⟩ =
      Contents.delete (lookup layout s) keys := by
  funext k
  simp only [lookup, get?_deleteChunks, mem_chunk maxSqlVariables.pos, Contents.delete]
  by_cases hk : k ∈ keys <;> simp [hk]

/-- A write call leaves an open store open. -/
theorem exec_opened [ShallowMerge V] {op : StoreOp K V}
    (he : s.exec layout maxSqlVariables op = .ok s') (hs : s.Opened) : s'.Opened := by
  cases op with
  | set key value onConflict => exact setMany_opened he hs
  | setMany items onConflict => exact setMany_opened he hs
  | delete key =>
    simp only [exec, delete, checkOpen_of_opened hs] at he
    cases he
    exact hs
  | deleteMany keys =>
    simp only [exec, deleteMany, checkOpen_of_opened hs] at he
    by_cases hk : keys = []
    · simp only [hk, if_true] at he
      cases he
      exact hs
    · simp only [hk, if_false] at he
      cases he
      exact hs
  | clear =>
    simp only [exec, clear, checkOpen_of_opened hs] at he
    cases he
    exact hs

variable (layout maxSqlVariables) in
/-- **An open store is its contents**, whatever the chunk size, provided the layout can be read
back. -/
theorem refines [ShallowMerge V] (hround : ∀ v, layout.rowToValue (layout.valueToRow v) = v) :
    Refinement.Refines (exec (K := K) layout maxSqlVariables) Contents.exec (lookup layout)
      Opened where
  inv hs he := exec_opened he hs
  comm {s op} hs := by
    cases op with
    | set key value onConflict => exact setMany_of_opened hround hs _ onConflict
    | setMany items onConflict => exact setMany_of_opened hround hs items onConflict
    | delete key =>
      simp only [exec, delete, checkOpen_of_opened hs]
      exact congrArg Except.ok (lookup_deleteIn s [key] s.closed)
    | deleteMany keys =>
      simp only [exec, deleteMany, checkOpen_of_opened hs]
      by_cases hk : keys = []
      · simp only [hk, if_true]
        exact congrArg Except.ok (funext fun k => by simp [Contents.delete])
      · simp only [hk, if_false]
        exact congrArg Except.ok (lookup_deleteChunks s keys s.closed)
    | clear => simp only [exec, clear, checkOpen_of_opened hs]; rfl

end BaseSQLiteStore

end Persista
