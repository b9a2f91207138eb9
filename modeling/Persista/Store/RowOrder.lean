import Persista.Store.SqliteCoherence

/-!
# The order of the rows, and the batches of the two APIs

`BaseSQLiteStore.iter_batches` reads a page per batch from a query that sorts by key, and
`aiter_batches` cuts the rows of one cursor on a query that does not sort. A cursor reads in rowid
order, and `INSERT OR REPLACE` gives a replaced row a new rowid, so it sees the keys in the order of
their last writes.

`WriteOrder.exec` is what a write call makes of that order. It needs no value and no chunk size: a
strategy looks at which keys are there, and a key moves to the end when its row is written.

## Main results

* `WriteOrder.refines` — the rows of an open store are in the order of the last writes
* `WriteOrder.fillBatches_eq_iterBatches` — sorted rows are cut at the same places by both APIs
* `WriteOrder.aiter_batches_eq_iter_batches_iff` — both APIs yield the same batches exactly when the
  last writes came in the order of the keys
-/

namespace Persista

open Json

variable {K V R : Type} [LinearOrder K]

namespace WriteOrder

/-! ### Last writes -/

/-- The keys of a store, the one whose last write is the oldest first. Writing keys moves them to
the end. -/
def write (order keys : List K) : List K := order.filter (fun k => decide (k ∉ keys)) ++ keys

/-- The keys that a strategy writes. -/
def written (order keys : List K) (onConflict : OnConflict) : List K :=
  if onConflict = .skip then keys.filter fun k => decide (k ∉ order) else keys

/-- `set_many` on the order: which keys are written depends on which keys are there. -/
def setMany (order keys : List K) (onConflict : OnConflict) :
    Except (StoreError K) (List K) :=
  let conflicts := keys.filter fun k => decide (k ∈ order)
  if conflicts ≠ [] ∧ onConflict = .raise then .error (.keyError (sorted conflicts))
  else .ok (write order (written order keys onConflict))

/-- A write call on the order. -/
def exec (order : List K) : StoreOp K V → Except (StoreError K) (List K)
  | .set key _ onConflict => setMany order [key] onConflict
  | .setMany items onConflict => setMany order items.keys onConflict
  | .delete key => .ok (order.filter fun k => decide (k ∉ [key]))
  | .deleteMany keys => .ok (order.filter fun k => decide (k ∉ keys))
  | .clear => .ok []

theorem write_nil (order : List K) : write order [] = order := by
  rw [write, List.append_nil, List.filter_eq_self]
  exact fun k _ => decide_eq_true List.not_mem_nil

theorem write_cons (order : List K) {key : K} {keys : List K} (h : key ∉ keys) :
    write order (key :: keys) = write (write order [key]) keys := by
  have hlast : [key].filter (fun k => decide (k ∉ keys)) = [key] := by
    rw [List.filter_eq_self]
    intro k hk
    rw [List.mem_singleton.mp hk]
    exact decide_eq_true h
  rw [write, write, write, List.filter_append, hlast, List.filter_filter, List.append_assoc,
    List.singleton_append]
  refine congrArg (· ++ key :: keys) (List.filter_congr fun k _ => ?_)
  rw [Bool.eq_iff_iff, Bool.and_eq_true, decide_eq_true_iff, decide_eq_true_iff,
    decide_eq_true_iff, List.mem_singleton, List.mem_cons, not_or]
  exact and_comm

end WriteOrder

/-! ### What the statements do to the order -/

namespace Table

omit [LinearOrder K] in
theorem keys_filterKeys (t : Table K R) (p : K → Bool) :
    (t.filterKeys p).keys = t.keys.filter p := by
  rw [Dict.keys, Dict.keys, Dict.filterKeys, List.filter_map]
  rfl

theorem keys_insertOrReplace (t : Table K R) (key : K) (row : R) :
    (t.insertOrReplace key row).keys = WriteOrder.write t.keys [key] := by
  have hkey : key ∉ (t.erase key).keys := by
    rw [Dict.erase, Dict.mem_keys_filterKeys]
    simp
  rw [insertOrReplace, Dict.keys, Dict.entries_set_of_not_mem hkey, List.map_append]
  change (t.filterKeys _).keys ++ [key] = _
  rw [keys_filterKeys, WriteOrder.write]
  simp only [List.mem_singleton]

theorem keys_executemany (t : Table K R) {rows : List (K × R)} (hnd : (rows.map Prod.fst).Nodup) :
    (t.executemany rows).keys = WriteOrder.write t.keys (rows.map Prod.fst) := by
  induction rows generalizing t with
  | nil => exact (WriteOrder.write_nil t.keys).symm
  | cons row rows ih =>
    rw [List.map_cons, List.nodup_cons] at hnd
    change ((t.insertOrReplace row.1 row.2).executemany rows).keys = _
    rw [ih _ hnd.2, keys_insertOrReplace, List.map_cons, WriteOrder.write_cons t.keys hnd.1]

end Table

theorem keys_deleteChunks (t : Table K R) (chunks : List (List K)) :
    (deleteChunks t chunks).keys = t.keys.filter fun k => decide (¬ ∃ c ∈ chunks, k ∈ c) := by
  induction chunks generalizing t with
  | nil => simp [deleteChunks]
  | cons c chunks ih =>
    change (deleteChunks (t.deleteIn c) chunks).keys = _
    rw [ih, Table.deleteIn, Table.keys_filterKeys, List.filter_filter]
    refine List.filter_congr fun k _ => ?_
    rw [Bool.eq_iff_iff, Bool.and_eq_true, decide_eq_true_iff, decide_eq_true_iff,
      decide_eq_true_iff, List.exists_mem_cons_iff, not_or]
    exact and_comm

omit [LinearOrder K] in
/-- A loop that keeps some of the items keeps their keys in order. -/
theorem map_fst_filterMap {f : K → V → Option V} {p : K → Bool} {l : List (K × V)}
    (h : ∀ item ∈ l, (f item.1 item.2).isSome = p item.1) :
    (l.filterMap fun item => (f item.1 item.2).map (item.1, ·)).map Prod.fst =
      (l.map Prod.fst).filter p := by
  induction l with
  | nil => rfl
  | cons item l ih =>
    have ih := ih fun item hitem => h item (List.mem_cons_of_mem _ hitem)
    have hitem := h item List.mem_cons_self
    rw [List.filterMap_cons, List.map_cons, List.filter_cons, ← hitem, ← ih]
    cases f item.1 item.2 <;> rfl

/-- What `resolve_conflicts` writes, by its keys. -/
theorem map_keys_resolveConflicts [ShallowMerge V] (items : Dict K V) (onConflict : OnConflict)
    (order : List K) (get : K → Option V) :
    (resolveConflicts items onConflict (fun keys => keys.map fun k => decide (k ∈ order)) get).map
        (fun toWrite => WriteOrder.write order toWrite.keys) =
      WriteOrder.setMany order items.keys onConflict := by
  rw [resolveConflicts, WriteOrder.setMany, conflictsOf_map]
  split
  · rfl
  · refine congrArg (fun keys => Except.ok (WriteOrder.write order keys)) ?_
    rw [Dict.keys, entries_resolveItems items.nodup fun k _ => List.not_mem_nil,
      Dict.entries_empty, List.nil_append, WriteOrder.written]
    by_cases hskip : onConflict = .skip
    · rw [if_pos hskip]
      refine map_fst_filterMap fun item hitem => ?_
      have hkey := Dict.mem_keys_of_mem hitem
      by_cases hmem : item.1 ∈ order
      · simp [resolved, hskip, hkey, hmem]
      · simp [resolved, hmem]
    · rw [if_neg hskip]
      refine (map_fst_filterMap (p := fun _ => true) fun item _ => ?_).trans
        (List.filter_eq_self.mpr fun _ _ => rfl)
      rw [resolved, if_neg hskip]
      split <;> rfl

namespace WriteOrder

open BaseSQLiteStore

variable {layout : Layout V R} {maxSqlVariables : ℕ+} {s : BaseSQLiteStore K R}

theorem keys_insertMany (items : Dict K V) :
    (s.insertMany layout items).table.keys = write s.table.keys items.keys := by
  rw [insertMany]
  split
  · next hnil => rw [Dict.keys, Dict.keys, hnil, List.map_nil, write_nil]
  · have hkeys : (rows layout items).map Prod.fst = items.keys := by
      rw [rows]
      exact Dict.keys_mapValues items layout.valueToRow
    change (s.table.executemany (rows layout items)).keys = _
    rw [Table.keys_executemany s.table (hkeys ▸ items.nodup), hkeys]

theorem existing_eq_decide (s : BaseSQLiteStore K R) (keys : List K) :
    s.existing maxSqlVariables keys = keys.map fun k => decide (k ∈ s.table.keys) := by
  rw [existing_eq (⟨id, id⟩ : Layout R R), Contents.containsMany]
  refine List.map_congr_left fun k _ => ?_
  rw [lookup, Option.isSome_map, Bool.eq_iff_iff, Dict.isSome_get?_iff, decide_eq_true_iff]

theorem keys_setMany [ShallowMerge V] (h : s.Opened) (items : Dict K V) (onConflict : OnConflict) :
    (s.setMany layout maxSqlVariables items onConflict).map (fun s' => s'.table.keys) =
      setMany s.table.keys items.keys onConflict := by
  have hexist : s.existing maxSqlVariables =
      fun keys => keys.map fun k => decide (k ∈ s.table.keys) :=
    funext (existing_eq_decide s)
  rw [BaseSQLiteStore.setMany, checkOpen_of_opened h, Refinement.ok_bind]
  by_cases hnil : items.entries = []
  · rw [if_pos hnil]
    obtain rfl : items = ∅ := Dict.ext hnil
    change Except.ok s.table.keys = setMany s.table.keys [] onConflict
    rw [setMany, List.filter_nil, if_neg fun hne => hne.1 rfl, written, List.filter_nil, ite_self,
      write_nil]
  · rw [if_neg hnil]
    by_cases ho : onConflict = .overwrite
    · subst ho
      have hraise : ¬ OnConflict.overwrite = .raise := by decide
      have hskip : ¬ OnConflict.overwrite = .skip := by decide
      rw [if_pos rfl, setMany, if_neg fun h => hraise h.2, written, if_neg hskip]
      exact congrArg Except.ok (keys_insertMany items)
    · rw [if_neg ho, hexist, ← map_keys_resolveConflicts items onConflict s.table.keys
        (s.lookup layout)]
      cases resolveConflicts items onConflict _ (s.lookup layout) with
      | error e => rfl
      | ok toWrite => exact congrArg Except.ok (keys_insertMany toWrite)

variable (layout maxSqlVariables) in
/-- **The rows are in the order of the last writes**, whatever the layout and the chunk size. -/
theorem refines [ShallowMerge V] :
    Refinement.Refines (BaseSQLiteStore.exec (K := K) layout maxSqlVariables) exec
      (fun s => s.table.keys) Opened where
  inv hs he := exec_opened he hs
  comm {s op} hs := by
    cases op with
    | set key value onConflict =>
      exact keys_setMany hs (Dict.ofList [(key, value)]) onConflict
    | setMany items onConflict => exact keys_setMany hs items onConflict
    | delete key =>
      rw [BaseSQLiteStore.exec, BaseSQLiteStore.delete, checkOpen_of_opened hs]
      exact congrArg Except.ok (Table.keys_filterKeys s.table _)
    | deleteMany keys =>
      rw [BaseSQLiteStore.exec, BaseSQLiteStore.deleteMany, checkOpen_of_opened hs,
        Refinement.ok_bind]
      have hchunks := keys_deleteChunks s.table (chunk keys maxSqlVariables)
      simp only [mem_chunk maxSqlVariables.pos] at hchunks
      by_cases hnil : keys = []
      · rw [if_pos hnil, exec, hnil]
        refine congrArg Except.ok (List.filter_eq_self.mpr fun k _ => ?_).symm
        exact decide_eq_true List.not_mem_nil
      · rw [if_neg hnil]
        exact congrArg Except.ok hchunks
    | clear =>
      rw [BaseSQLiteStore.exec, BaseSQLiteStore.clear, checkOpen_of_opened hs]
      rfl

/-! ### Where the batches are cut -/

/-- Rows that do not fill the batch of a cursor end up in it. -/
theorem fillBatches_of_lt {batchSize : ℕ} {rows : List (K × R)} {batch : Table K R}
    (hnd : (batch.keys ++ rows.map Prod.fst).Nodup)
    (hlt : batch.length + rows.length < batchSize) :
    (fillBatches batchSize rows batch).map Dict.entries =
      if batch.entries ++ rows = [] then [] else [batch.entries ++ rows] := by
  induction rows generalizing batch with
  | nil =>
    rw [fillBatches, List.append_nil]
    split <;> rfl
  | cons row rows ih =>
    obtain ⟨hset, hlen, hnd⟩ := SQLiteStore.set_row hnd
    rw [List.length_cons] at hlt
    have hshort : ¬ batchSize ≤ (batch.set row.1 row.2).length := by omega
    have hrest := ih hnd (by omega)
    rw [hset, List.append_assoc, List.singleton_append] at hrest
    show (if batchSize ≤ (batch.set row.1 row.2).length then _ else _ : List _).map _ = _
    rw [if_neg hshort]
    exact hrest

/-- Rows that fill the batch of a cursor are yielded with it. -/
theorem fillBatches_append {batchSize : ℕ} {full rows : List (K × R)} {batch : Table K R}
    (hnd : (batch.keys ++ full.map Prod.fst).Nodup) (hne : full ≠ [])
    (hfull : batch.length + full.length = batchSize) :
    (fillBatches batchSize (full ++ rows) batch).map Dict.entries =
      (batch.entries ++ full) :: (fillBatches batchSize rows ∅).map Dict.entries := by
  induction full generalizing batch with
  | nil => exact absurd rfl hne
  | cons row full ih =>
    obtain ⟨hset, hlen, hnd⟩ := SQLiteStore.set_row hnd
    rw [List.length_cons] at hfull
    show (if batchSize ≤ (batch.set row.1 row.2).length then _ else _ : List _).map _ = _
    by_cases hnil : full = []
    · subst hnil
      rw [List.length_nil] at hfull
      rw [if_pos (by omega), List.map_cons, hset]
      rfl
    · have hpos := List.length_pos_iff.mpr hnil
      have hrest := ih hnd hnil (by omega)
      rw [hset, List.append_assoc, List.singleton_append] at hrest
      rw [if_neg (by omega)]
      exact hrest

/-- A cursor yields its first rows, and starts over after them. -/
theorem fillBatches_eq {batchSize : ℕ} (hb : 1 ≤ batchSize) {rows : List (K × R)}
    (hnd : (rows.map Prod.fst).Nodup) :
    (fillBatches batchSize rows ∅).map Dict.entries =
      if rows = [] then []
      else rows.take batchSize ::
        (fillBatches batchSize (rows.drop batchSize) ∅).map Dict.entries := by
  by_cases hlt : rows.length < batchSize
  · rw [fillBatches_of_lt (by simpa using hnd) (by simpa [Dict.length] using hlt),
      List.take_of_length_le hlt.le, List.drop_eq_nil_of_le hlt.le]
    rfl
  · have htake : (rows.take batchSize).length = batchSize := by
      rw [List.length_take]
      omega
    have hsub : ((rows.take batchSize).map Prod.fst).Nodup :=
      hnd.sublist ((List.take_sublist _ _).map Prod.fst)
    have hne : rows.take batchSize ≠ [] := List.ne_nil_of_length_pos (by omega)
    have hrows : rows ≠ [] := fun hnil => hne (by rw [hnil, List.take_nil])
    rw [if_neg hrows]
    conv_lhs => rw [← List.take_append_drop batchSize rows]
    rw [fillBatches_append (by simpa using hsub) hne (by simpa [Dict.length] using htake)]
    rfl

/-- The pages of the sorted query are the batches of a cursor on it. -/
theorem drain_eq_fillBatches {batchSize : ℕ} (hb : 1 ≤ batchSize) (t : Table K R)
    {fuel offset : ℕ} (hfuel : t.length < fuel + offset) :
    (Paging.drain batchSize t fuel (.fetching offset)).map Dict.entries =
      (fillBatches batchSize ((Table.orderByKey t).entries.drop offset) ∅).map Dict.entries := by
  have hlen := Paging.length_orderByKey t
  induction fuel generalizing offset with
  | zero =>
    rw [List.drop_eq_nil_of_le (by omega)]
    rfl
  | succ fuel ih =>
    have hpage := Paging.entries_page t batchSize offset
    have hnd : (((Table.orderByKey t).entries.drop offset).map Prod.fst).Nodup :=
      (Table.orderByKey t).nodup.sublist ((List.drop_sublist _ _).map Prod.fst)
    rw [fillBatches_eq hb hnd, ← hpage]
    by_cases hnil : (Table.orderByKey t).entries.drop offset = []
    · have hempty : (Paging.page t batchSize offset).entries = [] := by
        rw [hpage, hnil, List.take_nil]
      simp only [Paging.drain, Paging.Gen.next, if_pos hempty, if_pos hnil, List.map_nil]
    · have hne : (Paging.page t batchSize offset).entries ≠ [] := by
        rw [hpage, Ne, List.take_eq_nil_iff, not_or]
        exact ⟨by omega, hnil⟩
      by_cases hshort : (Paging.page t batchSize offset).length < batchSize
      · have hend : ((Table.orderByKey t).entries.drop offset).drop batchSize = [] := by
          rw [Dict.length, hpage, List.length_take] at hshort
          exact List.drop_eq_nil_of_le (by omega)
        simp only [Paging.drain, Paging.Gen.next, if_neg hne, if_pos hshort, if_neg hnil,
          Paging.drain_returned, List.map_cons, hend]
        rfl
      · simp only [Paging.drain, Paging.Gen.next, if_neg hne, if_neg hshort, if_neg hnil,
          List.map_cons]
        rw [@ih (offset + batchSize) (by omega), List.drop_drop]

theorem fillBatches_eq_iterBatches {batchSize : ℕ} (hb : 1 ≤ batchSize) {t : Table K R}
    (hsorted : t.keys.Pairwise (· < ·)) :
    fillBatches batchSize t.entries ∅ = Paging.iterBatches batchSize t := by
  have horder : (Table.orderByKey t).entries = t.entries :=
    (List.pairwise_map.mp hsorted).imp (fun h => h.le) |>.insertionSort_eq
  refine (List.map_injective_iff.mpr fun _ _ => Dict.ext) ?_
  rw [Paging.iterBatches, drain_eq_fillBatches hb t (by omega), horder, List.drop_zero]

/-! ### The two generators -/

variable {F : Type} (config : SQLiteStore.Config K V R F)

/-- An open store after some write calls. -/
def after [ShallowMerge V] (ops : List (StoreOp K V)) : BaseSQLiteStore K R :=
  (Refinement.runOps (BaseSQLiteStore.exec config.layout config.maxSqlVariables) .opened ops).1

theorem after_spec [ShallowMerge V] (ops : List (StoreOp K V)) :
    (after config ops).Opened ∧
      (after config ops).table.keys = (Refinement.runOps exec [] ops).1 := by
  obtain ⟨hopened, hrun⟩ := (refines config.layout config.maxSqlVariables).run
    (show (BaseSQLiteStore.opened : BaseSQLiteStore K R).Opened from rfl) ops
  exact ⟨hopened, (congrArg Prod.fst hrun).symm⟩

variable {config} {s : BaseSQLiteStore K R}

theorem iterBatches_of_opened (h : s.Opened) (api : Api) {batchSize : ℤ} (hb : 1 ≤ batchSize) :
    SQLiteStore.iterBatches config api s batchSize =
      .ok ((api.batches batchSize.toNat s.table).map fun rows =>
        rows.mapValues config.layout.rowToValue) := by
  rw [SQLiteStore.iterBatches, validateBatchSize, if_neg (by omega), checkOpen_of_opened h]
  rfl

/-- The keys of the batches are in the order in which each API reads the rows. -/
theorem flatMap_keys_batches {batchSize : ℕ} (hb : 1 ≤ batchSize) (t : Table K R) :
    (Paging.iterBatches batchSize t).flatMap Dict.keys = (Table.orderByKey t).keys ∧
      (fillBatches batchSize t.entries ∅).flatMap Dict.keys = t.keys := by
  obtain ⟨hflat, -⟩ := SQLiteStore.fillBatches_spec t.entries ∅ (by simpa using t.nodup) hb
  have hkeys : ∀ batches : List (Table K R),
      batches.flatMap Dict.keys = ((batches.map Dict.entries).flatten).map Prod.fst := by
    intro batches
    rw [List.map_flatten, List.map_map, List.flatMap_def]
    rfl
  refine ⟨?_, ?_⟩
  · rw [hkeys, Paging.flatten_iterBatches hb]
    rfl
  · rw [hkeys, hflat]
    rfl

theorem pairwise_orderByKey (t : Table K R) : (Table.orderByKey t).keys.Pairwise (· < ·) := by
  have hle : (Table.orderByKey t).keys.Pairwise (· ≤ ·) :=
    List.pairwise_map.mpr (List.pairwise_insertionSort (fun a b : K × R => a.1 ≤ b.1) t.entries)
  exact (hle.and (Table.orderByKey t).nodup).imp fun h => lt_of_le_of_ne h.1 h.2

/-- **Asynchronous iteration.** Both APIs yield the same batches exactly when the last writes of the
keys came in the order of the keys. -/
theorem aiter_batches_eq_iter_batches_iff [ShallowMerge V] (config : SQLiteStore.Config K V R F)
    (ops : List (StoreOp K V)) {batchSize : ℤ} (hb : 1 ≤ batchSize) :
    SQLiteStore.iterBatches config .async (after config ops) batchSize =
        SQLiteStore.iterBatches config .sync (after config ops) batchSize ↔
      (Refinement.runOps exec [] ops).1.Pairwise (· < ·) := by
  obtain ⟨hopened, hkeys⟩ := after_spec config ops
  have hpos : 1 ≤ batchSize.toNat := by omega
  rw [iterBatches_of_opened hopened .async hb, iterBatches_of_opened hopened .sync hb, ← hkeys]
  constructor
  · intro heq
    obtain ⟨hsync, hasync⟩ := flatMap_keys_batches hpos (after config ops).table
    have hbatches := congrArg (List.flatMap Dict.keys) (Except.ok.inj heq)
    rw [List.flatMap_map, List.flatMap_map] at hbatches
    simp only [Dict.keys_mapValues] at hbatches
    have hsame : (after config ops).table.keys = (Table.orderByKey (after config ops).table).keys :=
      hasync.symm.trans (hbatches.trans hsync)
    exact hsame ▸ pairwise_orderByKey (after config ops).table
  · intro hsorted
    exact congrArg (fun batches : List (Table K R) => Except.ok (batches.map fun rows =>
      rows.mapValues config.layout.rowToValue)) (fillBatches_eq_iterBatches hpos hsorted)

/-- A store of plain values in memory. -/
def plainConfig : SQLiteStore.Config PyStr (Dict PyStr ℕ) (Dict PyStr ℕ) Unit where
  database := ":memory:"
  layout := Paging.plain
  maxSqlVariables := SQLiteStore.memory.maxSqlVariables
  filterWhere _ := .ok fun _ => true
  aiosqlite := true
  isPrivate := (· == ":memory:")

/-- `"b"`, `"a"`, and `"b"` again. -/
def overwriteB : List (StoreOp PyStr (Dict PyStr ℕ)) :=
  [.set (ofString "b") ∅ .raise, .set (ofString "a") ∅ .skip, .set (ofString "b") ∅ .overwrite]

/-- `"b"` and `"a"`. -/
def bThenA : List (StoreOp PyStr (Dict PyStr ℕ)) :=
  [.setMany (.ofList [(ofString "b", ∅), (ofString "a", ∅)]) .overwrite]

/-- After the overwrite of `"b"` both APIs yield `"a"` first. -/
theorem aiter_batches_eq_iter_batches_overwriteB :
    SQLiteStore.iterBatches plainConfig .async (after plainConfig overwriteB) 1 =
      SQLiteStore.iterBatches plainConfig .sync (after plainConfig overwriteB) 1 :=
  (aiter_batches_eq_iter_batches_iff plainConfig overwriteB (by decide)).mpr (by decide)

/-- **The batches differ.** `aiter_batches` yields `"b"` first and `iter_batches` yields `"a"`. -/
theorem aiter_batches_unsorted :
    ((SQLiteStore.iterBatches plainConfig .async (after plainConfig bThenA) 1).map
        (List.map Dict.keys) = .ok [[ofString "b"], [ofString "a"]]) ∧
      (SQLiteStore.iterBatches plainConfig .sync (after plainConfig bThenA) 1).map
        (List.map Dict.keys) = .ok [[ofString "a"], [ofString "b"]] ∧
      ¬ SQLiteStore.iterBatches plainConfig .async (after plainConfig bThenA) 1 =
        SQLiteStore.iterBatches plainConfig .sync (after plainConfig bThenA) 1 := by
  have hasync : (SQLiteStore.iterBatches plainConfig .async (after plainConfig bThenA) 1).map
      (List.map Dict.keys) = .ok [[ofString "b"], [ofString "a"]] := by decide
  have hsync : (SQLiteStore.iterBatches plainConfig .sync (after plainConfig bThenA) 1).map
      (List.map Dict.keys) = .ok [[ofString "a"], [ofString "b"]] := by decide
  refine ⟨hasync, hsync, fun heq => ?_⟩
  rw [heq, hsync] at hasync
  exact absurd hasync (by decide)

end WriteOrder

end Persista
