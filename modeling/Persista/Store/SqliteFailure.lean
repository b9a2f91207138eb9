import Persista.Store.Sqlite

/-!
# `BaseSQLiteStore` when a row fails to bind

`store/sqlite.py`, both APIs. A store has two connections to one database, the synchronous one and
the `aiosqlite` one. `executemany` opens a transaction, binds and inserts the rows one by one, and
raises at the first row that does not bind; the rows before it stay inserted in the transaction.
`_set_many` commits after `executemany` and does nothing when it raises. So the rows before the
failing one are visible to the connection at once and are committed by whatever commits next.

A row fails to bind when its key has no UTF-8 encoding or when a column is given something that has
no SQLite representation. Building the parameters comes before: a value that has no JSON text raises
with nothing inserted. A connection that has inserted holds the write lock, so the other one cannot
write until the commit; a transaction that has inserted nothing holds no lock and is as good as
none.

## Main results

* `SqliteFailure.executemany_spec` — a failing `executemany` inserts the rows before the first one
  that does not bind
* `SqliteFailure.Same.run` — a transaction that changes nothing is never observed
* `SqliteFailure.failure_invisible_iff` — a call that raises leaves no trace exactly when the rows
  before its failing one are in the table already
-/

namespace Persista

namespace SqliteFailure

variable {K V P R : Type}

/-- How a store makes a row: the parameters of a value (none when it has no JSON text), the keys
that bind, and the row that some parameters bind to. -/
structure BindLayout (K V P R : Type) where
  valueToRow : V → Option P
  bindKey : K → Bool
  bind : P → Option R
  rowToValue : R → V

/-- The two APIs of a store, each with its connection. -/
inductive Api
  | sync
  | async
  deriving DecidableEq

/-- What an operation can raise. -/
inductive SqliteError (K : Type)
  | store (e : StoreError K)
  /-- `json.dumps` raises. -/
  | encode
  /-- A parameter does not bind. -/
  | bind
  /-- The other connection holds the write lock. -/
  | locked
  deriving DecidableEq

/-- The database: the committed rows, and the connection that has a transaction open with the rows
it sees. -/
structure Database (K R : Type) where
  committed : Contents K R
  pending : Option (Api × Contents K R)

/-- The rows a connection sees. -/
def Database.view (db : Database K R) (api : Api) : Contents K R :=
  match db.pending with
  | some (owner, rows) => if owner = api then rows else db.committed
  | none => db.committed

/-- The other connection holds the write lock. -/
def Database.lockedFor (db : Database K R) (api : Api) : Bool :=
  match db.pending with
  | some (owner, _) => owner ≠ api
  | none => false

/-- A database nobody is writing to. -/
def Database.at (rows : Contents K R) : Database K R := ⟨rows, none⟩

variable [LinearOrder K] (layout : BindLayout K V P R)

/-- Bind the parameters of a row. -/
def BindLayout.bindRow (row : K × P) : Option (K × R) :=
  if layout.bindKey row.1 then (layout.bind row.2).map (row.1, ·) else none

/-- `executemany("INSERT OR REPLACE ...", rows)`: the rows afterwards, and whether every row was
bound. -/
def executemany (table : Contents K R) : List (K × P) → Contents K R × Bool
  | [] => (table, true)
  | row :: rows =>
    match layout.bindRow row with
    | some (key, r) => executemany (Function.update table key (some r)) rows
    | none => (table, false)

/-- The rows before the first one that does not bind. -/
def boundPrefix : List (K × P) → List (K × R)
  | [] => []
  | row :: rows =>
    match layout.bindRow row with
    | some r => r :: boundPrefix rows
    | none => []

/-- The end of a statement that wrote: the transaction is committed, or is left open with what was
written before the failure. -/
def Database.endWrite (db : Database K R) (api : Api) (rows : Contents K R) (bound wrote : Bool) :
    Database K R × Except (SqliteError K) Unit :=
  if bound then (⟨rows, none⟩, .ok ())
  else if wrote then (⟨db.committed, some (api, rows)⟩, .error .bind)
  else (db, .error .bind)

/-- The list of parameters built before `executemany`. -/
def paramRows (values : Dict K V) : Option (List (K × P)) :=
  values.entries.mapM fun p => (layout.valueToRow p.2).map (p.1, ·)

/-- `_set_many`, `_aset_many`. -/
def insertMany (db : Database K R) (api : Api) (values : Dict K V) :
    Database K R × Except (SqliteError K) Unit :=
  if values.entries = [] then (db, .ok ())
  else
    match paramRows layout values with
    | none => (db, .error .encode)
    | some rows =>
      if db.lockedFor api then (db, .error .locked)
      else
        let (table, bound) := executemany layout (db.view api) rows
        db.endWrite api table bound (boundPrefix layout rows ≠ [])

/-- The values of the rows a connection sees. -/
def read (table : Contents K R) : Contents K V := fun k => (table k).map layout.rowToValue

/-- `set_many`, `aset_many`. The existence query binds every key. -/
def setMany [ShallowMerge V] (db : Database K R) (api : Api) (items : Dict K V)
    (onConflict : OnConflict) : Database K R × Except (SqliteError K) Unit :=
  if items.entries = [] then (db, .ok ())
  else if onConflict = .overwrite then insertMany layout db api items
  else if items.keys.all layout.bindKey then
    match resolveConflicts items onConflict (db.view api).containsMany
        (read layout (db.view api)) with
    | .error e => (db, .error (.store e))
    | .ok toWrite => insertMany layout db api toWrite
  else (db, .error .bind)

/-- The chunks of a `DELETE ... IN`: the rows afterwards, and whether every key was bound. -/
def deleteChunks (table : Contents K R) : List (List K) → Contents K R × Bool
  | [] => (table, true)
  | c :: chunks =>
    if c.all layout.bindKey then deleteChunks (table.delete c) chunks else (table, false)

/-- `delete_many`, `adelete_many`. -/
def deleteMany (maxSqlVariables : ℕ+) (db : Database K R) (api : Api) (keys : List K) :
    Database K R × Except (SqliteError K) Unit :=
  if keys = [] then (db, .ok ())
  else if db.lockedFor api then (db, .error .locked)
  else
    let chunks := chunk keys maxSqlVariables
    let (table, bound) := deleteChunks layout (db.view api) chunks
    db.endWrite api table bound (chunks.head?.any fun c => c.all layout.bindKey)

/-- `clear`, `aclear`. -/
def clear (db : Database K R) (api : Api) : Database K R × Except (SqliteError K) Unit :=
  if db.lockedFor api then (db, .error .locked) else db.endWrite api (fun _ => none) true true

/-- The write calls of both APIs. -/
def exec [ShallowMerge V] (maxSqlVariables : ℕ+) (db : Database K R) (api : Api) :
    StoreOp K V → Database K R × Except (SqliteError K) Unit
  | .set key value onConflict => setMany layout db api (Dict.ofList [(key, value)]) onConflict
  | .setMany items onConflict => setMany layout db api items onConflict
  | .delete key => deleteMany layout maxSqlVariables db api [key]
  | .deleteMany keys => deleteMany layout maxSqlVariables db api keys
  | .clear => clear db api

/-- A run of operations that all succeed; `none` when one raises. -/
def runOk [ShallowMerge V] (maxSqlVariables : ℕ+) (db : Database K R) :
    List (Api × StoreOp K V) → Option (Database K R)
  | [] => some db
  | (api, op) :: ops =>
    match exec layout maxSqlVariables db api op with
    | (db', .ok _) => runOk maxSqlVariables db' ops
    | (_, .error _) => none

/-! ### What a failing `executemany` leaves -/

variable {layout}

theorem executemany_spec (table : Contents K R) (rows : List (K × P)) :
    (executemany layout table rows).1 = table.write (boundPrefix layout rows) ∧
      ((executemany layout table rows).2 = true ↔ ∀ row ∈ rows, (layout.bindRow row).isSome) := by
  induction rows generalizing table with
  | nil => simp [executemany, boundPrefix]
  | cons row rows ih =>
    rw [executemany, boundPrefix]
    cases h : layout.bindRow row with
    | none => simp [h]
    | some r =>
      obtain ⟨key, r⟩ := r
      simpa [h] using ih (Function.update table key (some r))

/-- `Same db db₀`: `db` is `db₀` but for an open transaction that changes nothing. -/
structure Same (db db₀ : Database K R) : Prop where
  committed : db.committed = db₀.committed
  view : ∀ api, db.view api = db₀.committed
  pending : db₀.pending = none

omit [LinearOrder K] in
theorem Same.view_eq {db db₀ : Database K R} (h : Same db db₀) (api : Api) :
    db.view api = db₀.view api := by
  rw [h.view, Database.view, h.pending]

omit [LinearOrder K] in
@[simp] theorem view_at (rows : Contents K R) (api : Api) :
    (Database.at rows).view api = rows := rfl

omit [LinearOrder K] in
theorem same_at (rows : Contents K R) : Same (.at rows) (.at rows) := ⟨rfl, fun _ => rfl, rfl⟩

omit [LinearOrder K] in
theorem Same.endWrite {db db₀ db' : Database K R} {api : Api} {rows : Contents K R}
    {bound wrote : Bool} (hs : db.endWrite api rows bound wrote = (db', .ok ())) :
    ∃ db₀', db₀.endWrite api rows bound wrote = (db₀', .ok ()) ∧ Same db' db₀' := by
  rw [Database.endWrite] at hs ⊢
  split_ifs at hs ⊢ with hb
  all_goals cases hs
  exact ⟨_, rfl, same_at rows⟩

theorem Same.insertMany {db db₀ db' : Database K R} (h : Same db db₀) {api : Api}
    {values : Dict K V} (hs : insertMany layout db api values = (db', .ok ())) :
    ∃ db₀', SqliteFailure.insertMany layout db₀ api values = (db₀', .ok ()) ∧ Same db' db₀' := by
  have hfree : db₀.lockedFor api = false := by rw [Database.lockedFor, h.pending]
  by_cases he : values.entries = []
  · simp only [SqliteFailure.insertMany, he, if_true] at hs ⊢
    cases hs
    exact ⟨db₀, rfl, h⟩
  · simp only [SqliteFailure.insertMany, he, if_false] at hs ⊢
    cases hm : paramRows layout values with
    | none => simp [hm] at hs
    | some rows =>
      simp only [hm, hfree, Bool.false_eq_true, if_false] at hs ⊢
      split_ifs at hs
      · cases hs
      · rw [h.view_eq] at hs
        exact Same.endWrite hs

theorem Same.setMany [ShallowMerge V] {db db₀ db' : Database K R} (h : Same db db₀) {api : Api}
    {items : Dict K V} {onConflict : OnConflict}
    (hs : setMany layout db api items onConflict = (db', .ok ())) :
    ∃ db₀', SqliteFailure.setMany layout db₀ api items onConflict = (db₀', .ok ()) ∧
      Same db' db₀' := by
  rw [SqliteFailure.setMany] at hs ⊢
  rw [h.view_eq] at hs
  split_ifs at hs ⊢
  · cases hs
    exact ⟨db₀, rfl, h⟩
  · exact h.insertMany hs
  · cases hr : resolveConflicts items onConflict (db₀.view api).containsMany
        (read layout (db₀.view api)) with
    | error e => simp [hr] at hs
    | ok toWrite =>
      simp only [hr] at hs ⊢
      exact h.insertMany hs
  · cases hs

theorem Same.deleteMany {maxSqlVariables : ℕ+} {db db₀ db' : Database K R} (h : Same db db₀)
    {api : Api} {keys : List K}
    (hs : deleteMany layout maxSqlVariables db api keys = (db', .ok ())) :
    ∃ db₀', SqliteFailure.deleteMany layout maxSqlVariables db₀ api keys = (db₀', .ok ()) ∧
      Same db' db₀' := by
  have hfree : db₀.lockedFor api = false := by rw [Database.lockedFor, h.pending]
  by_cases hk : keys = []
  · simp only [SqliteFailure.deleteMany, hk, if_true] at hs ⊢
    cases hs
    exact ⟨db₀, rfl, h⟩
  · simp only [SqliteFailure.deleteMany, hk, hfree, Bool.false_eq_true, if_false] at hs ⊢
    split_ifs at hs
    · cases hs
    · rw [h.view_eq] at hs
      exact Same.endWrite hs

theorem Same.exec [ShallowMerge V] {maxSqlVariables : ℕ+} {db db₀ db' : Database K R}
    (h : Same db db₀) {api : Api} {op : StoreOp K V}
    (hs : exec layout maxSqlVariables db api op = (db', .ok ())) :
    ∃ db₀', SqliteFailure.exec layout maxSqlVariables db₀ api op = (db₀', .ok ()) ∧
      Same db' db₀' := by
  cases op with
  | set key value onConflict => exact h.setMany hs
  | setMany items onConflict => exact h.setMany hs
  | delete key => exact h.deleteMany hs
  | deleteMany keys => exact h.deleteMany hs
  | clear =>
    have hfree : db₀.lockedFor api = false := by rw [Database.lockedFor, h.pending]
    simp only [SqliteFailure.exec, clear, hfree, Bool.false_eq_true, if_false] at hs ⊢
    split_ifs at hs
    · cases hs
    · exact Same.endWrite hs

/-- **A transaction that changes nothing is never observed**, whatever succeeds after it. -/
theorem Same.run [ShallowMerge V] {maxSqlVariables : ℕ+} {db db₀ db' : Database K R}
    (h : Same db db₀) {ops : List (Api × StoreOp K V)}
    (hs : runOk layout maxSqlVariables db ops = some db') :
    ∃ db₀', runOk layout maxSqlVariables db₀ ops = some db₀' ∧ Same db' db₀' := by
  induction ops generalizing db db₀ with
  | nil =>
    cases hs
    exact ⟨db₀, rfl, h⟩
  | cons op ops ih =>
    obtain ⟨api, op⟩ := op
    rw [runOk] at hs ⊢
    cases he : SqliteFailure.exec layout maxSqlVariables db api op with
    | mk db₁ r =>
      cases r with
      | error e => simp [he] at hs
      | ok u =>
        obtain ⟨db₀', he₀, hsame⟩ := h.exec he
        simp only [he, he₀] at hs ⊢
        exact ih hsame hs

/-! ### A call that raises -/

variable (layout) [ShallowMerge V]

/-- The values of a call that reach `executemany`. -/
def toInsert (table : Contents K R) (items : Dict K V) (onConflict : OnConflict) :
    Option (Dict K V) :=
  if onConflict = .overwrite then some items
  else if items.keys.all layout.bindKey then
    (resolveConflicts items onConflict table.containsMany (read layout table)).toOption
  else none

/-- The rows of a call before the first one that does not bind; none when the call does not get as
far as binding rows. -/
def rowsBefore (table : Contents K R) (items : Dict K V) (onConflict : OnConflict) :
    List (K × R) :=
  match (toInsert layout table items onConflict).bind (paramRows layout) with
  | some rows => boundPrefix layout rows
  | none => []

/-- The call leaves no trace: whatever succeeds after it, both connections and the committed rows
are as in the run without it. -/
def Invisible (maxSqlVariables : ℕ+) (table : Contents K R) (after : Database K R) : Prop :=
  ∀ (ops : List (Api × StoreOp K V)) (db : Database K R),
    runOk layout maxSqlVariables after ops = some db →
      ∃ db₀, runOk layout maxSqlVariables (.at table) ops = some db₀ ∧
        (∀ api, db.view api = db₀.view api) ∧ db.committed = db₀.committed

variable {layout} {table : Contents K R} {api : Api} {items : Dict K V} {onConflict : OnConflict}
  {e : SqliteError K}

omit [ShallowMerge V] in
theorem insertMany_failed {values : Dict K V}
    (hfail : (insertMany layout (.at table) api values).2 = .error e) :
    ((insertMany layout (.at table) api values).1 = .at table ∧
        ∀ rows, paramRows layout values = some rows → boundPrefix layout rows = []) ∨
      ∃ rows, paramRows layout values = some rows ∧
        (insertMany layout (.at table) api values).1 =
          ⟨table, some (api, table.write (boundPrefix layout rows))⟩ := by
  by_cases he : values.entries = []
  · simp [insertMany, he] at hfail
  · cases hm : paramRows layout values with
    | none => exact .inl (by simp [insertMany, he, hm])
    | some rows =>
      have htable : (executemany layout table rows).1 = table.write (boundPrefix layout rows) :=
        (executemany_spec table rows).1
      simp only [insertMany, he, hm, Database.lockedFor, Database.at, Database.view,
        Database.endWrite, Bool.false_eq_true, if_false] at hfail ⊢
      by_cases hb : (executemany layout table rows).2 = true
      · simp [hb] at hfail
      · by_cases hw : boundPrefix layout rows = []
        · left
          refine ⟨by simp [hb, hw], fun rows' hr => ?_⟩
          cases hr
          exact hw
        · right
          exact ⟨rows, rfl, by simp [hb, hw, htable]⟩

variable (layout) in
/-- A call gets as far as `executemany`, or changes nothing. -/
theorem setMany_at (he : items.entries ≠ []) :
    (∃ values, toInsert layout table items onConflict = some values ∧
        setMany layout (.at table) api items onConflict =
          insertMany layout (.at table) api values) ∨
      (toInsert layout table items onConflict = none ∧
        (setMany layout (.at table) api items onConflict).1 = .at table) := by
  by_cases ho : onConflict = .overwrite
  · exact .inl ⟨items, if_pos ho, by simp [setMany, he, ho]⟩
  by_cases hb : items.keys.all layout.bindKey
  · cases hr : resolveConflicts items onConflict table.containsMany (read layout table) with
    | error e' => exact .inr ⟨by simp [toInsert, ho, hb, hr, Except.toOption],
        by simp [setMany, he, ho, hb, hr]⟩
    | ok toWrite => exact .inl ⟨toWrite, by simp [toInsert, ho, hb, hr, Except.toOption],
        by simp [setMany, he, ho, hb, hr]⟩
  · exact .inr ⟨by simp [toInsert, ho, hb], by simp [setMany, he, ho, hb]⟩

/-- What a call that raises leaves behind. -/
theorem setMany_failed (hfail : (setMany layout (.at table) api items onConflict).2 = .error e) :
    ((setMany layout (.at table) api items onConflict).1 = .at table ∧
        rowsBefore layout table items onConflict = []) ∨
      (setMany layout (.at table) api items onConflict).1 =
        ⟨table, some (api, table.write (rowsBefore layout table items onConflict))⟩ := by
  have he : items.entries ≠ [] := fun he => by simp [setMany, he] at hfail
  rcases setMany_at layout he with ⟨values, hv, heq⟩ | ⟨hv, hdb⟩
  · rw [heq] at hfail ⊢
    rcases insertMany_failed hfail with ⟨hdb, hnil⟩ | ⟨rows, hrows, hdb⟩
    · refine .inl ⟨hdb, ?_⟩
      cases hm : paramRows layout values with
      | none => simp [rowsBefore, hv, hm]
      | some rows => simpa [rowsBefore, hv, hm] using hnil rows hm
    · refine .inr ?_
      simpa [rowsBefore, hv, hrows] using hdb
  · exact .inl ⟨hdb, by simp [rowsBefore, hv]⟩

/-- **When a failed call leaves no trace.** A call that raises is invisible exactly when the rows
before its failing one are in the table already. -/
theorem failure_invisible_iff (maxSqlVariables : ℕ+)
    (hfail : (setMany layout (.at table) api items onConflict).2 = .error e) :
    Invisible layout maxSqlVariables table (setMany layout (.at table) api items onConflict).1 ↔
      table.write (rowsBefore layout table items onConflict) = table := by
  constructor
  · intro h
    rcases setMany_failed hfail with ⟨-, hnil⟩ | hdb
    · rw [hnil, Contents.write_nil]
    · rw [hdb] at h
      obtain ⟨db₀, h₀, hview, -⟩ := h [] _ rfl
      cases h₀
      simpa [Database.view, Database.at] using hview api
  · intro h ops db hrun
    have hsame : Same (setMany layout (.at table) api items onConflict).1 (.at table) := by
      rcases setMany_failed hfail with ⟨hdb, -⟩ | hdb
      · rw [hdb]
        exact same_at table
      · rw [hdb, h]
        refine ⟨rfl, fun a => ?_, rfl⟩
        simp [Database.view, Database.at]
    obtain ⟨db₀, hrun₀, hs⟩ := hsame.run hrun
    exact ⟨db₀, hrun₀, hs.view_eq, hs.committed⟩

end SqliteFailure

end Persista
