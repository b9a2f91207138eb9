import Persista.Lib.Refinement
import Persista.Store.InMemory
import Mathlib.Data.String.Basic

/-!
# `open` and `close` of the SQL stores

`store/sqlite.py`, `store/duckdb.py` and `store/postgres.py`. `open` connects, creates the table and
sets `_closed` to `False`, and each of the stores has its own order for that; connecting and
creating can raise. A store keeps `_conn` after it is closed, and SQLite and Postgres have a second
connection, which the asynchronous API connects when it first needs it.

Every synchronous connection that a store has made is part of the state, whether `_conn` still
refers to it or not. Calls run one after another. A data call is what it does to the connections:
which statements it runs makes no difference here, and one that returns before it looks for a
connection does nothing.

## Three orders

* SQLite creates the table before it says that it is open, and closes the connection when that
  raises.
* Postgres does the same but leaves the connection as it is.
* DuckDB says that it is open first.

So a failed `CREATE TABLE` leaves a Postgres store closed with a live connection, and a DuckDB store
open, where the next `open` returns at once.

## Main results

* `lifecycle_kept_iff` — a run keeps the promise of the lifecycle exactly when in each `open` that
  connects the table gets created, or for SQLite fails to with an error that `open` raises
-/

namespace Persista

namespace Lifecycle

open Refinement

/-- The SQL stores: whether `aiosqlite` is there, whether DuckDB is asked for `read_only`. -/
inductive Backend
  | sqlite (aiosqlite : Bool)
  | duckdb (readOnly : Bool)
  | postgres

/-- What a call can raise. -/
inductive LifecycleError
  | runtimeError (msg : String)
  /-- From the driver, when it connects or runs a statement. -/
  | driver
  deriving DecidableEq

/-- How `CREATE TABLE IF NOT EXISTS` ends. -/
inductive Create
  | done
  /-- It raises SQLite's error for a database that is read-only. -/
  | readOnly
  | failed
  deriving DecidableEq

/-- What a database does when a store connects to it. -/
structure Answers where
  connects : Bool
  /-- The table is there before it is created. -/
  hasTable : Bool
  create : Create

/-- A synchronous connection. -/
structure Connection where
  live : Bool
  table : Bool
  deriving DecidableEq

/-- The state of a store: `_closed`, `_conn`, whether `_aconn` is connected, `_aschema_ready`, and
every synchronous connection it has made. -/
structure Store where
  closed : Bool
  conn : Option ℕ
  aconn : Bool
  aschemaReady : Bool
  connections : List Connection

/-- `__init__`. -/
def Store.init : Store := ⟨true, none, false, false, []⟩

/-- The outcome of a call and the store after it. -/
abbrev Ran := Except LifecycleError Unit × Store

namespace Store

/-- `self._conn = connect(...)`. -/
def connect (s : Store) (hasTable : Bool) : Store :=
  { s with
    conn := some s.connections.length
    connections := s.connections ++ [⟨true, hasTable⟩] }

/-- Something happens to the connection `_conn`. -/
def onConn (s : Store) (f : Connection → Connection) : Store :=
  { s with
    connections :=
      match s.conn with
      | none => s.connections
      | some c => s.connections.modify c f }

/-- The table is created on `_conn`. -/
def createTable (s : Store) : Store := s.onConn fun c => { c with table := true }

/-- `_conn` is closed. -/
def shut (s : Store) : Store := s.onConn fun c => { c with live := false }

/-- `self._connection.close()`, and the store is closed. -/
def finish (name : String) (s : Store) : Ran :=
  match s.conn with
  | none => (.error (.runtimeError (name ++ " is not open.")), s)
  | some _ => (.ok (), { s.shut with closed := true })

/-- A synchronous data call. -/
def data (name : String) (s : Store) (statement : Bool) : Ran :=
  if s.closed then (.error (.runtimeError (notOpenMsg name)), s)
  else
    match s.conn with
    | none => (.error (.runtimeError (name ++ " is not open.")), s)
    | some _ => (if statement then .ok () else .error .driver, s)

end Store

/-- `close`, called inside a running event loop. -/
def runningLoopMsg (resourceLabel : String) : String :=
  "An async " ++ resourceLabel ++ " connection is open and close() was called from inside a " ++
    "running event loop; use `await store.aclose()` instead."

/-- `BaseSQLiteStore.open`. -/
def openSQLite (s : Store) (a : Answers) : Ran :=
  if s.closed = false then (.ok (), s)
  else if a.connects = false then (.error .driver, s)
  else
    let s := s.connect a.hasTable
    match a.create with
    | .done => (.ok (), { s.createTable with aschemaReady := false, closed := false })
    | .readOnly => (.ok (), { s with aschemaReady := false, closed := false })
    | .failed => (.error .driver, { s.shut with conn := none })

/-- `BaseDuckDBStore.open`. -/
def openDuckDB (readOnly : Bool) (s : Store) (a : Answers) : Ran :=
  if s.closed = false then (.ok (), s)
  else if a.connects = false then (.error .driver, s)
  else
    let s := { s.connect a.hasTable with closed := false }
    if readOnly then (.ok (), s)
    else
      match a.create with
      | .done => (.ok (), s.createTable)
      | _ => (.error .driver, s)

/-- `BasePostgresStore.open`. -/
def openPostgres (s : Store) (a : Answers) : Ran :=
  if s.closed = false then (.ok (), s)
  else if a.connects = false then (.error .driver, s)
  else
    let s := s.connect a.hasTable
    match a.create with
    | .done => (.ok (), { s.createTable with closed := false })
    | _ => (.error .driver, s)

/-- `close` of SQLite and Postgres. -/
def closeBoth (resourceLabel name : String) (s : Store) (inLoop : Bool) : Ran :=
  if s.aconn ∧ inLoop then (.error (.runtimeError (runningLoopMsg resourceLabel)), s)
  else if s.closed then (.ok (), { s with aconn := false })
  else Store.finish name { s with aconn := false }

/-- `BaseDuckDBStore.close`. -/
def closeDuckDB (name : String) (s : Store) : Ran :=
  if s.closed then (.ok (), s) else s.finish name

/-- `aclose` of SQLite and Postgres. -/
def acloseBoth (name : String) (s : Store) : Ran :=
  if s.closed = false then Store.finish name { s with aconn := false }
  else (.ok (), { s with aconn := false })

/-- `BaseSQLiteStore._ensure_aconn`. -/
def ensureAconnSQLite (name : String) (s : Store) (a : Answers) : Ran :=
  if s.closed then (.error (.runtimeError (notOpenMsg name)), s)
  else if s.aconn = false ∧ a.connects = false then (.error .driver, s)
  else if s.aschemaReady then (.ok (), { s with aconn := true })
  else
    match a.create with
    | .failed => (.error .driver, { s with aconn := true })
    | _ => (.ok (), { s with aconn := true, aschemaReady := true })

/-- `BasePostgresStore._ensure_aconn`. -/
def ensureAconnPostgres (name : String) (s : Store) (a : Answers) : Ran :=
  if s.closed then (.error (.runtimeError (notOpenMsg name)), s)
  else if s.aconn then (.ok (), s)
  else if a.connects = false then (.error .driver, s)
  else
    match a.create with
    | .done => (.ok (), { s with aconn := true })
    | _ => (.error .driver, { s with aconn := true })

/-- A statement on `_aconn`, when it is there. -/
def Ran.statement (r : Ran) (statement : Bool) : Ran :=
  match r.1 with
  | .error e => (.error e, r.2)
  | .ok () => (if statement then .ok () else .error .driver, r.2)

/-- The calls, with the answers of the database: a data call runs a statement, which succeeds or
raises. -/
inductive Call
  | «open» (answers : Answers)
  | aopen (answers : Answers)
  | close (inLoop : Bool)
  | aclose
  | data (statement : Bool)
  | adata (answers : Answers) (statement : Bool)

namespace Backend

/-- `open`. -/
def «open» : Backend → Store → Answers → Ran
  | .sqlite _ => openSQLite
  | .duckdb readOnly => openDuckDB readOnly
  | .postgres => openPostgres

/-- A call of a store of the class `name`. -/
def run (b : Backend) (name : String) (s : Store) : Call → Ran
  | .open a => b.open s a
  | .aopen a =>
    -- `open` in a thread; DuckDB leaves the test to `open`
    if s.closed = false then (.ok (), s) else b.open s a
  | .close inLoop =>
    match b with
    | .sqlite _ => closeBoth "SQLite" name s inLoop
    | .duckdb _ => closeDuckDB name s
    | .postgres => closeBoth "Postgres" name s inLoop
  | .aclose =>
    match b with
    | .duckdb _ => closeDuckDB name s
    | _ => acloseBoth name s
  | .data statement => s.data name statement
  | .adata a statement =>
    match b with
    | .sqlite true => (ensureAconnSQLite name s a).statement statement
    | .postgres => (ensureAconnPostgres name s a).statement statement
    | _ => s.data name statement

end Backend

/-! ### The promise -/

/-- The call is `open` or `aopen`. -/
def Call.opens : Call → Bool
  | .open _ | .aopen _ => true
  | _ => false

/-- The call is `close` or `aclose`. -/
def Call.closes : Call → Bool
  | .close _ | .aclose => true
  | _ => false

/-- The call returned. -/
def Ran.returned (r : Ran) : Bool :=
  match r.1 with
  | .ok _ => true
  | .error _ => false

/-- A store, and what its client goes by: no `open` has returned since the store was made, was
closed or failed to open. -/
structure World where
  store : Store
  due : Bool

/-- A new store. -/
def World.init : World := ⟨.init, true⟩

/-- The world after a call. -/
def World.step (b : Backend) (name : String) (w : World) (call : Call) : World where
  store := (b.run name w.store call).2
  due :=
    if call.opens then !(b.run name w.store call).returned
    else if call.closes ∧ (b.run name w.store call).returned then true
    else w.due

/-- None of the synchronous connections is live. -/
def Store.Idle (s : Store) : Prop := ∀ c ∈ s.connections, c.live = false

/-- `_conn` is the connection number `n`, live and with the table. -/
def Store.OpenOn (s : Store) (n : ℕ) : Prop :=
  s.conn = some n ∧ s.connections[n]? = some ⟨true, true⟩

/-- What the lifecycle promises about a call. -/
structure Promised (b : Backend) (name : String) (w : World) (call : Call) : Prop where
  /-- A closed store has no live connection. -/
  closed : (w.step b name call).store.closed = true → (w.step b name call).store.Idle
  /-- So has a store that failed to open, and it is closed. -/
  raised : call.opens = true → (b.run name w.store call).returned = false →
    (w.step b name call).store.closed = true ∧ (w.step b name call).store.Idle
  /-- An `open` that was due and returned has made a new connection, which has the table. -/
  opened : call.opens = true → (b.run name w.store call).returned = true → w.due = true →
    (w.step b name call).store.OpenOn w.store.connections.length

/-- What has to come of the table when a store has connected. -/
def Backend.Creates (b : Backend) (a : Answers) : Prop :=
  match b with
  | .sqlite _ => a.create = .readOnly → a.hasTable = true
  | .duckdb readOnly => if readOnly then a.hasTable = true else a.create = .done
  | .postgres => a.create = .done

/-- A closed store that opens and connects gets its table. -/
def SchemaHolds (b : Backend) (w : World) : Call → Prop
  | .open a | .aopen a => w.store.closed = true → a.connects = true → b.Creates a
  | _ => True

/-! ### The invariant -/

variable {b : Backend} {name : String} {s s' : Store} {w : World} {a : Answers} {call : Call}

/-- A closed store has no live connection; the connection of an open one is its newest, has the
table and is the only one that is live. -/
def Store.Settled (s : Store) : Prop :=
  (s.closed = true ∧ s.Idle) ∨
    (s.closed = false ∧ ∃ old, s.connections = old ++ [⟨true, true⟩] ∧ s.conn = some old.length ∧
      ∀ c ∈ old, c.live = false)

/-- The invariant of a run. -/
structure World.Inv (w : World) : Prop where
  due : w.due = w.store.closed
  settled : w.store.Settled

theorem inv_init : World.init.Inv := ⟨rfl, .inl ⟨rfl, nofun⟩⟩

theorem Store.Settled.idle (h : s.Settled) (hc : s.closed = true) : s.Idle := by
  rcases h with ⟨-, hi⟩ | ⟨ho, -⟩
  · exact hi
  · rw [hc] at ho
    cases ho

/-- The same store, up to its second connection. -/
structure Same (s s' : Store) : Prop where
  closed : s'.closed = s.closed
  conn : s'.conn = s.conn
  connections : s'.connections = s.connections

theorem Same.refl (s : Store) : Same s s := ⟨rfl, rfl, rfl⟩

theorem Store.Settled.congr (h : s.Settled) (hs : Same s s') : s'.Settled := by
  rw [Store.Settled, Store.Idle, hs.closed, hs.conn, hs.connections]
  exact h

theorem modify_append_singleton {X : Type} (old : List X) (c : X) (f : X → X) :
    (old ++ [c]).modify old.length f = old ++ [f c] := by
  rw [List.modify_eq_take_cons_drop (by simp)]
  simp

theorem onConn_connections {old : List Connection} {c : Connection} (f : Connection → Connection)
    (hn : s.conn = some old.length) (hl : s.connections = old ++ [c]) :
    (s.onConn f).connections = old ++ [f c] := by
  simp only [Store.onConn, hn, hl]
  exact modify_append_singleton old c f

/-- The new connection, with its table. -/
theorem connect_createTable (s : Store) (hasTable : Bool) :
    (s.connect hasTable).createTable.connections = s.connections ++ [⟨true, true⟩] :=
  onConn_connections (s := s.connect hasTable) (c := ⟨true, hasTable⟩) _ rfl rfl

/-- The new connection, closed again. -/
theorem connect_shut (s : Store) (hasTable : Bool) :
    (s.connect hasTable).shut.connections = s.connections ++ [⟨false, hasTable⟩] :=
  onConn_connections (s := s.connect hasTable) (c := ⟨true, hasTable⟩) _ rfl rfl

/-! ### `open` -/

/-- An `open` that returns has a new connection with the table, one that raises leaves no live
one. -/
structure Opening (s : Store) (r : Ran) : Prop where
  raised : r.returned = false → r.2.closed = true ∧ r.2.Idle
  opened : r.returned = true →
    r.2.closed = false ∧ r.2.conn = some s.connections.length ∧
      r.2.connections = s.connections ++ [⟨true, true⟩]

theorem opening_raised {e : LifecycleError} (hc : s'.closed = true) (hi : s'.Idle) :
    Opening s (.error e, s') :=
  ⟨fun _ => ⟨hc, hi⟩, fun h => absurd h Bool.false_ne_true⟩

theorem opening_returned (hc : s'.closed = false) (hn : s'.conn = some s.connections.length)
    (hl : s'.connections = s.connections ++ [⟨true, true⟩]) : Opening s (.ok (), s') :=
  ⟨fun h => absurd h.symm Bool.false_ne_true, fun _ => ⟨hc, hn, hl⟩⟩

theorem idle_append {c : Connection} (hi : s.Idle) (hl : s'.connections = s.connections ++ [c])
    (hc : c.live = false) : s'.Idle := by
  intro c' hc'
  rw [hl, List.mem_append, List.mem_singleton] at hc'
  rcases hc' with hc' | rfl
  · exact hi c' hc'
  · exact hc

/-- **`open` of a closed store** that gets its table when it connects. -/
theorem opening_of_creates (hc : s.closed = true) (hi : s.Idle)
    (hcreates : a.connects = true → b.Creates a) : Opening s (b.open s a) := by
  have hopen : ¬ s.closed = false := by simp [hc]
  cases hconn : a.connects with
  | false =>
    have hraised : b.open s a = (.error .driver, s) := by
      cases b <;> simp [Backend.open, openSQLite, openDuckDB, openPostgres, hc, hconn]
    rw [hraised]
    exact opening_raised hc hi
  | true =>
    have hcreates := hcreates hconn
    have hconn' : ¬ a.connects = false := by simp [hconn]
    cases b with
    | sqlite aiosqlite =>
      simp only [Backend.open, openSQLite, if_neg hopen, if_neg hconn']
      cases hcr : a.create with
      | done =>
        exact opening_returned rfl rfl (connect_createTable s a.hasTable)
      | readOnly =>
        refine opening_returned rfl rfl ?_
        rw [Store.connect, hcreates hcr]
      | failed =>
        exact opening_raised hc (idle_append hi (connect_shut s a.hasTable) rfl)
    | duckdb readOnly =>
      simp only [Backend.open, openDuckDB, if_neg hopen, if_neg hconn']
      cases readOnly with
      | true =>
        refine opening_returned rfl rfl ?_
        rw [Store.connect, show a.hasTable = true from hcreates]
      | false =>
        rw [show a.create = .done from hcreates]
        exact opening_returned rfl rfl (connect_createTable s a.hasTable)
    | postgres =>
      simp only [Backend.open, openPostgres, if_neg hopen, if_neg hconn']
      rw [show a.create = .done from hcreates]
      exact opening_returned rfl rfl (connect_createTable s a.hasTable)

/-- An `open` that does what it promises got its table when it connected. -/
theorem creates_of_promised (hc : s.closed = true) (hconn : a.connects = true)
    (hraised : (b.open s a).returned = false → (b.open s a).2.closed = true ∧ (b.open s a).2.Idle)
    (hopened : (b.open s a).returned = true → (b.open s a).2.OpenOn s.connections.length) :
    b.Creates a := by
  have hopen : ¬ s.closed = false := by simp [hc]
  have hconn' : ¬ a.connects = false := by simp [hconn]
  cases b with
  | sqlite aiosqlite =>
    intro hcr
    simp only [Backend.open, openSQLite, if_neg hopen, if_neg hconn', hcr] at hopened
    simpa [Store.OpenOn, Store.connect] using hopened rfl
  | duckdb readOnly =>
    simp only [Backend.open, openDuckDB, if_neg hopen, if_neg hconn'] at hraised hopened
    cases readOnly with
    | true => simpa [Store.OpenOn, Store.connect, Backend.Creates] using hopened rfl
    | false =>
      by_contra hcr
      cases h : a.create with
      | done => exact hcr h
      | readOnly =>
        rw [h] at hraised
        cases (hraised rfl).1
      | failed =>
        rw [h] at hraised
        cases (hraised rfl).1
  | postgres =>
    simp only [Backend.open, openPostgres, if_neg hopen, if_neg hconn'] at hraised
    have hlive : ¬ (s.connect a.hasTable).Idle := fun hi =>
      absurd (hi ⟨true, a.hasTable⟩ (by simp [Store.connect])) (by simp)
    cases h : a.create with
    | done => exact h
    | readOnly =>
      rw [h] at hraised
      exact absurd (hraised rfl).2 hlive
    | failed =>
      rw [h] at hraised
      exact absurd (hraised rfl).2 hlive

/-! ### The other calls -/

/-- The connection of an open store is closed, and no other was live. -/
theorem finish_spec (name : String) (h : s.Settled) (ho : s.closed = false) :
    (s.finish name).returned = true ∧ (s.finish name).2.closed = true ∧
      (s.finish name).2.Idle := by
  rcases h with ⟨hc, -⟩ | ⟨-, old, hl, hn, hold⟩
  · rw [ho] at hc
    cases hc
  · have hfinish : s.finish name = (.ok (), { s.shut with closed := true }) := by
      rw [Store.finish, hn]
    rw [hfinish]
    refine ⟨rfl, rfl, fun c hc => ?_⟩
    have hshut : s.shut.connections = old ++ [⟨false, true⟩] := onConn_connections _ hn hl
    change c ∈ s.shut.connections at hc
    rw [hshut, List.mem_append, List.mem_singleton] at hc
    rcases hc with hc | rfl
    · exact hold c hc
    · rfl

/-- A `close` that returns leaves the store closed, one that raises leaves it as it was. -/
structure Closing (s : Store) (r : Ran) : Prop where
  returned : r.returned = true → r.2.closed = true ∧ r.2.Idle
  raised : r.returned = false → Same s r.2

theorem closing_finish (h : s.Settled) (hs : Same s s') (ho : s.closed = false) :
    Closing s (s'.finish name) := by
  obtain ⟨hr, hspec⟩ := finish_spec name (h.congr hs) (hs.closed.trans ho)
  refine ⟨fun _ => hspec, fun hf => ?_⟩
  rw [hr] at hf
  cases hf

theorem closing_closed (h : s.Settled) (hs : Same s s') (hc : s.closed = true) :
    Closing s (.ok (), s') :=
  ⟨fun _ => ⟨hs.closed.trans hc, (h.congr hs).idle (hs.closed.trans hc)⟩,
    fun hf => absurd hf.symm Bool.false_ne_true⟩

theorem closing_closeBoth (h : s.Settled) (resourceLabel : String) (inLoop : Bool) :
    Closing s (closeBoth resourceLabel name s inLoop) := by
  rw [closeBoth]
  split_ifs with hloop hc
  · exact ⟨fun hr => absurd hr Bool.false_ne_true, fun _ => Same.refl s⟩
  · exact closing_closed h ⟨rfl, rfl, rfl⟩ hc
  · exact closing_finish h ⟨rfl, rfl, rfl⟩ (by simpa using hc)

theorem closing_closeDuckDB (h : s.Settled) : Closing s (closeDuckDB name s) := by
  rw [closeDuckDB]
  split_ifs with hc
  · exact closing_closed h (Same.refl s) hc
  · exact closing_finish h (Same.refl s) (by simpa using hc)

theorem closing_acloseBoth (h : s.Settled) : Closing s (acloseBoth name s) := by
  rw [acloseBoth]
  split_ifs with ho
  · exact closing_finish h ⟨rfl, rfl, rfl⟩ ho
  · exact closing_closed h ⟨rfl, rfl, rfl⟩ (by simpa using ho)

theorem closing_run (b : Backend) (name : String) (h : s.Settled) (hcall : call.closes = true) :
    Closing s (b.run name s call) := by
  cases call with
  | close inLoop =>
    cases b with
    | sqlite aiosqlite => exact closing_closeBoth h "SQLite" inLoop
    | duckdb readOnly => exact closing_closeDuckDB h
    | postgres => exact closing_closeBoth h "Postgres" inLoop
  | aclose =>
    cases b with
    | sqlite aiosqlite => exact closing_acloseBoth h
    | duckdb readOnly => exact closing_closeDuckDB h
    | postgres => exact closing_acloseBoth h
  | _ => cases hcall

theorem same_data (name : String) (s : Store) (statement : Bool) :
    Same s (s.data name statement).2 := by
  rw [Store.data]
  split
  · exact Same.refl s
  · cases s.conn <;> exact Same.refl s

theorem same_ensureAconnSQLite (name : String) (s : Store) (a : Answers) :
    Same s (ensureAconnSQLite name s a).2 := by
  rw [ensureAconnSQLite]
  split_ifs
  · exact Same.refl s
  · exact Same.refl s
  · exact ⟨rfl, rfl, rfl⟩
  · cases a.create <;> exact ⟨rfl, rfl, rfl⟩

theorem same_ensureAconnPostgres (name : String) (s : Store) (a : Answers) :
    Same s (ensureAconnPostgres name s a).2 := by
  rw [ensureAconnPostgres]
  split_ifs
  · exact Same.refl s
  · exact Same.refl s
  · exact Same.refl s
  · cases a.create <;> exact ⟨rfl, rfl, rfl⟩

theorem statement_snd (r : Ran) (statement : Bool) : (r.statement statement).2 = r.2 := by
  rw [Ran.statement]
  cases r.1 <;> rfl

/-- A data call leaves the synchronous connections as they are. -/
theorem same_run (ho : call.opens = false) (hc : call.closes = false) :
    Same s (b.run name s call).2 := by
  cases call with
  | «open» a => cases ho
  | aopen a => cases ho
  | close inLoop => cases hc
  | aclose => cases hc
  | data statement => exact same_data name s statement
  | adata a statement =>
    cases b with
    | sqlite aiosqlite =>
      cases aiosqlite with
      | false => exact same_data name s statement
      | true =>
        rw [Backend.run, statement_snd]
        exact same_ensureAconnSQLite name s a
    | duckdb readOnly => exact same_data name s statement
    | postgres =>
      rw [Backend.run, statement_snd]
      exact same_ensureAconnPostgres name s a

/-! ### A step -/

theorem open_of_open (ho : s.closed = false) : b.open s a = (.ok (), s) := by
  cases b <;> exact if_pos ho

/-- `open` and `aopen` do the same. -/
theorem exists_open (b : Backend) (name : String) (w : World) (hcall : call.opens = true) :
    ∃ a, b.run name w.store call = b.open w.store a ∧
      (SchemaHolds b w call ↔ (w.store.closed = true → a.connects = true → b.Creates a)) := by
  cases call with
  | «open» a => exact ⟨a, rfl, Iff.rfl⟩
  | aopen a =>
    refine ⟨a, ?_, Iff.rfl⟩
    rw [Backend.run]
    split_ifs with ho
    · rw [open_of_open ho]
    · rfl
  | _ => cases hcall

theorem schemaHolds_of_not_opens (hcall : call.opens = false) : SchemaHolds b w call := by
  cases call with
  | «open» a => cases hcall
  | aopen a => cases hcall
  | _ => trivial

/-- An `open` of a closed store. -/
theorem World.Inv.opening (h : w.Inv) (name : String) (hcall : call.opens = true)
    (hc : w.store.closed = true) (hs : SchemaHolds b w call) :
    Opening w.store (b.run name w.store call) := by
  obtain ⟨a, hrun, hiff⟩ := exists_open b name w hcall
  rw [hrun]
  exact opening_of_creates hc (h.settled.idle hc) (hiff.mp hs hc)

/-- An `open` of an open store does nothing. -/
theorem run_of_open (name : String) (hcall : call.opens = true) (ho : w.store.closed = false) :
    b.run name w.store call = (.ok (), w.store) := by
  obtain ⟨a, hrun, -⟩ := exists_open b name w hcall
  rw [hrun, open_of_open ho]

theorem step_due_of_opens (hcall : call.opens = true) :
    (w.step b name call).due = !(b.run name w.store call).returned :=
  if_pos hcall

/-- **A step keeps the invariant** when the table holds. -/
theorem World.Inv.step (h : w.Inv) (name : String) (hs : SchemaHolds b w call) :
    (w.step b name call).Inv := by
  cases hcall : call.opens with
  | true =>
    cases hc : w.store.closed with
    | false =>
      have hrun := run_of_open (b := b) name hcall hc
      refine ⟨?_, ?_⟩
      · rw [step_due_of_opens hcall, World.step, hrun, hc]
        rfl
      · rw [World.step, hrun]
        exact h.settled
    | true =>
      have hopening := h.opening name hcall hc hs
      cases hr : (b.run name w.store call).returned with
      | true =>
        obtain ⟨ho, hn, hl⟩ := hopening.opened hr
        refine ⟨?_, .inr ⟨ho, w.store.connections, hl, hn, h.settled.idle hc⟩⟩
        rw [step_due_of_opens hcall, hr]
        exact ho.symm
      | false =>
        obtain ⟨hc', hi⟩ := hopening.raised hr
        refine ⟨?_, .inl ⟨hc', hi⟩⟩
        rw [step_due_of_opens hcall, hr]
        exact hc'.symm
  | false =>
    have hdue : (w.step b name call).due =
        if call.closes ∧ (b.run name w.store call).returned then true else w.due := by
      rw [World.step, hcall]
      rfl
    have hkeep : ¬ (call.closes = true ∧ (b.run name w.store call).returned = true) →
        Same w.store (b.run name w.store call).2 → (w.step b name call).Inv := by
      intro hnot hsame
      refine ⟨?_, h.settled.congr hsame⟩
      rw [hdue, if_neg hnot, h.due]
      exact hsame.closed.symm
    cases hcl : call.closes with
    | false => exact hkeep (by simp [hcl]) (same_run hcall hcl)
    | true =>
      have hclosing := closing_run b name h.settled hcl
      cases hr : (b.run name w.store call).returned with
      | false => exact hkeep (by simp [hr]) (hclosing.raised hr)
      | true =>
        obtain ⟨hc', hi⟩ := hclosing.returned hr
        refine ⟨?_, .inl ⟨hc', hi⟩⟩
        rw [hdue, if_pos ⟨hcl, hr⟩]
        exact hc'.symm

/-- **A step keeps the promise** when the table holds. -/
theorem World.Inv.promised (h : w.Inv) (name : String) (hs : SchemaHolds b w call) :
    Promised b name w call where
  closed hc := (h.step name hs).settled.idle hc
  raised hcall hr := by
    cases hc : w.store.closed with
    | true => exact (h.opening name hcall hc hs).raised hr
    | false =>
      rw [run_of_open name hcall hc] at hr
      cases hr
  opened hcall hr hdue := by
    obtain ⟨-, hn, hl⟩ := (h.opening name hcall (h.due.symm.trans hdue) hs).opened hr
    refine ⟨hn, ?_⟩
    change (b.run name w.store call).2.connections[w.store.connections.length]? = _
    rw [hl, List.getElem?_concat_length]

/-- A step that keeps the promise got its table. -/
theorem World.Inv.schemaHolds (h : w.Inv) (hp : Promised b name w call) :
    SchemaHolds b w call := by
  cases hcall : call.opens with
  | false => exact schemaHolds_of_not_opens hcall
  | true =>
    obtain ⟨a, hrun, hiff⟩ := exists_open b name w hcall
    refine hiff.mpr fun hc hconn => creates_of_promised hc hconn (fun hr => ?_) fun hr => ?_
    · rw [← hrun] at hr ⊢
      exact hp.raised hcall hr
    · rw [← hrun] at hr ⊢
      exact hp.opened hcall hr (h.due.trans hc)

/-- **When a run keeps the promise of the lifecycle.** Every call of a run keeps it if and only if
every `open` of a closed store that connects gets its table (for SQLite: unless it raises). -/
theorem lifecycle_kept_iff (b : Backend) (name : String) (calls : List Call) :
    Throughout (World.step b name) (Promised b name) .init calls ↔
      Throughout (World.step b name) (SchemaHolds b) .init calls :=
  throughout_iff (fun _ _ h => ⟨h.schemaHolds, h.promised name⟩) (fun _ _ h hs => h.step name hs)
    inv_init calls

/-- An `open` that connects and whose `CREATE TABLE` raises. -/
def failedSchema : Call := .open ⟨true, false, .failed⟩

/-- **The failed `open`s.** DuckDB is left open without its table, Postgres closed with a live
connection. -/
theorem failed_schema_breaks_promise :
    ¬ Throughout (World.step (.duckdb false) "DuckDBStore")
        (Promised (.duckdb false) "DuckDBStore") .init [failedSchema] ∧
      ¬ Throughout (World.step .postgres "PostgresStore")
        (Promised .postgres "PostgresStore") .init [failedSchema] := by
  constructor
  · rintro ⟨hp, -⟩
    have hclosed : false = true := (hp.raised rfl rfl).1
    cases hclosed
  · rintro ⟨hp, -⟩
    have hlive : true = false := (hp.raised rfl rfl).2 ⟨true, false⟩ List.mem_cons_self
    cases hlive

end Lifecycle

end Persista
