import Persista.Store.Redis
import Persista.Store.SqliteCoherence

/-!
# A store that is not open

Every method of every backend sees for itself to it that the store is open: it calls `_check_open`,
or a method that does, or it asks for the connection of the asynchronous API, which `_ensure_aconn`
and `_ensure_aclient` hand out on an open store only. What comes before that call is all that a
closed store ever runs. So the methods are written out here up to that point, and what they do
afterwards is a parameter.

## What comes before

* `InMemoryStore` and the file stores have no check in the methods that loop over a single-key
  method, so an empty list of keys is never checked; the asynchronous methods run the synchronous
  ones in a thread.
* The asynchronous methods of the SQLite, Redis and Postgres stores return on an empty argument
  before they ask for the connection, and those of the Redis stores reject the reserved key before
  it. The synchronous ones check first.

## Main results

* `OpenCheck.call_of_closed` — what any method makes of a closed store
* `OpenCheck.refused_iff` — it is refused exactly when no argument takes a short cut
-/

namespace Persista

/-- The data operations of `BaseStore`; `keys` and `iter_batches` are consumed. -/
inductive DataOp (K V F : Type)
  | get (key : K)
  | getMany (keys : List K)
  | set (key : K) (value : V) (onConflict : OnConflict)
  | setMany (items : Dict K V) (onConflict : OnConflict)
  | delete (key : K)
  | deleteMany (keys : List K)
  | clear
  | contains (key : K)
  | containsMany (keys : List K)
  | count
  | filter (fieldFilters : F)
  | keys
  | iterBatches (batchSize : ℤ)

namespace OpenCheck

variable {σ K V F X : Type}

/-- A store: `_closed`, and everything else. -/
structure Closable (σ : Type) where
  closed : Bool
  inner : σ

/-- A method changes the store and returns or raises. -/
abbrev Method (σ K X : Type) := ExceptT (StoreError K) (StateM (Closable σ)) X

/-- A call of a method. -/
def exec (m : Method σ K X) (s : Closable σ) : Except (StoreError K) X × Closable σ := m.run.run s

/-- What the methods of a store do once it is known to be open. -/
structure Rest (σ K V F : Type) where
  run : DataOp K V F → Method σ K (Result K V)
  get : K → Method σ K (Option V)
  delete : K → Method σ K Unit
  contains : K → Method σ K Bool
  keys : Method σ K (List K)
  /-- The connection of the asynchronous API. -/
  connect : Method σ K Unit

/-- `_check_open`. -/
def checkOpen (name : String) : Method σ K Unit := do
  if (← get).closed then
    throw (.runtimeError (notOpenMsg name))

/-- `_ensure_aconn`, `_ensure_aclient`. -/
def ensureAconn (name : String) (rest : Rest σ K V F) : Method σ K Unit := do
  checkOpen name
  rest.connect

/-- A check of the arguments. -/
def validate (check : Except (StoreError K) Unit) : Method σ K Unit := ExceptT.mk (pure check)

variable [LinearOrder K] (name : String) (rest : Rest σ K V F)

/-- `set(key, value, on_conflict)` is `set_many({key: value}, on_conflict)` in every store. -/
def lower : DataOp K V F → DataOp K V F
  | .set key value onConflict => .setMany (.ofList [(key, value)]) onConflict
  | op => op

/-- An operation with an empty argument, and what it returns. -/
def onEmpty : DataOp K V F → Option (Result K V)
  | .getMany keys => if keys = [] then some (.optional []) else none
  | .containsMany keys => if keys = [] then some (.flags []) else none
  | .setMany items _ => if items.entries = [] then some .none else none
  | .deleteMany keys => if keys = [] then some .none else none
  | _ => none

/-- `if not keys: return []` and its kin. -/
def unlessEmpty (op : DataOp K V F) (m : Method σ K (Result K V)) : Method σ K (Result K V) :=
  match onEmpty op with
  | some result => return result
  | none => m

/-! ### The methods -/

/-- `InMemoryStore`. -/
def inMemoryStore (op : DataOp K V F) : Method σ K (Result K V) :=
  match lower op with
  | .getMany keys => return .optional (← keys.mapM fun key => do
      checkOpen name
      rest.get key)
  | .deleteMany keys => do
    forM keys fun key => do
      checkOpen name
      rest.delete key
    return .none
  | .iterBatches batchSize => do
    validate (validateBatchSize batchSize)
    checkOpen name
    rest.run (.iterBatches batchSize)
  | op => do
    checkOpen name
    rest.run op

/-- `BaseFileStore`. -/
def fileStore (op : DataOp K V F) : Method σ K (Result K V) :=
  match lower op with
  | .getMany keys => return .optional (← keys.mapM fun key => do
      checkOpen name
      rest.get key)
  | .containsMany keys => return .flags (← keys.mapM fun key => do
      checkOpen name
      rest.contains key)
  | .deleteMany keys => do
    forM keys fun key => do
      checkOpen name
      rest.delete key
    return .none
  | .setMany items onConflict => do
    checkOpen name
    if items.entries = [] then
      return .none
    rest.run (.setMany items onConflict)
  | .filter fieldFilters => do
    -- `self.values()` consumes `iter_batches(batch_size=32)`
    validate (validateBatchSize 32)
    checkOpen name
    rest.run (.filter fieldFilters)
  | .iterBatches batchSize => do
    validate (validateBatchSize batchSize)
    checkOpen name
    rest.run (.iterBatches batchSize)
  | op => do
    checkOpen name
    rest.run op

/-- The synchronous methods of `BaseSQLiteStore` and `BasePostgresStore`. -/
def sqlStore (op : DataOp K V F) : Method σ K (Result K V) :=
  match lower op with
  | .iterBatches batchSize => do
    validate (validateBatchSize batchSize)
    checkOpen name
    rest.run (.iterBatches batchSize)
  | op => do
    checkOpen name
    unlessEmpty op (rest.run op)

/-- The asynchronous methods of `BaseSQLiteStore`. -/
def sqliteStoreAsync (aiosqlite : Bool) (op : DataOp K V F) : Method σ K (Result K V) :=
  match lower op with
  | .iterBatches batchSize => do
    validate (validateBatchSize batchSize)
    if aiosqlite then
      ensureAconn name rest
      rest.run (.iterBatches batchSize)
    else sqlStore name rest (.iterBatches batchSize)
  | op => unlessEmpty op <|
    if aiosqlite then do
      ensureAconn name rest
      rest.run op
    else sqlStore name rest op

/-- The asynchronous methods of `BasePostgresStore`. -/
def postgresStoreAsync (op : DataOp K V F) : Method σ K (Result K V) :=
  match lower op with
  | .iterBatches batchSize => do
    validate (validateBatchSize batchSize)
    ensureAconn name rest
    rest.run (.iterBatches batchSize)
  | op => unlessEmpty op do
    ensureAconn name rest
    rest.run op

/-- The keys of an operation. -/
def keysOf : DataOp K V F → List K
  | .get key | .delete key | .contains key => [key]
  | .getMany keys | .deleteMany keys | .containsMany keys => keys
  | .set key _ _ => [key]
  | .setMany items _ => items.keys
  | _ => []

/-- `_check_no_reserved_key`, `_check_no_reserved_keys`. -/
def checkNoReservedKeys (keysSet : K) (keys : List K) : Except (StoreError K) Unit :=
  if keysSet ∈ keys then .error (.valueError Redis.reservedMsg) else .ok ()

/-- The synchronous methods of `BaseRedisStore`. -/
def redisStore (keysSet : K) (op : DataOp K V F) : Method σ K (Result K V) :=
  let checked (op : DataOp K V F) : Method σ K (Result K V) := do
    checkOpen name
    unlessEmpty op do
      validate (checkNoReservedKeys keysSet (keysOf op))
      rest.run op
  match lower op with
  | .clear => do
    -- `self.delete_many(list(self.keys()))`
    checkOpen name
    let keys ← rest.keys
    checked (.deleteMany keys)
  | .filter fieldFilters => do
    checkOpen name
    validate (validateBatchSize 32)
    checkOpen name
    rest.run (.filter fieldFilters)
  | .iterBatches batchSize => do
    validate (validateBatchSize batchSize)
    checkOpen name
    rest.run (.iterBatches batchSize)
  | op => checked op

/-- The asynchronous methods of `BaseRedisStore`. -/
def redisStoreAsync (keysSet : K) (op : DataOp K V F) : Method σ K (Result K V) :=
  let checked (op : DataOp K V F) : Method σ K (Result K V) := unlessEmpty op do
    validate (checkNoReservedKeys keysSet (keysOf op))
    ensureAconn name rest
    rest.run op
  match lower op with
  | .clear => do
    -- `await self.adelete_many([key async for key in self.akeys()])`
    ensureAconn name rest
    let keys ← rest.keys
    checked (.deleteMany keys)
  | .filter fieldFilters => do
    validate (validateBatchSize 32)
    ensureAconn name rest
    rest.run (.filter fieldFilters)
  | .iterBatches batchSize => do
    validate (validateBatchSize batchSize)
    ensureAconn name rest
    rest.run (.iterBatches batchSize)
  | op => checked op

/-- The stores, with what their methods depend on: whether `aiosqlite` is there, and the reserved
key. -/
inductive Backend (K : Type)
  | inMemory
  | file
  | sqlite (aiosqlite : Bool)
  | redis (keysSet : K)
  | postgres

/-- A method of a store. `ThreadedAsyncStoreMixin` runs the synchronous method in a thread. -/
def call (backend : Backend K) (api : Api) : DataOp K V F → Method σ K (Result K V) :=
  match backend, api with
  | .inMemory, _ => inMemoryStore name rest
  | .file, _ => fileStore name rest
  | .sqlite _, .sync => sqlStore name rest
  | .sqlite aiosqlite, .async => sqliteStoreAsync name rest aiosqlite
  | .redis keysSet, .sync => redisStore name rest keysSet
  | .redis keysSet, .async => redisStoreAsync name rest keysSet
  | .postgres, .sync => sqlStore name rest
  | .postgres, .async => postgresStoreAsync name rest

/-! ### A closed store -/

/-- A batch size is valid. -/
def Valid : DataOp K V F → Prop
  | .iterBatches batchSize => 1 ≤ batchSize
  | _ => True

/-- The `RuntimeError` of a closed store. -/
def notOpen (name : String) : Except (StoreError K) (Result K V) :=
  .error (.runtimeError (notOpenMsg name))

/-- What a method returns or raises before it looks whether the store is open. -/
def early (backend : Backend K) (api : Api) (op : DataOp K V F) :
    Option (Except (StoreError K) (Result K V)) :=
  match backend, api, op with
  | .inMemory, _, .getMany _ | .inMemory, _, .deleteMany _ => (onEmpty op).map .ok
  | .file, _, .getMany _ | .file, _, .containsMany _ | .file, _, .deleteMany _ =>
    (onEmpty op).map .ok
  | .sqlite _, .async, _ | .postgres, .async, _ => (onEmpty op).map .ok
  | .redis keysSet, .async, _ =>
    match onEmpty op with
    | some result => some (.ok result)
    | none =>
      if keysSet ∈ keysOf op then some (.error (.valueError Redis.reservedMsg)) else none
  | _, _, _ => none

variable {name rest} {s : Closable σ} {op : DataOp K V F}

omit [LinearOrder K] in
@[simp] theorem exec_pure (x : X) (s : Closable σ) : exec (pure x : Method σ K X) s = (.ok x, s) :=
  rfl

omit [LinearOrder K] in
theorem exec_checkOpen_bind (hs : s.closed = true) (f : Unit → Method σ K X) :
    exec (checkOpen name >>= f) s = (.error (.runtimeError (notOpenMsg name)), s) := by
  obtain ⟨closed, inner⟩ := s
  obtain rfl : closed = true := hs
  rfl

omit [LinearOrder K] in
theorem exec_ensureAconn_bind (hs : s.closed = true) (f : Unit → Method σ K X) :
    exec (ensureAconn name rest >>= f) s = (.error (.runtimeError (notOpenMsg name)), s) := by
  rw [ensureAconn, bind_assoc]
  exact exec_checkOpen_bind hs _

omit [LinearOrder K] in
/-- The methods with a batch size check it before the store. -/
theorem exec_validate_bind {batchSize : ℤ} (hb : 1 ≤ batchSize) {m : Method σ K X}
    {r : Except (StoreError K) X × Closable σ} (hm : exec m s = r) :
    exec (validate (validateBatchSize batchSize) >>= fun _ => m) s = r := by
  rw [validateBatchSize, if_neg (by omega)]
  exact hm

section Loops

variable {Y : Type}

omit [LinearOrder K] in
/-- A loop over a method with a check raises at its first key. -/
theorem exec_mapM_bind (hs : s.closed = true) (f : K → Method σ K Y) (key : K) (keys : List K)
    (g : List Y → Method σ K X) :
    exec ((key :: keys).mapM (fun key => checkOpen name >>= fun _ => f key) >>= g) s =
      (.error (.runtimeError (notOpenMsg name)), s) := by
  rw [List.mapM_cons, bind_assoc, bind_assoc]
  exact exec_checkOpen_bind hs _

omit [LinearOrder K] in
theorem exec_forM_bind (hs : s.closed = true) (f : K → Method σ K Unit) (key : K) (keys : List K)
    (g : PUnit → Method σ K X) :
    exec (forM (key :: keys) (fun key => checkOpen name >>= fun _ => f key) >>= g) s =
      (.error (.runtimeError (notOpenMsg name)), s) := by
  rw [List.forM_cons, bind_assoc, bind_assoc]
  exact exec_checkOpen_bind hs _

end Loops

/-! ### One method at a time -/

theorem exec_inMemoryStore (hs : s.closed = true) (hop : Valid op) (api : Api) :
    exec (inMemoryStore name rest op) s = ((early .inMemory api op).getD (notOpen name), s) := by
  cases op with
  | getMany keys =>
    cases keys with
    | nil => rfl
    | cons key keys => exact exec_mapM_bind hs _ key keys _
  | deleteMany keys =>
    cases keys with
    | nil => rfl
    | cons key keys => exact exec_forM_bind hs _ key keys _
  | iterBatches batchSize => exact exec_validate_bind hop (exec_checkOpen_bind hs _)
  | get | set | setMany | delete | clear | contains | containsMany | count | filter | keys =>
    exact exec_checkOpen_bind hs _

theorem exec_fileStore (hs : s.closed = true) (hop : Valid op) (api : Api) :
    exec (fileStore name rest op) s = ((early .file api op).getD (notOpen name), s) := by
  cases op with
  | getMany keys =>
    cases keys with
    | nil => rfl
    | cons key keys => exact exec_mapM_bind hs _ key keys _
  | containsMany keys =>
    cases keys with
    | nil => rfl
    | cons key keys => exact exec_mapM_bind hs _ key keys _
  | deleteMany keys =>
    cases keys with
    | nil => rfl
    | cons key keys => exact exec_forM_bind hs _ key keys _
  | iterBatches batchSize => exact exec_validate_bind hop (exec_checkOpen_bind hs _)
  | filter => exact exec_validate_bind (by decide) (exec_checkOpen_bind hs _)
  | get | set | setMany | delete | clear | contains | count | keys =>
    exact exec_checkOpen_bind hs _

theorem exec_sqlStore (hs : s.closed = true) (hop : Valid op) :
    exec (sqlStore name rest op) s = (notOpen name, s) := by
  cases op with
  | iterBatches batchSize => exact exec_validate_bind hop (exec_checkOpen_bind hs _)
  | get | getMany | set | setMany | delete | deleteMany | clear | contains | containsMany | count
  | filter | keys => exact exec_checkOpen_bind hs _

theorem exec_redisStore (hs : s.closed = true) (hop : Valid op) (keysSet : K) :
    exec (redisStore name rest keysSet op) s = (notOpen name, s) := by
  cases op with
  | iterBatches batchSize => exact exec_validate_bind hop (exec_checkOpen_bind hs _)
  | get | getMany | set | setMany | delete | deleteMany | clear | contains | containsMany | count
  | filter | keys => exact exec_checkOpen_bind hs _

/-- An operation and its arguments are the same when `set` is lowered. -/
theorem onEmpty_lower (op : DataOp K V F) : onEmpty (lower op) = onEmpty op := by
  cases op with
  | set key value onConflict =>
    have hne : (Dict.ofList [(key, value)]).entries ≠ [] := List.cons_ne_nil (key, value) []
    rw [lower, onEmpty, if_neg hne]
    rfl
  | _ => rfl

theorem keysOf_lower (op : DataOp K V F) : keysOf (lower op) = keysOf op := by
  cases op
  all_goals rfl

omit [LinearOrder K] in
/-- An asynchronous method with an early return. -/
theorem exec_unlessEmpty (op : DataOp K V F) {m : Method σ K (Result K V)}
    (hm : exec m s = (notOpen name, s)) :
    exec (unlessEmpty op m) s = (((onEmpty op).map .ok).getD (notOpen name), s) := by
  rw [unlessEmpty]
  cases onEmpty op with
  | some result => rfl
  | none => exact hm

theorem exec_sqliteStoreAsync (hs : s.closed = true) (hop : Valid op) (aiosqlite : Bool) :
    exec (sqliteStoreAsync name rest aiosqlite op) s =
      (((onEmpty op).map .ok).getD (notOpen name), s) := by
  have hrest : ∀ op : DataOp K V F, Valid op →
      exec (if aiosqlite then do
        ensureAconn name rest
        rest.run op
      else sqlStore name rest op) s = (notOpen name, s) := by
    intro op hop
    cases aiosqlite with
    | true => exact exec_ensureAconn_bind hs _
    | false => exact exec_sqlStore hs hop
  have hvalid : Valid (lower op) := by
    cases op
    all_goals exact hop
  have hempty := exec_unlessEmpty (lower op) (hrest (lower op) hvalid)
  rw [onEmpty_lower] at hempty
  cases op with
  | iterBatches batchSize => exact exec_validate_bind hop (hrest (.iterBatches batchSize) hop)
  | get | getMany | set | setMany | delete | deleteMany | clear | contains | containsMany | count
  | filter | keys => exact hempty

theorem exec_postgresStoreAsync (hs : s.closed = true) (hop : Valid op) :
    exec (postgresStoreAsync name rest op) s =
      (((onEmpty op).map .ok).getD (notOpen name), s) := by
  have hrest : exec (ensureAconn name rest >>= fun _ => rest.run (lower op)) s =
      (notOpen name, s) := exec_ensureAconn_bind hs _
  have hempty := exec_unlessEmpty (lower op) hrest
  rw [onEmpty_lower] at hempty
  cases op with
  | iterBatches batchSize => exact exec_validate_bind hop (exec_ensureAconn_bind hs _)
  | get | getMany | set | setMany | delete | deleteMany | clear | contains | containsMany | count
  | filter | keys => exact hempty

variable (name rest) in
/-- An asynchronous method of a Redis store with its two checks. -/
theorem exec_reserved (hs : s.closed = true) (keysSet : K) (op : DataOp K V F) :
    exec (unlessEmpty op do
      validate (checkNoReservedKeys keysSet (keysOf op))
      ensureAconn name rest
      rest.run op) s = ((early (.redis keysSet) .async op).getD (notOpen name), s) := by
  rw [early, unlessEmpty]
  cases onEmpty op with
  | some result => rfl
  | none =>
    simp only [checkNoReservedKeys]
    by_cases hk : keysSet ∈ keysOf op
    · rw [if_pos hk, if_pos hk]
      rfl
    · rw [if_neg hk, if_neg hk]
      exact exec_ensureAconn_bind hs _

theorem exec_redisStoreAsync (hs : s.closed = true) (hop : Valid op) (keysSet : K) :
    exec (redisStoreAsync name rest keysSet op) s =
      ((early (.redis keysSet) .async op).getD (notOpen name), s) := by
  have hlower : early (.redis keysSet) .async (lower op) = early (.redis keysSet) .async op := by
    rw [early, early, onEmpty_lower, keysOf_lower]
  have hreserved := exec_reserved name rest hs keysSet (lower op)
  rw [hlower] at hreserved
  cases op with
  | iterBatches batchSize => exact exec_validate_bind hop (exec_ensureAconn_bind hs _)
  | filter fieldFilters => exact exec_validate_bind (by decide) (exec_ensureAconn_bind hs _)
  | clear => exact exec_ensureAconn_bind hs _
  | get | getMany | set | setMany | delete | deleteMany | contains | containsMany | count | keys =>
    exact hreserved

/-- **A method of a closed store** does what it does before the check, or is refused. -/
theorem call_of_closed (hs : s.closed = true) (hop : Valid op) (backend : Backend K) (api : Api) :
    exec (call name rest backend api op) s = ((early backend api op).getD (notOpen name), s) := by
  cases backend with
  | inMemory => exact exec_inMemoryStore hs hop api
  | file => exact exec_fileStore hs hop api
  | sqlite aiosqlite =>
    cases api with
    | sync => exact exec_sqlStore hs hop
    | async => exact exec_sqliteStoreAsync hs hop aiosqlite
  | redis keysSet =>
    cases api with
    | sync => exact exec_redisStore hs hop keysSet
    | async => exact exec_redisStoreAsync hs hop keysSet
  | postgres =>
    cases api with
    | sync => exact exec_sqlStore hs hop
    | async => exact exec_postgresStoreAsync hs hop

/-! ### The short cuts -/

/-- No keys, no items. -/
def EmptyArgument : DataOp K V F → Prop
  | .getMany keys | .deleteMany keys | .containsMany keys => keys = []
  | .setMany items _ => items.entries = []
  | _ => False

/-- The arguments with which a method never looks whether the store is open. -/
def ShortCut (backend : Backend K) (api : Api) (op : DataOp K V F) : Prop :=
  match backend, api with
  | .inMemory, _ => op = .getMany [] ∨ op = .deleteMany []
  | .file, _ => op = .getMany [] ∨ op = .containsMany [] ∨ op = .deleteMany []
  | .sqlite _, .async | .postgres, .async => EmptyArgument op
  | .redis keysSet, .async => EmptyArgument op ∨ keysSet ∈ keysOf op
  | .sqlite _, .sync | .redis _, .sync | .postgres, .sync => False

omit [LinearOrder K] in
theorem onEmpty_eq_none_iff {op : DataOp K V F} : onEmpty op = none ↔ ¬ EmptyArgument op := by
  cases op with
  | getMany | setMany | deleteMany | containsMany => simp [onEmpty, EmptyArgument]
  | get | set | delete | clear | contains | count | filter | keys | iterBatches =>
    simp [onEmpty, EmptyArgument]

theorem early_eq_none_iff (backend : Backend K) (api : Api) (op : DataOp K V F) :
    early backend api op = none ↔ ¬ ShortCut backend api op := by
  cases backend with
  | inMemory =>
    cases op
    all_goals simp [early, ShortCut, onEmpty_eq_none_iff, EmptyArgument]
  | file =>
    cases op
    all_goals simp [early, ShortCut, onEmpty_eq_none_iff, EmptyArgument]
  | sqlite aiosqlite =>
    cases api with
    | sync => simp [early, ShortCut]
    | async => simp [early, ShortCut, onEmpty_eq_none_iff]
  | redis keysSet =>
    cases api with
    | sync => simp [early, ShortCut]
    | async =>
      rw [early, ShortCut, not_or, ← onEmpty_eq_none_iff]
      cases onEmpty op with
      | some result => simp
      | none => simp
  | postgres =>
    cases api with
    | sync => simp [early, ShortCut]
    | async => simp [early, ShortCut, onEmpty_eq_none_iff]

variable (name) in
/-- What a method returns or raises early is not the refusal. -/
theorem ne_notOpen_of_early {backend : Backend K} {api : Api}
    {r : Except (StoreError K) (Result K V)} (h : early backend api op = some r) :
    r ≠ notOpen name := by
  have hok : ∀ {o : Option (Result K V)}, o.map Except.ok = some r → r ≠ notOpen name := by
    rintro (_ | result) ho
    · cases ho
    · rw [← Option.some.inj ho]
      nofun
  cases backend with
  | redis keysSet =>
    cases api with
    | sync => cases h
    | async =>
      rw [early] at h
      cases hempty : onEmpty op with
      | some result =>
        rw [hempty] at h
        exact hok (o := some result) h
      | none =>
        simp only [hempty, Option.ite_none_right_eq_some, Option.some.injEq] at h
        rw [← h.2]
        nofun
  | inMemory | file | sqlite | postgres =>
    cases api
    all_goals
      cases op
      all_goals first
        | exact hok h
        | cases h

variable (name rest) in
/-- **The methods of a closed store.** A method raises `RuntimeError` and changes nothing exactly
when its arguments take no short cut; with a short cut it changes nothing either. The twins agree
where both of them or neither takes one. -/
theorem refused_iff (backend : Backend K) {s : Closable σ} (hs : s.closed = true)
    {op : DataOp K V F} (hop : Valid op) :
    (∀ api, exec (call name rest backend api op) s = (notOpen name, s) ↔
      ¬ ShortCut backend api op) ∧
    (∀ api, (exec (call name rest backend api op) s).2 = s) ∧
    ((exec (call name rest backend .sync op) s = (notOpen name, s) ↔
        exec (call name rest backend .async op) s = (notOpen name, s)) ↔
      (ShortCut backend .sync op ↔ ShortCut backend .async op)) := by
  have hiff : ∀ api, exec (call name rest backend api op) s = (notOpen name, s) ↔
      ¬ ShortCut backend api op := by
    intro api
    rw [call_of_closed hs hop, ← early_eq_none_iff, Prod.mk.injEq]
    cases hearly : early backend api op with
    | none => simp
    | some r => simp [ne_notOpen_of_early name hearly]
  refine ⟨hiff, fun api => ?_, ?_⟩
  · rw [call_of_closed hs hop]
  · rw [hiff, hiff]
    exact not_iff_not

/-- Methods that do nothing more. -/
def idle : Rest Unit String ℕ Unit where
  run _ := return .none
  get _ := return none
  delete _ := return ()
  contains _ := return false
  keys := return []
  connect := return ()

/-- `get("a")` and `aget("a")` on a closed Postgres store. -/
theorem refused_iff_get :
    exec (call "PostgresStore" idle .postgres .sync (.get "a")) ⟨true, ()⟩ =
        (notOpen "PostgresStore", ⟨true, ()⟩) ∧
      exec (call "PostgresStore" idle .postgres .async (.get "a")) ⟨true, ()⟩ =
        (notOpen "PostgresStore", ⟨true, ()⟩) := by
  have hvalid : Valid (.get "a" : DataOp String ℕ Unit) := trivial
  have hclosed : (⟨true, ()⟩ : Closable Unit).closed = true := rfl
  obtain ⟨hrefused, -⟩ := refused_iff "PostgresStore" idle .postgres hclosed hvalid
  constructor
  · exact (hrefused .sync).mpr id
  · exact (hrefused .async).mpr id

/-- **Closed stores that answer.** `get_many([])` of an in-memory store returns a list, and so do
`aget_many([])` of a SQLite store, whose `get_many([])` raises, and `contains_many([])` of a file
store; `aget` of a Redis store raises `ValueError` for the reserved key. -/
theorem closed_store_answers :
    ¬ exec (call "InMemoryStore" idle .inMemory .sync (.getMany [])) ⟨true, ()⟩ =
      (notOpen "InMemoryStore", ⟨true, ()⟩) ∧
    exec (call "InMemoryStore" idle .inMemory .sync (.getMany [])) ⟨true, ()⟩ =
      (.ok (.optional []), ⟨true, ()⟩) ∧
    exec (call "JsonFileStore" idle .file .sync (.containsMany [])) ⟨true, ()⟩ =
      (.ok (.flags []), ⟨true, ()⟩) ∧
    exec (call "SQLiteStore" idle (.sqlite true) .sync (.getMany [])) ⟨true, ()⟩ =
      (notOpen "SQLiteStore", ⟨true, ()⟩) ∧
    exec (call "SQLiteStore" idle (.sqlite true) .async (.getMany [])) ⟨true, ()⟩ =
      (.ok (.optional []), ⟨true, ()⟩) ∧
    exec (call "RedisStore" idle (.redis "__keys__") .async (.get "__keys__")) ⟨true, ()⟩ =
      (.error (.valueError Redis.reservedMsg), ⟨true, ()⟩) := by
  refine ⟨fun h => ?_, rfl, rfl, rfl, rfl, rfl⟩
  cases congrArg Prod.fst h

end OpenCheck

end Persista
