import Persista.Store.Redis
import Persista.Store.Lmdb

/-!
# A batch that fails to encode

`store/redis.py`, one `set_many` or `aset_many` with an encoder that may raise. The items are
encoded while their SETs are queued, so an encoder that raises at the third item leaves two commands
in the pipeline; and with `raise`, `skip` and `merge` this can happen in any iteration of the retry
loop, after any number of EXECs that were refused.

The queue is therefore part of the state here, with one turn per queued item. Between the turns of
the call the other clients run what they like. What the call must leave behind when it raises is the
database that these others make on their own, `replayOthers`.

## Main results

* `Redis.Batch.db_of_not_ok` — a call that has not succeeded has not touched the database
* `Redis.failed_setMany_leaves_no_trace` — the same for a call that raised, and for LMDB
* `Redis.Batch.play_queueing` — with an encoder that does not raise the queue is `writeBlock`
-/

namespace Persista

namespace Redis

open Interleaving

/-- `set_many` or `aset_many`. -/
inductive Api
  | sync
  | async
  deriving DecidableEq

namespace Batch

/-- Where the call is. -/
inductive Phase (K V E : Type)
  | start
  /-- At the top of the `while` loop: WATCH is next. -/
  | watch
  /-- `contains_many` is next. -/
  | watched
  /-- In the loop of `resolve_conflicts`; MULTI is next when no item is left. -/
  | resolving (conflicts : List K) (todo : List (K × V)) (toWrite : Dict K V)
  /-- In the loop that queues the SETs of `values`; EXEC is next when no item is left. -/
  | queueing (values : Dict K V) (todo : List (K × V))
  | done (outcome : Except (WriteError K E) Unit)

/-- The database and the call: where it is, the commands queued in its pipeline, what the pipeline
watches, and whether a watched key was modified. -/
structure Session (K V R E : Type) where
  db : Keyspace K R
  phase : Phase K V E
  pipe : List (Command K R)
  watching : List K
  dirty : Bool

/-- Who runs next: the call, or another client with a MULTI block. -/
inductive Turn (K R : Type)
  | own
  | other (block : List (Command K R))

/-- The call: the API, whether the store is closed, and the arguments. -/
structure Call (K V : Type) where
  api : Api
  closed : Bool
  items : Dict K V
  onConflict : OnConflict

variable {K V R E : Type} [LinearOrder K]

/-- The call is over; leaving the `with` block drops the watches. -/
def Session.finished (s : Session K V R E) (outcome : Except (WriteError K E) Unit) :
    Session K V R E :=
  { s with phase := .done outcome, watching := [], dirty := false }

/-- What the call does before its first command. The two APIs check that the store is open at
different places. -/
def Call.start (keysSet : K) (call : Call K V) (s : Session K V R E) : Session K V R E :=
  let notOpen := s.finished (.error (.store (.runtimeError (notOpenMsg "RedisStore"))))
  if call.api = .sync ∧ call.closed then notOpen
  else if call.items.entries = [] then s.finished (.ok ())
  else if keysSet ∈ call.items.keys then s.finished (.error (.store (.valueError reservedMsg)))
  else if call.closed then notOpen
  else if call.onConflict = .overwrite then
    { s with phase := .queueing call.items call.items.entries, pipe := [] }
  else { s with phase := .watch }

/-- `pipe.sadd(_KEYS_SET, *to_write.keys())`, when there is something to write. -/
def saddOf (keysSet : K) (values : Dict K V) : List (Command K R) :=
  if values.entries = [] then [] else [.sadd keysSet values.keys]

/-- The next turn of the call, or of another client. -/
def step [ShallowMerge V] (codec : Codec V R E) (keysSet : K) (call : Call K V)
    (s : Session K V R E) : Turn K R → Option (Session K V R E)
  | .other block => some { s with
      db := execBlock s.db block
      dirty := s.dirty || s.watching.any (blockModifies s.db block) }
  | .own =>
    match s.phase with
    | .start => some (call.start keysSet s)
    | .watch => some { s with phase := .watched, watching := call.items.keys, dirty := false }
    | .watched =>
      let found := call.items.keys.map fun k => decide (k ∈ members s.db keysSet)
      let conflicts := conflictsOf call.items.keys found
      if conflicts ≠ [] ∧ call.onConflict = .raise then
        some (s.finished (.error (.store (.keyError (sorted conflicts)))))
      else some { s with phase := .resolving conflicts call.items.entries ∅ }
    | .resolving conflicts (item :: todo) toWrite =>
      let get := fun k => (getString s.db k).map codec.decode
      let toWrite := resolveItem conflicts call.onConflict get toWrite item
      some { s with phase := .resolving conflicts todo toWrite }
    | .resolving _ [] toWrite =>
      some { s with phase := .queueing toWrite toWrite.entries, pipe := [] }
    | .queueing values ((key, value) :: todo) =>
      match codec.encode value with
      | .error e => some (s.finished (.error (.encode e)))
      | .ok raw =>
        some { s with phase := .queueing values todo, pipe := s.pipe ++ [.set key raw] }
    | .queueing values [] =>
      -- EXEC of a dirty connection raises `WatchError` and drops the queue
      if s.dirty then some { s with phase := .watch, pipe := [], watching := [], dirty := false }
      else some ({ s with
        db := execBlock s.db (s.pipe ++ saddOf keysSet values) }.finished (.ok ()))
    | .done _ => none

/-- The call is about to start. -/
def init (db : Keyspace K R) : Session K V R E := ⟨db, .start, [], [], false⟩

/-- The database as the other clients alone make it. -/
def replayOthers (db : Keyspace K R) : List (Turn K R) → Keyspace K R
  | [] => db
  | .own :: turns => replayOthers db turns
  | .other block :: turns => replayOthers (execBlock db block) turns

/-! ### What a turn does to the database -/

section Turns

variable [ShallowMerge V] {codec : Codec V R E} {keysSet : K} {call : Call K V}
  {s s' : Session K V R E} {turns : List (Turn K R)}

omit [ShallowMerge V] in
theorem db_start (keysSet : K) (call : Call K V) (s : Session K V R E) :
    (call.start keysSet s).db = s.db := by
  rw [Call.start]
  split_ifs <;> rfl

/-- A turn of the call changes the database only if the call succeeds with it. -/
theorem db_of_own (h : step codec keysSet call s .own = some s') :
    s'.db = s.db ∨ s'.phase = .done (.ok ()) := by
  obtain ⟨db, phase, pipe, watching, dirty⟩ := s
  cases phase with
  | start =>
    cases h
    exact .inl (db_start keysSet call _)
  | watch =>
    cases h
    exact .inl rfl
  | watched =>
    simp only [step] at h
    split at h <;> cases h <;> exact .inl rfl
  | resolving conflicts todo toWrite => cases todo <;> cases h <;> exact .inl rfl
  | queueing values todo =>
    cases todo with
    | nil =>
      simp only [step] at h
      split at h <;> cases h
      · exact .inl rfl
      · exact .inr rfl
    | cons item todo =>
      simp only [step] at h
      split at h <;> cases h <;> exact .inl rfl
  | done outcome => cases h

/-- A call that is over stays so. -/
theorem phase_of_done {outcome : Except (WriteError K E) Unit} (h : s.phase = .done outcome)
    (hp : play (step codec keysSet call) s turns = some s') : s'.phase = .done outcome := by
  induction turns generalizing s with
  | nil =>
    cases hp
    exact h
  | cons turn turns ih =>
    rw [play, List.foldlM_cons] at hp
    obtain ⟨t, ht, hp⟩ := Option.bind_eq_some_iff.mp hp
    refine ih ?_ hp
    cases turn with
    | own =>
      simp only [step, h] at ht
      cases ht
    | other block =>
      cases ht
      exact h

/-- **A call that has not succeeded has not touched the database.** -/
theorem db_of_not_ok (hp : play (step codec keysSet call) s turns = some s')
    (h : s'.phase ≠ .done (.ok ())) : s'.db = replayOthers s.db turns := by
  induction turns generalizing s with
  | nil =>
    cases hp
    rfl
  | cons turn turns ih =>
    rw [play, List.foldlM_cons] at hp
    obtain ⟨t, ht, hrun⟩ := Option.bind_eq_some_iff.mp hp
    have hrest := ih hrun
    cases turn with
    | own =>
      rcases db_of_own ht with hdb | hok
      · rw [hdb] at hrest
        exact hrest
      · exact absurd (phase_of_done hok hrun) h
    | other block =>
      cases ht
      exact hrest

/-! ### The queue -/

/-- With an encoder that does not raise and nobody interrupting, the loop queues the SETs of all
items, and EXEC runs the block `writeBlock`. -/
theorem play_queueing {layout : Layout V R} {values : Dict K V} {todo : List (K × V)}
    (hcodec : codec.encode = fun value => .ok (layout.valueToRow value))
    (hs : s.phase = .queueing values todo) (hd : s.dirty = false) :
    ∃ s', play (step codec keysSet call) s (List.replicate (todo.length + 1) .own) = some s' ∧
      s'.phase = .done (.ok ()) ∧
      s'.db = execBlock s.db (s.pipe ++
        (todo.map fun item => .set item.1 (layout.valueToRow item.2)) ++
          saddOf keysSet values) := by
  induction todo generalizing s with
  | nil =>
    refine ⟨{ s with db := execBlock s.db (s.pipe ++ saddOf keysSet values) }.finished (.ok ()),
      ?_, rfl, ?_⟩
    · simp only [List.length_nil, List.replicate, play, List.foldlM_cons, step, hs, hd]
      rfl
    · rw [List.map_nil, List.append_nil]
      rfl
  | cons item todo ih =>
    obtain ⟨key, value⟩ := item
    obtain ⟨s', hp, hdone, hdb⟩ := ih (s := { s with
      phase := .queueing values todo
      pipe := s.pipe ++ [.set key (layout.valueToRow value)] }) rfl hd
    refine ⟨s', ?_, hdone, ?_⟩
    · rw [List.length_cons, List.replicate_succ, play, List.foldlM_cons]
      simp only [step, hs, hcodec]
      exact hp
    · rw [hdb, List.map_cons, List.append_assoc s.pipe]
      rfl

end Turns

end Batch

/-- **Batches are all-or-nothing.** An LMDB `set_many` that raises leaves the store as it was, and a
Redis `set_many` or `aset_many` that raises leaves the database, the strings and the set of keys, as
the other clients alone would have made it. -/
theorem failed_setMany_leaves_no_trace {K V R E : Type} [LinearOrder K] [ShallowMerge V]
    (codec : Codec V R E) (items : Dict K V) (onConflict : OnConflict) :
    (∀ (s : LmdbStore K R) (e : WriteError K E),
      (s.setMany codec items onConflict).1 = .error e →
        (s.setMany codec items onConflict).2 = s) ∧
    ∀ (api : Api) (closed : Bool) (keysSet : K) (db : Keyspace K R)
      (turns : List (Batch.Turn K R)) (s : Batch.Session K V R E) (e : WriteError K E),
      play (Batch.step codec keysSet ⟨api, closed, items, onConflict⟩) (Batch.init db) turns =
        some s →
      s.phase = .done (.error e) →
        s.db = Batch.replayOthers db turns := by
  refine ⟨fun s e h => LmdbStore.snd_setMany_of_error h, ?_⟩
  intro api closed keysSet db turns s e hp hs
  refine Batch.db_of_not_ok hp ?_
  rw [hs]
  simp

namespace Batch

/-- An encoder that does not accept the empty value. -/
def nonemptyCodec : Codec (Dict ℕ ℕ) (Dict ℕ ℕ) Unit where
  encode value := if value.entries = [] then .error () else .ok value
  decode := id

/-- Key `2` holds `{9: 9}`; the reserved key is `0`. -/
def nineAtTwo : Keyspace ℕ (Dict ℕ ℕ) := fun key =>
  if key = 2 then some (.string (Dict.ofList [(9, 9)])) else if key = 0 then ofMembers {2} else none

/-- `{1: {1: 1}, 2: {}}`. -/
def emptyAtTwo : Dict ℕ (Dict ℕ ℕ) := Dict.ofList [(1, Dict.ofList [(1, 1)]), (2, ∅)]

/-- The first EXEC is refused because another client deleted the key `2`. -/
def deletedMeanwhile : List (Turn ℕ (Dict ℕ ℕ)) :=
  List.replicate 8 .own ++ [.other (deleteBlock 0 [2])] ++ List.replicate 8 .own

/-- Without its old value, the second item has nothing to encode: the Redis call raises in its
second iteration with one SET queued, the LMDB call with one item put, and neither has written
key `1`. -/
theorem failed_merge_leaves_no_trace :
    (∃ s : Session ℕ (Dict ℕ ℕ) (Dict ℕ ℕ) Unit,
      play (step nonemptyCodec 0 ⟨.sync, false, emptyAtTwo, .merge⟩) (init nineAtTwo)
        deletedMeanwhile = some s ∧
      s.phase = .done (.error (.encode ())) ∧
      s.db = replayOthers nineAtTwo deletedMeanwhile) ∧
    (LmdbStore.stored.setMany nonemptyCodec emptyAtTwo .merge).1 = .error (.encode ()) ∧
    (LmdbStore.stored.setMany nonemptyCodec emptyAtTwo .merge).2 = LmdbStore.stored := by
  have h := failed_setMany_leaves_no_trace nonemptyCodec emptyAtTwo .merge
  refine ⟨⟨_, rfl, rfl, ?_⟩, rfl, h.1 _ _ rfl⟩
  exact h.2 .sync false 0 nineAtTwo deletedMeanwhile _ _ rfl rfl

end Batch

end Redis

end Persista
