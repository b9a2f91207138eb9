import Persista.Lib.Snapshot
import Persista.Store.Lmdb
import Persista.Store.Paging
import Persista.Store.RedisInvariant

/-!
# `iter_batches` of the LMDB and Redis stores

Neither store can page: LMDB has no offsets and a Redis set has no order. Their `iter_batches` read
the whole list of keys first, cut it with `batchify` and read each batch when it is asked for, LMDB
in a read transaction of its own, Redis with one MGET. Both are iterations over a snapshot of the
keys, and what is left to say of them is that they list what they read.

An LMDB environment is one sorted map and lists its own keys. A Redis store lists the members of the
set under the reserved key and reads the strings under them, so its listing is right because the two
halves of the database agree, whatever commands the other clients are in the middle of.

`aiter_batches` of the LMDB stores pulls the same generator from a thread, and that of the Redis
stores awaits the same commands.

## Main results

* `LmdbStore.get?_exec` — the environment after a call
* `key_snapshot_iteration` — the law of both iterations
-/

namespace Persista

open Interleaving

variable {K V R E : Type} [LinearOrder K]

namespace LmdbStore

/-! ### The environment -/

variable (codec : Codec V R E)

/-- The environment when a transaction has committed that changed some keys. -/
def commit (env : Dict K R) (keys : List K) (txn : Contents K R) : Dict K R :=
  keys.foldl (fun env key =>
    match txn key with
    | some raw => env.set key raw
    | none => env.erase key) env

/-- A write call on the environment of an open store. -/
def exec [ShallowMerge V] (env : Dict K R) : StoreOp K V → Dict K R
  | .set key value onConflict =>
    commit env [key] (setMany codec ⟨env.get?, false⟩ (.ofList [(key, value)]) onConflict).2.env
  | .setMany items onConflict =>
    commit env items.keys (setMany codec ⟨env.get?, false⟩ items onConflict).2.env
  | .delete key => env.erase key
  | .deleteMany keys => keys.foldl Dict.erase env
  | .clear => ∅

/-- The reads of `iter_batches`: the keys of the cursor, in their order, and `txn.get`. -/
def source : Snapshot.Source (Dict K R) K V where
  list env := (Table.orderByKey env).keys
  read env key := (env.get? key).map codec.decode

theorem get?_commit {env : Dict K R} {keys : List K} {txn : Contents K R}
    (h : ∀ k, k ∉ keys → txn k = env.get? k) : (commit env keys txn).get? = txn := by
  induction keys generalizing env with
  | nil =>
    funext k
    exact (h k List.not_mem_nil).symm
  | cons key keys ih =>
    refine ih fun k hk => ?_
    by_cases hkey : k = key
    · subst hkey
      cases htxn : txn k with
      | none => simp only [htxn, Dict.get?_erase, if_true]
      | some raw => simp only [htxn, Dict.get?_set, if_true]
    · have hother := h k fun hmem => (List.mem_cons.mp hmem).elim hkey hk
      rw [hother]
      cases hkeyTxn : txn key with
      | none => simp only [hkeyTxn, Dict.get?_erase, if_neg hkey]
      | some raw => simp only [hkeyTxn, Dict.get?_set, if_neg hkey]

/-- A call leaves the keys that are not its own. -/
theorem env_setMany_frame [ShallowMerge V] (env : Contents K R) (items : Dict K V)
    (onConflict : OnConflict) {k : K} (hk : k ∉ items.keys) :
    (setMany codec ⟨env, false⟩ items onConflict).2.env k = env k := by
  by_cases ho : onConflict = .overwrite
  · rw [setMany]
    simp only [checkOpen, Bool.false_eq_true, if_false, if_pos ho]
    split
    · rfl
    · exact env_writeItems_of_not_mem hk
  · exact env_setMany_of_not_mem codec rfl ho hk

/-- **The environment after a call** holds what the call leaves. -/
theorem get?_exec [ShallowMerge V] (env : Dict K R) (op : StoreOp K V) :
    (exec codec env op).get? =
      match op with
      | .set key value onConflict =>
        (setMany codec ⟨env.get?, false⟩ (.ofList [(key, value)]) onConflict).2.env
      | .setMany items onConflict => (setMany codec ⟨env.get?, false⟩ items onConflict).2.env
      | .delete key => Contents.delete env.get? [key]
      | .deleteMany keys => Contents.delete env.get? keys
      | .clear => fun _ => none := by
  cases op with
  | set key value onConflict =>
    exact get?_commit fun k hk => env_setMany_frame codec env.get? (.ofList [(key, value)]) _ hk
  | setMany items onConflict =>
    exact get?_commit fun k hk => env_setMany_frame codec env.get? items onConflict hk
  | delete key =>
    funext k
    show (env.erase key).get? k = if k ∈ [key] then none else env.get? k
    simp only [Dict.get?_erase, List.mem_singleton]
  | deleteMany keys =>
    funext k
    show (keys.foldl Dict.erase env).get? k = if k ∈ keys then none else env.get? k
    rw [Dict.foldl_erase, Dict.get?_filterKeys]
    by_cases hk : k ∈ keys
    · simp [hk]
    · simp [hk]
  | clear => rfl

/-- A turn of an iteration over the environment. -/
def turn [ShallowMerge V] (batchify : Snapshot.Cutting K) (batchSize : ℕ) :
    Snapshot.Iteration (Dict K R) K V → Snapshot.Turn (StoreOp K V) →
      Option (Snapshot.Iteration (Dict K R) K V) :=
  Snapshot.step (fun env op => some (exec codec env op)) (source codec) batchify batchSize

theorem source_lists (env : Dict K R) : (source codec).Lists env where
  nodup := (Table.orderByKey env).nodup
  mem_iff k := by
    rw [source, Option.isSome_map, Dict.isSome_get?_iff]
    exact Table.mem_keys_orderByKey

end LmdbStore

namespace Redis

/-! ### The keyspace -/

/-- In which order SMEMBERS answers. -/
structure Smembers (K : Type) where
  /-- The answer for a set. -/
  run : Finset K → List K
  nodup (s : Finset K) : (run s).Nodup
  mem_iff (s : Finset K) (k : K) : k ∈ run s ↔ k ∈ s

variable {ι κ : Type} (layout : Layout V R) (keysSet : K) (smembers : Smembers K)

/-- The reads of `iter_batches`: `SMEMBERS __keys__`, and MGET. -/
def source : Snapshot.Source (Network ι κ K V R) K V where
  list n := smembers.run (members n.system.db keysSet)
  read n key := (getString n.system.db key).map layout.rowToValue

variable {keysSet} in
theorem source_lists {calls : ι → Call K V} {n : Network ι κ K V R}
    (h : Network.Inv keysSet calls n) : (source layout keysSet smembers).Lists n where
  nodup := smembers.nodup _
  mem_iff k := by
    rw [source, smembers.mem_iff, h.consistent.mem_iff, contents_eq_getString h.consistent.keys,
      Option.isSome_map]

end Redis

/-! ### The law -/

/-- **Key-snapshot iteration.** On LMDB from every environment, between the write calls of any
clients, and on Redis from every reachable database, between the commands of any clients, an
iteration yields a key that is there from before its first turn until it is exhausted exactly once,
yields no key twice and no batch that is too long, yields what the store holds when the batch is
read, and does not yield a key that is deleted before and not added again. -/
theorem key_snapshot_iteration [ShallowMerge V] {ι κ : Type} [DecidableEq ι] [DecidableEq κ]
    (codec : Codec V R E) (layout : Layout V R) (keysSet : K) (calls : ι → Redis.Call K V)
    (smembers : Redis.Smembers K) (batchify : Snapshot.Cutting K) {batchSize : ℕ}
    (hb : 1 ≤ batchSize) :
    (∀ env : Dict K R, Snapshot.Law (fun env op => some (LmdbStore.exec codec env op))
      (LmdbStore.source codec) batchify batchSize env) ∧
    ∀ n : Redis.Network ι κ K V R,
      Reaches (Redis.Network.step layout keysSet calls) anyTurn Redis.Network.init n →
      Snapshot.Law (Redis.Network.step layout keysSet calls)
        (Redis.source layout keysSet smembers) batchify batchSize n := by
  refine ⟨fun env => ?_, fun n hn => ?_⟩
  · exact Snapshot.law (P := fun _ => True) hb (fun _ _ _ _ _ => trivial)
      (fun env _ => LmdbStore.source_lists codec env) trivial
  · exact Snapshot.law hb (fun _ _ _ hinv hs => Redis.Network.Inv.step hinv hs)
      (fun _ hinv => Redis.source_lists layout smembers hinv) (Redis.Network.inv_of_reaches hn)

/-! ### An iteration on its way -/

section Run

/-- `batchify`, by position. -/
def byPosition {K : Type} : Snapshot.Cutting K where
  run := chunk
  flatten_run _ _ hs := flatten_chunk hs
  length_le _ _ _ _ hbatch := length_le_of_mem_chunk hbatch

/-- SMEMBERS, sorted. -/
def sortedMembers (r : K → K → Prop) [DecidableRel r] [IsTrans K r] [Std.Antisymm r]
    [Std.Total r] : Redis.Smembers K where
  run s := s.sort r
  nodup s := s.sort_nodup r
  mem_iff _ _ := Finset.mem_sort r

/-- Values are stored as they are. -/
def asIs : Codec (Dict String ℕ) (Dict String ℕ) Unit := ⟨.ok, id⟩

/-- An environment. -/
def abcd : Dict String (Dict String ℕ) := .ofList [("a", ∅), ("b", ∅), ("c", ∅), ("d", ∅)]

/-- `"e"` is added before the first turn; `"a"`, which has been yielded, and `"d"`, which has not,
are deleted. -/
def deleteBoth : List (Snapshot.Turn (StoreOp String (Dict String ℕ))) :=
  [.op (.set "e" ∅ .raise), .next, .next, .op (.deleteMany ["d", "a"]), .next, .next]

/-- `"c"` is there all along and is yielded once; and the law of a Redis store with clients. -/
theorem key_snapshot_iteration_deleteBoth :
    (∃ it, Reaches (LmdbStore.turn asIs byPosition 2)
        (Snapshot.Holds (LmdbStore.source asIs) "c") (Snapshot.start abcd) it ∧
      it.Exhausted ∧ it.yielded.count "c" = 1) ∧
    Snapshot.Law (Redis.Network.step ⟨id, id⟩ "__keys__" Redis.mergeDelete)
      (Redis.source ⟨id, id⟩ "__keys__" (sortedMembers (· ≤ ·))) byPosition 2
      (Redis.Network.init : Redis.Network Bool Unit String (Dict String ℕ) (Dict String ℕ)) := by
  obtain ⟨hlmdb, hredis⟩ := key_snapshot_iteration asIs ⟨id, id⟩ "__keys__" Redis.mergeDelete
    (sortedMembers (· ≤ ·)) byPosition (κ := Unit) (by decide : 1 ≤ 2)
  refine ⟨?_, hredis _ .refl⟩
  obtain ⟨it, hit⟩ := Option.isSome_iff_exists.mp (rfl :
    (play (guarded (LmdbStore.turn asIs byPosition 2)
      (Snapshot.Holds (LmdbStore.source asIs) "c")) (Snapshot.start abcd) deleteBoth).isSome = true)
  have hend := congrArg (Option.map Snapshot.Iteration.iterator) hit
  rw [show (play (guarded (LmdbStore.turn asIs byPosition 2)
      (Snapshot.Holds (LmdbStore.source asIs) "c")) (Snapshot.start abcd) deleteBoth).map
        Snapshot.Iteration.iterator = some (.pulling []) from rfl, Option.map_some,
    Option.some.injEq] at hend
  have hholds := reaches_of_play_guarded hit
  exact ⟨it, hholds, hend.symm, (hlmdb abcd).complete _ it _ .refl rfl hholds hend.symm⟩

end Run

end Persista
