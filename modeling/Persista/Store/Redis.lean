import Persista.Lib.Interleaving
import Persista.Store.Rows
import Mathlib.Data.Finset.Basic
import Mathlib.Data.Finset.Dedup
import Mathlib.Data.Finset.Lattice.Lemmas

/-!
# The Redis stores

`store/redis.py`: one string per data key, and one set, under a reserved key, of the data keys that
exist. Existence is read from the set, values are read from the strings, and the two are written
together in one MULTI block.

A turn of a client is one Redis command, or one MULTI/EXEC block, which Redis runs without
interruption. The synchronous and the asynchronous methods issue the same commands in the same
order.

## Optimistic locking

WATCH records keys for a connection; Redis marks the connection dirty when somebody modifies one of
them, and EXEC of a dirty connection does nothing. A SET modifies its key even when the value is the
same; a DEL modifies a key only when it is there; SADD and SREM modify their set when they change
it.

## Main results

* `Redis.Command.exec_of_not_modifies` — a command changes the keys it modifies and no other
* `Redis.consistent_writeBlock`, `Redis.consistent_deleteBlock` — the two MULTI blocks write and
  delete rows, and keep the set and the strings together
-/

namespace Persista

namespace Redis

variable {K V R : Type} [LinearOrder K]

/-! ### The keyspace -/

/-- A value of the keyspace. Redis deletes a set that becomes empty, so a set has a member. -/
inductive RedisObject (K R : Type)
  | string (raw : R)
  | set (members : {s : Finset K // s.Nonempty})

/-- The Redis database. -/
abbrev Keyspace (K R : Type) := K → Option (RedisObject K R)

/-- The string under a key: what GET answers. -/
def getString (db : Keyspace K R) : Contents K R := fun key =>
  match db key with
  | some (.string raw) => some raw
  | _ => none

/-- The set under a key: what SMEMBERS answers. -/
def members (db : Keyspace K R) (key : K) : Finset K :=
  match db key with
  | some (.set s) => s.1
  | _ => ∅

/-- A set as it is kept. -/
def ofMembers (s : Finset K) : Option (RedisObject K R) :=
  if h : s.Nonempty then some (.set ⟨s, h⟩) else none

/-- The commands of the blocks. -/
inductive Command (K R : Type)
  | set (key : K) (raw : R)
  | del (keys : List K)
  | sadd (key : K) (members : List K)
  | srem (key : K) (members : List K)

/-- What a command does. SADD and SREM answer WRONGTYPE on a string and leave it. -/
def Command.exec (db : Keyspace K R) : Command K R → Keyspace K R
  | .set key raw => Function.update db key (some (.string raw))
  | .del keys => fun k => if k ∈ keys then none else db k
  | .sadd key new =>
    if (getString db key).isSome then db
    else Function.update db key (ofMembers (members db key ∪ new.toFinset))
  | .srem key old =>
    if (getString db key).isSome then db
    else Function.update db key (ofMembers (members db key \ old.toFinset))

/-- The keys a command modifies, for the purposes of WATCH. -/
def Command.modifies (db : Keyspace K R) (c : Command K R) (k : K) : Bool :=
  match c with
  | .set key _ => decide (k = key)
  | .del keys => decide (k ∈ keys) && (db k).isSome
  | .sadd key new => decide (k = key) && new.any fun m => decide (m ∉ members db key)
  | .srem key old => decide (k = key) && old.any fun m => decide (m ∈ members db key)

/-- The commands of a MULTI block, run without interruption. -/
def execBlock (db : Keyspace K R) (block : List (Command K R)) : Keyspace K R :=
  block.foldl Command.exec db

/-- The keys a MULTI block modifies. -/
def blockModifies (db : Keyspace K R) : List (Command K R) → K → Bool
  | [], _ => false
  | c :: block, k => c.modifies db k || blockModifies (c.exec db) block k

/-! ### The calls -/

/-- The concurrent calls, with their asynchronous twins. -/
inductive Call (K V : Type)
  | setMany (items : Dict K V) (onConflict : OnConflict)
  | delete (key : K)
  | deleteMany (keys : List K)

/-- `_check_no_reserved_key`'s message. -/
def reservedMsg : String :=
  "key '__keys__' is reserved for this store's internal keys-tracking set and cannot be used as a data key"

/-- `pipe.set(key, self._encode(value))` per item, and `pipe.sadd` when there is one. -/
def writeBlock (layout : Layout V R) (keysSet : K) (values : Dict K V) : List (Command K R) :=
  (rows layout values).map (fun row => .set row.1 row.2) ++
    if values.entries = [] then [] else [.sadd keysSet values.keys]

/-- `pipe.delete(*keys)` and `pipe.srem`. -/
def deleteBlock (keysSet : K) (keys : List K) : List (Command K R) :=
  [.del keys, .srem keysSet keys]

/-- Where a client is in its call. -/
inductive Phase (K V : Type)
  | start
  /-- At the top of the `while` loop: WATCH is next. -/
  | watch
  /-- `contains_many` is next. -/
  | watched
  /-- In the loop of `resolve_conflicts`; EXEC is next when no item is left. -/
  | resolving (conflicts : List K) (todo : List (K × V)) (toWrite : Dict K V)
  | done (outcome : Except (StoreError K) Unit)

/-- The outcome of a call that is over. -/
def Phase.outcome : Phase K V → Option (Except (StoreError K) Unit)
  | .done o => some o
  | _ => none

/-- A client: where it is, what its pipeline watches, and whether a watched key was modified. -/
structure Client (K V : Type) where
  phase : Phase K V
  watching : List K
  dirty : Bool

/-- The database and its clients. -/
structure System (ι K V R : Type) where
  db : Keyspace K R
  client : ι → Client K V

variable {ι : Type} [DecidableEq ι]

/-- The clients after a command of client `i` that modifies no key. -/
def System.move (s : System ι K V R) (i : ι) (c : Client K V) : System ι K V R :=
  { s with client := Function.update s.client i c }

/-- Client `i` runs a MULTI block and its call is over: the clients that watch a modified key become
dirty, its own watches are dropped. -/
def System.multi (s : System ι K V R) (i : ι) (block : List (Command K R)) : System ι K V R where
  db := execBlock s.db block
  client := Function.update
    (fun j => { s.client j with
      dirty := (s.client j).dirty || (s.client j).watching.any (blockModifies s.db block) })
    i ⟨.done (.ok ()), [], false⟩

/-- The next command of a client. `keysSet` is the reserved key. -/
def step [ShallowMerge V] (layout : Layout V R) (keysSet : K) (calls : ι → Call K V)
    (s : System ι K V R) (i : ι) : Option (System ι K V R) :=
  let finished (o : Except (StoreError K) Unit) : System ι K V R := s.move i ⟨.done o, [], false⟩
  match calls i, (s.client i).phase with
  | .setMany items onConflict, .start =>
    if items.entries = [] then some (finished (.ok ()))
    else if keysSet ∈ items.keys then some (finished (.error (.valueError reservedMsg)))
    else if onConflict = .overwrite then some (s.multi i (writeBlock layout keysSet items))
    else some (s.move i ⟨.watch, [], false⟩)
  | .setMany items _, .watch => some (s.move i ⟨.watched, items.keys, false⟩)
  | .setMany items onConflict, .watched =>
    let found := items.keys.map fun k => decide (k ∈ members s.db keysSet)
    let conflicts := conflictsOf items.keys found
    if conflicts ≠ [] ∧ onConflict = .raise then
      some (finished (.error (.keyError (sorted conflicts))))
    else some (s.move i { s.client i with phase := .resolving conflicts items.entries ∅ })
  | .setMany _ onConflict, .resolving conflicts (item :: todo) toWrite =>
    let get := fun k => (getString s.db k).map layout.rowToValue
    let toWrite := resolveItem conflicts onConflict get toWrite item
    some (s.move i { s.client i with phase := .resolving conflicts todo toWrite })
  | .setMany _ _, .resolving _ [] toWrite =>
    -- EXEC answers nil to a dirty connection, which redis-py raises as `WatchError`
    if (s.client i).dirty then some (s.move i ⟨.watch, [], false⟩)
    else some (s.multi i (writeBlock layout keysSet toWrite))
  | .delete key, .start =>
    if key = keysSet then some (finished (.error (.valueError reservedMsg)))
    else some (s.multi i (deleteBlock keysSet [key]))
  | .deleteMany keys, .start =>
    if keys = [] then some (finished (.ok ()))
    else if keysSet ∈ keys then some (finished (.error (.valueError reservedMsg)))
    else some (s.multi i (deleteBlock keysSet keys))
  | _, _ => none

/-- All clients are about to call. -/
def init (db : Keyspace K R) : System ι K V R := ⟨db, fun _ => ⟨.start, [], false⟩⟩

/-! ### What a call does when nobody interrupts it -/

/-- The stored rows: the strings under the data keys. -/
def contents (keysSet : K) (db : Keyspace K R) : Contents K R := fun k =>
  if k = keysSet then none else getString db k

/-- A call executed atomically on the stored rows. -/
def Call.atomic [ShallowMerge V] (layout : Layout V R) (keysSet : K) (m : Contents K R) :
    Call K V → Except (StoreError K) Unit × Contents K R
  | .setMany items onConflict =>
    if keysSet ∈ items.keys then (.error (.valueError reservedMsg), m)
    else Contents.atomicSetMany layout items onConflict m
  | .delete key =>
    if key = keysSet then (.error (.valueError reservedMsg), m) else (.ok (), m.delete [key])
  | .deleteMany keys =>
    if keysSet ∈ keys then (.error (.valueError reservedMsg), m) else (.ok (), m.delete keys)

/-! ### Commands -/

variable {db : Keyspace K R} {keysSet key k : K}

omit [LinearOrder K] in
theorem ofMembers_members (h : getString db key = none) : ofMembers (members db key) = db key := by
  rw [getString] at h
  rw [ofMembers, members]
  split at h
  · cases h
  · cases hk : db key with
    | none => simp
    | some o =>
      cases o with
      | string raw => simp_all
      | set s => simp [s.2]

/-- **WATCH sees every change.** -/
theorem Command.exec_of_not_modifies {c : Command K R} (h : c.modifies db k = false) :
    c.exec db k = db k := by
  cases c with
  | set key raw => exact Function.update_of_ne (by simpa [modifies] using h) _ _
  | del keys =>
    simp only [modifies, Bool.and_eq_false_iff, decide_eq_false_iff_not] at h
    rcases h with h | h
    · simp [exec, h]
    · cases hk : db k <;> simp_all [exec]
  | sadd key new =>
    dsimp only [exec]
    split
    · rfl
    · next hs =>
      by_cases hk : k = key
      · subst hk
        have hsub : new.toFinset ⊆ members db k := by
          intro m hm
          simpa [modifies] using (by simpa [modifies] using h : ∀ m ∈ new, m ∈ members db k) m
            (List.mem_toFinset.mp hm)
        rw [Function.update_self, Finset.union_eq_left.mpr hsub,
          ofMembers_members (by simpa using hs)]
      · rw [Function.update_of_ne hk]
  | srem key old =>
    dsimp only [exec]
    split
    · rfl
    · next hs =>
      by_cases hk : k = key
      · subst hk
        have hdisj : ∀ m ∈ old, m ∉ members db k := by simpa [modifies] using h
        have hdiff : members db k \ old.toFinset = members db k := by
          refine Finset.sdiff_eq_self_of_disjoint (Finset.disjoint_left.mpr fun m hm ho => ?_)
          exact hdisj m (List.mem_toFinset.mp ho) hm
        rw [Function.update_self, hdiff, ofMembers_members (by simpa using hs)]
      · rw [Function.update_of_ne hk]

theorem execBlock_of_not_modifies {block : List (Command K R)}
    (h : blockModifies db block k = false) : execBlock db block k = db k := by
  induction block generalizing db with
  | nil => rfl
  | cons c block ih =>
    simp only [blockModifies, Bool.or_eq_false_iff] at h
    exact (ih h.2).trans (Command.exec_of_not_modifies h.1)

omit [LinearOrder K] in
theorem getString_congr {db' : Keyspace K R} (h : db' k = db k) :
    getString db' k = getString db k := by
  rw [getString, getString, h]

theorem getString_update_string (raw : R) :
    getString (Function.update db key (some (.string raw))) =
      Function.update (getString db) key (some raw) := by
  funext j
  by_cases hj : j = key
  · subst hj; simp [getString]
  · simp [getString, hj]

theorem getString_update_ofMembers (s : Finset K) (h : getString db key = none) :
    getString (Function.update db key (ofMembers s)) = getString db := by
  funext j
  by_cases hj : j = key
  · subst hj
    rw [h, getString, ofMembers]
    split_ifs <;> simp
  · simp [getString, hj]

theorem members_update_ofMembers (s : Finset K) :
    members (Function.update db key (ofMembers s)) key = s := by
  rw [members, ofMembers, Function.update_self]
  by_cases hs : s.Nonempty
  · rw [dif_pos hs]
  · rw [dif_neg hs, Finset.not_nonempty_iff_eq_empty.mp hs]

theorem getString_sadd (new : List K) (h : getString db key = none) :
    getString (Command.exec db (.sadd key new)) = getString db := by
  simp only [Command.exec, h, Option.isSome_none, Bool.false_eq_true, if_false]
  exact getString_update_ofMembers _ h

theorem members_sadd (new : List K) (h : getString db key = none) :
    members (Command.exec db (.sadd key new)) key = members db key ∪ new.toFinset := by
  simp only [Command.exec, h, Option.isSome_none, Bool.false_eq_true, if_false]
  exact members_update_ofMembers _

theorem getString_srem (old : List K) (h : getString db key = none) :
    getString (Command.exec db (.srem key old)) = getString db := by
  simp only [Command.exec, h, Option.isSome_none, Bool.false_eq_true, if_false]
  exact getString_update_ofMembers _ h

theorem members_srem (old : List K) (h : getString db key = none) :
    members (Command.exec db (.srem key old)) key = members db key \ old.toFinset := by
  simp only [Command.exec, h, Option.isSome_none, Bool.false_eq_true, if_false]
  exact members_update_ofMembers _

/-- A run of SETs writes the rows. -/
theorem getString_sets (rows : List (K × R)) :
    getString (execBlock db (rows.map fun row => .set row.1 row.2)) =
      Contents.write (getString db) rows := by
  induction rows generalizing db with
  | nil => rfl
  | cons row rows ih =>
    rw [Contents.write_cons, ← getString_update_string, ← ih]
    rfl

theorem sets_of_not_mem {rows : List (K × R)} (h : k ∉ rows.map Prod.fst) :
    execBlock db (rows.map fun row => .set row.1 row.2) k = db k := by
  induction rows generalizing db with
  | nil => rfl
  | cons row rows ih =>
    simp only [List.map_cons, List.mem_cons, not_or] at h
    exact (ih h.2).trans (Function.update_of_ne h.1 _ _)

/-! ### The two blocks -/

/-- The strings and the set of keys belong together: the set holds the data keys with a string, and
the reserved key holds no string. -/
structure Consistent (keysSet : K) (db : Keyspace K R) : Prop where
  mem_iff : ∀ k, k ∈ members db keysSet ↔ (contents keysSet db k).isSome
  keys : getString db keysSet = none

theorem consistent_empty : Consistent keysSet (fun _ => none : Keyspace K R) where
  mem_iff k := by simp [members, contents, getString]
  keys := rfl

theorem contents_eq_getString (h : getString db keysSet = none) :
    contents keysSet db = getString db := by
  funext j
  rw [contents]
  split
  · next hj => rw [hj, h]
  · rfl

theorem execBlock_append (db : Keyspace K R) (block block' : List (Command K R)) :
    execBlock db (block ++ block') = execBlock (execBlock db block) block' :=
  List.foldl_append

theorem writeBlock_spec (layout : Layout V R) {values : Dict K V} (h : Consistent keysSet db)
    (hk : keysSet ∉ values.keys) :
    getString (execBlock db (writeBlock layout keysSet values)) =
        (getString db).writeRows layout values ∧
      members (execBlock db (writeBlock layout keysSet values)) keysSet =
        members db keysSet ∪ values.keys.toFinset := by
  have hk' : keysSet ∉ (rows layout values).map Prod.fst := by
    rwa [← Dict.keys_mapValues values layout.valueToRow] at hk
  have hsets : execBlock db ((rows layout values).map fun row => .set row.1 row.2) keysSet =
      db keysSet := sets_of_not_mem hk'
  have hget := getString_congr hsets
  rw [writeBlock, execBlock_append]
  split
  · next he =>
    have hkeys : values.keys = [] := by rw [Dict.keys, he]; rfl
    refine ⟨getString_sets _, ?_⟩
    rw [hkeys, members]
    change (match execBlock db _ keysSet with | some (.set s) => s.1 | _ => ∅) = _
    rw [hsets, List.toFinset_nil, Finset.union_empty, members]
  · have hnone : getString (execBlock db ((rows layout values).map
        fun row => .set row.1 row.2)) keysSet = none := hget.trans h.keys
    refine ⟨?_, ?_⟩
    · exact (getString_sadd _ hnone).trans (getString_sets _)
    · refine (members_sadd _ hnone).trans ?_
      rw [members, hsets, members]

theorem consistent_writeBlock (layout : Layout V R) {values : Dict K V} (h : Consistent keysSet db)
    (hk : keysSet ∉ values.keys) :
    Consistent keysSet (execBlock db (writeBlock layout keysSet values)) ∧
      contents keysSet (execBlock db (writeBlock layout keysSet values)) =
        (contents keysSet db).writeRows layout values := by
  obtain ⟨hget, hmem⟩ := writeBlock_spec layout h hk
  have hkeys : getString (execBlock db (writeBlock layout keysSet values)) keysSet = none := by
    rw [hget, Contents.writeRows_of_not_mem hk, h.keys]
  have hcon : contents keysSet (execBlock db (writeBlock layout keysSet values)) =
      (contents keysSet db).writeRows layout values := by
    rw [contents_eq_getString h.keys, contents_eq_getString hkeys, hget]
  refine ⟨⟨fun j => ?_, hkeys⟩, hcon⟩
  rw [hmem, hcon, Contents.writeRows_apply, Finset.mem_union, h.mem_iff, List.mem_toFinset,
    ← Dict.isSome_get?_iff]
  cases values.get? j <;> simp

theorem consistent_deleteBlock {keys : List K} (h : Consistent keysSet db) (hk : keysSet ∉ keys) :
    Consistent keysSet (execBlock db (deleteBlock keysSet keys)) ∧
      contents keysSet (execBlock db (deleteBlock keysSet keys)) =
        (contents keysSet db).delete keys := by
  have hdel : getString (Command.exec db (.del keys)) = (getString db).delete keys := by
    funext j
    by_cases hj : j ∈ keys <;> simp [getString, Command.exec, Contents.delete, hj]
  have hnone : getString (Command.exec db (.del keys)) keysSet = none := by
    rw [hdel, Contents.delete, if_neg hk, h.keys]
  have hget : getString (execBlock db (deleteBlock keysSet keys)) = (getString db).delete keys :=
    (getString_srem keys hnone).trans hdel
  have hmem : members (execBlock db (deleteBlock keysSet keys)) keysSet =
      members db keysSet \ keys.toFinset := by
    refine (members_srem keys hnone).trans ?_
    simp [members, Command.exec, hk]
  have hkeys : getString (execBlock db (deleteBlock keysSet keys)) keysSet = none := by
    rw [hget, Contents.delete, if_neg hk, h.keys]
  have hcon : contents keysSet (execBlock db (deleteBlock keysSet keys)) =
      (contents keysSet db).delete keys := by
    rw [contents_eq_getString h.keys, contents_eq_getString hkeys, hget]
  refine ⟨⟨fun j => ?_, hkeys⟩, hcon⟩
  rw [hmem, hcon, Contents.delete, Finset.mem_sdiff, h.mem_iff, List.mem_toFinset]
  by_cases hj : j ∈ keys <;> simp [hj]

end Redis

end Persista
