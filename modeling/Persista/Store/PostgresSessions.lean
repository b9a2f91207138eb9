import Persista.Lib.Interleaving
import Persista.Store.Rows
import Mathlib.Data.Fintype.Defs
import Mathlib.Data.Fintype.Basic

/-!
# `PostgresStore.set_many`, one session per call

`store/postgres.py`. A `raise`, `skip` or `merge` call runs in a transaction: it takes one advisory
lock per key, in sorted order, asks which keys exist, reads the values it merges into, upserts the
resolved rows one statement each and commits. An `overwrite` call takes no lock and opens no
transaction: the connection is in autocommit mode, so each of its upserts is a transaction of its
own.

A turn of a session is one statement, or the lock of one key. Reads see the committed rows (READ
COMMITTED; a call reads nothing it has written). An advisory lock belongs to a hash, so two keys may
share one. A row upserted inside a transaction is locked until the commit, and an upsert of a locked
row waits.

## Main definitions

* `Postgres.step` — the next statement of a session
* `Postgres.NoOverlap` — an `overwrite` and another call on a common key do not overlap
-/

namespace Persista

namespace Postgres

variable {ι K V R H : Type}

/-- A `set_many` call. -/
structure Call (K V : Type) where
  items : Dict K V
  onConflict : OnConflict

/-- Where a session is in its call. -/
inductive Phase (K V R : Type)
  | start
  /-- `_lock_keys`, with the keys left to lock; `contains_many` is next when none is left. -/
  | locking (todo : List K)
  /-- In the loop of `resolve_conflicts`. -/
  | resolving (conflicts : List K) (todo : List (K × V)) (toWrite : Dict K V)
  /-- `_set_many` inside the transaction, with the rows left and the rows upserted; the commit is
  next when none is left. -/
  | writing (todo pending : List (K × R))
  /-- `_set_many` of an `overwrite`, with the rows left after the first. -/
  | upserting (todo : List (K × R))
  | done (outcome : Except (StoreError K) Unit)

/-- The outcome of a call that is over. -/
def Phase.outcome : Phase K V R → Option (Except (StoreError K) Unit)
  | .done o => some o
  | _ => none

/-- The session is an `overwrite` between its first and its last upsert. -/
def Phase.overwriting : Phase K V R → Bool
  | .upserting _ => true
  | _ => false

/-- The session is between its first and its last access to the table. -/
def Phase.inside : Phase K V R → Bool
  | .resolving .. | .writing .. | .upserting _ => true
  | _ => false

/-- The database and its sessions: the committed rows, the holders of the advisory locks and of the
row locks. -/
structure World (ι K V R H : Type) where
  table : Contents K R
  advisory : H → Option ι
  rowLock : K → Option ι
  session : ι → Phase K V R

/-- A session may take a lock that is free or its own. -/
def Available (lock : Option ι) (i : ι) : Prop := lock = none ∨ lock = some i

instance [DecidableEq ι] (lock : Option ι) (i : ι) : Decidable (Available lock i) :=
  inferInstanceAs (Decidable (_ ∨ _))

/-- The locks left when session `i` releases its own. -/
def release {L : Type} [DecidableEq ι] (locks : L → Option ι) (i : ι) : L → Option ι := fun l =>
  if locks l = some i then none else locks l

variable [LinearOrder K] [DecidableEq H] [DecidableEq ι]

/-- A session moves on; the database is as it was. -/
def World.move (s : World ι K V R H) (i : ι) (p : Phase K V R) : World ι K V R H :=
  { s with session := Function.update s.session i p }

/-- The end of a transaction: its locks are released and the committed rows are `table`. -/
def World.endTransaction (s : World ι K V R H) (i : ι) (table : Contents K R)
    (o : Except (StoreError K) Unit) : World ι K V R H where
  table := table
  advisory := release s.advisory i
  rowLock := release s.rowLock i
  session := Function.update s.session i (.done o)

/-- One upsert in autocommit mode. It waits for the lock of its row. -/
def World.upsert (s : World ι K V R H) (i : ι) : List (K × R) → Option (World ι K V R H)
  | [] => none
  | row :: todo =>
    if s.rowLock row.1 = none then
      some { s with
        table := Function.update s.table row.1 (some row.2)
        session := Function.update s.session i
          (if todo = [] then .done (.ok ()) else .upserting todo) }
    else none

/-- The next statement of a session; `none` when it waits for a lock or is done. -/
def step [ShallowMerge V] (layout : Layout V R) (hash : K → H) (calls : ι → Call K V)
    (s : World ι K V R H) (i : ι) : Option (World ι K V R H) :=
  let items := (calls i).items
  let onConflict := (calls i).onConflict
  match s.session i with
  | .start =>
    if items.entries = [] then some (s.move i (.done (.ok ())))
    else if onConflict = .overwrite then s.upsert i (rows layout items)
    else some (s.move i (.locking (sorted items.keys)))
  | .locking (key :: todo) =>
    if Available (s.advisory (hash key)) i then
      some { s with
        advisory := Function.update s.advisory (hash key) (some i)
        session := Function.update s.session i (.locking todo) }
    else none
  | .locking [] =>
    let conflicts := conflictsOf items.keys (s.table.containsMany items.keys)
    -- the exception leaves the transaction block, which rolls back
    if conflicts ≠ [] ∧ onConflict = .raise then
      some (s.endTransaction i s.table (.error (.keyError (sorted conflicts))))
    else some (s.move i (.resolving conflicts items.entries ∅))
  | .resolving conflicts (item :: todo) toWrite =>
    let toWrite := resolveItem conflicts onConflict (s.table.read layout) toWrite item
    some (s.move i (.resolving conflicts todo toWrite))
  | .resolving _ [] toWrite => some (s.move i (.writing (rows layout toWrite) []))
  | .writing (row :: todo) pending =>
    if Available (s.rowLock row.1) i then
      some { s with
        rowLock := Function.update s.rowLock row.1 (some i)
        session := Function.update s.session i (.writing todo (pending ++ [row])) }
    else none
  | .writing [] pending => some (s.endTransaction i (s.table.write pending) (.ok ()))
  | .upserting todo => s.upsert i todo
  | .done _ => none

/-- All sessions are about to call; no lock is held. -/
def init (table : Contents K R) : World ι K V R H :=
  ⟨table, fun _ => none, fun _ => none, fun _ => .start⟩

/-- A call executed atomically. -/
def Call.atomic [ShallowMerge V] (layout : Layout V R) (c : Call K V) :
    Contents K R → Except (StoreError K) Unit × Contents K R :=
  Contents.atomicSetMany layout c.items c.onConflict

/-- Two calls have a key in common. -/
def SharesKey (c c' : Call K V) : Prop := ∃ k ∈ c.items.keys, k ∈ c'.items.keys

instance (c c' : Call K V) : Decidable (SharesKey c c') :=
  inferInstanceAs (Decidable (∃ k ∈ c.items.keys, k ∈ c'.items.keys))

/-- An `overwrite` makes its first upsert only when no call on one of its keys is inside its
accesses to the table, and another call makes its existence query only when no `overwrite` on one of
its keys is between two upserts. -/
def NoOverlap (calls : ι → Call K V) (s : World ι K V R H) (i : ι) : Prop :=
  match s.session i with
  | .start => (calls i).onConflict = .overwrite →
      ∀ j, j ≠ i → (s.session j).inside → ¬ SharesKey (calls i) (calls j)
  | .locking [] => ∀ j, j ≠ i → (s.session j).overwriting → ¬ SharesKey (calls i) (calls j)
  | _ => True

instance [Fintype ι] (calls : ι → Call K V) (s : World ι K V R H) (i : ι) :
    Decidable (NoOverlap calls s i) := by
  unfold NoOverlap
  split <;> infer_instance

/-! ### The invariant -/

/-- What is true of a session inside its call: the advisory locks it holds, and what it has read or
written so far. -/
def SessionInv [ShallowMerge V] (layout : Layout V R) (hash : K → H) (c : Call K V)
    (table : Contents K R) (advisory : H → Option ι) (i : ι) : Phase K V R → Prop
  | .start => True
  | .locking todo => c.onConflict ≠ .overwrite ∧
      ∀ k ∈ c.items.keys, k ∈ todo ∨ advisory (hash k) = some i
  | .resolving conflicts todo toWrite => c.onConflict ≠ .overwrite ∧
      (∀ k ∈ c.items.keys, advisory (hash k) = some i) ∧
      table.Resolving layout c.items c.onConflict conflicts todo toWrite
  | .writing todo pending => c.onConflict ≠ .overwrite ∧
      (∀ k ∈ c.items.keys, advisory (hash k) = some i) ∧
      ∃ conflicts toWrite, table.Resolving layout c.items c.onConflict conflicts [] toWrite ∧
        pending ++ todo = rows layout toWrite
  | .upserting todo => c.onConflict = .overwrite ∧
      (∀ row ∈ todo, row ∈ rows layout c.items) ∧
      ∀ row ∈ rows layout c.items, row ∈ todo ∨ table row.1 = some row.2
  | .done _ => True

/-- No `overwrite` is between two upserts of a set of rows that has the key. -/
def Settled (calls : ι → Call K V) (s : World ι K V R H) (k : K) : Prop :=
  ∀ i, (s.session i).overwriting → k ∉ (calls i).items.keys

/-- The invariant of a run that started on the rows `table₀`. The calls that are over explain some
contents, and these are the rows of the table wherever no `overwrite` is half done. -/
structure Inv [ShallowMerge V] (layout : Layout V R) (hash : K → H) (calls : ι → Call K V)
    (table₀ : Contents K R) (s : World ι K V R H) : Prop where
  session : ∀ i, SessionInv layout hash (calls i) s.table s.advisory i (s.session i)
  apart : ∀ i j, i ≠ j → (s.session i).inside → (s.session j).inside →
    ¬ SharesKey (calls i) (calls j)
  serial : ∃ m, Interleaving.Serializable (fun i => (calls i).atomic layout) table₀
      (fun i => (s.session i).outcome) m ∧ ∀ k, Settled calls s k → s.table k = m k

end Postgres

end Persista
