import Persista.Lib.Interleaving
import Persista.Store.Sqlite
import Mathlib.Data.Fintype.Defs
import Mathlib.Data.Fintype.Basic
import Mathlib.Data.String.Basic

/-!
# `SQLiteStore`, aiosqlite path, one task per call

`store/sqlite.py`, asynchronous API with `aiosqlite`: every task uses the one connection of the
store, which runs one statement at a time. A `raise`, `skip` or `merge` call holds `_awrite_lock`
from its existence query to its commit; an `overwrite` call and `adelete` do not take it. A
statement that writes opens a transaction when none is open, and a commit commits what every task
has written.

A turn of a task is one statement (`execute` with its `fetch`, `executemany`, `commit`), or taking
the lock. The existence query is cut into chunks, one statement each.

## When the calls are serializable

`sqliteTasks_lose_update` is a run in which an `overwrite` is written between the reads and the
write of a `merge`. Runs in which no `overwrite` and no `adelete` writes a key of a call that has
read and not yet written (`NoOverlap`) are serializable.
-/

namespace Persista

namespace SqliteTasks

open Interleaving Contents

variable {ι K V R : Type}

/-- The calls. -/
inductive Call (K V : Type)
  | setMany (items : Dict K V) (onConflict : OnConflict)
  | delete (key : K)

/-- The keys of a call. -/
def Call.keys : Call K V → List K
  | .setMany items _ => items.keys
  | .delete key => [key]

/-- Where a task is in its call. -/
inductive Phase (K V : Type)
  | start
  /-- `_awrite_lock` is held; the first chunk of the existence query is next. -/
  | locked
  /-- The chunks left, and the keys found. -/
  | checking (todo : List (List K)) (existing : List K)
  /-- In the loop of `aresolve_conflicts`; the write is next when no item is left. -/
  | resolving (conflicts : List K) (todo : List (K × V)) (toWrite : Dict K V)
  /-- The rows are written; `commit` is next. -/
  | committing
  | done (outcome : Except (StoreError K) Unit)

/-- The outcome of a call that is over. -/
def Phase.outcome : Phase K V → Option (Except (StoreError K) Unit)
  | .done o => some o
  | _ => none

/-- The outcome of a call that has written or is over. -/
def Phase.effect : Phase K V → Option (Except (StoreError K) Unit)
  | .committing => some (.ok ())
  | p => p.outcome

/-- The task holds the lock and has not written. -/
def Phase.holding : Phase K V → Bool
  | .locked | .checking .. | .resolving .. => true
  | _ => false

/-- The task has read and not yet written. -/
def Phase.inside : Phase K V → Bool
  | .checking .. | .resolving .. => true
  | _ => false

/-- The connection and its tasks: the rows its statements see, the committed rows, the holder of
`_awrite_lock`. -/
structure Connection (ι K V R : Type) where
  table : Contents K R
  committed : Contents K R
  lock : Option ι
  task : ι → Phase K V

variable [LinearOrder K] [DecidableEq ι]

/-- A task moves on; the rows are as they were. -/
def Connection.move (s : Connection ι K V R) (i : ι) (p : Phase K V) : Connection ι K V R :=
  { s with task := Function.update s.task i p }

/-- A task writes; its commit is next. -/
def Connection.write (s : Connection ι K V R) (i : ι) (table : Contents K R) : Connection ι K V R :=
  { s with table := table, task := Function.update s.task i .committing }

/-- A call is over; the lock is released when it is its own. -/
def Connection.finish (s : Connection ι K V R) (i : ι) (committed : Contents K R)
    (o : Except (StoreError K) Unit) : Connection ι K V R where
  table := s.table
  committed := committed
  lock := if s.lock = some i then none else s.lock
  task := Function.update s.task i (.done o)

/-- `SELECT key FROM store WHERE key IN (chunk)`. -/
def selectKeys (table : Contents K R) (c : List K) : List K := c.filter fun k => (table k).isSome

/-- One chunk of the existence query. -/
def Connection.check (s : Connection ι K V R) (i : ι) (existing : List K) :
    List (List K) → Connection ι K V R
  | [] => s.move i (.checking [] existing)
  | c :: todo => s.move i (.checking todo (existing ++ selectKeys s.table c))

/-- The next statement of a task; `none` when it waits for the lock or is done. -/
def step [ShallowMerge V] (layout : Layout V R) (maxSqlVariables : ℕ+) (calls : ι → Call K V)
    (s : Connection ι K V R) (i : ι) : Option (Connection ι K V R) :=
  match calls i, s.task i with
  | .setMany items onConflict, .start =>
    if items.entries = [] then some (s.finish i s.committed (.ok ()))
    else if onConflict = .overwrite then some (s.write i (s.table.writeRows layout items))
    else if s.lock = none then
      some { s with lock := some i, task := Function.update s.task i .locked }
    else none
  | .setMany items _, .locked => some (s.check i [] (chunk items.keys maxSqlVariables))
  | .setMany _ _, .checking (c :: todo) existing => some (s.check i existing (c :: todo))
  | .setMany items onConflict, .checking [] existing =>
    let conflicts := conflictsOf items.keys (items.keys.map fun k => decide (k ∈ existing))
    if conflicts ≠ [] ∧ onConflict = .raise then
      some (s.finish i s.committed (.error (.keyError (sorted conflicts))))
    else some (s.move i (.resolving conflicts items.entries ∅))
  | .setMany _ onConflict, .resolving conflicts (item :: todo) toWrite =>
    let toWrite := resolveItem conflicts onConflict (s.table.read layout) toWrite item
    some (s.move i (.resolving conflicts todo toWrite))
  | .setMany _ _, .resolving _ [] toWrite =>
    if toWrite.entries = [] then some (s.finish i s.committed (.ok ()))
    else some (s.write i (s.table.writeRows layout toWrite))
  | .delete key, .start => some (s.write i (s.table.delete [key]))
  | _, .committing => some (s.finish i s.table (.ok ()))
  | _, _ => none

/-- All tasks are about to call, nothing is written, the lock is free. -/
def init (table : Contents K R) : Connection ι K V R := ⟨table, table, none, fun _ => .start⟩

/-- A call executed atomically. -/
def Call.atomic [ShallowMerge V] (layout : Layout V R) (m : Contents K R) :
    Call K V → Except (StoreError K) Unit × Contents K R
  | .setMany items onConflict => atomicSetMany layout items onConflict m
  | .delete key => (.ok (), m.delete [key])

/-- Two calls have a key in common. -/
def SharesKey (c c' : Call K V) : Prop := ∃ k ∈ c.keys, k ∈ c'.keys

instance (c c' : Call K V) : Decidable (SharesKey c c') :=
  inferInstanceAs (Decidable (∃ k ∈ c.keys, k ∈ c'.keys))

/-- The call writes without taking the lock. -/
def Call.lockless : Call K V → Bool
  | .setMany _ onConflict => onConflict = .overwrite
  | .delete _ => true

/-- An `overwrite` or an `adelete` writes only when no call on one of its keys has read and not yet
written. -/
def NoOverlap (calls : ι → Call K V) (s : Connection ι K V R) (i : ι) : Prop :=
  match s.task i with
  | .start => (calls i).lockless → ∀ j, j ≠ i → (s.task j).inside → ¬ SharesKey (calls i) (calls j)
  | _ => True

instance [Fintype ι] (calls : ι → Call K V) (s : Connection ι K V R) (i : ι) :
    Decidable (NoOverlap calls s i) := by
  unfold NoOverlap
  split <;> infer_instance

/-! ### The invariant -/

variable [ShallowMerge V] {layout : Layout V R} {maxSqlVariables : ℕ+} {calls : ι → Call K V}
  {table₀ : Contents K R} {s s' : Connection ι K V R} {i : ι} {p : Phase K V} {k : K}

/-- What is true of a task inside `aset_many`: what it has read is what the table holds. -/
def TaskInv (layout : Layout V R) (maxSqlVariables : ℕ+) (items : Dict K V)
    (onConflict : OnConflict) (table : Contents K R) : Phase K V → Prop
  | .locked => onConflict ≠ .overwrite
  | .checking todo existing => onConflict ≠ .overwrite ∧
    ∃ read, chunk items.keys maxSqlVariables = read ++ todo ∧
      existing = read.flatMap (selectKeys table)
  | .resolving conflicts todo toWrite => onConflict ≠ .overwrite ∧
    table.Resolving layout items onConflict conflicts todo toWrite
  | _ => True

/-- The invariant of a run that started on the rows `table₀`. -/
structure Inv (layout : Layout V R) (maxSqlVariables : ℕ+) (calls : ι → Call K V)
    (table₀ : Contents K R) (s : Connection ι K V R) : Prop where
  task : ∀ i items onConflict, calls i = .setMany items onConflict →
    TaskInv layout maxSqlVariables items onConflict s.table (s.task i)
  lock : ∀ i, (s.task i).holding → s.lock = some i
  serial : Serializable (fun i m => Call.atomic layout m (calls i)) table₀
    (fun i => (s.task i).effect) s.table
  committed : s.committed = s.table ∨ ∃ i, s.task i = .committing

omit [DecidableEq ι] in
theorem inv_init : Inv layout maxSqlVariables calls table₀ (init table₀) where
  task _ _ _ _ := trivial
  lock _ h := by simp [init, Phase.holding] at h
  serial := Serializable.start fun _ => rfl
  committed := .inl rfl

omit [LinearOrder K] [ShallowMerge V] in
theorem Phase.holding_of_inside {p : Phase K V} (h : p.inside) : p.holding := by
  cases p <;> first | rfl | cases h

omit [LinearOrder K] in
theorem selectKeys_congr {table table' : Contents K R} {c : List K}
    (h : ∀ k ∈ c, table' k = table k) : selectKeys table' c = selectKeys table c :=
  List.filter_congr fun k hk => by rw [h k hk]

/-- The invariant of a task is about the rows of its keys. -/
theorem TaskInv.congr {items : Dict K V} {onConflict : OnConflict} {table table' : Contents K R}
    (h : TaskInv layout maxSqlVariables items onConflict table p)
    (ht : p.inside → ∀ k ∈ items.keys, table' k = table k) :
    TaskInv layout maxSqlVariables items onConflict table' p := by
  cases p with
  | checking todo existing =>
    obtain ⟨ho, read, hchunk, rfl⟩ := h
    refine ⟨ho, read, hchunk, ?_⟩
    refine List.flatMap_congr fun c hc => (selectKeys_congr fun k hk => ?_).symm
    refine ht rfl k ((mem_chunk maxSqlVariables.pos).mp ⟨c, ?_, hk⟩)
    rw [hchunk]
    exact List.mem_append_left _ hc
  | resolving conflicts todo toWrite => exact ⟨h.1, h.2.congr (ht rfl)⟩
  | start => trivial
  | locked => exact h
  | committing => trivial
  | done o => trivial

omit [ShallowMerge V] in
/-- When every chunk is read, the conflicts are those of the table. -/
theorem conflicts_of_chunks {items : Dict K V} {table : Contents K R}
    {read : List (List K)} (h : chunk items.keys maxSqlVariables = read) :
    conflictsOf items.keys (items.keys.map fun k => decide (k ∈ read.flatMap (selectKeys table))) =
      table.conflicts items.keys := by
  rw [conflictsOf_map]
  refine List.filter_congr fun k hk => ?_
  have hm : ∃ c ∈ read, k ∈ c := h ▸ (mem_chunk maxSqlVariables.pos).mpr hk
  obtain ⟨c, hc, hkc⟩ := hm
  rw [Bool.eq_iff_iff, decide_eq_true_iff, List.mem_flatMap]
  constructor
  · rintro ⟨c, -, hkc⟩
    exact (List.mem_filter.mp hkc).2
  · intro hs
    exact ⟨c, hc, List.mem_filter.mpr ⟨hkc, hs⟩⟩

/-! ### The obligations of a turn -/

/-- The obligations of a turn of task `i` to phase `p`. -/
theorem Inv.turn (h : Inv layout maxSqlVariables calls table₀ s)
    (htask : s'.task = Function.update s.task i p)
    (htable : ∀ j, j ≠ i → (s.task j).inside → ∀ k ∈ (calls j).keys, s'.table k = s.table k)
    (hp : ∀ items onConflict, calls i = .setMany items onConflict →
      TaskInv layout maxSqlVariables items onConflict s'.table p)
    (hlock : ∀ j, j ≠ i → s.lock = some j → s'.lock = some j)
    (hholding : p.holding → s'.lock = some i)
    (hserial : Serializable (fun i m => Call.atomic layout m (calls i)) table₀
      (fun i => (s'.task i).effect) s'.table)
    (hcommitted : s'.committed = s'.table ∨ ∃ i, s'.task i = .committing) :
    Inv layout maxSqlVariables calls table₀ s' where
  task j items onConflict hj := by
    rw [htask]
    by_cases hji : j = i
    · subst hji
      simpa using hp items onConflict hj
    · rw [Function.update_of_ne hji]
      refine (h.task j items onConflict hj).congr fun hin k hk => htable j hji hin k ?_
      rw [hj]
      exact hk
  lock j hj := by
    rw [htask] at hj
    by_cases hji : j = i
    · subst hji
      exact hholding (by simpa using hj)
    · rw [Function.update_of_ne hji] at hj
      exact hlock j hji (h.lock j hj)
  serial := hserial
  committed := hcommitted

omit [LinearOrder K] [ShallowMerge V] in
theorem committing_of_update (h : ∃ j, s.task j = .committing) (hi : s.task i ≠ .committing) :
    ∃ j, Function.update s.task i p j = .committing := by
  obtain ⟨j, hj⟩ := h
  have hji : j ≠ i := by
    rintro rfl
    exact hi hj
  exact ⟨j, by rw [Function.update_of_ne hji, hj]⟩

omit [DecidableEq ι] in
/-- Only one task holds the lock, so no other has read what it is going to write. -/
theorem Inv.apart_of_holding (h : Inv layout maxSqlVariables calls table₀ s)
    (hi : (s.task i).holding) :
    ∀ j, j ≠ i → (s.task j).inside → ¬ SharesKey (calls i) (calls j) := by
  intro j hj hin
  have hlocks := (h.lock i hi).symm.trans (h.lock j (Phase.holding_of_inside hin))
  exact absurd (Option.some.inj hlocks).symm hj

/-- A statement that reads. -/
theorem Inv.move (h : Inv layout maxSqlVariables calls table₀ s) (hi : (s.task i).holding)
    (hp : p.holding)
    (hinv : ∀ items onConflict, calls i = .setMany items onConflict →
      TaskInv layout maxSqlVariables items onConflict s.table p) :
    Inv layout maxSqlVariables calls table₀ (s.move i p) := by
  have heffect : ∀ q : Phase K V, q.holding → q.effect = none := by
    intro q hq
    cases q <;> first | rfl | cases hq
  refine h.turn rfl (fun _ _ _ _ _ => rfl) hinv (fun _ _ hl => hl) (fun _ => h.lock i hi)
    (h.serial.stay ((heffect p hp).trans (heffect _ hi).symm)) ?_
  refine h.committed.imp id fun hc => committing_of_update hc fun he => ?_
  simp [he, Phase.holding] at hi

/-- A write: the call takes effect. -/
theorem Inv.write (h : Inv layout maxSqlVariables calls table₀ s) {table : Contents K R}
    (hi : (s.task i).effect = none) (hcall : Call.atomic layout s.table (calls i) = (.ok (), table))
    (hframe : ∀ k, k ∉ (calls i).keys → table k = s.table k)
    (hapart : ∀ j, j ≠ i → (s.task j).inside → ¬ SharesKey (calls i) (calls j)) :
    Inv layout maxSqlVariables calls table₀ (s.write i table) := by
  refine h.turn rfl (fun j hj hin k hk => hframe k fun hki => hapart j hj hin ⟨k, hki, hk⟩)
    (fun _ _ _ => trivial) (fun _ _ hl => hl) (by simp [Phase.holding])
    (h.serial.take hi hcall rfl) (.inr ⟨i, ?_⟩)
  simp [Connection.write]

/-- A call that is over without having written. -/
theorem Inv.finish (h : Inv layout maxSqlVariables calls table₀ s)
    {o : Except (StoreError K) Unit} (hi : (s.task i).effect = none)
    (hcall : Call.atomic layout s.table (calls i) = (o, s.table)) :
    Inv layout maxSqlVariables calls table₀ (s.finish i s.committed o) := by
  refine h.turn rfl (fun _ _ _ _ _ => rfl) (fun _ _ _ => trivial) (fun j hj hl => ?_)
    (by simp [Phase.holding]) (h.serial.take hi hcall rfl) ?_
  · simp [Connection.finish, hl, hj]
  · refine h.committed.imp id fun hc => committing_of_update hc fun he => ?_
    simp [he, Phase.effect] at hi

/-- A commit. -/
theorem Inv.commit (h : Inv layout maxSqlVariables calls table₀ s) (hi : s.task i = .committing) :
    Inv layout maxSqlVariables calls table₀ (s.finish i s.table (.ok ())) := by
  refine h.turn rfl (fun _ _ _ _ _ => rfl) (fun _ _ _ => trivial) (fun j hj hl => ?_)
    (by simp [Phase.holding]) (h.serial.stay (by rw [hi]; rfl)) (.inl rfl)
  simp [Connection.finish, hl, hj]

/-! ### Every turn keeps the invariant -/

section SetMany

variable {items : Dict K V} {onConflict : OnConflict}

omit [LinearOrder K] [DecidableEq ι] [ShallowMerge V] in
/-- Task `i` runs one call. -/
theorem forall_setMany {P : Dict K V → OnConflict → Prop}
    (hcalls : calls i = .setMany items onConflict) (h : P items onConflict) :
    ∀ items' onConflict', calls i = .setMany items' onConflict' → P items' onConflict' := by
  intro items' onConflict' he
  rw [hcalls] at he
  cases he
  exact h

/-- The `overwrite`, or the lock. -/
theorem Inv.start (h : Inv layout maxSqlVariables calls table₀ s)
    (hcalls : calls i = .setMany items onConflict) (hp : s.task i = .start)
    (hG : NoOverlap calls s i)
    (hs : SqliteTasks.step layout maxSqlVariables calls s i = some s') :
    Inv layout maxSqlVariables calls table₀ s' := by
  have heff : (s.task i).effect = none := by rw [hp]; rfl
  simp only [SqliteTasks.step, hcalls, hp] at hs
  simp only [NoOverlap, hp] at hG
  split_ifs at hs with he ho hl <;> cases hs
  · refine h.finish heff ?_
    rw [hcalls, show items = ∅ from Dict.ext he]
    exact atomicSetMany_empty
  · subst ho
    refine h.write heff ?_ (fun k hk => ?_) (hG (by rw [hcalls]; rfl))
    · rw [hcalls]
      exact atomicSetMany_overwrite
    · rw [hcalls] at hk
      exact writeRows_of_not_mem hk
  · refine h.turn rfl (fun _ _ _ _ _ => rfl) (forall_setMany hcalls ho)
      (fun j _ hlj => ?_) (fun _ => rfl) (h.serial.stay (by rw [hp]; rfl)) ?_
    · rw [hl] at hlj
      cases hlj
    · exact h.committed.imp id fun hc => committing_of_update hc (by simp [hp])

/-- The existence query, one statement for each chunk of the keys. -/
theorem Inv.check (h : Inv layout maxSqlVariables calls table₀ s)
    (hcalls : calls i = .setMany items onConflict) {todo : List (List K)} {existing : List K}
    (hp : s.task i = .checking todo existing)
    (hs : SqliteTasks.step layout maxSqlVariables calls s i = some s') :
    Inv layout maxSqlVariables calls table₀ s' := by
  have hi := h.task i items onConflict hcalls
  rw [hp] at hi
  obtain ⟨ho, read, hchunk, rfl⟩ := hi
  cases todo with
  | cons c todo =>
    simp only [SqliteTasks.step, hcalls, hp] at hs
    cases hs
    exact h.move (by rw [hp]; rfl) rfl
      (forall_setMany hcalls ⟨ho, read ++ [c], by simp [hchunk], by simp⟩)
  | nil =>
    rw [List.append_nil] at hchunk
    simp only [SqliteTasks.step, hcalls, hp, conflicts_of_chunks hchunk] at hs
    split_ifs at hs with hc <;> cases hs
    · refine h.finish (by rw [hp]; rfl) ?_
      rw [hcalls, hc.2]
      exact atomicSetMany_of_conflict hc.1
    · exact h.move (by rw [hp]; rfl) rfl
        (forall_setMany hcalls ⟨ho, Resolving.start (by tauto)⟩)

/-- The loop over the items, and the write. -/
theorem Inv.resolve (h : Inv layout maxSqlVariables calls table₀ s)
    (hcalls : calls i = .setMany items onConflict) {conflicts : List K} {todo : List (K × V)}
    {toWrite : Dict K V} (hp : s.task i = .resolving conflicts todo toWrite)
    (hs : SqliteTasks.step layout maxSqlVariables calls s i = some s') :
    Inv layout maxSqlVariables calls table₀ s' := by
  have hi := h.task i items onConflict hcalls
  rw [hp] at hi
  obtain ⟨ho, hres⟩ := hi
  cases todo with
  | cons item todo =>
    simp only [SqliteTasks.step, hcalls, hp] at hs
    cases hs
    exact h.move (by rw [hp]; rfl) rfl (forall_setMany hcalls ⟨ho, hres.get⟩)
  | nil =>
    have hcall : Call.atomic layout s.table (calls i) =
        (.ok (), s.table.writeRows layout toWrite) := by
      rw [hcalls]
      exact hres.finish ho
    simp only [SqliteTasks.step, hcalls, hp] at hs
    split_ifs at hs with he <;> cases hs
    · obtain rfl : toWrite = ∅ := Dict.ext he
      exact h.finish (by rw [hp]; rfl) hcall
    · refine h.write (by rw [hp]; rfl) hcall (fun k hk => ?_)
        (h.apart_of_holding (by rw [hp]; rfl))
      rw [hcalls] at hk
      exact writeRows_of_not_mem fun hkw => hk (hres.keys_sub k hkw)

theorem Inv.setMany_step (h : Inv layout maxSqlVariables calls table₀ s)
    (hcalls : calls i = .setMany items onConflict) (hG : NoOverlap calls s i)
    (hs : SqliteTasks.step layout maxSqlVariables calls s i = some s') :
    Inv layout maxSqlVariables calls table₀ s' := by
  cases hp : s.task i with
  | start => exact h.start hcalls hp hG hs
  | locked =>
    have hi := h.task i items onConflict hcalls
    rw [hp] at hi
    simp only [SqliteTasks.step, hcalls, hp] at hs
    cases hs
    cases hchunk : chunk items.keys maxSqlVariables with
    | nil =>
      exact h.move (by rw [hp]; rfl) rfl (forall_setMany hcalls ⟨hi, [], by simp [hchunk], rfl⟩)
    | cons c todo =>
      exact h.move (by rw [hp]; rfl) rfl
        (forall_setMany hcalls ⟨hi, [c], by simp [hchunk], by simp⟩)
  | checking todo existing => exact h.check hcalls hp hs
  | resolving conflicts todo toWrite => exact h.resolve hcalls hp hs
  | committing =>
    simp only [SqliteTasks.step, hcalls, hp] at hs
    cases hs
    exact h.commit hp
  | done o =>
    simp only [SqliteTasks.step, hcalls, hp] at hs
    cases hs

end SetMany

/-- **A turn without overlap keeps the invariant.** -/
theorem Inv.step (h : Inv layout maxSqlVariables calls table₀ s) (hG : NoOverlap calls s i)
    (hs : SqliteTasks.step layout maxSqlVariables calls s i = some s') :
    Inv layout maxSqlVariables calls table₀ s' := by
  cases hcalls : calls i with
  | setMany items onConflict => exact h.setMany_step hcalls hG hs
  | delete key =>
    rw [SqliteTasks.step] at hs
    rw [NoOverlap] at hG
    cases hp : s.task i <;> simp only [hcalls, hp] at hs hG <;> cases hs
    · refine h.write (by rw [hp]; rfl) (by rw [hcalls]; rfl) (fun k hk => ?_) ?_
      · rw [hcalls] at hk
        exact if_neg hk
      · rw [hcalls]
        exact hG rfl
    · exact h.commit hp

/-- **Without overlap the tasks are serializable.** In every state of a run whose turns satisfy
`NoOverlap`, the calls that have written or are over, executed atomically in some order, give their
outcomes and the rows there are; when all calls are over these are the committed rows. -/
theorem sqliteTasks_serializable
    (h : Reaches (SqliteTasks.step layout maxSqlVariables calls) (NoOverlap calls) (init table₀)
      s) :
    Serializable (fun i m => Call.atomic layout m (calls i)) table₀ (fun i => (s.task i).effect)
      s.table ∧
    ((∀ i, (s.task i).outcome.isSome) →
      Serializable (fun i m => Call.atomic layout m (calls i)) table₀
        (fun i => (s.task i).outcome) s.committed) := by
  have hinv : Inv layout maxSqlVariables calls table₀ s :=
    h.invariant inv_init fun _ _ _ hi hG hs => hi.step hG hs
  refine ⟨hinv.serial, fun hover => ?_⟩
  have hdone : ∀ i, ∃ o, s.task i = .done o := by
    intro i
    have hi := hover i
    cases hp : s.task i <;> simp [hp, Phase.outcome] at hi ⊢
  have hcommitted : s.committed = s.table := by
    refine hinv.committed.resolve_right fun ⟨i, hi⟩ => ?_
    obtain ⟨o, ho⟩ := hdone i
    rw [hi] at ho
    cases ho
  rw [hcommitted]
  refine hinv.serial.congr fun i => ?_
  obtain ⟨o, ho⟩ := hdone i
  rw [ho]
  rfl

/-! ### A `merge` and an `overwrite` of one key -/

/-- The two calls. -/
def mergeOverwrite : Bool → Call String (Dict String ℕ)
  | false => .setMany (.ofList [("k", .ofList [("b", 2)])]) .merge
  | true => .setMany (.ofList [("k", .ofList [("c", 3)])]) .overwrite

/-- The table they run on. -/
def oneRow : Contents String (Dict String ℕ) := fun k =>
  if k = "k" then some (.ofList [("a", 1)]) else none

/-- The outcomes and the committed row. -/
def observed (s : Connection Bool String (Dict String ℕ) (Dict String ℕ)) :
    Option (Except (StoreError String) Unit) × Option (Except (StoreError String) Unit) ×
      Option (Dict String ℕ) :=
  ((s.task false).outcome, (s.task true).outcome, s.committed "k")

/-- One call after the other. -/
theorem sqliteTasks_serializable_in_turn :
    ∃ s, play (guarded (SqliteTasks.step ⟨id, id⟩ 900 mergeOverwrite) (NoOverlap mergeOverwrite))
        (init oneRow) [false, false, false, false, false, false, true, true] = some s ∧
      observed s = (some (.ok ()), some (.ok ()), some (.ofList [("c", 3)])) ∧
      Serializable (fun i m => Call.atomic ⟨id, id⟩ m (mergeOverwrite i)) oneRow
        (fun i => (s.task i).outcome) s.committed := by
  obtain ⟨s, hs, ho⟩ := Option.map_eq_some_iff.mp
    (rfl : (play (guarded (SqliteTasks.step ⟨id, id⟩ 900 mergeOverwrite) (NoOverlap mergeOverwrite))
      (init oneRow) [false, false, false, false, false, false, true, true]).map observed =
        some (some (.ok ()), some (.ok ()), some (.ofList [("c", 3)])))
  refine ⟨s, hs, ho, (sqliteTasks_serializable (reaches_of_play_guarded hs)).2 fun i => ?_⟩
  have hf : (s.task false).outcome = some (.ok ()) := congrArg Prod.fst ho
  have ht : (s.task true).outcome = some (.ok ()) := congrArg (·.2.1) ho
  cases i <;> simp [hf, ht]

/-- **The lost update.** The `merge` reads, the `overwrite` writes and commits, the `merge` writes:
the field `c` of the `overwrite` is gone. -/
theorem sqliteTasks_lose_update :
    ∃ s, play (SqliteTasks.step ⟨id, id⟩ 900 mergeOverwrite) (init oneRow)
        [false, false, false, false, true, true, false, false] = some s ∧
      observed s = (some (.ok ()), some (.ok ()), some (.ofList [("a", 1), ("b", 2)])) ∧
      ¬ Serializable (fun i m => Call.atomic ⟨id, id⟩ m (mergeOverwrite i)) oneRow
        (fun i => (s.task i).outcome) s.committed := by
  obtain ⟨s, hs, ho⟩ := Option.map_eq_some_iff.mp
    (rfl : (play (SqliteTasks.step ⟨id, id⟩ 900 mergeOverwrite) (init oneRow)
      [false, false, false, false, true, true, false, false]).map observed =
        some (some (.ok ()), some (.ok ()), some (.ofList [("a", 1), ("b", 2)])))
  refine ⟨s, hs, ho, fun hser => ?_⟩
  have hk : s.committed "k" = some (.ofList [("a", 1), ("b", 2)]) := congrArg (·.2.2) ho
  rcases hser.two (congrArg Prod.fst ho) (congrArg (·.2.1) ho) with ⟨-, h⟩ | ⟨-, h⟩
  · exact absurd ((congrArg (·.2 "k") h).trans hk) (by decide)
  · exact absurd ((congrArg (·.2 "k") h).trans hk) (by decide)

end SqliteTasks

end Persista
