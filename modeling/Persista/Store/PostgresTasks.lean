import Persista.Store.PostgresSessions
import Mathlib.Data.String.Basic

/-!
# `PostgresStore.aset_many`, one task per call

`store/postgres.py`, asynchronous API. Every task of one store uses the one `AsyncConnection` of the
store, so the tasks are one session to the server. Two things follow. An advisory lock that a task
takes is granted again to the other tasks: `_alock_keys` excludes other sessions and nobody here.
And a transaction block entered while another one is open is a savepoint inside it: it must be left
first, what it wrote is undone when the enclosing block rolls back, and leaving the enclosing one
first raises. The connection counts the open blocks, and a block knows how many there were when it
was entered; when it leaves and the counts do not fit, it raises and the server hears nothing.

A turn of a task is one statement: entering the block, the locks, the existence query, one read, one
upsert, leaving the block. Other sessions are not part of this model.

## Main results

* `PostgresTasks.Inv.step` — a turn that satisfies `Orderly` keeps the invariant
* `PostgresTasks.tasks_serializable` — the runs whose turns are orderly are serializable, and no
  call fails but by its own `KeyError`
* `PostgresTasks.tasks_not_serializable` — two `merge`s of different keys, which both fail because
  one leaves its block first
-/

namespace Persista

namespace PostgresTasks

open Interleaving Contents Postgres

variable {ι K V R : Type}

/-- A `raise`, `skip` or `merge` call. -/
structure LockingCall (K V : Type) extends Call K V where
  locking : onConflict ≠ .overwrite

/-- What a task can raise: an error of the store, or psycopg's complaint that a transaction block is
left while a block inside it is open. -/
inductive TaskError (K : Type)
  | store (e : StoreError K)
  | outOfOrderTransactionNesting
  deriving DecidableEq

/-- Where a task is in its call. -/
inductive Phase (K V R : Type)
  | start
  /-- In the transaction block; `_alock_keys` is next. -/
  | entered
  /-- `acontains_many` is next. -/
  | locked
  /-- In the loop of `aresolve_conflicts`. -/
  | resolving (conflicts : List K) (todo : List (K × V)) (toWrite : Dict K V)
  /-- In `_aset_many`, with the rows left. -/
  | writing (todo : List (K × R))
  /-- The block is left next, normally or with an exception. -/
  | leaving (outcome : Except (StoreError K) Unit)
  | done (outcome : Except (TaskError K) Unit)

/-- The outcome of a call that is over. -/
def Phase.outcome : Phase K V R → Option (Except (TaskError K) Unit)
  | .done o => some o
  | _ => none

/-- The task is between its existence query and the end of its block. -/
def Phase.inside : Phase K V R → Bool
  | .resolving .. | .writing _ | .leaving _ => true
  | _ => false

/-- The task is between its first upsert and the end of its block. -/
def Phase.upserting : Phase K V R → Bool
  | .writing _ | .leaving (.ok _) => true
  | _ => false

/-- A transaction block of the server: the transaction, or a savepoint, which is named after the
stack index. -/
structure Block (ι K R : Type) where
  owner : ι
  stackIndex : ℕ
  /-- What leaving the block with an exception restores. -/
  before : Contents K R
  /-- Something was written since the block was entered. -/
  written : Bool

/-- The connection and its tasks: the rows its statements see, the blocks of the server, innermost
first, psycopg's count of open blocks, and the stack index of the block of each task. -/
structure Connection (ι K V R : Type) where
  view : Contents K R
  blocks : List (Block ι K R)
  numTransactions : ℕ
  stackIndex : ι → ℕ
  task : ι → Phase K V R

/-- The rows other sessions see: those before the outermost open block. -/
def Connection.committed (s : Connection ι K V R) : Contents K R :=
  match s.blocks.getLast? with
  | some b => b.before
  | none => s.view

variable [LinearOrder K] [DecidableEq ι]

/-- A task moves on; the rows and the blocks are as they were. -/
def Connection.move (s : Connection ι K V R) (i : ι) (p : Phase K V R) : Connection ι K V R :=
  { s with task := Function.update s.task i p }

/-- Task `i` enters its block. -/
def Connection.enter (s : Connection ι K V R) (i : ι) : Connection ι K V R where
  view := s.view
  blocks := ⟨i, s.numTransactions, s.view, false⟩ :: s.blocks
  numTransactions := s.numTransactions + 1
  stackIndex := Function.update s.stackIndex i s.numTransactions
  task := Function.update s.task i .entered

/-- Task `i` leaves its block, which has to be the innermost one by the counts. The server ends the
last block of that index, with all blocks inside it. -/
def Connection.leave (s : Connection ι K V R) (i : ι) (o : Except (StoreError K) Unit) :
    Connection ι K V R :=
  let numTransactions := s.numTransactions - 1
  if numTransactions = s.stackIndex i then
    let blocks := s.blocks.dropWhile fun b => b.stackIndex ≠ s.stackIndex i
    { s with
      view := if o.isOk then s.view else (blocks.head?.map Block.before).getD s.view
      blocks := blocks.tail
      numTransactions
      task := Function.update s.task i (.done (o.mapError .store)) }
  else
    { s with
      numTransactions
      task := Function.update s.task i (.done (.error .outOfOrderTransactionNesting)) }

/-- The next statement of a task. -/
def step [ShallowMerge V] (layout : Layout V R) (calls : ι → LockingCall K V)
    (s : Connection ι K V R) (i : ι) : Option (Connection ι K V R) :=
  let items := (calls i).items
  let onConflict := (calls i).onConflict
  match s.task i with
  | .start =>
    if items.entries = [] then some (s.move i (.done (.ok ())))
    else some (s.enter i)
  -- the session already holds every lock another task of it holds
  | .entered => some (s.move i .locked)
  | .locked =>
    let conflicts := conflictsOf items.keys (s.view.containsMany items.keys)
    if conflicts ≠ [] ∧ onConflict = .raise then
      some (s.move i (.leaving (.error (.keyError (sorted conflicts)))))
    else some (s.move i (.resolving conflicts items.entries ∅))
  | .resolving conflicts (item :: todo) toWrite =>
    let toWrite := resolveItem conflicts onConflict (s.view.read layout) toWrite item
    some (s.move i (.resolving conflicts todo toWrite))
  | .resolving _ [] toWrite => some (s.move i (.writing (rows layout toWrite)))
  | .writing (row :: todo) =>
    some { s.move i (.writing todo) with
      view := Function.update s.view row.1 (some row.2)
      blocks := s.blocks.map fun b => { b with written := true } }
  | .writing [] => some (s.move i (.leaving (.ok ())))
  | .leaving o => some (s.leave i o)
  | .done _ => none

/-- All tasks are about to call; no block is open. -/
def init (table : Contents K R) : Connection ι K V R := ⟨table, [], 0, fun _ => 0, fun _ => .start⟩

/-- A call executed atomically. -/
def LockingCall.atomic [ShallowMerge V] (layout : Layout V R) (c : LockingCall K V)
    (m : Contents K R) : Except (TaskError K) Unit × Contents K R :=
  ((c.toCall.atomic layout m).1.mapError .store, (c.toCall.atomic layout m).2)

/-- A call makes its existence query only when no call on one of its keys is between its own and the
end of its block; it leaves its block only when it is the innermost one, and with an exception only
when nothing was written since the block was entered. -/
def Orderly (calls : ι → LockingCall K V) (s : Connection ι K V R) (i : ι) : Prop :=
  match s.task i with
  | .locked => ∀ j, j ≠ i → (s.task j).inside → ¬ SharesKey (calls i).toCall (calls j).toCall
  | .leaving o => ∃ b ∈ s.blocks.head?, b.owner = i ∧ (o.isOk ∨ b.written = false)
  | _ => True

instance [Fintype ι] (calls : ι → LockingCall K V) (s : Connection ι K V R) (i : ι) :
    Decidable (Orderly calls s i) := by
  unfold Orderly
  split <;> infer_instance

/-! ### The invariant -/

/-- What is true of a task inside its call, when the calls that are over explain the contents
`m`. -/
def TaskInv [ShallowMerge V] (layout : Layout V R) (c : LockingCall K V) (m view : Contents K R) :
    Phase K V R → Prop
  | .resolving conflicts todo toWrite =>
    m.Resolving layout c.items c.onConflict conflicts todo toWrite
  | .writing todo => ∃ conflicts toWrite,
    m.Resolving layout c.items c.onConflict conflicts [] toWrite ∧
      (∀ row ∈ todo, row ∈ rows layout toWrite) ∧
      ∀ k ∈ c.items.keys, k ∈ todo.map Prod.fst ∨ view k = m.writeRows layout toWrite k
  | .leaving (.ok _) => ∃ conflicts toWrite,
    m.Resolving layout c.items c.onConflict conflicts [] toWrite ∧
      ∀ k ∈ c.items.keys, view k = m.writeRows layout toWrite k
  | .leaving (.error e) => c.onConflict = .raise ∧ m.conflicts c.items.keys ≠ [] ∧
    e = .keyError (sorted (m.conflicts c.items.keys))
  | .done o => o = .ok () ∨ ∃ conflicts, o = .error (.store (.keyError conflicts))
  | _ => True

/-- Each block was entered inside the ones after it: its index is the number of these. -/
def Nested (stackIndex : ι → ℕ) : List (Block ι K R) → Prop
  | [] => True
  | b :: blocks =>
    b.stackIndex = blocks.length ∧ stackIndex b.owner = blocks.length ∧ Nested stackIndex blocks

/-- No call that has the key is between its first upsert and the end of its block. -/
def Settled (calls : ι → LockingCall K V) (s : Connection ι K V R) (k : K) : Prop :=
  ∀ i, (s.task i).upserting → k ∉ (calls i).items.keys

/-- The invariant of a run that started on the rows `table₀`: the calls that are over explain the
contents `m`, and these are the rows of the connection wherever no call is writing. -/
structure Inv [ShallowMerge V] (layout : Layout V R) (calls : ι → LockingCall K V)
    (table₀ : Contents K R) (s : Connection ι K V R) (m : Contents K R) : Prop where
  task : ∀ i, TaskInv layout (calls i) m s.view (s.task i)
  apart : ∀ i j, i ≠ j → (s.task i).inside → (s.task j).inside →
    ¬ SharesKey (calls i).toCall (calls j).toCall
  count : s.numTransactions = s.blocks.length
  nested : Nested s.stackIndex s.blocks
  owners : (s.blocks.map Block.owner).Nodup
  owner : ∀ b ∈ s.blocks, s.task b.owner ≠ .start ∧ (s.task b.owner).outcome = none
  before : ∀ b ∈ s.blocks, b.written = false → s.view = b.before
  serial : Serializable (fun i => (calls i).atomic layout) table₀ (fun i => (s.task i).outcome) m
  settled : ∀ k, Settled calls s k → s.view k = m k

variable [ShallowMerge V] {layout : Layout V R} {calls : ι → LockingCall K V}
  {table₀ m m' : Contents K R} {s s' : Connection ι K V R} {i : ι} {p : Phase K V R} {k : K}

omit [DecidableEq ι] in
theorem inv_init : Inv layout calls table₀ (init table₀) table₀ where
  task _ := trivial
  apart _ _ _ hi := by simp [init, Phase.inside] at hi
  count := rfl
  nested := trivial
  owners := List.nodup_nil
  owner _ hb := by cases hb
  before _ hb := by cases hb
  serial := Serializable.start fun _ => rfl
  settled _ _ := rfl

omit [DecidableEq ι] in
/-- The invariant of a task is about its keys. -/
theorem TaskInv.congr {c : LockingCall K V} {view view' : Contents K R}
    (h : TaskInv layout c m view p)
    (hm : p.inside → ∀ k ∈ c.items.keys, m' k = m k)
    (hv : p.inside → ∀ k ∈ c.items.keys, view' k = view k) : TaskInv layout c m' view' p := by
  have hw : p.inside → ∀ toWrite : Dict K V, ∀ k ∈ c.items.keys,
      m'.writeRows layout toWrite k = m.writeRows layout toWrite k := by
    intro hin toWrite k hk
    rw [writeRows_apply, writeRows_apply, hm hin k hk]
  cases p with
  | resolving conflicts todo toWrite => exact Resolving.congr h (hm rfl)
  | writing todo =>
    obtain ⟨conflicts, toWrite, hres, hsub, hrows⟩ := h
    refine ⟨conflicts, toWrite, hres.congr (hm rfl), hsub, fun k hk => ?_⟩
    rw [hw rfl toWrite k hk, hv rfl k hk]
    exact hrows k hk
  | leaving o =>
    cases o with
    | ok u =>
      obtain ⟨conflicts, toWrite, hres, hrows⟩ := h
      refine ⟨conflicts, toWrite, hres.congr (hm rfl), fun k hk => ?_⟩
      rw [hw rfl toWrite k hk, hv rfl k hk]
      exact hrows k hk
    | error e =>
      have hc := conflicts_congr (hm rfl)
      exact ⟨h.1, hc ▸ h.2.1, hc ▸ h.2.2⟩
  | start => trivial
  | entered => trivial
  | locked => trivial
  | done o => exact h

omit [LinearOrder K] [DecidableEq ι] [ShallowMerge V] in
theorem nested_congr {stackIndex stackIndex' : ι → ℕ} {blocks : List (Block ι K R)}
    (h : ∀ b ∈ blocks, stackIndex' b.owner = stackIndex b.owner) (hn : Nested stackIndex blocks) :
    Nested stackIndex' blocks := by
  induction blocks with
  | nil => trivial
  | cons b blocks ih =>
    obtain ⟨hb, hi, hn⟩ := hn
    exact ⟨hb, (h b List.mem_cons_self).trans hi,
      ih (fun b' hb' => h b' (List.mem_cons_of_mem _ hb')) hn⟩

omit [LinearOrder K] [DecidableEq ι] [ShallowMerge V] in
/-- Writing changes neither the owners nor the indices. -/
theorem nested_map_written {stackIndex : ι → ℕ} {blocks : List (Block ι K R)}
    (hn : Nested stackIndex blocks) :
    Nested stackIndex (blocks.map fun b => { b with written := true }) := by
  induction blocks with
  | nil => trivial
  | cons b blocks ih =>
    obtain ⟨hb, hi, hn⟩ := hn
    refine ⟨?_, ?_, ih hn⟩
    · rwa [List.length_map]
    · rwa [List.length_map]

/-! ### The obligations of a turn -/

/-- The obligations of a turn of task `i` to phase `p`, about the tasks. The rows become `view`, the
explained contents `m'`. -/
theorem Inv.tasks (h : Inv layout calls table₀ s m) (i : ι) {p : Phase K V R}
    {m' view : Contents K R} (hp : TaskInv layout (calls i) m' view p)
    (hm : ∀ j, j ≠ i → (s.task j).inside → ∀ k ∈ (calls j).items.keys, m' k = m k)
    (hv : ∀ j, j ≠ i → (s.task j).inside → ∀ k ∈ (calls j).items.keys, view k = s.view k)
    (hapart : p.inside → ∀ j, j ≠ i → (s.task j).inside →
      ¬ SharesKey (calls i).toCall (calls j).toCall) :
    (∀ j, TaskInv layout (calls j) m' view (Function.update s.task i p j)) ∧
      ∀ j j', j ≠ j' → (Function.update s.task i p j).inside →
        (Function.update s.task i p j').inside →
          ¬ SharesKey (calls j).toCall (calls j').toCall := by
  constructor
  · intro j
    by_cases hj : j = i
    · subst hj
      simpa using hp
    · rw [Function.update_of_ne hj]
      exact (h.task j).congr (hm j hj) (hv j hj)
  · exact pairwise_update (fun _ _ hR ⟨k, hk, hk'⟩ => hR ⟨k, hk', hk⟩) h.apart hapart

omit [LinearOrder K] [ShallowMerge V] in
theorem Settled.of_update (h : Settled calls s' k) (htask : s'.task = Function.update s.task i p)
    (hi : (s.task i).upserting → k ∉ (calls i).items.keys) : Settled calls s k := by
  rw [Settled, htask] at h
  exact forall_of_update h hi

omit [LinearOrder K] [ShallowMerge V] [DecidableEq ι] in
theorem Phase.inside_of_upserting {p : Phase K V R} (h : p.upserting) : p.inside := by
  cases p <;> first | rfl | cases h

omit [LinearOrder K] [ShallowMerge V] [DecidableEq ι] in
/-- A call that no other call overlaps reads settled rows, until it upserts. -/
theorem settled_of_apart (hup : (s.task i).upserting = false)
    (h : ∀ j, j ≠ i → (s.task j).inside → ¬ SharesKey (calls i).toCall (calls j).toCall)
    (hk : k ∈ (calls i).items.keys) : Settled calls s k := by
  intro j hj hkj
  have hji : j ≠ i := by
    rintro rfl
    simp [hup] at hj
  exact h j hji (Phase.inside_of_upserting hj) ⟨k, hk, hkj⟩

/-- A statement that changes no row. -/
theorem Inv.move (h : Inv layout calls table₀ s m) (hi : (s.task i).outcome = none)
    (hp : TaskInv layout (calls i) m s.view p) (hstart : p ≠ .start) (hout : p.outcome = none)
    (hup : (s.task i).upserting → p.upserting)
    (hapart : p.inside → ∀ j, j ≠ i → (s.task j).inside →
      ¬ SharesKey (calls i).toCall (calls j).toCall) :
    Inv layout calls table₀ (s.move i p) m := by
  obtain ⟨htasks, happart⟩ := h.tasks i hp (fun _ _ _ _ _ => rfl) (fun _ _ _ _ _ => rfl) hapart
  refine ⟨htasks, happart, h.count, h.nested, h.owners, fun b hb => ?_, h.before,
    h.serial.stay (hout.trans hi.symm), fun k hk => ?_⟩
  · by_cases hbi : b.owner = i
    · simp [Connection.move, hbi, hstart, hout]
    · simpa [Connection.move, hbi] using h.owner b hb
  · refine h.settled k (hk.of_update rfl fun hiu => ?_)
    exact hk i (by simpa [Connection.move] using hup hiu)

/-! ### Every turn keeps the invariant -/

/-- The transaction block is entered. -/
theorem Inv.enter (h : Inv layout calls table₀ s m) (hi : s.task i = .start) :
    Inv layout calls table₀ (s.enter i) m := by
  have hp : TaskInv layout (calls i) m s.view .entered := trivial
  obtain ⟨htasks, happart⟩ := h.tasks i hp (fun _ _ _ _ _ => rfl) (fun _ _ _ _ _ => rfl)
    (by simp [Phase.inside])
  have hne : ∀ b ∈ s.blocks, b.owner ≠ i := fun b hb he => (h.owner b hb).1 (he ▸ hi)
  refine ⟨htasks, happart, ?_, ?_, ?_, ?_, ?_,
    h.serial.stay (by rw [hi]; rfl), fun k hk => ?_⟩
  · rw [Connection.enter, List.length_cons, h.count]
  · have hrest : Nested (Function.update s.stackIndex i s.numTransactions) s.blocks :=
      nested_congr (fun b hb => Function.update_of_ne (hne b hb) _ _) h.nested
    exact ⟨h.count, (Function.update_self ..).trans h.count, hrest⟩
  · rw [Connection.enter, List.map_cons, List.nodup_cons]
    refine ⟨fun hmem => ?_, h.owners⟩
    obtain ⟨b, hb, he⟩ := List.mem_map.mp hmem
    exact hne b hb he
  · intro b hb
    rcases List.mem_cons.mp hb with rfl | hb
    · simp [Connection.enter, Phase.outcome]
    · simpa [Connection.enter, hne b hb] using h.owner b hb
  · intro b hb hw
    rcases List.mem_cons.mp hb with rfl | hb
    · rfl
    · exact h.before b hb hw
  · exact h.settled k (hk.of_update rfl (by simp [hi, Phase.upserting]))

/-- A call with no item. -/
theorem Inv.empty (h : Inv layout calls table₀ s m) (hi : s.task i = .start)
    (he : (calls i).items.entries = []) :
    Inv layout calls table₀ (s.move i (.done (.ok ()))) m := by
  have hp : TaskInv layout (calls i) m s.view (.done (.ok ())) := .inl rfl
  obtain ⟨htasks, happart⟩ := h.tasks i hp (fun _ _ _ _ _ => rfl) (fun _ _ _ _ _ => rfl)
    (by simp [Phase.inside])
  have hne : ∀ b ∈ s.blocks, b.owner ≠ i := fun b hb he => (h.owner b hb).1 (he ▸ hi)
  have hcall : (calls i).atomic layout m = (.ok (), m) := by
    rw [LockingCall.atomic, Call.atomic, show (calls i).items = ∅ from Dict.ext he,
      atomicSetMany_empty]
    rfl
  refine ⟨htasks, happart, h.count, h.nested, h.owners, fun b hb => ?_, h.before,
    h.serial.take (by rw [hi]; rfl) hcall rfl, fun k hk => ?_⟩
  · simpa [Connection.move, hne b hb] using h.owner b hb
  · exact h.settled k (hk.of_update rfl (by simp [hi, Phase.upserting]))

/-- One upsert. -/
theorem Inv.write (h : Inv layout calls table₀ s m) {row : K × R} {todo : List (K × R)}
    (hi : s.task i = .writing (row :: todo)) :
    Inv layout calls table₀
      { s.move i (.writing todo) with
        view := Function.update s.view row.1 (some row.2)
        blocks := s.blocks.map fun b => { b with written := true } } m := by
  have hin : (s.task i).inside := by rw [hi]; rfl
  have hti := h.task i
  rw [hi] at hti
  obtain ⟨conflicts, toWrite, hres, hsub, hrows⟩ := hti
  have hrow : row ∈ rows layout toWrite := hsub row List.mem_cons_self
  have hkey : row.1 ∈ (calls i).items.keys := hres.keys_sub _ (fst_mem_keys_of_mem_rows hrow)
  have hframe : ∀ k, k ∉ (calls i).items.keys →
      Function.update s.view row.1 (some row.2) k = s.view k := fun k hk =>
    Function.update_of_ne (fun he : k = row.1 => hk (he ▸ hkey)) _ _
  have hp : TaskInv layout (calls i) m (Function.update s.view row.1 (some row.2))
      (.writing todo) := by
    refine ⟨conflicts, toWrite, hres, fun r hr => hsub r (List.mem_cons_of_mem _ hr),
      fun k hk => ?_⟩
    by_cases hkr : k = row.1
    · right
      rw [hkr, Function.update_self, writeRows_of_mem_rows hrow]
    · rw [Function.update_of_ne hkr]
      simpa [hkr] using hrows k hk
  obtain ⟨htasks, happart⟩ := h.tasks i hp (fun _ _ _ _ _ => rfl)
    (fun j hj hjin k hk => hframe k fun hki => h.apart i j hj.symm hin hjin ⟨k, hki, hk⟩)
    (fun _ j hj => h.apart i j hj.symm hin)
  refine ⟨htasks, happart, ?_, nested_map_written h.nested, ?_, ?_, ?_,
    h.serial.stay (by rw [hi]; rfl), fun k hk => ?_⟩
  · rw [List.length_map]
    exact h.count
  · simpa [List.map_map, Function.comp_def] using h.owners
  · intro b' hb'
    obtain ⟨b, hb, rfl⟩ := List.mem_map.mp hb'
    by_cases hbi : b.owner = i
    · simp [Connection.move, hbi, Phase.outcome]
    · simpa [Connection.move, hbi] using h.owner b hb
  · intro b' hb' hw
    obtain ⟨b, hb, rfl⟩ := List.mem_map.mp hb'
    cases hw
  · have hki : k ∉ (calls i).items.keys := hk i (by simp [Connection.move, Phase.upserting])
    exact (hframe k hki).trans (h.settled k (hk.of_update rfl fun _ => hki))

section Leave

variable {b : Block ι K R} {blocks : List (Block ι K R)}

/-- The innermost block is left: the counts fit. -/
theorem Inv.leave_eq (h : Inv layout calls table₀ s m) (hb : s.blocks = b :: blocks)
    (hbi : b.owner = i) (o : Except (StoreError K) Unit) :
    s.leave i o =
      ⟨if o.isOk then s.view else b.before, blocks, blocks.length, s.stackIndex,
        Function.update s.task i (.done (o.mapError .store))⟩ := by
  have hcount := h.count
  have hnested := h.nested
  rw [hb] at hcount hnested
  obtain ⟨hindex, howner, -⟩ := hnested
  rw [hbi] at howner
  have hpred : s.numTransactions - 1 = blocks.length := by
    rw [hcount, List.length_cons, Nat.add_sub_cancel]
  have hdrop : s.blocks.dropWhile (fun b => b.stackIndex ≠ s.stackIndex i) = b :: blocks := by
    rw [hb, List.dropWhile_cons_of_neg (by simp [hindex, howner])]
  rw [Connection.leave, hpred, if_pos howner.symm, hdrop]
  rfl

/-- The blocks that are left when the innermost one is. -/
theorem Inv.rest (h : Inv layout calls table₀ s m) (hb : s.blocks = b :: blocks)
    (hbi : b.owner = i) (p : Phase K V R) :
    Nested s.stackIndex blocks ∧ (blocks.map Block.owner).Nodup ∧
      ∀ b' ∈ blocks, Function.update s.task i p b'.owner ≠ .start ∧
        (Function.update s.task i p b'.owner).outcome = none := by
  have hnd := h.owners
  have hnested := h.nested
  rw [hb, List.map_cons, List.nodup_cons, hbi] at hnd
  rw [hb] at hnested
  refine ⟨hnested.2.2, hnd.2, fun b' hb' => ?_⟩
  have hne : b'.owner ≠ i := fun he => hnd.1 (he ▸ List.mem_map_of_mem hb')
  rw [Function.update_of_ne hne]
  exact h.owner b' (hb ▸ List.mem_cons_of_mem _ hb')

/-- The block is left normally: the call takes effect. -/
theorem Inv.leave_ok (h : Inv layout calls table₀ s m) (hi : s.task i = .leaving (.ok ()))
    (hb : s.blocks = b :: blocks) (hbi : b.owner = i) :
    ∃ m', Inv layout calls table₀ (s.leave i (.ok ())) m' := by
  have hti := h.task i
  rw [hi] at hti
  obtain ⟨conflicts, toWrite, hres, hrows⟩ := hti
  have hframe : ∀ k, k ∉ (calls i).items.keys → m.writeRows layout toWrite k = m k :=
    fun k hk => writeRows_of_not_mem fun hkw => hk (hres.keys_sub k hkw)
  have hcall : (calls i).atomic layout m = (.ok (), m.writeRows layout toWrite) := by
    rw [LockingCall.atomic, Call.atomic, hres.finish (calls i).locking]
    rfl
  refine ⟨m.writeRows layout toWrite, ?_⟩
  rw [h.leave_eq hb hbi]
  have hp : TaskInv layout (calls i) (m.writeRows layout toWrite) s.view (.done (.ok ())) :=
    .inl rfl
  have happart : ∀ j, j ≠ i → (s.task j).inside → ¬ SharesKey (calls i).toCall (calls j).toCall :=
    fun j hj => h.apart i j hj.symm (by rw [hi]; rfl)
  obtain ⟨htasks, hapart'⟩ := h.tasks i hp
    (fun j hj hjin k hk => hframe k fun hki => happart j hj hjin ⟨k, hki, hk⟩)
    (fun _ _ _ _ _ => rfl) (by simp [Phase.inside])
  obtain ⟨hnested, hnodup, howner⟩ := h.rest hb hbi (.done (.ok ()))
  refine ⟨htasks, hapart', rfl, hnested, hnodup, howner,
    fun b' hb' => h.before b' (hb ▸ List.mem_cons_of_mem _ hb'),
    h.serial.take (by rw [hi]; rfl) hcall rfl, fun k hk => ?_⟩
  by_cases hki : k ∈ (calls i).items.keys
  · exact hrows k hki
  · rw [hframe k hki]
    exact h.settled k (hk.of_update rfl fun _ => hki)

/-- The block is left with the `KeyError` of its own call. What that undoes was never written. -/
theorem Inv.leave_error (h : Inv layout calls table₀ s m) {e : StoreError K}
    (hi : s.task i = .leaving (.error e)) (hb : s.blocks = b :: blocks) (hbi : b.owner = i)
    (hw : b.written = false) : Inv layout calls table₀ (s.leave i (.error e)) m := by
  have hti := h.task i
  rw [hi] at hti
  obtain ⟨hr, hc, rfl⟩ := hti
  have hsame : s.view = b.before := h.before b (hb ▸ List.mem_cons_self) hw
  have hcall : (calls i).atomic layout m =
      (.error (.store (.keyError (sorted (m.conflicts (calls i).items.keys)))), m) := by
    rw [LockingCall.atomic, Call.atomic, hr, atomicSetMany_of_conflict hc]
    rfl
  rw [h.leave_eq hb hbi, ← hsame]
  have hp : TaskInv layout (calls i) m s.view (.done (.error (.store (.keyError
      (sorted (m.conflicts (calls i).items.keys)))))) := .inr ⟨_, rfl⟩
  obtain ⟨htasks, hapart'⟩ := h.tasks i hp (fun _ _ _ _ _ => rfl) (fun _ _ _ _ _ => rfl)
    (by simp [Phase.inside])
  obtain ⟨hnested, hnodup, howner⟩ := h.rest hb hbi
    (.done (.error (.store (.keyError (sorted (m.conflicts (calls i).items.keys))))))
  refine ⟨htasks, hapart', rfl, hnested, hnodup, howner,
    fun b' hb' => h.before b' (hb ▸ List.mem_cons_of_mem _ hb'),
    h.serial.take (by rw [hi]; rfl) hcall rfl, fun k hk => ?_⟩
  exact h.settled k (hk.of_update rfl (by simp [hi, Phase.upserting]))

end Leave

/-- The existence query. -/
theorem Inv.query (h : Inv layout calls table₀ s m) (hp : s.task i = .locked)
    (hG : Orderly calls s i) (hs : PostgresTasks.step layout calls s i = some s') :
    Inv layout calls table₀ s' m := by
  simp only [Orderly, hp] at hG
  have hread : ∀ k ∈ (calls i).items.keys, s.view k = m k := fun k hk =>
    h.settled k (settled_of_apart (by rw [hp]; rfl) hG hk)
  simp only [PostgresTasks.step, hp, conflictsOf_containsMany, conflicts_congr hread] at hs
  split_ifs at hs with hc <;> cases hs
  · exact h.move (by rw [hp]; rfl) ⟨hc.2, hc.1, rfl⟩ (by simp) rfl
      (by simp [hp, Phase.upserting]) (fun _ => hG)
  · exact h.move (by rw [hp]; rfl) (Resolving.start (by tauto)) (by simp) rfl
      (by simp [hp, Phase.upserting]) (fun _ => hG)

/-- The loop over the items. -/
theorem Inv.resolve (h : Inv layout calls table₀ s m) {conflicts : List K} {todo : List (K × V)}
    {toWrite : Dict K V} (hp : s.task i = .resolving conflicts todo toWrite)
    (hs : PostgresTasks.step layout calls s i = some s') : Inv layout calls table₀ s' m := by
  have happart : ∀ j, j ≠ i → (s.task j).inside → ¬ SharesKey (calls i).toCall (calls j).toCall :=
    fun j hj => h.apart i j hj.symm (by rw [hp]; rfl)
  have hread : ∀ k ∈ (calls i).items.keys, s.view k = m k := fun k hk =>
    h.settled k (settled_of_apart (by rw [hp]; rfl) happart hk)
  have hi := h.task i
  rw [hp] at hi
  cases todo with
  | cons item todo =>
    have hget : s.view.read layout item.1 = m.read layout item.1 := by
      rw [Contents.read, Contents.read, hread _ (hi.todo_sub item List.mem_cons_self)]
    simp only [PostgresTasks.step, hp] at hs
    cases hs
    refine h.move (by rw [hp]; rfl) ?_ (by simp) rfl (by simp [hp, Phase.upserting])
      (fun _ => happart)
    rw [resolveItem_congr hget]
    exact Resolving.get hi
  | nil =>
    simp only [PostgresTasks.step, hp] at hs
    cases hs
    refine h.move (by rw [hp]; rfl) ⟨conflicts, toWrite, hi, fun r hr => hr, fun k hk => ?_⟩
      (by simp) rfl (fun _ => rfl) (fun _ => happart)
    by_cases hkw : k ∈ toWrite.keys
    · left
      rwa [← Dict.keys_mapValues toWrite layout.valueToRow] at hkw
    · right
      rw [writeRows_of_not_mem hkw, hread k hk]

/-- **An orderly turn keeps the invariant.** -/
theorem Inv.step (h : Inv layout calls table₀ s m) (hG : Orderly calls s i)
    (hs : PostgresTasks.step layout calls s i = some s') : ∃ m', Inv layout calls table₀ s' m' := by
  cases hp : s.task i with
  | start =>
    simp only [PostgresTasks.step, hp] at hs
    split_ifs at hs with he <;> cases hs
    · exact ⟨m, h.empty hp he⟩
    · exact ⟨m, h.enter hp⟩
  | entered =>
    simp only [PostgresTasks.step, hp] at hs
    cases hs
    exact ⟨m, h.move (by rw [hp]; rfl) trivial (by simp) rfl (by simp [hp, Phase.upserting])
      (by simp [Phase.inside])⟩
  | locked => exact ⟨m, h.query hp hG hs⟩
  | resolving conflicts todo toWrite => exact ⟨m, h.resolve hp hs⟩
  | writing todo =>
    cases todo with
    | cons row todo =>
      simp only [PostgresTasks.step, hp] at hs
      cases hs
      exact ⟨m, h.write hp⟩
    | nil =>
      have hi := h.task i
      rw [hp] at hi
      obtain ⟨conflicts, toWrite, hres, -, hrows⟩ := hi
      simp only [PostgresTasks.step, hp] at hs
      cases hs
      exact ⟨m, h.move (by rw [hp]; rfl)
        ⟨conflicts, toWrite, hres, fun k hk => (hrows k hk).resolve_left (by simp)⟩ (by simp) rfl
        (fun _ => rfl) (fun _ j hj => h.apart i j hj.symm (by rw [hp]; rfl))⟩
  | leaving o =>
    simp only [PostgresTasks.step, hp] at hs
    simp only [Orderly, hp] at hG
    cases hs
    obtain ⟨b, hb, hbi, hw⟩ := hG
    obtain ⟨blocks, hblocks⟩ := List.head?_eq_some_iff.mp hb
    cases o with
    | ok u => exact h.leave_ok hp hblocks hbi
    | error e => exact ⟨m, h.leave_error hp hblocks hbi (hw.resolve_left Bool.false_ne_true)⟩
  | done o =>
    simp only [PostgresTasks.step, hp] at hs
    cases hs

/-- **Orderly tasks are serializable.** In every state of a run whose turns satisfy `Orderly`, no
call has failed but by its own `KeyError`; the calls that are over, executed atomically in some
order, give the outcomes they had and the rows there are, except where a call is writing; when all
calls are over they give the committed rows. -/
theorem tasks_serializable
    (h : Reaches (PostgresTasks.step layout calls) (Orderly calls) (init table₀) s) :
    (∀ i e, (s.task i).outcome = some (.error e) → ∃ conflicts, e = .store (.keyError conflicts)) ∧
    (∃ m, Serializable (fun i => (calls i).atomic layout) table₀
      (fun i => (s.task i).outcome) m ∧ ∀ k, Settled calls s k → s.view k = m k) ∧
    ((∀ i, (s.task i).outcome.isSome) →
      Serializable (fun i => (calls i).atomic layout) table₀ (fun i => (s.task i).outcome)
        s.committed) := by
  obtain ⟨m, hinv⟩ : ∃ m, Inv layout calls table₀ s m :=
    h.invariant (P := fun s => ∃ m, Inv layout calls table₀ s m) ⟨table₀, inv_init⟩
      fun _ _ _ ⟨_, hi⟩ hG hs => hi.step hG hs
  refine ⟨fun i e he => ?_, ⟨m, hinv.serial, hinv.settled⟩, fun hover => ?_⟩
  · have hti := hinv.task i
    cases hp : s.task i <;> simp only [hp, Phase.outcome, Option.some.injEq, reduceCtorEq] at he
    rw [hp, he] at hti
    rcases hti with hok | ⟨conflicts, hc⟩
    · cases hok
    · cases hc
      exact ⟨conflicts, rfl⟩
  · have hblocks : s.blocks = [] := by
      refine List.eq_nil_iff_forall_not_mem.mpr fun b hb => ?_
      have hb' := hover b.owner
      simp [(hinv.owner b hb).2] at hb'
    have hsettled : ∀ k, Settled calls s k := by
      intro k j hj
      have hj' := hover j
      cases hp : s.task j <;> simp [hp, Phase.upserting, Phase.outcome] at hj hj'
    rw [Connection.committed, hblocks, show s.view = m from funext fun k =>
      hinv.settled k (hsettled k)]
    exact hinv.serial

/-! ### Two `merge`s of different keys -/

/-- The two calls. -/
def twoMerges : Bool → LockingCall String (Dict String ℕ)
  | false => ⟨⟨.ofList [("x", .ofList [("a", 1)])], .merge⟩, nofun⟩
  | true => ⟨⟨.ofList [("y", .ofList [("b", 2)])], .merge⟩, nofun⟩

/-- The outcomes and the two rows. -/
def observed (s : Connection Bool String (Dict String ℕ) (Dict String ℕ)) :
    List (Option (Except (TaskError String) Unit)) × List (Option (Dict String ℕ)) :=
  ([(s.task false).outcome, (s.task true).outcome], [s.committed "x", s.committed "y"])

/-- The second block is entered and left inside the first. -/
theorem tasks_serializable_nested :
    ∃ s, play (guarded (PostgresTasks.step ⟨id, id⟩ twoMerges) (Orderly twoMerges))
        (init fun _ => none) ([false, true, true, true, true, true] ++ [true, true, true] ++
          [false, false, false, false, false, false, false]) = some s ∧
      observed s =
        ([some (.ok ()), some (.ok ())], [some (.ofList [("a", 1)]), some (.ofList [("b", 2)])]) ∧
      Serializable (fun i => (twoMerges i).atomic ⟨id, id⟩) (fun _ => none)
        (fun i => (s.task i).outcome) s.committed := by
  obtain ⟨s, hs, ho⟩ := Option.map_eq_some_iff.mp
    (rfl : (play (guarded (PostgresTasks.step ⟨id, id⟩ twoMerges) (Orderly twoMerges))
      (init fun _ => none) ([false, true, true, true, true, true] ++ [true, true, true] ++
          [false, false, false, false, false, false, false])).map observed =
      some ([some (.ok ()), some (.ok ())],
        [some (.ofList [("a", 1)]), some (.ofList [("b", 2)])]))
  refine ⟨s, hs, ho, (tasks_serializable (reaches_of_play_guarded hs)).2.2 fun i => ?_⟩
  have hout : [(s.task false).outcome, (s.task true).outcome] = [some (.ok ()), some (.ok ())] :=
    congrArg Prod.fst ho
  simp only [List.cons.injEq, and_true] at hout
  cases i <;> simp [hout]

/-- **The block left too early.** The first task enters its block, the second enters its own inside
it, and the first leaves while the second is open: it fails, with no conflict anywhere. So does the
second, whose block is not where the count has it any more, and neither row is committed. -/
theorem tasks_not_serializable :
    ∃ s, play (PostgresTasks.step ⟨id, id⟩ twoMerges) (init fun _ => none)
        ([false, true, false, false, false, false, false, false, false] ++
          [true, true, true, true, true, true, true]) = some s ∧
      observed s = ([some (.error .outOfOrderTransactionNesting),
        some (.error .outOfOrderTransactionNesting)], [none, none]) := by
  obtain ⟨s, hs, ho⟩ := Option.map_eq_some_iff.mp
    (rfl : (play (PostgresTasks.step ⟨id, id⟩ twoMerges) (init fun _ => none)
      ([false, true, false, false, false, false, false, false, false] ++
        [true, true, true, true, true, true, true])).map observed =
      some ([some (.error .outOfOrderTransactionNesting),
        some (.error .outOfOrderTransactionNesting)], [none, none]))
  exact ⟨s, hs, ho⟩

end PostgresTasks

end Persista
