import Persista.Lib.Interleaving
import Persista.Store.Rows
import Mathlib.Data.String.Basic

/-!
# `PostgresStore.iter_batches` and the writers on the same connection

`store/postgres.py`, synchronous API. `iter_batches` is a generator that holds a transaction block
open across its yields, because a named cursor needs one, and the writers use the same connection.
So a write made while a generator is open belongs to the transaction of the generator: it is
committed when the generator is exhausted, and undone when it ends with an exception. Closing a
generator before it is exhausted, which is what leaving a `for` loop early does, raises
`GeneratorExit` at the yield.

An event of a run is a write call, an advance of a generator or its close. Nothing runs in between:
a write call enters and leaves its own block, a savepoint when a generator is open, within its
event. A block has to be left before the blocks around it; leaving it too early raises and sends
nothing.

## Main results

* `PostgresReaders.Inv.step` — an event that satisfies `Undisturbed` keeps the invariant
* `PostgresReaders.writes_survive` — the runs in which no generator that has seen a write is left
  early or left open end with the writes that returned
* `PostgresReaders.write_undone_by_reader` — a write that returned and is gone
-/

namespace Persista

namespace PostgresReaders

open Interleaving Contents

variable {G K V R : Type}

/-- A generator: not started, suspended at a yield with the rows its cursor has left, or
finished. -/
inductive Reader (K R : Type)
  | created
  | reading (rows : List (K × R))
  | finished

/-- The transaction block of a started generator. -/
structure Block (G K R : Type) where
  owner : G
  /-- What leaving the block with an exception restores. -/
  before : Dict K R
  /-- A write call has returned since the block was entered. -/
  written : Bool

/-- The connection and its generators: the rows its statements see, the open blocks, innermost
first, and the history of the write calls that returned. -/
structure Connection (G K V R : Type) where
  view : Dict K R
  blocks : List (Block G K R)
  reader : G → Reader K R
  returned : List (StoreOp K V)

/-- The committed rows: those before the outermost open block. -/
def Connection.committed (s : Connection G K V R) : Dict K R :=
  match s.blocks.getLast? with
  | some b => b.before
  | none => s.view

/-- The events of a run. -/
inductive Event (G K V : Type)
  | write (op : StoreOp K V)
  | next (g : G)
  | close (g : G)

/-- What an event can raise. -/
inductive ReaderError (K : Type)
  | store (e : StoreError K)
  | stopIteration
  | outOfOrderTransactionNesting

variable [LinearOrder K]

/-- `set_many` on the rows the connection sees. A conflict rolls the block of the call back, and
nothing was written in it. -/
def setMany [ShallowMerge V] (layout : Layout V R) (view : Dict K R) (items : Dict K V)
    (onConflict : OnConflict) : Except (StoreError K) (Dict K R) :=
  if items.entries = [] then .ok view
  else if onConflict = .overwrite then .ok (view.setAll (rows layout items))
  else do
    let toWrite ← resolveConflicts items onConflict
      (fun keys => keys.map fun key => decide (key ∈ view.keys))
      (fun key => (view.get? key).map layout.rowToValue)
    return view.setAll (rows layout toWrite)

/-- A write call on the rows the connection sees. -/
def execWrite [ShallowMerge V] (layout : Layout V R) (view : Dict K R) :
    StoreOp K V → Except (StoreError K) (Dict K R)
  | .set key value onConflict => setMany layout view (Dict.ofList [(key, value)]) onConflict
  | .setMany items onConflict => setMany layout view items onConflict
  | .delete key => .ok (view.erase key)
  | .deleteMany keys =>
    if keys = [] then .ok view else .ok (view.filterKeys fun key => decide (key ∉ keys))
  | .clear => .ok ∅

variable [DecidableEq G]

/-- The generator ends; its block is left, which has to be the innermost one, and the rows become
`view`. -/
def Connection.leave (s : Connection G K V R) (g : G) (view : Block G K R → Dict K R) :
    Connection G K V R × Except (ReaderError K) Unit :=
  let reader := Function.update s.reader g .finished
  match s.blocks with
  | b :: blocks =>
    if b.owner = g then (⟨view b, blocks, reader, s.returned⟩, .ok ())
    else ({ s with reader := reader }, .error .outOfOrderTransactionNesting)
  | [] => ({ s with reader := reader }, .error .outOfOrderTransactionNesting)

/-- The cursor fetches the next batch, or is exhausted and the block is left normally. -/
def Connection.fetch (s : Connection G K V R) (g : G) (batchSize : ℕ) :
    List (K × R) → Connection G K V R × Except (ReaderError K) Unit
  | [] => ((s.leave g fun _ => s.view).1,
      (s.leave g fun _ => s.view).2.bind fun _ => .error .stopIteration)
  | row :: rows => ({ s with
      reader := Function.update s.reader g (.reading ((row :: rows).drop batchSize)) }, .ok ())

/-- `validate_batch_size`'s message. -/
def batchSizeMsg (batchSize : ℤ) : String :=
  "batch_size must be a positive integer, got " ++ toString batchSize

/-- An event. `batchSize` is the argument a generator was made with. -/
def exec [ShallowMerge V] (layout : Layout V R) (batchSize : G → ℤ) (s : Connection G K V R) :
    Event G K V → Connection G K V R × Except (ReaderError K) Unit
  | .write op =>
    match execWrite layout s.view op with
    | .ok view => (⟨view, s.blocks.map fun b => { b with written := true }, s.reader,
        s.returned ++ [op]⟩, .ok ())
    | .error e => (s, .error (.store e))
  | .next g =>
    match s.reader g with
    | .created =>
      if batchSize g < 1 then
        ({ s with reader := Function.update s.reader g .finished },
          .error (.store (.valueError (batchSizeMsg (batchSize g)))))
      else
        Connection.fetch { s with blocks := ⟨g, s.view, false⟩ :: s.blocks } g (batchSize g).toNat
          s.view.entries
    | .reading rows => s.fetch g (batchSize g).toNat rows
    | .finished => (s, .error .stopIteration)
  | .close g =>
    match s.reader g with
    | .reading _ => s.leave g Block.before
    | _ => ({ s with reader := Function.update s.reader g .finished }, .ok ())

/-- An event as a turn: a run goes on after an exception. -/
def step [ShallowMerge V] (layout : Layout V R) (batchSize : G → ℤ) (s : Connection G K V R)
    (e : Event G K V) : Option (Connection G K V R) :=
  some (exec layout batchSize s e).1

/-- A store just opened on a table, with its generators not started. -/
def init (table : Dict K R) : Connection G K V R := ⟨table, [], fun _ => .created, []⟩

/-- The write calls of a list, applied in order to the contents. -/
def replay [ShallowMerge V] (layout : Layout V R) (m : Contents K R) (ops : List (StoreOp K V)) :
    Contents K R :=
  ops.foldl (fun m op => (atomicExec layout m op).2) m

/-- A generator whose block is the innermost one is closed early only when no write call has
returned since it was started. -/
def Undisturbed (s : Connection G K V R) : Event G K V → Prop
  | .close g => ∀ b ∈ s.blocks.head?, b.owner = g → b.written = false
  | _ => True

instance (s : Connection G K V R) (e : Event G K V) : Decidable (Undisturbed s e) := by
  unfold Undisturbed
  split <;> infer_instance

/-! ### The writers -/

variable [ShallowMerge V] {layout : Layout V R} {batchSize : G → ℤ} {table : Dict K R}
  {s s' : Connection G K V R}

omit [ShallowMerge V] in
theorem get?_setAll_rows (view : Dict K R) (values : Dict K V) :
    (view.setAll (rows layout values)).get? = writeRows layout view.get? values := by
  funext k
  rw [writeRows_apply, rows, Dict.get?_setAll (values.mapValues layout.valueToRow).nodup]
  exact congrArg (·.or (view.get? k)) (Dict.get?_mapValues values layout.valueToRow k)

/-- A write call on the rows of the connection is the atomic call on its contents. -/
theorem atomicSetMany_get? (view : Dict K R) (items : Dict K V) (onConflict : OnConflict) :
    atomicSetMany layout items onConflict view.get? =
      match setMany layout view items onConflict with
      | .ok view' => (.ok (), view'.get?)
      | .error e => (.error e, view.get?) := by
  by_cases he : items.entries = []
  · obtain rfl : items = ∅ := Dict.ext he
    rw [atomicSetMany_empty]
    rfl
  by_cases ho : onConflict = .overwrite
  · subst ho
    simp only [setMany, he, if_true, if_false, atomicSetMany_overwrite, get?_setAll_rows]
  · have hc : (fun keys : List K => keys.map fun key => decide (key ∈ view.keys)) =
        containsMany view.get? := by
      funext keys
      refine List.map_congr_left fun k _ => ?_
      rw [Bool.eq_iff_iff, decide_eq_true_iff, Dict.isSome_get?_iff]
    have hr : read layout view.get? = fun key => (view.get? key).map layout.rowToValue := rfl
    simp only [setMany, he, ho, if_false, atomicSetMany, setManyRows, hc, hr]
    cases resolveConflicts items onConflict (containsMany view.get?)
        (fun key => (view.get? key).map layout.rowToValue) with
    | error e => rfl
    | ok toWrite => exact congrArg (Prod.mk _) (get?_setAll_rows view toWrite).symm

variable (layout) in
theorem atomicExec_get? (view : Dict K R) (op : StoreOp K V) :
    atomicExec layout view.get? op =
      match execWrite layout view op with
      | .ok view' => (.ok (), view'.get?)
      | .error e => (.error e, view.get?) := by
  cases op with
  | set key value onConflict => exact atomicSetMany_get? view _ onConflict
  | setMany items onConflict => exact atomicSetMany_get? view items onConflict
  | delete key =>
    refine congrArg (Prod.mk _) (funext fun k => ?_)
    simp [delete]
  | deleteMany keys =>
    by_cases hk : keys = []
    · simp only [atomicExec, execWrite, hk, if_true]
      exact congrArg (Prod.mk _) (funext fun k => by simp [delete])
    · simp only [atomicExec, execWrite, hk, if_false]
      refine congrArg (Prod.mk _) (funext fun k => ?_)
      by_cases hkk : k ∈ keys <;> simp [delete, hkk]
  | clear => rfl

/-! ### The invariant -/

/-- The rows the connection sees are what the write calls that returned make of the table, and an
open block in which none has returned was entered on these rows. -/
structure Inv (layout : Layout V R) (table : Dict K R) (s : Connection G K V R) : Prop where
  view : s.view.get? = replay layout table.get? s.returned
  before : ∀ b ∈ s.blocks, b.written = false → b.before = s.view

omit [DecidableEq G] in
theorem inv_init : Inv layout table (init table : Connection G K V R) := ⟨rfl, nofun⟩

omit [DecidableEq G] in
theorem replay_concat (m : Contents K R) (ops : List (StoreOp K V)) (op : StoreOp K V) :
    replay layout m (ops ++ [op]) = (atomicExec layout (replay layout m ops) op).2 := by
  simp [replay]

/-- A generator that leaves its block on the rows there are changes nothing. -/
theorem Inv.leave (h : Inv layout table s) {g : G} {view : Block G K R → Dict K R}
    (hview : ∀ b ∈ s.blocks.head?, b.owner = g → view b = s.view) :
    Inv layout table (s.leave g view).1 := by
  rw [Connection.leave]
  cases hb : s.blocks with
  | nil => exact ⟨h.view, by simp⟩
  | cons b blocks =>
    have hbefore : ∀ b' ∈ b :: blocks, b'.written = false → b'.before = s.view := hb ▸ h.before
    dsimp only
    split
    · next hg =>
      have hsame : view b = s.view := hview b (by simp [hb]) hg
      refine ⟨hsame ▸ h.view, fun b' hb' hw => ?_⟩
      exact (hbefore b' (List.mem_cons_of_mem _ hb') hw).trans hsame.symm
    · exact ⟨h.view, fun b' hb' hw => hbefore b' (hb ▸ hb') hw⟩

theorem Inv.fetch (h : Inv layout table s) (g : G) (n : ℕ) (rows : List (K × R)) :
    Inv layout table (s.fetch g n rows).1 := by
  cases rows with
  | nil => exact h.leave fun _ _ _ => rfl
  | cons row rows => exact ⟨h.view, h.before⟩

/-- **An undisturbed event keeps the invariant.** -/
theorem Inv.step {e : Event G K V} (h : Inv layout table s) (hG : Undisturbed s e)
    (hs : PostgresReaders.step layout batchSize s e = some s') : Inv layout table s' := by
  cases hs
  cases e with
  | write op =>
    have hop := atomicExec_get? layout s.view op
    rw [exec]
    cases he : execWrite layout s.view op with
    | error e => exact h
    | ok view =>
      rw [he] at hop
      refine ⟨?_, fun b hb hw => ?_⟩
      · rw [replay_concat, ← h.view, hop]
      · obtain ⟨b', -, rfl⟩ := List.mem_map.mp hb
        cases hw
  | next g =>
    rw [exec]
    cases hr : s.reader g with
    | finished => exact h
    | reading rows => exact h.fetch g _ rows
    | created =>
      dsimp only
      split
      · exact ⟨h.view, h.before⟩
      · have hentered : Inv layout table { s with blocks := ⟨g, s.view, false⟩ :: s.blocks } := by
          refine ⟨h.view, fun b hb hw => ?_⟩
          rcases List.mem_cons.mp hb with rfl | hb
          · rfl
          · exact h.before b hb hw
        exact hentered.fetch g _ _
  | close g =>
    rw [exec]
    cases hr : s.reader g with
    | finished => exact ⟨h.view, h.before⟩
    | created => exact ⟨h.view, h.before⟩
    | reading rows =>
      refine h.leave fun b hb hg => h.before b ?_ (hG b hb hg)
      exact List.mem_of_mem_head? hb

/-- **The writes that returned survive.** When no generator is closed early after a write call has
returned inside its block, and none of the blocks still open at the end has seen one, the committed
rows are what the write calls that returned, in order, make of the table. -/
theorem writes_survive
    (h : Reaches (PostgresReaders.step layout batchSize) Undisturbed (init table) s)
    (hend : ∀ b ∈ s.blocks, b.written = false) :
    s.committed.get? = replay layout table.get? s.returned := by
  have hinv : Inv layout table s :=
    h.invariant inv_init fun _ _ _ hi hG hs => hi.step hG hs
  rw [← hinv.view, Connection.committed]
  cases hb : s.blocks.getLast? with
  | none => rfl
  | some b =>
    have hmem : b ∈ s.blocks := List.mem_of_getLast? hb
    exact congrArg Dict.get? (hinv.before b hmem (hend b hmem))

/-! ### A loop over a table of one row -/

/-- The table, and a write call made inside the loop. -/
def oneRow : Dict String (Dict String ℕ) := .ofList [("a", .ofList [("x", 1)])]

/-- The row the loop writes. -/
def addB : StoreOp String (Dict String ℕ) := .set "b" (.ofList [("x", 2)]) .overwrite

/-- The loop is run to its end. -/
theorem writes_survive_exhausted :
    ∃ s, play (guarded (PostgresReaders.step ⟨id, id⟩ fun _ : Unit => 32) Undisturbed) (init oneRow)
        [.next (), .write addB, .next ()] = some s ∧
      s.committed.get? "b" = some (.ofList [("x", 2)]) ∧
      s.committed.get? = replay ⟨id, id⟩ oneRow.get? s.returned := by
  obtain ⟨s, hs, ho⟩ := Option.map_eq_some_iff.mp
    (rfl : (play (guarded (PostgresReaders.step ⟨id, id⟩ fun _ : Unit => 32) Undisturbed)
      (init oneRow) [.next (), .write addB, .next ()]).map
        (fun s => (s.blocks.length, s.committed.get? "b")) = some (0, some (.ofList [("x", 2)])))
  refine ⟨s, hs, congrArg Prod.snd ho, writes_survive (reaches_of_play_guarded hs) fun b hb => ?_⟩
  have hnil : s.blocks = [] := List.eq_nil_iff_length_eq_zero.mpr (congrArg Prod.fst ho)
  rw [hnil] at hb
  cases hb

/-- **The undone write.** The loop is left after its first batch: the write returned, and the row is
not there. -/
theorem write_undone_by_reader :
    ∃ s, play (PostgresReaders.step ⟨id, id⟩ fun _ : Unit => 32) (init oneRow)
        [.next (), .write addB, .close ()] = some s ∧
      s.returned = [addB] ∧ s.committed.get? "b" = none ∧
      s.committed.get? ≠ replay ⟨id, id⟩ oneRow.get? s.returned := by
  obtain ⟨s, hs, ho⟩ := Option.map_eq_some_iff.mp
    (rfl : (play (PostgresReaders.step ⟨id, id⟩ fun _ : Unit => 32) (init oneRow)
      [.next (), .write addB, .close ()]).map (fun s => (s.returned, s.committed.get? "b")) =
        some ([addB], none))
  have hret : s.returned = [addB] := congrArg Prod.fst ho
  have hb : s.committed.get? "b" = none := congrArg Prod.snd ho
  refine ⟨s, hs, hret, hb, fun heq => ?_⟩
  have hb' := congrFun heq "b"
  rw [hb, hret] at hb'
  exact absurd hb' (by decide)

end PostgresReaders

end Persista
