import Persista.Lib.StrictAccess
import Persista.Store.Rows
import Mathlib.Data.Fintype.Defs
import Mathlib.Data.Fintype.Basic
import Mathlib.Data.String.Basic

/-!
# File stores, one thread per call

`store/file.py` with `set_many` and `delete` called from several threads, or awaited through
`asyncio.to_thread`. A value is a file of its own, and an access to a file is one turn: `is_file`,
`_load`, `_save`, `unlink`. A `raise`, `skip` or `merge` call holds `_lock` from its first
`is_file` to its last `_save`; an `overwrite` call and `delete` do not take it.

## When the calls are serializable

`fileTasks_break_raise` is a run in which an `overwrite` writes a file between the `is_file` and the
`_save` of a `raise` call, and both succeed. Runs in which an `overwrite` or a `delete` accesses a
file only when no call that is still running has accessed it in a conflicting way, and the other way
round (`Apart`), are serializable: they are the strict runs of `StrictAccess`, for the lock takes
care of the calls that take it.

## Main results

* `executes` — a call that runs on its own is the atomic call
* `fileTasks_serializable` — calls kept apart are serializable
-/

namespace Persista

namespace FileTasks

open Interleaving Contents StrictAccess

variable {ι K V R : Type}

/-- The calls. -/
inductive Call (K V : Type)
  | setMany (items : Dict K V) (onConflict : OnConflict)
  | delete (key : K)

/-- The call accesses files without taking the lock. -/
def Call.lockless : Call K V → Bool
  | .setMany _ onConflict => onConflict = .overwrite
  | .delete _ => true

/-- What a call can raise. -/
inductive TaskError (K : Type)
  | store (error : StoreError K)
  /-- `_load` of a file that is gone. -/
  | fileNotFound
  deriving DecidableEq

/-- How a call ends. -/
abbrev Outcome (K : Type) := Except (TaskError K) Unit

/-- Where a thread is in its call. -/
inductive Phase (K V R : Type)
  | start
  /-- `_lock` is held; `contains_many` is next. -/
  | locked
  /-- In `contains_many`: the keys left, and the answers so far. -/
  | checking (todo : List K) (found : List Bool)
  /-- In the loop of `resolve_conflicts`; the writes are next when no item is left. -/
  | resolving (conflicts : List K) (todo : List (K × V)) (toWrite : Dict K V)
  /-- In `get` of the item's key: the file is there, `_load` is next. -/
  | loading (conflicts : List K) (item : K × V) (todo : List (K × V)) (toWrite : Dict K V)
  /-- In `_set_many`: the file that is next, and those after it. -/
  | writing (row : K × R) (todo : List (K × R))
  | done (outcome : Outcome K)

/-- `_set_many` of these rows; with the last of them the call is over. -/
def Phase.write : List (K × R) → Phase K V R
  | [] => .done (.ok ())
  | row :: todo => .writing row todo

/-- The outcome of a call that is over. -/
def Phase.outcome : Phase K V R → Option (Outcome K)
  | .done o => some o
  | _ => none

/-- The thread holds the lock: it is in the `with` block of a call that has one. -/
def Call.holding (call : Call K V) : Phase K V R → Bool
  | .start | .done _ => false
  | _ => !call.lockless

/-- The directory and the threads: the files, with what the threads have done to them, and the
holder of `_lock`. -/
structure Directory (ι K V R : Type) where
  shared : Shared ι (Phase K V R) K R
  lock : Option ι

variable [LinearOrder K] [DecidableEq ι] [ShallowMerge V]

/-- What a thread does next. -/
def next (layout : Layout V R) : Call K V → Phase K V R → Next (Phase K V R) K R
  | .setMany items onConflict, .start =>
    if items.entries = [] then .move (.done (.ok ()))
    else if onConflict = .overwrite then .move (.write (rows layout items))
    else .move .locked
  | .setMany items _, .locked => .move (.checking items.keys [])
  | .setMany _ _, .checking (key :: todo) found =>
    .read key fun raw => .checking todo (found ++ [raw.isSome])
  | .setMany items onConflict, .checking [] found =>
    let conflicts := conflictsOf items.keys found
    if conflicts ≠ [] ∧ onConflict = .raise then
      .move (.done (.error (.store (.keyError (sorted conflicts)))))
    else .move (.resolving conflicts items.entries ∅)
  | .setMany _ onConflict, .resolving conflicts (item :: todo) toWrite =>
    -- `get` is called on a conflicting key that is not skipped
    if item.1 ∈ conflicts ∧ onConflict ≠ .skip then
      .read item.1 fun raw =>
        if raw.isSome then .loading conflicts item todo toWrite
        else .resolving conflicts todo (toWrite.set item.1 (ShallowMerge.merge none item.2))
    else
      .move (.resolving conflicts todo
        (resolveItem conflicts onConflict (fun _ => none) toWrite item))
  | .setMany _ _, .loading conflicts item todo toWrite =>
    .read item.1 fun
      | some raw =>
        .resolving conflicts todo
          (toWrite.set item.1 (ShallowMerge.merge (some (layout.rowToValue raw)) item.2))
      | none => .done (.error .fileNotFound)
  | .setMany _ _, .resolving _ [] toWrite => .move (.write (rows layout toWrite))
  | .setMany _ _, .writing row todo => .write row.1 (some row.2) (.write todo)
  | .delete key, .start => .write key none (.done (.ok ()))
  | _, _ => .stop

/-- The next turn of a thread; `none` when it waits for the lock or is done. -/
def step (layout : Layout V R) (calls : ι → Call K V) (s : Directory ι K V R) (i : ι) :
    Option (Directory ι K V R) :=
  (perform s.shared i (next layout (calls i) (s.shared.phase i))).bind fun shared =>
    match (calls i).holding (s.shared.phase i), (calls i).holding (shared.phase i) with
    | false, true => if s.lock = none then some ⟨shared, some i⟩ else none
    | true, false => some ⟨shared, none⟩
    | _, _ => some ⟨shared, s.lock⟩

/-- All threads are about to call, the lock is free. -/
def init (files : Contents K R) : Directory ι K V R :=
  ⟨StrictAccess.init files fun _ => .start, none⟩

/-- A call executed atomically. -/
def Call.atomic (layout : Layout V R) (m : Contents K R) : Call K V → Outcome K × Contents K R
  | .setMany items onConflict =>
    ((atomicSetMany layout items onConflict m).1.mapError .store,
      (atomicSetMany layout items onConflict m).2)
  | .delete key => (.ok (), m.delete [key])

/-- An `overwrite` or a `delete` accesses a file only when no call that is still running has
accessed it in a conflicting way; and so does every call when that one is an `overwrite` or a
`delete`. -/
def Apart (layout : Layout V R) (calls : ι → Call K V) (s : Directory ι K V R) (i : ι) : Prop :=
  ∀ j, j ≠ i → (s.shared.phase j).outcome = none → (calls i).lockless ∨ (calls j).lockless →
    Clear s.shared j (next layout (calls i) (s.shared.phase i))

instance [Fintype ι] (layout : Layout V R) (calls : ι → Call K V) (s : Directory ι K V R) (i : ι) :
    Decidable (Apart layout calls s i) :=
  inferInstanceAs (Decidable (∀ j, j ≠ i → (s.shared.phase j).outcome = none →
    (calls i).lockless ∨ (calls j).lockless →
      Clear s.shared j (next layout (calls i) (s.shared.phase i))))

/-! ### A call on its own -/

variable {layout : Layout V R} {calls : ι → Call K V} {files m : Contents K R}
  {s s' : Directory ι K V R} {i : ι} {call : Call K V} {p : Phase K V R} {rs : K → Bool}
  {ws : K → Option (Option R)}

/-- What is true in a `raise`, `skip` or `merge` call that has the lock and has not written: what it
has read is what the files hold. -/
def CheckInv (layout : Layout V R) (m : Contents K R) (items : Dict K V) (onConflict : OnConflict) :
    Phase K V R → Prop
  | .locked => True
  | .checking todo found => ∃ read, items.keys = read ++ todo ∧
    found = read.map fun k => (m k).isSome
  | .resolving conflicts todo toWrite =>
    Resolving layout m items onConflict conflicts todo toWrite
  | .loading conflicts item todo toWrite => item.1 ∈ conflicts ∧ onConflict ≠ .skip ∧
    Resolving layout m items onConflict conflicts (item :: todo) toWrite
  | _ => False

/-- What is true in a call that runs on its own on the files `m`, has read `rs` and written `ws`. -/
def CallInv (layout : Layout V R) (m : Contents K R) (call : Call K V) (p : Phase K V R)
    (rs : K → Bool) (ws : K → Option (Option R)) : Prop :=
  match p with
  | .start => (rs = fun _ => false) ∧ ws = fun _ => none
  | .writing row todo => call.atomic layout m = (.ok (), write (overlay m ws) (row :: todo))
  | .done o => call.atomic layout m = (o, overlay m ws)
  | p => (ws = fun _ => none) ∧ ∃ items onConflict, call = .setMany items onConflict ∧
    onConflict ≠ .overwrite ∧ CheckInv layout m items onConflict p

theorem callInv_write {todo : List (K × R)}
    (h : call.atomic layout m = (.ok (), write (overlay m ws) todo)) :
    CallInv layout m call (.write todo) rs ws := by
  cases todo with
  | nil => exact h
  | cons row todo => exact h

theorem atomic_of_setMany {items : Dict K V} {onConflict : OnConflict} {m' : Contents K R}
    (h : atomicSetMany layout items onConflict m = (.ok (), m')) :
    (Call.setMany items onConflict).atomic layout m = (.ok (), m') := by
  rw [Call.atomic, h]
  rfl

omit [ShallowMerge V] in
theorem delete_singleton (m : Contents K R) (key : K) :
    m.delete [key] = Function.update m key none := by
  funext k
  rcases eq_or_ne k key with rfl | hk
  · simp [Contents.delete]
  · simp [Contents.delete, hk]

section SetMany

variable {items : Dict K V} {onConflict : OnConflict}

theorem callInv_of_checkInv (ho : onConflict ≠ .overwrite)
    (h : CheckInv layout m items onConflict p) :
    CallInv layout m (.setMany items onConflict) p rs fun _ => none := by
  cases p with
  | start => exact h.elim
  | writing row todo => exact h.elim
  | done o => exact h.elim
  | locked => exact ⟨rfl, items, onConflict, rfl, ho, h⟩
  | checking todo found => exact ⟨rfl, items, onConflict, rfl, ho, h⟩
  | resolving conflicts todo toWrite => exact ⟨rfl, items, onConflict, rfl, ho, h⟩
  | loading conflicts item todo toWrite => exact ⟨rfl, items, onConflict, rfl, ho, h⟩

/-- The first turn: there is nothing to write, or the writes are next, or the lock is taken. -/
theorem callInv_start :
    AfterNext (CallInv layout m (.setMany items onConflict)) m rs (fun _ => none)
      (next layout (.setMany items onConflict) .start) := by
  simp only [next]
  split_ifs with he ho <;> rw [afterNext_move]
  · obtain rfl : items = ∅ := Dict.ext he
    exact atomic_of_setMany atomicSetMany_empty
  · subst ho
    exact callInv_write (atomic_of_setMany atomicSetMany_overwrite)
  · exact callInv_of_checkInv ho trivial

/-- `contains_many` asks for one more file, or its answers are in. -/
theorem callInv_checking {todo : List K} {found : List Bool} (ho : onConflict ≠ .overwrite)
    (h : CheckInv layout m items onConflict (.checking todo found)) :
    AfterNext (CallInv layout m (.setMany items onConflict)) m rs (fun _ => none)
      (next layout (.setMany items onConflict) (.checking todo found)) := by
  obtain ⟨read, hkeys, hfound⟩ := h
  cases todo with
  | cons k todo =>
    rw [next, afterNext_read]
    refine callInv_of_checkInv ho ⟨read ++ [k], by simp [hkeys], ?_⟩
    simp [hfound, overlay_none]
  | nil =>
    rw [List.append_nil] at hkeys
    have hconflicts : conflictsOf items.keys found = m.conflicts items.keys := by
      rw [hfound, ← hkeys]
      exact conflictsOf_containsMany m items.keys
    simp only [next, hconflicts]
    split_ifs with hc <;> rw [afterNext_move]
    · obtain ⟨hc, rfl⟩ := hc
      change (Call.setMany items .raise).atomic layout m = (_, m)
      rw [Call.atomic, atomicSetMany_of_conflict hc]
      rfl
    · exact callInv_of_checkInv ho (Resolving.start (by tauto))

/-- One item of the loop, as far as the test whether its file is there; or the loop is over. -/
theorem callInv_resolving {conflicts : List K} {todo : List (K × V)} {toWrite : Dict K V}
    (ho : onConflict ≠ .overwrite)
    (h : CheckInv layout m items onConflict (.resolving conflicts todo toWrite)) :
    AfterNext (CallInv layout m (.setMany items onConflict)) m rs (fun _ => none)
      (next layout (.setMany items onConflict) (.resolving conflicts todo toWrite)) := by
  cases todo with
  | nil =>
    rw [next, afterNext_move]
    exact callInv_write (atomic_of_setMany (Resolving.finish h ho))
  | cons item todo =>
    have hget := Resolving.get h
    simp only [next]
    split_ifs with hc
    · rw [afterNext_read, overlay_none]
      split_ifs with hraw
      · exact callInv_of_checkInv ho ⟨hc.1, hc.2, h⟩
      · have hnone : m.read layout item.1 = none := by
          rw [Contents.read, Option.not_isSome_iff_eq_none.mp hraw]
          rfl
        rw [resolveItem, if_pos hc.1, if_neg hc.2, hnone] at hget
        exact callInv_of_checkInv ho hget
    · -- the item is not read
      have heq : resolveItem conflicts onConflict (m.read layout) toWrite item =
          resolveItem conflicts onConflict (fun _ => none) toWrite item := by
        rw [resolveItem, resolveItem]
        split_ifs with hk hskip <;> first | rfl | tauto
      rw [heq] at hget
      rw [afterNext_move]
      exact callInv_of_checkInv ho hget

/-- The file of a conflicting item is there, for it was there before. -/
theorem callInv_loading {conflicts : List K} {item : K × V} {todo : List (K × V)}
    {toWrite : Dict K V} (ho : onConflict ≠ .overwrite)
    (h : CheckInv layout m items onConflict (.loading conflicts item todo toWrite)) :
    AfterNext (CallInv layout m (.setMany items onConflict)) m rs (fun _ => none)
      (next layout (.setMany items onConflict) (.loading conflicts item todo toWrite)) := by
  obtain ⟨hmem, hskip, hres⟩ := h
  have hsome : (m item.1).isSome := by
    rw [hres.conflicts_eq] at hmem
    exact (List.mem_filter.mp hmem).2
  obtain ⟨raw, hraw⟩ := Option.isSome_iff_exists.mp hsome
  have hread : m.read layout item.1 = some (layout.rowToValue raw) := by
    rw [Contents.read, hraw]
    rfl
  have hget := Resolving.get hres
  rw [resolveItem, if_pos hmem, if_neg hskip, hread] at hget
  rw [next, afterNext_read, overlay_none, hraw]
  exact callInv_of_checkInv ho hget

end SetMany

theorem callInv_delete (key : K) :
    AfterNext (CallInv layout m (.delete key)) m rs (fun _ => none)
      (next layout (.delete key) .start) := by
  rw [next, afterNext_write]
  change Call.atomic layout m (.delete key) = (.ok (), _)
  rw [overlay_update, overlay_none, Call.atomic, delete_singleton]

/-- Every turn keeps the invariant of a call that runs on its own. -/
theorem CallInv.next (h : CallInv layout m call p rs ws) :
    AfterNext (CallInv layout m call) m rs ws (next layout call p) := by
  cases p with
  | start =>
    obtain ⟨rfl, rfl⟩ := h
    cases call with
    | setMany items onConflict => exact callInv_start
    | delete key => exact callInv_delete key
  | writing row todo =>
    cases call with
    | setMany items onConflict =>
      rw [FileTasks.next, afterNext_write]
      refine callInv_write ?_
      rw [overlay_update, ← write_cons]
      exact h
    | delete key => trivial
  | done o => cases call <;> trivial
  | locked =>
    obtain ⟨rfl, items, onConflict, rfl, ho, -⟩ := h
    rw [FileTasks.next, afterNext_move]
    exact callInv_of_checkInv ho ⟨[], rfl, rfl⟩
  | checking todo found =>
    obtain ⟨rfl, items, onConflict, rfl, ho, hcheck⟩ := h
    exact callInv_checking ho hcheck
  | resolving conflicts todo toWrite =>
    obtain ⟨rfl, items, onConflict, rfl, ho, hcheck⟩ := h
    exact callInv_resolving ho hcheck
  | loading conflicts item todo toWrite =>
    obtain ⟨rfl, items, onConflict, rfl, ho, hcheck⟩ := h
    exact callInv_loading ho hcheck

theorem callInv_of_alone (h : Alone (next layout call) .start m p rs ws) :
    CallInv layout m call p rs ws :=
  h.invariant ⟨rfl, rfl⟩ fun _ _ _ hp => hp.next

omit [DecidableEq ι] in
/-- **A call that runs on its own is the atomic call.** -/
theorem executes (layout : Layout V R) (calls : ι → Call K V) :
    Executes (fun i => next layout (calls i)) (fun _ => Phase.start) Phase.outcome
      fun i m => (calls i).atomic layout m := by
  intro i m p rs ws o h hp
  have hinv := callInv_of_alone h
  cases p with
  | done o' =>
    cases hp
    exact hinv
  | _ => cases hp

/-! ### The invariant -/

/-- The invariant of a run that started with the files `files`. -/
structure Inv (layout : Layout V R) (calls : ι → Call K V) (files : Contents K R)
    (s : Directory ι K V R) : Prop where
  strict : ∃ m, StrictAccess.Inv (fun i => next layout (calls i)) (fun _ => Phase.start)
    Phase.outcome (fun i m => (calls i).atomic layout m) files m s.shared
  lock : ∀ i, (calls i).holding (s.shared.phase i) → s.lock = some i

omit [DecidableEq ι] in
theorem inv_init : Inv layout calls files (init files) where
  strict := ⟨files, StrictAccess.inv_init fun _ => rfl⟩
  lock i hi := by cases hi

omit [LinearOrder K] [DecidableEq ι] [ShallowMerge V] in
/-- A call that has begun, is not over and takes the lock holds it. -/
theorem holding_of_ne_start (hl : (calls i).lockless = false) (hp : p ≠ .start)
    (ho : p.outcome = none) : (calls i).holding p := by
  cases p with
  | start => exact absurd rfl hp
  | done o => cases ho
  | _ => simp [Call.holding, hl]

omit [DecidableEq ι] in
/-- A call that takes the lock begins with a turn that accesses no file. -/
theorem clear_of_start (hl : call.lockless = false) (hp : p = .start)
    (t : Shared ι (Phase K V R) K R) (j : ι) : Clear t j (next layout call p) := by
  subst hp
  cases call with
  | delete key => cases hl
  | setMany items onConflict =>
    rw [next]
    split_ifs <;> trivial

omit [DecidableEq ι] in
/-- **The lock does the rest.** A turn that is apart is strict. -/
theorem Inv.strict_of_apart (h : Inv layout calls files s) (hG : Apart layout calls s i)
    (hi : (s.shared.phase i).outcome = none) :
    Strict Phase.outcome s.shared i (next layout (calls i) (s.shared.phase i)) := by
  intro j hji hj
  by_cases hl : (calls i).lockless ∨ (calls j).lockless
  · exact hG j hji hj hl
  · simp only [not_or, Bool.not_eq_true] at hl
    by_cases hpi : s.shared.phase i = .start
    · exact clear_of_start hl.1 hpi s.shared j
    · by_cases hpj : s.shared.phase j = .start
      · -- the other call has not begun
        obtain ⟨m, hm⟩ := h.strict
        have hfresh := callInv_of_alone (hm.alone j hj)
        rw [hpj] at hfresh
        obtain ⟨hrs, hws⟩ := hfresh
        cases next layout (calls i) (s.shared.phase i) with
        | stop => trivial
        | move p => trivial
        | read k f => exact congrFun hws k
        | write k r p => exact ⟨congrFun hws k, congrFun hrs k⟩
      · -- both would hold the lock
        have hlocki := h.lock i (holding_of_ne_start hl.1 hpi hi)
        have hlockj := h.lock j (holding_of_ne_start hl.2 hpj hj)
        rw [hlocki] at hlockj
        exact absurd (Option.some.inj hlockj).symm hji

omit [ShallowMerge V] in
/-- Only the phase of the thread in turn changes. -/
theorem phase_of_perform {t t' : Shared ι (Phase K V R) K R} {n : Next (Phase K V R) K R}
    (h : perform t i n = some t') {j : ι} (hj : j ≠ i) : t'.phase j = t.phase j := by
  cases n <;> cases h <;> exact Function.update_of_ne hj _ _

/-- The lock after a turn. -/
theorem Inv.lock_step (h : Inv layout calls files s)
    (hs : FileTasks.step layout calls s i = some s') :
    perform s.shared i (next layout (calls i) (s.shared.phase i)) = some s'.shared ∧
      ∀ j, (calls j).holding (s'.shared.phase j) → s'.lock = some j := by
  obtain ⟨t, ht, hs⟩ := Option.bind_eq_some_iff.mp hs
  have hothers : ∀ j, j ≠ i → (calls j).holding (t.phase j) → s.lock = some j := by
    intro j hj hheld
    rw [phase_of_perform ht hj] at hheld
    exact h.lock j hheld
  cases hbefore : (calls i).holding (s.shared.phase i) <;>
    cases hafter : (calls i).holding (t.phase i) <;>
      simp only [hbefore, hafter] at hs
  · cases hs
    refine ⟨ht, fun j hheld => hothers j ?_ hheld⟩
    rintro rfl
    rw [hafter] at hheld
    cases hheld
  · -- the lock is taken
    split_ifs at hs with hl
    cases hs
    refine ⟨ht, fun j hheld => ?_⟩
    by_contra hji
    have := hothers j (fun he => hji (congrArg some he.symm)) hheld
    rw [hl] at this
    cases this
  · -- it is released; no other call held it
    cases hs
    refine ⟨ht, fun j hheld => ?_⟩
    have hji : j ≠ i := by
      rintro rfl
      rw [hafter] at hheld
      cases hheld
    have := hothers j hji hheld
    rw [h.lock i hbefore] at this
    exact absurd (Option.some.inj this).symm hji
  · cases hs
    refine ⟨ht, fun j hheld => ?_⟩
    rcases eq_or_ne j i with rfl | hji
    · exact h.lock j hbefore
    · exact hothers j hji hheld

/-- **A turn that is apart keeps the invariant.** -/
theorem Inv.step (h : Inv layout calls files s) (hG : Apart layout calls s i)
    (hs : FileTasks.step layout calls s i = some s') : Inv layout calls files s' := by
  obtain ⟨hperform, hlock⟩ := h.lock_step hs
  obtain ⟨m, hm⟩ := h.strict
  have hi : (s.shared.phase i).outcome = none := by
    cases hp : s.shared.phase i with
    | done o =>
      rw [hp] at hperform
      cases hc : calls i <;> rw [hc] at hperform <;> cases hperform
    | _ => rfl
  exact ⟨hm.turn (executes layout calls) hi (h.strict_of_apart hG hi) hperform, hlock⟩

/-- **Calls kept apart are serializable.** In every state of a run whose turns satisfy `Apart` in
which no call is between its first write and its end, the calls that are over, executed atomically
in some order, give their outcomes and the files there are; so when all calls are over. -/
theorem fileTasks_serializable
    (h : Reaches (FileTasks.step layout calls) (Apart layout calls) (init files) s)
    (hquiet : ∀ i, (s.shared.phase i).outcome = none → ∀ k, s.shared.writes i k = none) :
    Serializable (fun i m => (calls i).atomic layout m) files (fun i => (s.shared.phase i).outcome)
      s.shared.cells := by
  have hinv : Inv layout calls files s :=
    h.invariant inv_init fun _ _ _ hi hG hs => hi.step hG hs
  obtain ⟨m, hm⟩ := hinv.strict
  exact hm.serializable hquiet

/-! ### A `raise` call and an `overwrite` of one key -/

/-- The two calls. -/
def raiseOverwrite : Bool → Call String (Dict String ℕ)
  | false => .setMany (.ofList [("k", .ofList [("a", 1)])]) .raise
  | true => .setMany (.ofList [("k", .ofList [("b", 2)])]) .overwrite

/-- An empty directory. -/
def noFiles : Contents String (Dict String ℕ) := fun _ => none

/-- The outcomes and the file. -/
def observed (s : Directory Bool String (Dict String ℕ) (Dict String ℕ)) :
    Option (Outcome String) × Option (Outcome String) × Option (Dict String ℕ) :=
  ((s.shared.phase false).outcome, (s.shared.phase true).outcome, s.shared.cells "k")

/-- One call after the other. -/
theorem fileTasks_serializable_in_turn :
    ∃ s, play (guarded (FileTasks.step ⟨id, id⟩ raiseOverwrite) (Apart ⟨id, id⟩ raiseOverwrite))
        (init noFiles) [false, false, false, false, false, false, false, true, true] = some s ∧
      observed s = (some (.ok ()), some (.ok ()), some (.ofList [("b", 2)])) ∧
      Serializable (fun i m => (raiseOverwrite i).atomic ⟨id, id⟩ m) noFiles
        (fun i => (s.shared.phase i).outcome) s.shared.cells := by
  obtain ⟨s, hs, ho⟩ := Option.map_eq_some_iff.mp
    (rfl : (play (guarded (FileTasks.step ⟨id, id⟩ raiseOverwrite)
      (Apart ⟨id, id⟩ raiseOverwrite)) (init noFiles)
        [false, false, false, false, false, false, false, true, true]).map observed =
          some (some (.ok ()), some (.ok ()), some (.ofList [("b", 2)])))
  refine ⟨s, hs, ho, fileTasks_serializable (reaches_of_play_guarded hs) fun i hi => ?_⟩
  have hf : (s.shared.phase false).outcome = some (.ok ()) := congrArg Prod.fst ho
  have ht : (s.shared.phase true).outcome = some (.ok ()) := congrArg (·.2.1) ho
  cases i
  · rw [hf] at hi
    cases hi
  · rw [ht] at hi
    cases hi

/-- **The broken `raise`.** The `raise` call finds no file, the `overwrite` writes it, the `raise`
call writes over it: both succeed, and the file is that of the `raise` call. -/
theorem fileTasks_break_raise :
    ∃ s, play (FileTasks.step ⟨id, id⟩ raiseOverwrite) (init noFiles)
        [false, false, false, false, true, true, false, false, false] = some s ∧
      observed s = (some (.ok ()), some (.ok ()), some (.ofList [("a", 1)])) ∧
      ¬ Serializable (fun i m => (raiseOverwrite i).atomic ⟨id, id⟩ m) noFiles
        (fun i => (s.shared.phase i).outcome) s.shared.cells := by
  obtain ⟨s, hs, ho⟩ := Option.map_eq_some_iff.mp
    (rfl : (play (FileTasks.step ⟨id, id⟩ raiseOverwrite) (init noFiles)
      [false, false, false, false, true, true, false, false, false]).map observed =
        some (some (.ok ()), some (.ok ()), some (.ofList [("a", 1)])))
  refine ⟨s, hs, ho, fun hser => ?_⟩
  have hk : s.shared.cells "k" = some (.ofList [("a", 1)]) := congrArg (·.2.2) ho
  rcases hser.two (congrArg Prod.fst ho) (congrArg (·.2.1) ho) with ⟨-, h⟩ | ⟨-, h⟩
  · exact absurd ((congrArg (·.2 "k") h).trans hk) (by decide)
  · have hraised : ((raiseOverwrite false).atomic ⟨id, id⟩
        ((raiseOverwrite true).atomic ⟨id, id⟩ noFiles).2).1 = .ok () := congrArg Prod.fst h
    exact absurd hraised (by decide)

end FileTasks

end Persista
