import Persista.Cache.Ttl
import Persista.Lib.Interleaving
import Mathlib.Data.Fintype.Basic
import Mathlib.Data.String.Basic

/-!
# The asynchronous `Cache`, one task per call

`cache/cache.py`, asynchronous API: each call on the store is one turn, and between its calls on the
store a task may be overtaken by any other. A lookup reads an entry, looks at the clock and, when
the entry is expired, deletes the key: three turns. Nothing ties the deletion to the entry that was
read.

What the callers wrote, with nothing evicted, is a ghost (`truth`), and so are the number of times a
key was written (`version`) and what there was when a task read the store (`snapshot`).

## When a live value stays

`tasks_drop_live_value` is a run in which a lookup reads an expired entry, another task writes the
key, and the lookup then evicts what was just written. Runs in which a key is evicted only if no
`aset` or `aset_many` wrote it since it was read (`Unwritten`) keep every live value
(`tasks_keep_live_values`).
-/

namespace Persista

namespace CacheTasks

open Interleaving Cache

variable {ι K V T : Type}

/-- Where a task is in its call. -/
inductive Phase (K V T : Type)
  | start
  /-- `_aget` has read the entry of its key. -/
  | got (key : K) (entry : Option (Entry V T))
  /-- `atry_get_many` has read the entries of its keys. -/
  | gotMany (keys : List K) (entries : List (Option (Entry V T)))
  /-- Expired keys are about to be deleted; the call then returns `answer`. -/
  | evicting (keys : List K) (answer : Answer K V)
  /-- `aset`, `aset_many`: the entries are about to be written. -/
  | writing (entries : Dict K (Entry V T))
  /-- `aset`, `aset_many` with a ttl of zero: the keys are about to be deleted. -/
  | removing (keys : List K)
  | done (outcome : Except (StoreError K) (Answer K V))

/-- What a lookup that has looked at the clock returns. -/
def Phase.answer : Phase K V T → Option (Answer K V)
  | .evicting _ a => some a
  | .done (.ok a) => some a
  | _ => none

/-- The entries of the store, the entries the callers wrote, and how often each key was written. -/
structure Snapshot (K V T : Type) where
  store : Contents K (Entry V T)
  truth : Contents K (Entry V T)
  version : K → ℕ

/-- The store, the latest time any task has seen, and the tasks with what they read. -/
structure Server (ι K V T : Type) extends Snapshot K V T where
  clock : T
  snapshot : ι → Snapshot K V T
  task : ι → Phase K V T

/-- All tasks are about to call. -/
def init (store : Contents K (Entry V T)) (clock : T) : Server ι K V T where
  store := store
  truth := store
  version _ := 0
  clock := clock
  snapshot _ := ⟨store, store, fun _ => 0⟩
  task _ := .start

/-- The keys a call looks up. -/
def lookupKeys : Call K V T → List K
  | .get key _ | .tryGet key | .contains key => [key]
  | .getMany keys _ | .tryGetMany keys | .containsMany keys => keys
  | _ => []

/-- `aget`, `atry_get` and `acontains` make their result of what `_aget` returns. -/
def answerOne : Call K V T → Option V → Answer K V
  | .get _ default, hit => .value (hit.getD default)
  | .contains _, hit => .flag hit.isSome
  | _, hit => .hit hit

section

variable [LinearOrder K] [DecidableEq ι]

/-- `aget_many`, `atry_get_many` and `acontains_many` make their result of what `atry_get_many`
returns. -/
def answerMany : Call K V T → Dict K V → Answer K V
  | .getMany keys default, hits =>
    .values (Dict.ofList (keys.map fun key => (key, (hits.get? key).getD default)))
  | .containsMany keys, hits => .flags (keys.map fun key => decide (key ∈ hits.keys))
  | _, hits => .values hits

/-- A task moves on; the store is as it was. -/
def Server.move (s : Server ι K V T) (i : ι) (p : Phase K V T) : Server ι K V T :=
  { s with task := Function.update s.task i p }

/-- A task has read the store. -/
def Server.read (s : Server ι K V T) (i : ι) (p : Phase K V T) : Server ι K V T :=
  { s with
    snapshot := Function.update s.snapshot i s.toSnapshot
    task := Function.update s.task i p }

/-- A caller's write: `store.aset`, `store.aset_many`. -/
def Server.write (s : Server ι K V T) (i : ι) (entries : Dict K (Entry V T)) : Server ι K V T :=
  { s with
    store := s.store.write entries.entries
    truth := s.truth.write entries.entries
    version := fun k => if k ∈ entries.keys then s.version k + 1 else s.version k
    task := Function.update s.task i (.done (.ok .done)) }

/-- A caller's removal: `store.adelete`, `store.adelete_many`. -/
def Server.remove (s : Server ι K V T) (i : ι) (keys : List K) : Server ι K V T :=
  { s with
    store := s.store.delete keys
    truth := s.truth.delete keys
    task := Function.update s.task i (.done (.ok .done)) }

/-- `store.aclear`. -/
def Server.clear (s : Server ι K V T) (i : ι) : Server ι K V T :=
  { s with
    store := fun _ => none
    truth := fun _ => none
    task := Function.update s.task i (.done (.ok .done)) }

/-- An eviction: the same call on the store as a removal, but no caller asked for it. -/
def Server.evict (s : Server ι K V T) (i : ι) (keys : List K) (answer : Answer K V) :
    Server ι K V T :=
  { s with
    store := s.store.delete keys
    task := Function.update s.task i (.done (.ok answer)) }

variable [LinearOrder T] [AddCommMonoid T] [ToString T]

/-- The next store call of `aset` and `aset_many`, which have looked at the clock. -/
def setPhase (now : T) (keys : List K) (entries : Option T → Dict K (Entry V T)) :
    Except (StoreError K) (Option T) → Phase K V T
  | .error e => .done (.error e)
  | .ok ttl =>
    if ttl = some 0 then .removing keys else .writing (entries (ttl.map (now + ·)))

/-- The turn of a task at the time `now`. -/
def act (defaultTtl : Option T) (call : Call K V T) (s : Server ι K V T) (i : ι) (now : T) :
    Option (Server ι K V T) :=
  match s.task i with
  | .start =>
    match call with
    | .get key _ | .tryGet key | .contains key => some (s.read i (.got key (s.store key)))
    | .getMany keys _ | .tryGetMany keys | .containsMany keys =>
      if keys = [] then some (s.move i (.done (.ok (answerMany call ∅))))
      else some (s.read i (.gotMany keys (keys.map s.store)))
    | .set key value ttl =>
      some (s.move i (setPhase now [key] (fun expiresAt => Dict.ofList [(key, ⟨value, expiresAt⟩)])
        (resolveTtl defaultTtl ttl)))
    | .setMany items ttl =>
      if items.entries = [] then some (s.move i (.done (.ok .done)))
      else some (s.move i (setPhase now items.keys (fun expiresAt =>
        items.mapValues (⟨·, expiresAt⟩)) (resolveTtl defaultTtl ttl)))
    | .delete key => some (s.remove i [key])
    | .deleteMany keys => some (s.remove i keys)
    | .clear => some (s.clear i)
  | .got _ none => some (s.move i (.done (.ok (answerOne call none))))
  | .got key (some entry) =>
    if entry.expired now then some (s.move i (.evicting [key] (answerOne call none)))
    else some (s.move i (.done (.ok (answerOne call (some entry.value)))))
  | .gotMany keys entries =>
    let (hits, expiredKeys) := splitMany now keys entries
    if expiredKeys = [] then some (s.move i (.done (.ok (answerMany call hits))))
    else some (s.move i (.evicting expiredKeys (answerMany call hits)))
  | .evicting keys answer => some (s.evict i keys answer)
  | .writing entries => some (s.write i entries)
  | .removing keys => some (s.remove i keys)
  | .done _ => none

/-- Some task takes its turn, and sees a time on its clock. -/
def step (defaultTtl : Option T) (calls : ι → Call K V T) (s : Server ι K V T) (turn : ι × T) :
    Option (Server ι K V T) :=
  act defaultTtl (calls turn.1) { s with clock := max s.clock turn.2 } turn.1 turn.2

end

/-- A lookup deletes a key only if no `aset` or `aset_many` wrote it since it was read. -/
def Unwritten (s : Server ι K V T) (turn : ι × T) : Prop :=
  match s.task turn.1 with
  | .evicting keys _ => ∀ k ∈ keys, s.version k = (s.snapshot turn.1).version k
  | _ => True

instance (s : Server ι K V T) (turn : ι × T) : Decidable (Unwritten s turn) := by
  unfold Unwritten
  split <;> infer_instance

/-- What a lookup says when it finds the value of one of its keys. -/
def Finds [LinearOrder K] (call : Call K V T) (answer : Answer K V) (k : K) (value : V) : Prop :=
  match call with
  | .get _ _ => answer = .value value
  | .tryGet _ => answer = .hit (some value)
  | .contains _ => answer = .flag true
  | .getMany _ _ | .tryGetMany _ => ∃ hits, answer = .values hits ∧ hits.get? k = some value
  | .containsMany keys => ∃ found, answer = .flags (keys.map found) ∧ found k = true
  | _ => False

/-- No live value is dropped: what the callers wrote is in the store until it expires, and a lookup
finds what there was when it read the store, unless it has expired. -/
structure KeepsLiveValues [LinearOrder K] [LT T] [DecidableLT T] (calls : ι → Call K V T)
    (s : Server ι K V T) : Prop where
  store : ∀ k e, s.truth k = some e → ¬ e.expired s.clock → s.store k = some e
  lookup : ∀ i answer, (s.task i).answer = some answer → ∀ k ∈ lookupKeys (calls i), ∀ e,
    (s.snapshot i).truth k = some e → ¬ e.expired s.clock → Finds (calls i) answer k e.value

/-! ### The invariant -/

/-- The call looks up one key. -/
def LooksUp (call : Call K V T) (key : K) : Prop :=
  match call with
  | .get k _ | .tryGet k | .contains k => k = key
  | _ => False

/-- The call looks up a batch. -/
def LooksUpMany (call : Call K V T) (keys : List K) : Prop :=
  match call with
  | .getMany ks _ | .tryGetMany ks | .containsMany ks => ks = keys
  | _ => False

theorem LooksUp.lookupKeys_eq {call : Call K V T} {key : K} (h : LooksUp call key) :
    lookupKeys call = [key] := by
  cases call <;> first | cases h; rfl | cases h

theorem LooksUpMany.lookupKeys_eq {call : Call K V T} {keys : List K} (h : LooksUpMany call keys) :
    lookupKeys call = keys := by
  cases call <;> first | cases h; rfl | cases h

variable [LinearOrder K] [LinearOrder T]

omit [LinearOrder T] in
theorem LooksUp.finds {call : Call K V T} {key : K} (h : LooksUp call key) (value : V) :
    Finds call (answerOne call (some value)) key value := by
  cases call <;> first | exact rfl | cases h

omit [LinearOrder T] in
theorem LooksUpMany.finds {call : Call K V T} {keys : List K} (h : LooksUpMany call keys)
    {hits : Dict K V} {k : K} {value : V} (hk : k ∈ keys) (hv : hits.get? k = some value) :
    Finds call (answerMany call hits) k value := by
  cases call with
  | getMany ks default =>
    cases h
    refine ⟨_, rfl, ?_⟩
    have hf := Dict.get?_ofList_filterMap (fun key => some ((hits.get? key).getD default)) keys k
    rw [if_pos hk, hv] at hf
    simpa using hf
  | tryGetMany ks =>
    cases h
    exact ⟨hits, rfl, hv⟩
  | containsMany ks =>
    cases h
    exact ⟨fun key => decide (key ∈ hits.keys), rfl,
      decide_eq_true (Dict.isSome_get?_iff.mp (by simp [hv]))⟩
  | _ => cases h

/-- A lookup that read `snap` has found every live value of its keys. -/
def FindsLive (call : Call K V T) (clock : T) (snap : Snapshot K V T) (answer : Answer K V) :
    Prop :=
  ∀ k ∈ lookupKeys call, ∀ e, snap.truth k = some e → ¬ e.expired clock →
    Finds call answer k e.value

/-- What is true of a task that read `snap`. -/
def TaskInv (call : Call K V T) (clock : T) (snap : Snapshot K V T) : Phase K V T → Prop
  | .start => True
  | .got key entry => LooksUp call key ∧ entry = snap.store key
  | .gotMany keys entries => LooksUpMany call keys ∧ entries = keys.map snap.store
  | .evicting keys answer =>
    (∀ k ∈ keys, ∀ e, snap.store k = some e → e.expired clock) ∧ FindsLive call clock snap answer
  | .writing _ | .removing _ | .done (.error _) => lookupKeys call = []
  | .done (.ok answer) => FindsLive call clock snap answer

/-- What is true of anything read earlier: it had the values that are still alive, and a key that
was not written since holds what it held, or nothing. -/
structure Seen (clock : T) (now snap : Snapshot K V T) : Prop where
  live : ∀ k e, snap.truth k = some e → ¬ e.expired clock → snap.store k = some e
  version : ∀ k, snap.version k ≤ now.version k
  unwritten : ∀ k, now.version k = snap.version k → ∀ e, now.store k = some e →
    snap.store k = some e

/-- The invariant. -/
structure Inv (calls : ι → Call K V T) (s : Server ι K V T) : Prop where
  store : ∀ k e, s.truth k = some e → ¬ e.expired s.clock → s.store k = some e
  seen : ∀ i, Seen s.clock s.toSnapshot (s.snapshot i)
  task : ∀ i, TaskInv (calls i) s.clock (s.snapshot i) (s.task i)

variable {calls : ι → Call K V T} {s s' : Server ι K V T} {i : ι}

theorem inv_init (store : Contents K (Entry V T)) (clock : T) : Inv calls (init store clock) where
  store _ _ h _ := h
  seen _ := ⟨fun _ _ h _ => h, fun _ => le_rfl, fun _ _ _ h => h⟩
  task _ := trivial

theorem Inv.keepsLiveValues (h : Inv calls s) : KeepsLiveValues calls s where
  store := h.store
  lookup i answer ha := by
    have ht := h.task i
    cases hp : s.task i with
    | evicting keys a =>
      rw [hp] at ha ht
      cases ha
      exact ht.2
    | done outcome =>
      rw [hp] at ha ht
      cases outcome with
      | error e => cases ha
      | ok a =>
        cases ha
        exact ht
    | _ =>
      rw [hp] at ha
      cases ha

/-! ### Time passes -/

theorem expired_mono {e : Entry V T} {t now : T} (h : e.expired t) (ht : t ≤ now) :
    e.expired now := by
  obtain ⟨value, expiresAt⟩ := e
  cases expiresAt with
  | none => cases h
  | some x => exact decide_eq_true ((of_decide_eq_true h).trans_le ht)

theorem TaskInv.later {call : Call K V T} {clock clock' : T} {snap : Snapshot K V T}
    {p : Phase K V T} (h : TaskInv call clock snap p) (hle : clock ≤ clock') :
    TaskInv call clock' snap p := by
  have hfinds : ∀ {a}, FindsLive call clock snap a → FindsLive call clock' snap a :=
    fun ha k hk e he hlive => ha k hk e he fun hexp => hlive (expired_mono hexp hle)
  cases p with
  | evicting keys a =>
    exact ⟨fun k hk e he => expired_mono (h.1 k hk e he) hle, hfinds h.2⟩
  | done outcome =>
    cases outcome with
    | error e => exact h
    | ok a => exact hfinds h
  | _ => exact h

/-- A value that is alive later is alive now. -/
theorem Inv.later (h : Inv calls s) {clock : T} (hle : s.clock ≤ clock) :
    Inv calls { s with clock := clock } where
  store k e he hlive := h.store k e he fun hexp => hlive (expired_mono hexp hle)
  seen i := ⟨fun k e he hlive => (h.seen i).live k e he fun hexp => hlive (expired_mono hexp hle),
    (h.seen i).version, (h.seen i).unwritten⟩
  task i := (h.task i).later hle

/-! ### What a turn does -/

variable [DecidableEq ι]

/-- The tasks after one of them moved on. -/
theorem Inv.tasks (h : Inv calls s) {p : Phase K V T}
    (hp : TaskInv (calls i) s.clock (s.snapshot i) p) (j : ι) :
    TaskInv (calls j) s.clock (s.snapshot j) (Function.update s.task i p j) := by
  by_cases hj : j = i
  · subst hj
    rwa [Function.update_self]
  · rw [Function.update_of_ne hj]
    exact h.task j

theorem Inv.move (h : Inv calls s) {p : Phase K V T}
    (hp : TaskInv (calls i) s.clock (s.snapshot i) p) : Inv calls (s.move i p) :=
  ⟨h.store, h.seen, h.tasks hp⟩

/-- A task that reads the store sees every live value. -/
theorem Inv.afterRead (h : Inv calls s) {p : Phase K V T}
    (hp : TaskInv (calls i) s.clock s.toSnapshot p) : Inv calls (s.read i p) := by
  have hnow : Seen s.clock s.toSnapshot s.toSnapshot :=
    ⟨h.store, fun _ => le_rfl, fun _ _ _ he => he⟩
  refine ⟨h.store, fun j => ?_, fun j => ?_⟩
  · change Seen s.clock s.toSnapshot (Function.update s.snapshot i s.toSnapshot j)
    by_cases hj : j = i
    · rwa [hj, Function.update_self]
    · rw [Function.update_of_ne hj]
      exact h.seen j
  · change TaskInv (calls j) s.clock (Function.update s.snapshot i s.toSnapshot j)
      (Function.update s.task i p j)
    by_cases hj : j = i
    · rwa [hj, Function.update_self, Function.update_self]
    · rw [Function.update_of_ne hj, Function.update_of_ne hj]
      exact h.task j

omit [DecidableEq ι] in
/-- Nothing is asked of a call that looks nothing up. -/
theorem findsLive_of_lookupKeys {call : Call K V T} {clock : T} {snap : Snapshot K V T}
    {answer : Answer K V} (hc : lookupKeys call = []) : FindsLive call clock snap answer := by
  intro k hk
  rw [hc] at hk
  cases hk

/-- Outside the keys of a write nothing changes; on them the store has what the caller wrote. -/
theorem Inv.afterWrite (h : Inv calls s) (hc : lookupKeys (calls i) = [])
    (entries : Dict K (Entry V T)) : Inv calls (s.write i entries) := by
  refine ⟨fun k e he hlive => ?_, fun j => ⟨(h.seen j).live, fun k => ?_, fun k hv e he => ?_⟩,
    h.tasks (findsLive_of_lookupKeys hc)⟩
  · simp only [Server.write, Contents.write_entries] at he ⊢
    cases hk : entries.get? k with
    | none =>
      rw [hk] at he
      simpa using h.store k e (by simpa using he) hlive
    | some e' =>
      rw [hk] at he
      simpa using he
  · refine ((h.seen j).version k).trans ?_
    simp only [Server.write]
    split <;> omega
  · have hle := (h.seen j).version k
    simp only [Server.write] at hv
    split at hv
    · omega
    · next hk =>
      have hs : s.store k = some e := by
        simpa [Server.write, Contents.write_entries, Dict.get?_eq_none_iff.mpr hk] using he
      exact (h.seen j).unwritten k hv e hs

/-- A caller's removal takes the key away from the store and from the truth. -/
theorem Inv.afterRemove (h : Inv calls s) (hc : lookupKeys (calls i) = []) (keys : List K) :
    Inv calls (s.remove i keys) := by
  refine ⟨fun k e he hlive => ?_, fun j => ⟨(h.seen j).live, (h.seen j).version,
    fun k hv e he => ?_⟩, h.tasks (findsLive_of_lookupKeys hc)⟩
  · simp only [Server.remove, Contents.delete] at he ⊢
    split at he
    · cases he
    · next hk =>
      rw [if_neg hk]
      exact h.store k e he hlive
  · simp only [Server.remove, Contents.delete] at he
    split at he
    · cases he
    · exact (h.seen j).unwritten k hv e he

theorem Inv.afterClear (h : Inv calls s) (hc : lookupKeys (calls i) = []) :
    Inv calls (s.clear i) := by
  exact ⟨fun _ _ => nofun, fun j => ⟨(h.seen j).live, (h.seen j).version, fun _ _ _ => nofun⟩,
    h.tasks (findsLive_of_lookupKeys hc)⟩

/-- **Eviction.** What was read had expired; what is there is what was read. -/
theorem Inv.afterEvict (h : Inv calls s) {keys : List K} {answer : Answer K V}
    (hp : s.task i = .evicting keys answer)
    (hv : ∀ k ∈ keys, s.version k = (s.snapshot i).version k) :
    Inv calls (s.evict i keys answer) := by
  have ht := h.task i
  rw [hp] at ht
  refine ⟨fun k e he hlive => ?_, fun j => ⟨(h.seen j).live, (h.seen j).version,
    fun k hvj e he => ?_⟩, h.tasks ht.2⟩
  · have hs := h.store k e he hlive
    have hk : k ∉ keys := fun hk => hlive (ht.1 k hk e ((h.seen i).unwritten k (hv k hk) e hs))
    simpa only [Server.evict, Contents.delete, if_neg hk] using hs
  · simp only [Server.evict, Contents.delete] at he
    split at he
    · cases he
    · exact (h.seen j).unwritten k hvj e he

/-! ### The turns -/

section

variable {d : Option T} {call : Call K V T} {now clock : T} {snap : Snapshot K V T}

omit [DecidableEq ι] in
/-- A miss is right when what was read had expired, or was not there. -/
theorem Inv.missed (h : Inv calls s) {key : K} (hc : LooksUp (calls i) key) {answer : Answer K V}
    (hmiss : ∀ e, (s.snapshot i).store key = some e → e.expired s.clock) :
    FindsLive (calls i) s.clock (s.snapshot i) answer := by
  intro k hk e he hlive
  obtain rfl : k = key := by simpa [hc.lookupKeys_eq] using hk
  exact absurd (hmiss e ((h.seen i).live k e he hlive)) hlive

omit [DecidableEq ι] in
/-- A hit is what was read. -/
theorem Inv.found (h : Inv calls s) {key : K} (hc : LooksUp (calls i) key) {e : Entry V T}
    (hread : (s.snapshot i).store key = some e) :
    FindsLive (calls i) s.clock (s.snapshot i) (answerOne (calls i) (some e.value)) := by
  intro k hk e' he hlive
  obtain rfl : k = key := by simpa [hc.lookupKeys_eq] using hk
  have hstore := (h.seen i).live k e' he hlive
  obtain rfl : e = e' := Option.some.inj (hread.symm.trans hstore)
  exact hc.finds e.value

omit [DecidableEq ι] in
/-- The hits of a batch contain every value that is still alive. -/
theorem Inv.foundMany (h : Inv calls s) {keys : List K} (hc : LooksUpMany (calls i) keys)
    (hnow : now ≤ s.clock) : FindsLive (calls i) s.clock (s.snapshot i)
      (answerMany (calls i) (splitMany now keys (keys.map (s.snapshot i).store)).1) := by
  intro k hk e he hlive
  rw [hc.lookupKeys_eq] at hk
  refine hc.finds hk ?_
  have hstore := (h.seen i).live k e he hlive
  have hnot : ¬ e.expired now := fun hexp => hlive (expired_mono hexp hnow)
  rw [splitMany, foldl_splitEntry]
  change (hitsOf (fun key => hit ((s.snapshot i).store key) now) keys).get? k = _
  rw [get?_hitsOf hk, hstore]
  simp [hit, hnot]

/-- The expired keys of a batch have expired. -/
theorem expired_of_mem_splitMany {store : Contents K (Entry V T)} {keys : List K}
    (hnow : now ≤ clock) {k : K} (hk : k ∈ (splitMany now keys (keys.map store)).2)
    {e : Entry V T} (he : store k = some e) : e.expired clock := by
  rw [splitMany, foldl_splitEntry, List.nil_append] at hk
  have hexp := (List.mem_filter.mp hk).2
  rw [he] at hexp
  exact expired_mono hexp hnow

variable [AddCommMonoid T]

theorem taskInv_setPhase {keys : List K} {entries : Option T → Dict K (Entry V T)}
    {ttl : Except (StoreError K) (Option T)} (hc : lookupKeys call = []) :
    TaskInv call clock snap (setPhase now keys entries ttl) := by
  cases ttl with
  | error e => exact hc
  | ok ttl =>
    simp only [setPhase]
    split <;> exact hc

variable [ToString T]

/-- The first turn of a call. -/
theorem Inv.start (h : Inv calls s) (hp : s.task i = .start)
    (hs : CacheTasks.act d (calls i) s i now = some s') : Inv calls s' := by
  simp only [CacheTasks.act, hp] at hs
  cases hc : calls i with
  | get key default | tryGet key | contains key =>
    rw [hc] at hs
    cases hs
    exact h.afterRead (by rw [hc]; exact ⟨rfl, rfl⟩)
  | getMany keys default | tryGetMany keys | containsMany keys =>
    simp only [hc] at hs
    split at hs
    · next hk =>
      cases hs
      exact h.move (findsLive_of_lookupKeys (by rw [hc]; exact hk))
    · cases hs
      exact h.afterRead (by rw [hc]; exact ⟨rfl, rfl⟩)
  | set key value ttl =>
    rw [hc] at hs
    cases hs
    exact h.move (taskInv_setPhase (by rw [hc]; rfl))
  | setMany items ttl =>
    simp only [hc] at hs
    split at hs <;> cases hs
    · exact h.move (findsLive_of_lookupKeys (by rw [hc]; rfl))
    · exact h.move (taskInv_setPhase (by rw [hc]; rfl))
  | delete key =>
    rw [hc] at hs
    cases hs
    exact h.afterRemove (by rw [hc]; rfl) [key]
  | deleteMany keys =>
    rw [hc] at hs
    cases hs
    exact h.afterRemove (by rw [hc]; rfl) keys
  | clear =>
    rw [hc] at hs
    cases hs
    exact h.afterClear (by rw [hc]; rfl)

/-- A lookup has its entry: it answers, or goes on to evict. -/
theorem Inv.got (h : Inv calls s) {key : K} {entry : Option (Entry V T)}
    (hp : s.task i = .got key entry) (hnow : now ≤ s.clock)
    (hs : CacheTasks.act d (calls i) s i now = some s') : Inv calls s' := by
  have ht := h.task i
  rw [hp] at ht
  obtain ⟨hc, hread⟩ := ht
  cases entry with
  | none =>
    simp only [CacheTasks.act, hp] at hs
    cases hs
    exact h.move (h.missed hc fun e he => by rw [← hread] at he; cases he)
  | some e =>
    simp only [CacheTasks.act, hp] at hs
    split at hs
    · next hexp =>
      have hgone : ∀ e', (s.snapshot i).store key = some e' → e'.expired s.clock := by
        intro e' he'
        obtain rfl := Option.some.inj (hread.trans he')
        exact expired_mono hexp hnow
      cases hs
      refine h.move ⟨fun k hk => ?_, h.missed hc hgone⟩
      rwa [List.mem_singleton.mp hk]
    · cases hs
      exact h.move (h.found hc hread.symm)

/-- **One turn.** -/
theorem Inv.act (h : Inv calls s) (hnow : now ≤ s.clock) (hG : Unwritten s (i, now))
    (hs : act d (calls i) s i now = some s') : Inv calls s' := by
  have ht := h.task i
  cases hp : s.task i with
  | start => exact h.start hp hs
  | got key entry => exact h.got hp hnow hs
  | gotMany keys entries =>
    rw [hp] at ht
    obtain ⟨hc, rfl⟩ := ht
    simp only [CacheTasks.act, hp] at hs
    split at hs <;> cases hs
    · exact h.move (h.foundMany hc hnow)
    · exact h.move ⟨fun k hk e he => expired_of_mem_splitMany hnow hk he, h.foundMany hc hnow⟩
  | evicting keys answer =>
    simp only [CacheTasks.act, hp] at hs
    cases hs
    simp only [Unwritten, hp] at hG
    exact h.afterEvict hp hG
  | writing entries =>
    rw [hp] at ht
    simp only [CacheTasks.act, hp] at hs
    cases hs
    exact h.afterWrite ht entries
  | removing keys =>
    rw [hp] at ht
    simp only [CacheTasks.act, hp] at hs
    cases hs
    exact h.afterRemove ht keys
  | done outcome =>
    simp only [CacheTasks.act, hp] at hs
    cases hs

/-- **Runs that evict only what they read keep every live value.** -/
theorem tasks_keep_live_values (d : Option T) (calls : ι → Call K V T)
    (store : Contents K (Entry V T)) (clock : T) (s : Server ι K V T)
    (h : Reaches (step d calls) Unwritten (init store clock) s) : KeepsLiveValues calls s := by
  refine Inv.keepsLiveValues (h.invariant (inv_init store clock) fun s s' turn hinv hG hs => ?_)
  exact (hinv.later (le_max_left s.clock turn.2)).act (le_max_right s.clock turn.2) hG hs

end

/-! ### A lookup that is overtaken by a write -/

/-- A value that lives for five seconds, a lookup, a second value, a second lookup. -/
def setGetSetGet : Fin 4 → Call String ℕ ℤ
  | 0 => .set "k" 1 (.given (some 5))
  | 1 => .tryGet "k"
  | 2 => .set "k" 2 (.given none)
  | 3 => .tryGet "k"

/-- What is stored, what the callers wrote, and what the second lookup answers. -/
def observed (s : Server (Fin 4) String ℕ ℤ) :
    Option (Entry ℕ ℤ) × Option (Entry ℕ ℤ) × Option (Answer String ℕ) :=
  (s.store "k", s.truth "k", (s.task 3).answer)

/-- The first lookup evicts the expired value before the second one is written. -/
theorem tasks_keep_live_values_in_turn :
    ∃ s, play (guarded (CacheTasks.step none setGetSetGet) Unwritten) (init (fun _ => none) 0)
        [(0, 0), (0, 0), (1, 10), (1, 10), (1, 10), (2, 10), (2, 11), (3, 12), (3, 12)] = some s ∧
      observed s = (some ⟨2, none⟩, some ⟨2, none⟩, some (.hit (some 2))) ∧
      KeepsLiveValues setGetSetGet s := by
  obtain ⟨s, hs, ho⟩ := Option.map_eq_some_iff.mp
    (rfl : (play (guarded (CacheTasks.step none setGetSetGet) Unwritten) (init (fun _ => none) 0)
      [(0, 0), (0, 0), (1, 10), (1, 10), (1, 10), (2, 10), (2, 11), (3, 12), (3, 12)]).map
        observed = some (some ⟨2, none⟩, some ⟨2, none⟩, some (.hit (some 2))))
  exact ⟨s, hs, ho, tasks_keep_live_values none _ _ 0 s (reaches_of_play_guarded hs)⟩

/-- **The live value that is dropped.** The first lookup reads the expired value, the second value
is written, and the lookup evicts it: the second lookup misses. -/
theorem tasks_drop_live_value :
    ∃ s, play (CacheTasks.step none setGetSetGet) (init (fun _ => none) 0)
        [(0, 0), (0, 0), (1, 10), (1, 10), (2, 10), (2, 11), (1, 11), (3, 12), (3, 12)] = some s ∧
      observed s = (none, some ⟨2, none⟩, some (.hit none)) ∧ ¬ KeepsLiveValues setGetSetGet s := by
  obtain ⟨s, hs, ho⟩ := Option.map_eq_some_iff.mp
    (rfl : (play (CacheTasks.step none setGetSetGet) (init (fun _ => none) 0)
      [(0, 0), (0, 0), (1, 10), (1, 10), (2, 10), (2, 11), (1, 11), (3, 12), (3, 12)]).map
        observed = some (none, some ⟨2, none⟩, some (.hit none)))
  refine ⟨s, hs, ho, fun hkeeps => ?_⟩
  have hstore : s.store "k" = none := congrArg Prod.fst ho
  have htruth : s.truth "k" = some ⟨2, none⟩ := congrArg (·.2.1) ho
  have hlive := hkeeps.store "k" ⟨2, none⟩ htruth (by simp [Entry.expired])
  rw [hstore] at hlive
  cases hlive

end CacheTasks

end Persista
