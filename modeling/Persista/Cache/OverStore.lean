import Persista.Cache.Ttl
import Persista.Lib.Indistinguishable
import Persista.Store.Backends

/-!
# `Cache` over any store

`cache/cache.py` does not know what its store is. Here the store is any `BaseStore`; over one that
is a map, a cache cannot be told from a cache over an `InMemoryStore`, so the law of its ttls is the
law of that one.

## Main results

* `CacheOver.alike` — two stores that hold the same cannot be told apart by a call of a cache
* `CacheOver.answers_over` — nor by a run
* `CacheOver.ttl_law_over` — the law of the ttls, over any store that is a map
-/

namespace Persista

namespace CacheOver

open Cache BaseStore Indistinguishable

variable {σ τ K V T : Type} [LinearOrder K] [LinearOrder T] [AddCommMonoid T] [ToString T]
  (store : BaseStore σ K (Entry V T)) (defaultTtl : Option T)

/-! ### The calls -/

/-- `set`. -/
def set (s : σ) (now : T) (key : K) (value : V) (ttl : Ttl T) : Except (StoreError K) σ := do
  let resolvedTtl ← resolveTtl defaultTtl ttl
  if resolvedTtl = some 0 then
    store.exec s (.delete key)
  else
    store.exec s (.set key ⟨value, resolvedTtl.map (now + ·)⟩ .overwrite)

/-- `set_many`. -/
def setMany (s : σ) (now : T) (items : Dict K V) (ttl : Ttl T) : Except (StoreError K) σ := do
  if items.entries = [] then
    return s
  let resolvedTtl ← resolveTtl defaultTtl ttl
  if resolvedTtl = some 0 then
    store.exec s (.deleteMany items.keys)
  else
    store.exec s (.setMany (items.mapValues (⟨·, resolvedTtl.map (now + ·)⟩)) .overwrite)

/-- `_get`, `try_get`: a hit is `some value`. -/
def tryGet (s : σ) (now : T) (key : K) : Except (StoreError K) (σ × Option V) := do
  match ← store.get s key with
  | none => return (s, none)
  | some entry =>
    if entry.expired now then
      return (← store.exec s (.delete key), none)
    return (s, some entry.value)

/-- `try_get_many`. -/
def tryGetMany (s : σ) (now : T) (keys : List K) : Except (StoreError K) (σ × Dict K V) := do
  if keys = [] then
    return (s, ∅)
  let entries ← store.getMany s keys
  let (results, expiredKeys) := splitMany now keys entries
  if expiredKeys = [] then
    return (s, results)
  return (← store.exec s (.deleteMany expiredKeys), results)

/-- A call at the time `now`. -/
def exec (s : σ) (call : T × Call K V T) : Except (StoreError K) (σ × Answer K V) :=
  let now := call.1
  match call.2 with
  | .set key value ttl => (set store defaultTtl s now key value ttl).map (·, .done)
  | .setMany items ttl => (setMany store defaultTtl s now items ttl).map (·, .done)
  | .delete key => (store.exec s (.delete key)).map (·, .done)
  | .deleteMany keys => (store.exec s (.deleteMany keys)).map (·, .done)
  | .clear => (store.exec s .clear).map (·, .done)
  | .get key default =>
    (tryGet store s now key).map fun r => (r.1, .value (r.2.getD default))
  | .tryGet key => (tryGet store s now key).map fun r => (r.1, .hit r.2)
  | .contains key => (tryGet store s now key).map fun r => (r.1, .flag r.2.isSome)
  | .getMany keys default =>
    if keys = [] then .ok (s, .values ∅)
    else (tryGetMany store s now keys).map fun r => (r.1, .values (Dict.ofList (keys.map fun key =>
      (key, (r.2.get? key).getD default))))
  | .tryGetMany keys => (tryGetMany store s now keys).map fun r => (r.1, .values r.2)
  | .containsMany keys => (tryGetMany store s now keys).map fun r =>
      (r.1, .flags (keys.map fun key => decide (key ∈ r.2.keys)))

/-! ### Two stores that hold the same -/

section Alike

variable {store} {store' : BaseStore τ K (Entry V T)} {contents : σ → Contents K (Entry V T)}
  {contents' : τ → Contents K (Entry V T)} {Good : σ → Prop} {Good' : τ → Prop}

/-- The two stores are as they should be, and hold the same. -/
def HoldSame (contents : σ → Contents K (Entry V T)) (contents' : τ → Contents K (Entry V T))
    (Good : σ → Prop) (Good' : τ → Prop) (s : σ) (t : τ) : Prop :=
  Good s ∧ Good' t ∧ contents s = contents' t

variable {s : σ} {t : τ}

omit [LinearOrder T] [AddCommMonoid T] [ToString T] in
/-- One write call. -/
theorem alike_write (h : IsMap store contents Good) (h' : IsMap store' contents' Good')
    (hs : HoldSame contents contents' Good Good' s t) (op : StoreOp K (Entry V T)) {X : Type}
    (x : X) :
    Alike (HoldSame contents contents' Good Good') ((store.exec s op).map (·, x))
      ((store'.exec t op).map (·, x)) := by
  obtain ⟨hgood, hgood', hsame⟩ := hs
  have hcomm : (store.exec s op).map contents = (contents s).exec op := h.refines.comm hgood
  have hcomm' : (store'.exec t op).map contents' = (contents' t).exec op := h'.refines.comm hgood'
  rw [hsame, ← hcomm'] at hcomm
  cases he : store.exec s op with
  | error e =>
    cases he' : store'.exec t op with
    | error e' =>
      rw [he, he'] at hcomm
      obtain rfl := Except.error.inj hcomm
      exact .error e
    | ok t' =>
      rw [he, he'] at hcomm
      cases hcomm
  | ok s' =>
    cases he' : store'.exec t op with
    | error e' =>
      rw [he, he'] at hcomm
      cases hcomm
    | ok t' =>
      rw [he, he'] at hcomm
      exact .ok x ⟨h.refines.inv hgood he, h'.refines.inv hgood' he', Except.ok.inj hcomm⟩

omit [AddCommMonoid T] [ToString T] in
theorem alike_tryGet (h : IsMap store contents Good) (h' : IsMap store' contents' Good')
    (hs : HoldSame contents contents' Good Good' s t) (now : T) (key : K) :
    Alike (HoldSame contents contents' Good Good') (tryGet store s now key)
      (tryGet store' t now key) := by
  rw [tryGet, tryGet, (h.reads hs.1).get, (h'.reads hs.2.1).get, hs.2.2, Refinement.ok_bind,
    Refinement.ok_bind]
  cases contents' t key with
  | none => exact .ok none hs
  | some entry =>
    by_cases he : entry.expired now
    · simp only [if_pos he]
      exact alike_write h h' hs (.delete key) none
    · simp only [if_neg he]
      exact .ok (some entry.value) hs

omit [AddCommMonoid T] [ToString T] in
theorem alike_tryGetMany (h : IsMap store contents Good) (h' : IsMap store' contents' Good')
    (hs : HoldSame contents contents' Good Good' s t) (now : T) (keys : List K) :
    Alike (HoldSame contents contents' Good Good') (tryGetMany store s now keys)
      (tryGetMany store' t now keys) := by
  rw [tryGetMany, tryGetMany, (h.reads hs.1).getMany, (h'.reads hs.2.1).getMany, hs.2.2]
  by_cases hk : keys = []
  · rw [if_pos hk, if_pos hk]
    exact .ok ∅ hs
  · rw [if_neg hk, if_neg hk, Refinement.ok_bind, Refinement.ok_bind]
    obtain ⟨results, expiredKeys⟩ := splitMany now keys (keys.map (contents' t))
    by_cases he : expiredKeys = []
    · simp only [if_pos he]
      exact .ok results hs
    · simp only [if_neg he]
      exact alike_write h h' hs (.deleteMany expiredKeys) results

/-- **Two stores that hold the same** cannot be told apart by one call of a cache over them. -/
theorem alike (h : IsMap store contents Good) (h' : IsMap store' contents' Good')
    (hs : HoldSame contents contents' Good Good' s t) (call : T × Call K V T) :
    Alike (HoldSame contents contents' Good Good') (exec store defaultTtl s call)
      (exec store' defaultTtl t call) := by
  obtain ⟨now, call⟩ := call
  cases call with
  | set key value ttl =>
    simp only [exec, set]
    cases (resolveTtl defaultTtl ttl : Except (StoreError K) _) with
    | error e => exact .error e
    | ok resolvedTtl =>
      simp only [Refinement.ok_bind]
      split
      · exact alike_write h h' hs _ _
      · exact alike_write h h' hs _ _
  | setMany items ttl =>
    simp only [exec, setMany]
    split
    · exact .ok _ hs
    · cases (resolveTtl defaultTtl ttl : Except (StoreError K) _) with
      | error e => exact .error e
      | ok resolvedTtl =>
        simp only [Refinement.ok_bind]
        split
        · exact alike_write h h' hs _ _
        · exact alike_write h h' hs _ _
  | delete key => exact alike_write h h' hs _ _
  | deleteMany keys => exact alike_write h h' hs _ _
  | clear => exact alike_write h h' hs _ _
  | get key default =>
    exact (alike_tryGet h h' hs now key).map fun hit => Answer.value (hit.getD default)
  | tryGet key => exact (alike_tryGet h h' hs now key).map _
  | contains key => exact (alike_tryGet h h' hs now key).map fun hit => Answer.flag hit.isSome
  | getMany keys default =>
    simp only [exec]
    split
    · exact .ok _ hs
    · exact (alike_tryGetMany h h' hs now keys).map fun hits =>
        Answer.values (Dict.ofList (keys.map fun key => (key, (hits.get? key).getD default)))
  | tryGetMany keys => exact (alike_tryGetMany h h' hs now keys).map Answer.values
  | containsMany keys =>
    exact (alike_tryGetMany h h' hs now keys).map fun hits =>
      Answer.flags (keys.map fun key => decide (key ∈ hits.keys))

/-- **Backends make no difference.** In no run, whatever the clock shows, does a cache answer
differently over two stores that are maps and hold the same. -/
theorem answers_over (h : IsMap store contents Good) (h' : IsMap store' contents' Good')
    (hs : Good s) (ht : Good' t) (hsame : contents s = contents' t)
    (history : List (T × Call K V T)) :
    answers (exec store defaultTtl) s history = answers (exec store' defaultTtl) t history :=
  answers_eq (fun _ _ op hR => alike defaultTtl h h' hR op) ⟨hs, ht, hsame⟩ history

end Alike

/-- An in-memory store and a database, with a clock that goes back. -/
theorem answers_over_clockBack :
    answers (exec (InMemoryStore.baseStore byPosition) (some 5)) InMemoryStore.init.open
        [(10, .set 1 "a" .unset), (2, .get 1 "none"), (15, .get 1 "none"), (11, .tryGet 1)] =
      answers (exec (BaseDuckDBStore.baseStore ⟨id, id⟩ inOrder) (some (5 : ℤ)))
        (TableStore.opened : TableStore ℕ (Entry String ℤ))
        [(10, .set 1 "a" .unset), (2, .get 1 "none"), (15, .get 1 "none"), (11, .tryGet 1)] :=
  answers_over (t := TableStore.opened) (some 5) (InMemoryStore.isMap byPosition)
    (BaseDuckDBStore.isMap ⟨id, id⟩ inOrder fun _ => rfl) InMemoryStore.opened_open_init rfl rfl _

/-! ### Over an `InMemoryStore` -/

/-- The cache over the in-memory store. -/
abbrev memory : BaseStore (InMemoryStore K (Entry V T)) K (Entry V T) :=
  InMemoryStore.baseStore byPosition

omit [ToString T] in
theorem tryGet_memory (c : Cache K V T) (now : T) (key : K) :
    tryGet memory c.store now key = (c.tryGet now key).map fun r => (r.1.store, r.2) := by
  simp only [tryGet, Cache.tryGet, memory, InMemoryStore.baseStore, InMemoryStore.exec]
  cases c.store.get key with
  | error e => rfl
  | ok entry =>
    cases entry with
    | none => rfl
    | some entry =>
      simp only [Refinement.ok_bind]
      split
      · cases c.store.delete key with
        | error e => rfl
        | ok store => rfl
      · rfl

omit [ToString T] in
theorem tryGetMany_memory (c : Cache K V T) (now : T) (keys : List K) :
    tryGetMany memory c.store now keys =
      (c.tryGetMany now keys).map fun r => (r.1.store, r.2) := by
  simp only [tryGetMany, Cache.tryGetMany, memory, InMemoryStore.baseStore, InMemoryStore.exec]
  split
  · rfl
  · cases c.store.getMany keys with
    | error e => rfl
    | ok entries =>
      simp only [Refinement.ok_bind]
      split
      · rfl
      · cases c.store.deleteMany (splitMany now keys entries).2 with
        | error e => rfl
        | ok store => rfl

/-- The calls of a `Cache` are those of a cache over its store. -/
theorem exec_memory (c : Cache K V T) (now : T) (call : Call K V T) :
    exec memory c.defaultTtl c.store (now, call) =
      (c.exec now call).map fun r => (r.1.store, r.2) := by
  have hwrite : ∀ (outcome : Except (StoreError K) (InMemoryStore K (Entry V T))),
      outcome.map (fun store => (store, (Answer.done : Answer K V))) =
        ((do return { c with store := ← outcome }).map fun c : Cache K V T =>
          (c, (Answer.done : Answer K V))).map fun r : Cache K V T × Answer K V =>
            (r.1.store, r.2) := by
    intro outcome
    cases outcome with
    | error e => rfl
    | ok store => rfl
  cases call with
  | set key value ttl =>
    simp only [exec, set, Cache.exec, Cache.set]
    cases (resolveTtl c.defaultTtl ttl : Except (StoreError K) _) with
    | error e => rfl
    | ok resolvedTtl =>
      simp only [Refinement.ok_bind]
      split
      · exact hwrite (c.store.delete key)
      · exact hwrite (c.store.set key ⟨value, resolvedTtl.map (now + ·)⟩ .overwrite)
  | setMany items ttl =>
    simp only [exec, setMany, Cache.exec, Cache.setMany]
    split
    · rfl
    · cases (resolveTtl c.defaultTtl ttl : Except (StoreError K) _) with
      | error e => rfl
      | ok resolvedTtl =>
        simp only [Refinement.ok_bind]
        split
        · exact hwrite (c.store.deleteMany items.keys)
        · exact hwrite (c.store.setMany (items.mapValues (⟨·, resolvedTtl.map (now + ·)⟩))
            .overwrite)
  | delete key => exact hwrite (c.store.delete key)
  | deleteMany keys => exact hwrite (c.store.deleteMany keys)
  | clear => exact hwrite c.store.clear
  | get key default =>
    simp only [exec, Cache.exec, Cache.get, tryGet_memory]
    cases c.tryGet now key with
    | error e => rfl
    | ok r => rfl
  | tryGet key =>
    simp only [exec, Cache.exec, tryGet_memory]
    cases c.tryGet now key with
    | error e => rfl
    | ok r => rfl
  | contains key =>
    simp only [exec, Cache.exec, Cache.contains, tryGet_memory]
    cases c.tryGet now key with
    | error e => rfl
    | ok r => rfl
  | getMany keys default =>
    simp only [exec, Cache.exec, Cache.getMany, tryGetMany_memory]
    split
    · rfl
    · cases c.tryGetMany now keys with
      | error e => rfl
      | ok r => rfl
  | tryGetMany keys =>
    simp only [exec, Cache.exec, tryGetMany_memory]
    cases c.tryGetMany now keys with
    | error e => rfl
    | ok r => rfl
  | containsMany keys =>
    simp only [exec, Cache.exec, Cache.containsMany, tryGetMany_memory]
    cases c.tryGetMany now keys with
    | error e => rfl
    | ok r => rfl

/-! ### The law -/

section Law

variable {d : Option T} {c : Cache K V T} {history : List (T × Call K V T)} {t : T}

/-- The store after a run, and the default that does not change. -/
theorem run_memory (h : ∀ t, c.Agrees d t fun _ => none)
    (hclock : (history.map Prod.fst ++ [t]).Pairwise (· ≤ ·)) :
    run (exec memory d) c.store history = (c.run history).store := by
  induction history using List.reverseRecOn generalizing t with
  | nil => rfl
  | append_singleton history e ih =>
    rw [List.map_append, List.pairwise_append] at hclock
    have hbefore := hclock.1
    have hdefault : (c.run history).defaultTtl = d := (Agrees.run h hbefore).defaultTtl
    have hnext := exec_memory (c.run history) e.1 e.2
    rw [hdefault] at hnext
    have hlast : c.run (history ++ [e]) = (c.run history).next e.1 e.2 := List.foldl_append
    rw [run_concat, ih hbefore, hlast, Cache.next]
    change after _ (exec memory d (c.run history).store (e.1, e.2)) = _
    rw [hnext]
    cases (c.run history).exec e.1 e.2 with
    | error e => rfl
    | ok r => rfl

omit [LinearOrder K] in
theorem exists_opened (d : Option T) (hd : ∀ x ∈ d, 0 ≤ x) :
    ∃ c : Cache K V T, (opened d : Except (StoreError K) _) = .ok c := by
  cases d with
  | none => exact ⟨_, rfl⟩
  | some x => exact ⟨_, dif_pos (hd x rfl)⟩

variable {store} {contents : σ → Contents K (Entry V T)} {Good : σ → Prop}

/-- **The TTL law over any store.** A cache over a store that is a map, empty at first, answers
after any calls at times that never go backwards what the history says: a lookup finds the last
write of its key, unless that was removed since or its ttl is over. -/
theorem ttl_law_over (h : IsMap store contents Good) {s : σ} (hs : Good s)
    (hempty : contents s = fun _ => none) (d : Option T) (hd : ∀ x ∈ d, 0 ≤ x)
    (history : List (T × Call K V T)) (t : T)
    (hclock : (history.map Prod.fst ++ [t]).Pairwise (· ≤ ·)) (call : Call K V T) :
    (exec store d (run (exec store d) s history) (t, call)).map Prod.snd =
      expected d (lookup d history · t) call := by
  obtain ⟨c, hc⟩ := exists_opened (K := K) (V := V) d hd
  have hmemory := InMemoryStore.isMap (K := K) (V := Entry V T) byPosition
  have hstart : HoldSame contents InMemoryStore.contents Good InMemoryStore.Opened s c.store := by
    rw [(store_of_opened hc).1]
    exact ⟨hs, rfl, hempty⟩
  have hagrees := Agrees.run (hits_opened hc) hclock
  have hrun := related_run (fun _ _ op hR => alike d h hmemory hR op) hstart history
  rw [run_memory (hits_opened hc) hclock] at hrun
  rw [(alike d h hmemory hrun (t, call)).map_snd]
  have hlast := exec_memory (c.run history) t call
  rw [hagrees.defaultTtl] at hlast
  change _ = expected d (reads (lastWrite d history) · t) call
  rw [hlast, ← (hagrees.exec le_rfl call).1]
  cases (c.run history).exec t call with
  | error e => rfl
  | ok r => rfl

end Law

/-- A batch that is read at the very time the ttl of one entry ends. -/
theorem ttl_law_over_rows :
    (exec (BaseDuckDBStore.baseStore (K := ℕ) (V := Entry ℕ ℤ) ⟨id, id⟩ inOrder) (some 5)
      (run (exec (BaseDuckDBStore.baseStore ⟨id, id⟩ inOrder) (some 5)) TableStore.opened
        [(0, .setMany (Dict.ofList [(1, 10), (2, 20)]) .unset), (1, .set 2 21 (.given (some 1))),
          (3, .tryGetMany [2, 1, 2])]) (5, .tryGetMany [1, 2])).map Prod.snd =
      .ok (.values (Dict.ofList [(1, 10)])) :=
  (ttl_law_over (BaseDuckDBStore.isMap ⟨id, id⟩ inOrder fun _ => rfl)
    (s := TableStore.opened) rfl rfl (some 5) (by decide) _ 5 (by decide) _).trans rfl

end CacheOver

end Persista
