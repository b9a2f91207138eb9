import Persista.Cache.Memoize
import Persista.Cache.OverStore

/-!
# `Cache.memoize` over any store

Over a store that is a map memoization is as transparent as over an `InMemoryStore`.

`store/null.py` is the store that forgets: it is no map, and over it every call answers what it
would on an empty cache. There memoization is transparent for all calls, since every one of them is
computed.

## Main results

* `CacheOver.memoize_over` — memoization over any store that is a map
* `NullStore.null_law`, `NullStore.memoize_null` — a `NullStore` turns caching off
-/

namespace Persista

namespace CacheOver

open Cache BaseStore Indistinguishable

variable {σ τ K V T : Type} [LinearOrder K] [LinearOrder T] [AddCommMonoid T] [ToString T]
  (store : BaseStore σ K (Entry V T)) (defaultTtl : Option T)

/-! ### Memoization -/

section Memoize

/-- `get_or_compute`. -/
def getOrCompute (s : σ) (now : T × T) (key : K)
    (fn : List Json.PyVal → Dict Json.PyStr Json.PyVal → V)
    (args : List Json.PyVal) (kwargs : Dict Json.PyStr Json.PyVal) (ttl : Ttl T) :
    σ × Except (StoreError K) V :=
  match tryGet store s now.1 key with
  | .error e => (s, .error e)
  | .ok (s, some value) => (s, .ok value)
  | .ok (s, none) =>
    let value := fn args kwargs
    match set store defaultTtl s now.2 key value ttl with
    | .error e => (s, .error e)
    | .ok s => (s, .ok value)

/-- The wrapper of `memoize`. -/
def wrapper (hashBytes : ByteArray → K) (s : σ) (now : T × T) (call : MemoCall V T) :
    σ × Except (MemoError K) V :=
  match makeJsonKey hashBytes call.func.qualname call.args call.kwargs with
  | none => (s, .error .typeError)
  | some key =>
    let (s, outcome) :=
      getOrCompute store defaultTtl s now key call.func.fn call.args call.kwargs call.func.ttl
    (s, outcome.mapError .store)

/-- What the calls of a run return. -/
def returns (hashBytes : ByteArray → K) (s : σ) :
    List ((T × T) × MemoCall V T) → List (Except (MemoError K) V)
  | [] => []
  | (now, call) :: calls =>
    let (s, outcome) := wrapper store defaultTtl hashBytes s now call
    outcome :: returns hashBytes s calls

variable {store} {store' : BaseStore τ K (Entry V T)} {contents : σ → Contents K (Entry V T)}
  {contents' : τ → Contents K (Entry V T)} {Good : σ → Prop} {Good' : τ → Prop} {s : σ} {t : τ}

/-- `get_or_compute` over two stores that hold the same. -/
theorem alike_getOrCompute (h : IsMap store contents Good) (h' : IsMap store' contents' Good')
    (hs : HoldSame contents contents' Good Good' s t) (now : T × T) (key : K)
    (fn : List Json.PyVal → Dict Json.PyStr Json.PyVal → V) (args : List Json.PyVal)
    (kwargs : Dict Json.PyStr Json.PyVal) (ttl : Ttl T) :
    HoldSame contents contents' Good Good'
        (getOrCompute store defaultTtl s now key fn args kwargs ttl).1
        (getOrCompute store' defaultTtl t now key fn args kwargs ttl).1 ∧
      (getOrCompute store defaultTtl s now key fn args kwargs ttl).2 =
        (getOrCompute store' defaultTtl t now key fn args kwargs ttl).2 := by
  have hget := alike_tryGet h h' hs now.1 key
  rw [getOrCompute, getOrCompute]
  generalize tryGet store s now.1 key = outcome at hget
  generalize tryGet store' t now.1 key = outcome' at hget
  cases hget with
  | error e => exact ⟨hs, rfl⟩
  | @ok s t hit hR =>
    cases hit with
    | some value => exact ⟨hR, rfl⟩
    | none =>
      have hset := alike defaultTtl h h' hR (now.2, .set key (fn args kwargs) ttl)
      simp only [exec] at hset
      dsimp only
      generalize set store defaultTtl s now.2 key (fn args kwargs) ttl = written at hset ⊢
      generalize set store' defaultTtl t now.2 key (fn args kwargs) ttl = written' at hset ⊢
      cases written with
      | error e =>
        cases written' with
        | error e' =>
          cases hset
          exact ⟨hR, rfl⟩
        | ok t' => cases hset
      | ok s' =>
        cases written' with
        | error e' => cases hset
        | ok t' =>
          cases hset with
          | ok _ hR' => exact ⟨hR', rfl⟩

/-- The calls of a run over two stores that hold the same. -/
theorem returns_eq (h : IsMap store contents Good) (h' : IsMap store' contents' Good')
    (hashBytes : ByteArray → K) (hs : HoldSame contents contents' Good Good' s t)
    (calls : List ((T × T) × MemoCall V T)) :
    returns store defaultTtl hashBytes s calls = returns store' defaultTtl hashBytes t calls := by
  induction calls generalizing s t with
  | nil => rfl
  | cons call calls ih =>
    obtain ⟨now, call⟩ := call
    rw [returns, returns, wrapper, wrapper]
    cases makeJsonKey hashBytes call.func.qualname call.args call.kwargs with
    | none => exact congrArg _ (ih hs)
    | some key =>
      obtain ⟨hsame, houtcome⟩ := alike_getOrCompute defaultTtl h h' hs now key call.func.fn
        call.args call.kwargs call.func.ttl
      simp only [houtcome, ih hsame]

end Memoize

/-! ### Memoization over an `InMemoryStore` -/

section MemoizeMemory

variable {hashBytes : ByteArray → K} {c : Cache K V T}

theorem set_memory (c : Cache K V T) (now : T) (key : K) (value : V) (ttl : Ttl T) :
    set memory c.defaultTtl c.store now key value ttl =
      (c.set now key value ttl).map Cache.store := by
  simp only [set, Cache.set]
  cases (resolveTtl c.defaultTtl ttl : Except (StoreError K) _) with
  | error e => rfl
  | ok resolvedTtl =>
    simp only [Refinement.ok_bind]
    split
    · cases hdel : c.store.delete key with
      | error e => exact hdel
      | ok store => exact hdel
    · cases hset : c.store.set key ⟨value, resolvedTtl.map (now + ·)⟩ .overwrite with
      | error e => exact hset
      | ok store => exact hset

omit [ToString T] in
theorem defaultTtl_tryGet {now : T} {key : K} {c' : Cache K V T} {hit : Option V}
    (h : c.tryGet now key = .ok (c', hit)) : c'.defaultTtl = c.defaultTtl := by
  rw [Cache.tryGet] at h
  cases hget : c.store.get key with
  | error e =>
    rw [hget] at h
    cases h
  | ok entry =>
    rw [hget] at h
    cases entry with
    | none =>
      cases h
      rfl
    | some entry =>
      simp only [Refinement.ok_bind] at h
      split at h
      · cases hdel : c.store.delete key with
        | error e =>
          rw [hdel] at h
          cases h
        | ok store =>
          rw [hdel] at h
          cases h
          rfl
      · cases h
        rfl

omit [LinearOrder K] [ToString T] in
theorem defaultTtl_ok_bind {outcome : Except (StoreError K) (InMemoryStore K (Entry V T))}
    {c' : Cache K V T} (h : (do return { c with store := ← outcome }) = Except.ok c') :
    c'.defaultTtl = c.defaultTtl := by
  cases outcome with
  | error e => cases h
  | ok store =>
    cases h
    rfl

theorem defaultTtl_set {now : T} {key : K} {value : V} {ttl : Ttl T} {c' : Cache K V T}
    (h : c.set now key value ttl = .ok c') : c'.defaultTtl = c.defaultTtl := by
  rw [Cache.set] at h
  cases hr : (resolveTtl c.defaultTtl ttl : Except (StoreError K) _) with
  | error e =>
    rw [hr] at h
    cases h
  | ok resolvedTtl =>
    rw [hr, Refinement.ok_bind] at h
    split at h
    · exact defaultTtl_ok_bind h
    · exact defaultTtl_ok_bind h

/-- `get_or_compute` of a `Cache` is the one over its store. -/
theorem getOrCompute_memory (c : Cache K V T) (now : T × T) (key : K)
    (fn : List Json.PyVal → Dict Json.PyStr Json.PyVal → V) (args : List Json.PyVal)
    (kwargs : Dict Json.PyStr Json.PyVal) (ttl : Ttl T) :
    getOrCompute memory c.defaultTtl c.store now key fn args kwargs ttl =
        ((c.getOrCompute now key fn args kwargs ttl).1.store,
          (c.getOrCompute now key fn args kwargs ttl).2) ∧
      (c.getOrCompute now key fn args kwargs ttl).1.defaultTtl = c.defaultTtl := by
  rw [getOrCompute, Cache.getOrCompute, tryGet_memory]
  cases hget : c.tryGet now.1 key with
  | error e => exact ⟨rfl, rfl⟩
  | ok r =>
    obtain ⟨c', hit⟩ := r
    have hdefault := defaultTtl_tryGet hget
    cases hit with
    | some value => exact ⟨rfl, hdefault⟩
    | none =>
      simp only [Except.map]
      rw [← hdefault, set_memory]
      cases hset : c'.set now.2 key (fn args kwargs) ttl with
      | error e => exact ⟨rfl, rfl⟩
      | ok c'' => exact ⟨rfl, defaultTtl_set hset⟩

/-- The calls of a memoized run of a `Cache` are those over its store. -/
theorem returns_memory (c : Cache K V T) (calls : List ((T × T) × MemoCall V T)) :
    returns memory c.defaultTtl hashBytes c.store calls = c.returns hashBytes calls := by
  induction calls generalizing c with
  | nil => rfl
  | cons call calls ih =>
    obtain ⟨now, call⟩ := call
    rw [returns, Cache.returns, wrapper, Cache.wrapper]
    cases makeJsonKey hashBytes call.func.qualname call.args call.kwargs with
    | none => exact congrArg _ (ih c)
    | some key =>
      obtain ⟨hcall, hdefault⟩ := getOrCompute_memory c now key call.func.fn call.args call.kwargs
        call.func.ttl
      simp only [hcall]
      rw [← hdefault, ih]

variable {store} {contents : σ → Contents K (Entry V T)} {Good : σ → Prop}

/-- **Memoization over any store.** Over a store that is a map, empty at first, a memoized function
returns what the undecorated one does, in every run whose calls can be told from each other. -/
theorem memoize_over (h : IsMap store contents Good) {s : σ} (hs : Good s)
    (hempty : contents s = fun _ => none) (hinj : Function.Injective hashBytes) (d : Option T)
    (hd : ∀ x ∈ d, 0 ≤ x) (calls : List ((T × T) × MemoCall V T))
    (hcalls : Distinguishable (calls.map Prod.snd)) :
    returns store d hashBytes s calls = calls.map fun call => .ok call.2.value := by
  have hmemory := InMemoryStore.isMap (K := K) (V := Entry V T) byPosition
  obtain ⟨c, hc⟩ := exists_opened (K := K) (V := V) d hd
  obtain ⟨hstore, hdefault⟩ := store_of_opened hc
  have hsame : HoldSame contents InMemoryStore.contents Good InMemoryStore.Opened s c.store := by
    rw [hstore]
    exact ⟨hs, rfl, hempty⟩
  have hsound : Sound hashBytes calls c :=
    ⟨by rw [hstore]; rfl, fun k e he => by rw [hstore] at he; cases he⟩
  rw [returns_eq d h hmemory hashBytes hsame calls, ← hdefault, returns_memory]
  exact hsound.returns hinj hcalls fun _ h => h

end MemoizeMemory

/-- Two calls on a DuckDB table, the second one after the ttl of what the first one stored. -/
theorem memoize_over_rows :
    returns (BaseDuckDBStore.baseStore (K := List ℕ) (V := Entry Bool ℤ) ⟨id, id⟩ inOrder) (some 2)
      byteValues TableStore.opened
      [((0, 1), isListOf (.list [.int 1])), ((2, 2), isListOf (.list [.int 1])),
        ((4, 5), isListOf (.list [.int 1]))] = [.ok true, .ok true, .ok true] := by
  refine (memoize_over (BaseDuckDBStore.isMap ⟨id, id⟩ inOrder fun _ => rfl)
    (s := TableStore.opened) rfl rfl byteValues_injective (some 2) (by decide) _
    ⟨fun call h => ?_, fun call h call' h' _ => ?_, fun call h => ?_⟩).trans rfl
  all_goals
    simp only [List.map_cons, List.map_nil, List.mem_cons, List.not_mem_nil, or_false,
      or_self] at h
  · subst h
    rfl
  · simp only [List.map_cons, List.map_nil, List.mem_cons, List.not_mem_nil, or_false,
      or_self] at h'
    rw [h, h']
  · subst h
    trivial

end CacheOver

/-! ### `NullStore` -/

/-- A `NullStore` has nothing but its flag. -/
structure NullStore where
  closed : Bool
  deriving DecidableEq, Repr

namespace NullStore

open Cache Indistinguishable

variable {K V T : Type} {s : NullStore}

/-- `NullStore()`, after `open()`. -/
def opened : NullStore := ⟨false⟩

/-- `_check_open`. -/
def checkOpen (s : NullStore) : Except (StoreError K) Unit :=
  if s.closed then
    .error (.runtimeError
      "NullStore is not open; call open()/aopen() or use it as a context manager.")
  else .ok ()

/-- The calls. Every write is dropped, whatever its `on_conflict`. -/
def baseStore : BaseStore NullStore K V where
  exec s _ := do
    s.checkOpen
    return s
  get s _ := do
    s.checkOpen
    return none
  getMany s keys := do
    s.checkOpen
    return List.replicate keys.length none
  contains s _ := do
    s.checkOpen
    return false
  containsMany s keys := do
    s.checkOpen
    return List.replicate keys.length false
  keys s := do
    s.checkOpen
    return []
  iterBatches s batchSize := do
    validateBatchSize batchSize
    s.checkOpen
    return []
  count s := do
    s.checkOpen
    return 0

theorem checkOpen_of_not_closed (h : s.closed = false) :
    (s.checkOpen : Except (StoreError K) Unit) = .ok () := by
  simp [checkOpen, h]

variable [LinearOrder K] [LinearOrder T] [AddCommMonoid T] [ToString T] {d : Option T}

omit [AddCommMonoid T] [ToString T] in
/-- Nothing is found in a batch of misses. -/
theorem splitMany_replicate (now : T) (keys : List K) :
    splitMany (V := V) now keys (List.replicate keys.length none) = (∅, []) := by
  rw [splitMany]
  induction keys with
  | nil => rfl
  | cons key keys ih =>
    rw [List.length_cons, List.replicate_succ, List.zip_cons_cons, List.foldl_cons]
    exact ih

omit [LinearOrder K] [AddCommMonoid T] [ToString T] in
theorem tryGet_eq (h : s.closed = false) (now : T) (key : K) :
    CacheOver.tryGet (V := V) baseStore s now key = .ok (s, none) := by
  simp [CacheOver.tryGet, baseStore, checkOpen_of_not_closed h]

omit [AddCommMonoid T] [ToString T] in
theorem tryGetMany_eq (h : s.closed = false) (now : T) (keys : List K) :
    CacheOver.tryGetMany (V := V) baseStore s now keys = .ok (s, ∅) := by
  by_cases hk : keys = []
  · simp [CacheOver.tryGetMany, hk]
  · simp [CacheOver.tryGetMany, hk, baseStore, checkOpen_of_not_closed h, splitMany_replicate]

omit [LinearOrder K] in
theorem set_eq (h : s.closed = false) (now : T) (key : K) (value : V) (ttl : Ttl T) :
    CacheOver.set baseStore d s now key value ttl = (resolveTtl d ttl).map fun _ => s := by
  simp only [CacheOver.set]
  cases (resolveTtl d ttl : Except (StoreError K) _) with
  | error e => rfl
  | ok resolvedTtl => simp [baseStore, checkOpen_of_not_closed h, Except.map]

/-- One call: the answer of an empty cache. -/
theorem exec_eq (h : s.closed = false) (now : T) (call : Call K V T) :
    CacheOver.exec baseStore d s (now, call) = (expected d (fun _ => none) call).map (s, ·) := by
  have hopen : (s.checkOpen : Except (StoreError K) Unit) = .ok () := checkOpen_of_not_closed h
  cases call with
  | set key value ttl =>
    simp only [CacheOver.exec, set_eq h, expected]
    cases (resolveTtl d ttl : Except (StoreError K) _) with
    | error e => rfl
    | ok resolvedTtl => rfl
  | setMany items ttl =>
    simp only [CacheOver.exec, CacheOver.setMany, expected]
    split
    · rfl
    · cases (resolveTtl d ttl : Except (StoreError K) _) with
      | error e => rfl
      | ok resolvedTtl => simp [baseStore, hopen, Except.map]
  | delete key => simp [CacheOver.exec, baseStore, hopen, expected, Except.map]
  | deleteMany keys => simp [CacheOver.exec, baseStore, hopen, expected, Except.map]
  | clear => simp [CacheOver.exec, baseStore, hopen, expected, Except.map]
  | get key default => simp [CacheOver.exec, tryGet_eq h, expected, Except.map]
  | tryGet key => simp [CacheOver.exec, tryGet_eq h, expected, Except.map]
  | contains key => simp [CacheOver.exec, tryGet_eq h, expected, Except.map]
  | getMany keys default =>
    simp only [CacheOver.exec, tryGetMany_eq h, expected]
    split
    · next hk => simp [hk, Except.map, Dict.ofList]
    · simp [Except.map]
  | tryGetMany keys =>
    simp [CacheOver.exec, tryGetMany_eq h, expected, Except.map, hitsOf, Dict.ofList]
  | containsMany keys => simp [CacheOver.exec, tryGetMany_eq h, expected, Except.map]

/-- **A `NullStore` turns caching off**: after any calls at any times, every call answers as on an
empty cache. -/
theorem null_law (h : s.closed = false) (d : Option T) (history : List (T × Call K V T)) (t : T)
    (call : Call K V T) :
    (CacheOver.exec baseStore d (run (CacheOver.exec baseStore d) s history) (t, call)).map
      Prod.snd = expected d (fun _ => none) call := by
  have hrun : run (CacheOver.exec baseStore d) s history = s := by
    induction history using List.reverseRecOn with
    | nil => rfl
    | append_singleton history e ih =>
      rw [run_concat, ih, exec_eq h]
      cases expected d (fun _ => none) e.2 with
      | error e => rfl
      | ok answer => rfl
  rw [hrun, exec_eq h]
  cases expected d (fun _ => none) call with
  | error e => rfl
  | ok answer => rfl

omit [LinearOrder K] in
/-- Over a `NullStore` a memoized function is computed every time, whatever shares a key. -/
theorem memoize_null (hashBytes : ByteArray → K) (h : s.closed = false) (hd : ∀ x ∈ d, 0 ≤ x)
    (calls : List ((T × T) × MemoCall V T))
    (hser : ∀ call ∈ calls, call.2.reading.isSome)
    (httl : ∀ call ∈ calls, NonnegTtl call.2.func.ttl) :
    CacheOver.returns baseStore d hashBytes s calls = calls.map fun call => .ok call.2.value := by
  obtain ⟨c, hc⟩ := CacheOver.exists_opened (K := K) (V := V) d hd
  have hdefault := (store_of_opened hc).2
  induction calls with
  | nil => rfl
  | cons call calls ih =>
    rw [List.forall_mem_cons] at hser httl
    obtain ⟨now, call⟩ := call
    obtain ⟨r, hr⟩ := Option.isSome_iff_exists.mp hser.1
    obtain ⟨resolvedTtl, hresolved⟩ := resolveTtl_of_nonneg c httl.1
    rw [hdefault] at hresolved
    rw [CacheOver.returns, CacheOver.wrapper, makeJsonKey_of_reading hashBytes hr]
    simp only [CacheOver.getOrCompute, tryGet_eq h, set_eq h, hresolved, Except.map,
      ih hser.2 httl.2]
    rfl

end NullStore

end Persista
