import Persista.Cache.Ttl

/-!
# Batched and per-key operations

A batched lookup reads all entries first, splits them, and deletes the expired keys at the end; a
loop over the keys deletes each expired entry when it comes by, so that a key listed twice is found
expired once and missing once. Under one clock value the two cannot be told apart: they return the
same, and leave the same `dict` in the store, down to the order of its keys.

The reason is `evicted`: both end with the entries that are not both asked for and expired, and
evicting some keys first does not change what is found under any key (`finds_evicted`).

## Main results

* `Cache.loop_tryGet` — the loop of single lookups
* `Cache.tryGetMany_of_opened` — the batched lookup
* `Cache.batched_eq_loops` — the five batched operations and their loops, errors included
-/

namespace Persista

namespace Cache

variable {K V T A B : Type} [LinearOrder K] [LinearOrder T] [AddCommMonoid T] [ToString T]

/-! ### Loops -/

/-- `[op(key) for key in keys]`. -/
def loop (op : Cache K V T → K → Except (StoreError K) (Cache K V T × A)) (c : Cache K V T) :
    List K → Except (StoreError K) (Cache K V T × List A)
  | [] => .ok (c, [])
  | key :: keys => do
    let (c, answer) ← op c key
    let (c, answers) ← loop op c keys
    return (c, answer :: answers)

/-- `{key: cache.get(key, default) for key in keys}`. -/
def getLoop (c : Cache K V T) (now : T) (keys : List K) (default : V) :
    Except (StoreError K) (Cache K V T × Dict K V) := do
  let (c, values) ← loop (fun c key => c.get now key default) c keys
  return (c, Dict.ofList (keys.zip values))

/-- The hits of `try_get` over the keys, as a dict. -/
def tryGetLoop (c : Cache K V T) (now : T) (keys : List K) :
    Except (StoreError K) (Cache K V T × Dict K V) := do
  let (c, hits) ← loop (fun c key => c.tryGet now key) c keys
  return (c, Dict.ofList ((keys.zip hits).filterMap fun item => item.2.map (item.1, ·)))

/-- `[cache.contains(key) for key in keys]`. -/
def containsLoop (c : Cache K V T) (now : T) (keys : List K) :
    Except (StoreError K) (Cache K V T × List Bool) :=
  loop (fun c key => c.contains now key) c keys

/-- `for key, value in items.items(): cache.set(key, value, ttl)`. -/
def setLoop (c : Cache K V T) (now : T) (items : Dict K V) (ttl : Ttl T) :
    Except (StoreError K) (Cache K V T) :=
  items.entries.foldlM (fun c item => c.set now item.1 item.2 ttl) c

/-- `for key in keys: cache.delete(key)`. -/
def deleteLoop (c : Cache K V T) (keys : List K) : Except (StoreError K) (Cache K V T) :=
  keys.foldlM (fun c key => c.delete key) c

omit [LinearOrder K] [ToString T] in
theorem loop_map (op : Cache K V T → K → Except (StoreError K) (Cache K V T × A)) (f : A → B)
    (c : Cache K V T) (keys : List K) :
    loop (fun c key => (op c key).map fun r => (r.1, f r.2)) c keys =
      (loop op c keys).map fun r => (r.1, r.2.map f) := by
  induction keys generalizing c with
  | nil => rfl
  | cons key keys ih =>
    rw [loop, loop]
    cases op c key with
    | error e => rfl
    | ok r =>
      show (loop _ r.1 keys >>= _) = Except.map _ (loop op r.1 keys >>= _)
      rw [ih]
      cases loop op r.1 keys <;> rfl

omit [LinearOrder K] [ToString T] in
theorem loop_of_closed {op : Cache K V T → K → Except (StoreError K) (Cache K V T × A)}
    {c : Cache K V T} {e : StoreError K} (h : ∀ key, op c key = .error e) {keys : List K}
    (hk : keys ≠ []) : loop op c keys = .error e := by
  cases keys with
  | nil => exact absurd rfl hk
  | cons key keys =>
    rw [loop, h]
    rfl

/-! ### Evictions -/

variable {c : Cache K V T} {now : T}

/-- The key holds an expired entry. -/
def stale (c : Cache K V T) (now : T) (key : K) : Bool :=
  (c.store.contents key).any (·.expired now)

/-- The cache without the expired entries among the keys. -/
def evicted (c : Cache K V T) (now : T) (keys : List K) : Cache K V T :=
  { c with store := { c.store with data := c.store.data.filterKeys fun key =>
    !(decide (key ∈ keys) && c.stale now key) } }

omit [ToString T] in
theorem store_evicted (h : c.store.Opened) (now : T) (keys : List K) :
    (c.evicted now keys).store =
      ⟨c.store.data.filterKeys fun key => !(decide (key ∈ keys) && c.stale now key), false⟩ :=
  congrArg (InMemoryStore.mk _) h

omit [ToString T] in
theorem evicted_of_fresh {keys : List K} (h : ∀ key ∈ keys, c.stale now key = false) :
    c.evicted now keys = c := by
  have hd : c.store.data.filterKeys (fun key => !(decide (key ∈ keys) && c.stale now key)) =
      c.store.data := by
    refine Dict.filterKeys_eq_self fun key _ => ?_
    by_cases hk : key ∈ keys
    · simp [h key hk]
    · simp [hk]
  rw [evicted, hd]

omit [ToString T] in
theorem contents_evicted (c : Cache K V T) (now : T) (keys : List K) (key : K) :
    (c.evicted now keys).store.contents key =
      if key ∈ keys ∧ c.stale now key then none else c.store.contents key := by
  show (c.store.data.filterKeys _).get? key = if _ then none else c.store.data.get? key
  rw [Dict.get?_filterKeys]
  by_cases hk : key ∈ keys <;> cases hs : c.stale now key <;> simp [hk]

omit [ToString T] in
theorem stale_evicted (c : Cache K V T) (now : T) (keys : List K) (key : K) :
    (c.evicted now keys).stale now key = (decide (key ∉ keys) && c.stale now key) := by
  rw [stale, contents_evicted]
  by_cases hk : key ∈ keys <;> cases hs : c.stale now key <;> simp_all [stale]

omit [ToString T] in
/-- An expired entry misses, and so does an evicted one. -/
theorem finds_evicted (c : Cache K V T) (now : T) (keys : List K) (key : K) :
    (c.evicted now keys).finds key now = c.finds key now := by
  rw [finds, finds, contents_evicted]
  split
  · next h =>
    obtain ⟨-, hs⟩ := h
    rw [stale] at hs
    cases hc : c.store.contents key with
    | none => rfl
    | some e =>
      rw [hc] at hs
      exact (hit_of_expired hs le_rfl).symm
  · rfl

omit [ToString T] in
theorem evicted_evicted (c : Cache K V T) (now : T) (key : K) (keys : List K) :
    (c.evicted now [key]).evicted now keys = c.evicted now (key :: keys) := by
  have hd : (c.evicted now [key]).store.data.filterKeys (fun k =>
      !(decide (k ∈ keys) && (c.evicted now [key]).stale now k)) =
      c.store.data.filterKeys fun k =>
        !(decide (k ∈ key :: keys) && c.stale now k) := by
    simp only [stale_evicted]
    rw [evicted, Dict.filterKeys_filterKeys]
    refine Dict.filterKeys_congr fun k _ => ?_
    by_cases hk : k = key <;> by_cases hks : k ∈ keys <;> cases c.stale now k <;> simp [hk, hks]
  rw [evicted, hd]
  rfl

/-! ### Lookups -/

omit [ToString T] in
theorem tryGet_of_opened (h : c.store.Opened) (now : T) (key : K) :
    c.tryGet now key = .ok (c.evicted now [key], c.finds key now) := by
  rw [tryGet, InMemoryStore.get_of_opened h, finds]
  cases hc : c.store.contents key with
  | none =>
    have hfresh : c.evicted now [key] = c :=
      evicted_of_fresh fun k hk => by simp [stale, List.mem_singleton.mp hk, hc]
    rw [hfresh]
    rfl
  | some e =>
    cases he : e.expired now with
    | true =>
      have hdel : (⟨c.store.data.erase key, false⟩ : InMemoryStore K (Entry V T)) =
          (c.evicted now [key]).store := by
        have hstale : c.stale now key = true := by simp [stale, hc, he]
        rw [store_evicted h, Dict.erase]
        congr 1
        refine Dict.filterKeys_congr fun k _ => ?_
        by_cases hk : k = key <;> simp [hk, hstale]
      simp only [Refinement.ok_bind, he, if_true, InMemoryStore.delete_of_opened h, hdel, hit,
        Option.bind_some]
      rfl
    | false =>
      have hfresh : c.evicted now [key] = c :=
        evicted_of_fresh fun k hk => by simp [stale, List.mem_singleton.mp hk, hc, he]
      rw [hfresh]
      simp [he, hit]

omit [ToString T] in
/-- **The loop of single lookups.** An entry evicted by an earlier iteration is missed by a later
one, as it would have been anyway. -/
theorem loop_tryGet (h : c.store.Opened) (now : T) (keys : List K) :
    loop (fun c key => c.tryGet now key) c keys =
      .ok (c.evicted now keys, keys.map (c.finds · now)) := by
  induction keys generalizing c with
  | nil =>
    rw [evicted_of_fresh fun key hk => by cases hk]
    rfl
  | cons key keys ih =>
    have hopen : (c.evicted now [key]).store.Opened := h
    rw [loop, tryGet_of_opened h]
    show (loop _ (c.evicted now [key]) keys >>= _) = _
    rw [ih hopen, evicted_evicted]
    simp only [finds_evicted]
    rfl

omit [ToString T] in
theorem deleteMany_evicted (h : c.store.Opened) (now : T) (keys : List K) :
    c.store.deleteMany (keys.filter fun key => c.stale now key) =
      .ok (c.evicted now keys).store := by
  rw [InMemoryStore.deleteMany_eq h, Dict.foldl_erase, store_evicted h]
  congr 2
  refine Dict.filterKeys_congr fun key _ => ?_
  cases hs : c.stale now key <;> simp [hs]

omit [ToString T] in
/-- **The batched lookup.** -/
theorem tryGetMany_of_opened (h : c.store.Opened) (now : T) (keys : List K) :
    c.tryGetMany now keys = .ok (c.evicted now keys, hitsOf (c.finds · now) keys) := by
  rw [tryGetMany]
  by_cases hk : keys = []
  · subst hk
    rw [if_pos rfl, evicted_of_fresh fun key hk => by cases hk]
    rfl
  · have hsplit : splitMany now keys (keys.map c.store.contents) =
        (hitsOf (c.finds · now) keys, keys.filter fun key => c.stale now key) := by
      rw [splitMany, foldl_splitEntry, List.nil_append]
      rfl
    simp only [if_neg hk, InMemoryStore.getMany_of_opened h, Refinement.ok_bind, hsplit]
    by_cases he : (keys.filter fun key => c.stale now key) = []
    · rw [if_pos he, evicted_of_fresh fun key hkey => by
        simpa using List.filter_eq_nil_iff.mp he key hkey]
      rfl
    · rw [if_neg he, deleteMany_evicted h]
      rfl

omit [ToString T] in
theorem getMany_of_closed (h : c.store.closed = true) {keys : List K} (hk : keys ≠ []) :
    c.store.getMany keys = .error (.runtimeError (notOpenMsg "InMemoryStore")) := by
  cases keys with
  | nil => exact absurd rfl hk
  | cons key keys =>
    rw [InMemoryStore.getMany, List.mapM_cons, InMemoryStore.get, InMemoryStore.checkOpen, if_pos h]
    rfl

omit [ToString T] in
theorem tryGet_of_closed (h : c.store.closed = true) (now : T) (key : K) :
    c.tryGet now key = .error (.runtimeError (notOpenMsg "InMemoryStore")) := by
  rw [tryGet, InMemoryStore.get, InMemoryStore.checkOpen, if_pos h]
  rfl

omit [LinearOrder K] [LinearOrder T] [AddCommMonoid T] [ToString T] in
theorem zip_map_self (f : K → A) (keys : List K) :
    keys.zip (keys.map f) = keys.map fun key => (key, f key) := by
  rw [List.zip_map_right]
  induction keys with
  | nil => rfl
  | cons key keys ih => simpa using ih

omit [ToString T] in
theorem tryGetMany_eq_loop (c : Cache K V T) (now : T) (keys : List K) :
    c.tryGetMany now keys = c.tryGetLoop now keys := by
  rw [tryGetLoop]
  cases h : c.store.closed with
  | false =>
    rw [tryGetMany_of_opened h, loop_tryGet h]
    simp only [Refinement.ok_bind, Refinement.pure_ok, zip_map_self, List.filterMap_map]
    rfl
  | true =>
    by_cases hk : keys = []
    · subst hk
      rfl
    · rw [tryGetMany, if_neg hk, getMany_of_closed h hk,
        loop_of_closed (tryGet_of_closed h now) hk]
      rfl

omit [ToString T] in
theorem getMany_eq_loop (c : Cache K V T) (now : T) (keys : List K) (default : V) :
    c.getMany now keys default = c.getLoop now keys default := by
  have hget : (fun (c : Cache K V T) key => c.get now key default) =
      fun c key => (c.tryGet now key).map fun r => (r.1, r.2.getD default) := by
    funext c key
    rw [get]
    cases c.tryGet now key <;> rfl
  rw [getLoop, hget, loop_map (fun c key => c.tryGet now key) (·.getD default), getMany]
  by_cases hk : keys = []
  · subst hk
    rfl
  · rw [if_neg hk]
    cases h : c.store.closed with
    | false =>
      rw [tryGetMany_of_opened h, loop_tryGet h]
      simp only [Refinement.ok_bind, Refinement.pure_ok, Refinement.map_ok, List.map_map,
        zip_map_self]
      rw [List.map_congr_left fun key hkey => by rw [get?_hitsOf hkey]]
      rfl
    | true =>
      rw [tryGetMany, if_neg hk, getMany_of_closed h hk,
        loop_of_closed (tryGet_of_closed h now) hk]
      rfl

omit [ToString T] in
theorem containsMany_eq_loop (c : Cache K V T) (now : T) (keys : List K) :
    c.containsMany now keys = c.containsLoop now keys := by
  have hcontains : (fun (c : Cache K V T) key => c.contains now key) =
      fun c key => (c.tryGet now key).map fun r => (r.1, r.2.isSome) := by
    funext c key
    rw [contains]
    cases c.tryGet now key <;> rfl
  rw [containsLoop, hcontains, loop_map, containsMany]
  cases h : c.store.closed with
  | false =>
    rw [tryGetMany_of_opened h, loop_tryGet h]
    simp only [Refinement.ok_bind, Refinement.pure_ok, Refinement.map_ok, List.map_map]
    rw [List.map_congr_left fun key hkey => ?_]
    rw [Bool.eq_iff_iff, decide_eq_true_iff, ← Dict.isSome_get?_iff, get?_hitsOf hkey]
    rfl
  | true =>
    by_cases hk : keys = []
    · subst hk
      rfl
    · rw [tryGetMany, if_neg hk, getMany_of_closed h hk,
        loop_of_closed (tryGet_of_closed h now) hk]
      rfl

/-! ### Writes -/

omit [LinearOrder K] [ToString T] in
/-- A loop of cache operations that are store operations is the loop of these. -/
theorem foldlM_store {I : Type} {f : InMemoryStore K (Entry V T) → I →
      Except (StoreError K) (InMemoryStore K (Entry V T))}
    {g : Cache K V T → I → Except (StoreError K) (Cache K V T)}
    (hg : ∀ store i, g { c with store := store } i = (f store i).map ({ c with store := · }))
    (items : List I) (store : InMemoryStore K (Entry V T)) :
    items.foldlM g { c with store := store } =
      (items.foldlM f store).map ({ c with store := · }) := by
  induction items generalizing store with
  | nil => rfl
  | cons i items ih =>
    rw [List.foldlM_cons, List.foldlM_cons, hg]
    cases f store i with
    | error e => rfl
    | ok store' => exact ih store'

omit [ToString T] in
theorem deleteMany_eq_loop (c : Cache K V T) (keys : List K) :
    c.deleteMany keys = c.deleteLoop keys := by
  have hstep : ∀ store key, ({ c with store := store } : Cache K V T).delete key =
      (store.delete key).map ({ c with store := · }) := by
    intro store key
    rw [delete]
    cases store.delete key <;> rfl
  rw [deleteLoop, foldlM_store hstep keys c.store, deleteMany, InMemoryStore.deleteMany]
  cases keys.foldlM (fun store key => store.delete key) c.store <;> rfl

omit [LinearOrder T] [AddCommMonoid T] [ToString T] in
theorem set_overwrite {store : InMemoryStore K (Entry V T)} (h : store.Opened) (key : K)
    (entry : Entry V T) :
    store.set key entry .overwrite = .ok { store with data := store.data.set key entry } := by
  rw [InMemoryStore.set, InMemoryStore.setMany, InMemoryStore.checkOpen_of_opened h]
  rfl

omit [LinearOrder T] [AddCommMonoid T] [ToString T] in
theorem foldlM_set_of_opened {store : InMemoryStore K (Entry V T)} (h : store.Opened)
    (entry : V → Entry V T) (items : List (K × V)) :
    items.foldlM (fun store item => store.set item.1 (entry item.2) .overwrite) store =
      .ok { store with
        data := store.data.setAll (items.map fun item => (item.1, entry item.2)) } := by
  induction items generalizing store with
  | nil => rfl
  | cons item items ih =>
    rw [List.foldlM_cons, set_overwrite h]
    exact ih h

omit [LinearOrder T] [AddCommMonoid T] [ToString T] in
/-- An `overwrite` of several items is one `overwrite` after another. -/
theorem foldlM_set_overwrite (store : InMemoryStore K (Entry V T)) (entry : V → Entry V T)
    {items : Dict K V} (hi : items.entries ≠ []) :
    items.entries.foldlM (fun store item => store.set item.1 (entry item.2) .overwrite) store =
      store.setMany (items.mapValues entry) .overwrite := by
  cases h : store.closed with
  | false =>
    rw [foldlM_set_of_opened h, InMemoryStore.setMany, InMemoryStore.checkOpen_of_opened h]
    rfl
  | true =>
    obtain ⟨item, rest, hitems⟩ := List.exists_cons_of_ne_nil hi
    rw [hitems, List.foldlM_cons, InMemoryStore.set, InMemoryStore.setMany, InMemoryStore.setMany,
      InMemoryStore.checkOpen, if_pos h]
    rfl

theorem setMany_eq_loop (c : Cache K V T) (now : T) (items : Dict K V) (ttl : Ttl T) :
    c.setMany now items ttl = c.setLoop now items ttl := by
  rw [setMany, setLoop]
  by_cases hi : items.entries = []
  · rw [if_pos hi, hi]
    rfl
  rw [if_neg hi]
  cases hr : (resolveTtl c.defaultTtl ttl : Except (StoreError K) (Option T)) with
  | error e =>
    obtain ⟨item, rest, hitems⟩ := List.exists_cons_of_ne_nil hi
    rw [hitems, List.foldlM_cons, set, hr]
    rfl
  | ok resolvedTtl =>
    by_cases hz : resolvedTtl = some 0
    · have hstep : ∀ store (item : K × V),
          ({ c with store := store } : Cache K V T).set now item.1 item.2 ttl =
            (store.delete item.1).map ({ c with store := · }) := by
        intro store item
        simp only [set, hr, Refinement.ok_bind, hz, if_true]
        cases store.delete item.1 <;> rfl
      have hloop : items.entries.foldlM (fun store item => store.delete item.1) c.store =
          c.store.deleteMany items.keys := by
        rw [InMemoryStore.deleteMany, Dict.keys, List.foldlM_map]
      rw [foldlM_store hstep items.entries c.store, hloop, Refinement.ok_bind, if_pos hz]
      cases c.store.deleteMany items.keys <;> rfl
    · let entry (value : V) : Entry V T := ⟨value, resolvedTtl.map (now + ·)⟩
      have hstep : ∀ store (item : K × V),
          ({ c with store := store } : Cache K V T).set now item.1 item.2 ttl =
            (store.set item.1 (entry item.2) .overwrite).map ({ c with store := · }) := by
        intro store item
        simp only [set, hr, Refinement.ok_bind, hz, if_false]
        show (store.set item.1 (entry item.2) .overwrite >>= _) = _
        cases store.set item.1 (entry item.2) .overwrite <;> rfl
      rw [foldlM_store hstep items.entries c.store, foldlM_set_overwrite c.store entry hi,
        Refinement.ok_bind, if_neg hz]
      show (c.store.setMany (items.mapValues entry) .overwrite >>= _) = _
      cases c.store.setMany (items.mapValues entry) .overwrite <;> rfl

/-- **Batched operations are loops.** For every cache, open or not, every clock value, keys with
duplicates and items: the batched operations return what the loops over the single ones return, or
raise what they raise, and leave the same store. -/
theorem batched_eq_loops (c : Cache K V T) (now : T) (keys : List K) (default : V)
    (items : Dict K V) (ttl : Ttl T) :
    c.getMany now keys default = c.getLoop now keys default ∧
    c.tryGetMany now keys = c.tryGetLoop now keys ∧
    c.containsMany now keys = c.containsLoop now keys ∧
    c.setMany now items ttl = c.setLoop now items ttl ∧
    c.deleteMany keys = c.deleteLoop keys :=
  ⟨c.getMany_eq_loop now keys default, c.tryGetMany_eq_loop now keys,
    c.containsMany_eq_loop now keys, c.setMany_eq_loop now items ttl, c.deleteMany_eq_loop keys⟩

end Cache

end Persista
