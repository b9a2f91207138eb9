import Persista.Lib.Dict
import Mathlib.Data.List.Sort

/-!
# Conflict strategies

The part of `store/validation.py` every store's `set_many` goes through: the `on_conflict`
strategies and `resolve_conflicts`, which decides what a non-overwriting write may write.

`resolve_conflicts` takes two callables, one that tests existence and one that reads a value. A
store passes its own `contains_many` and `get`, and these may read different things at different
times. So the definitions below take the answers as arguments: `conflictsOf` the list of flags,
`resolveItem` the reader at the moment the loop body runs. The concurrent stores run the same loop
body one iteration per turn.

Values are `dict`s in the source and only their shallow merge is ever used, so a value type is any
type with a `ShallowMerge`.

## Main results

* `get?_resolveItems` — what the loop writes under each key
* `resolveItems_congr` — the loop reads conflicting keys of `items` and nothing else
-/

namespace Persista

/-- The `on_conflict` strategies of `BaseStore.set_many`. -/
inductive OnConflict
  | raise
  | skip
  | overwrite
  | merge
  deriving DecidableEq, Repr

/-- What a store operation can raise. `KeyError` carries the sorted list of keys its message
shows. -/
inductive StoreError (K : Type)
  | runtimeError (msg : String)
  | keyError (conflicts : List K)
  | valueError (msg : String)
  deriving DecidableEq, Repr

/-- Values that can be merged shallowly: `merge old new` is `{**(old or {}), **new}`. -/
class ShallowMerge (V : Type) where
  merge : Option V → V → V

variable {K V : Type}

/-- A value is a `dict` of fields. -/
instance {F J : Type} [DecidableEq F] : ShallowMerge (Dict F J) where
  merge old new := (old.getD ∅).update new

/-- `sorted(keys)`. -/
def sorted [LinearOrder K] (keys : List K) : List K := keys.insertionSort (· ≤ ·)

@[simp] theorem mem_sorted [LinearOrder K] {keys : List K} {k : K} : k ∈ sorted keys ↔ k ∈ keys :=
  (List.perm_insertionSort (· ≤ ·) keys).mem_iff

/-- `validate_batch_size`. -/
def validateBatchSize (batchSize : ℤ) : Except (StoreError K) Unit :=
  if batchSize < 1 then
    .error (.valueError ("batch_size must be a positive integer, got " ++ toString batchSize))
  else .ok ()

/-! ### The loop of `resolve_conflicts` -/

/-- `{key for key, exists in zip(keys, found, strict=True) if exists}`. -/
def conflictsOf (keys : List K) (found : List Bool) : List K :=
  (keys.zip found).filterMap fun p => if p.2 then some p.1 else none

theorem conflictsOf_map (keys : List K) (p : K → Bool) :
    conflictsOf keys (keys.map p) = keys.filter p := by
  induction keys with
  | nil => rfl
  | cons k ks ih =>
    have ih' : (ks.zip (ks.map p)).filterMap (fun q => if q.2 then some q.1 else none)
        = ks.filter p := ih
    by_cases h : p k <;> simp [conflictsOf, h, ih']

section Loop

variable [DecidableEq K] [ShallowMerge V]

/-- One iteration of the loop: `get` is the reader at the time of the iteration, and it is called
only on a conflicting key that is not skipped. -/
def resolveItem (conflicts : List K) (onConflict : OnConflict) (get : K → Option V)
    (toWrite : Dict K V) (item : K × V) : Dict K V :=
  if item.1 ∈ conflicts then
    if onConflict = .skip then toWrite
    else toWrite.set item.1 (ShallowMerge.merge (get item.1) item.2)
  else toWrite.set item.1 item.2

/-- The iterations left, from a dictionary already filled by the earlier ones. -/
def resolveItems (conflicts : List K) (onConflict : OnConflict) (get : K → Option V)
    (toWrite : Dict K V) (items : List (K × V)) : Dict K V :=
  items.foldl (resolveItem conflicts onConflict get) toWrite

@[simp] theorem resolveItems_nil (conflicts : List K) (onConflict : OnConflict)
    (get : K → Option V) (toWrite : Dict K V) :
    resolveItems conflicts onConflict get toWrite [] = toWrite := rfl

@[simp] theorem resolveItems_cons (conflicts : List K) (onConflict : OnConflict)
    (get : K → Option V) (toWrite : Dict K V) (item : K × V) (items : List (K × V)) :
    resolveItems conflicts onConflict get toWrite (item :: items) =
      resolveItems conflicts onConflict get (resolveItem conflicts onConflict get toWrite item)
        items := rfl

/-- What the loop decides for one key of `items`. -/
def resolved (conflicts : List K) (onConflict : OnConflict) (get : K → Option V) (key : K)
    (value : V) : Option V :=
  if key ∈ conflicts then
    if onConflict = .skip then none else some (ShallowMerge.merge (get key) value)
  else some value

theorem get?_resolveItem (conflicts : List K) (onConflict : OnConflict) (get : K → Option V)
    (toWrite : Dict K V) (item : K × V) (j : K) :
    (resolveItem conflicts onConflict get toWrite item).get? j =
      if j = item.1 then (resolved conflicts onConflict get item.1 item.2).or (toWrite.get? j)
      else toWrite.get? j := by
  rw [resolveItem, resolved]
  split_ifs <;> simp_all

theorem resolveItem_congr {conflicts : List K} {onConflict : OnConflict} {get get' : K → Option V}
    {toWrite : Dict K V} {item : K × V} (h : get item.1 = get' item.1) :
    resolveItem conflicts onConflict get toWrite item =
      resolveItem conflicts onConflict get' toWrite item := by
  rw [resolveItem, resolveItem, h]

theorem mem_keys_resolveItem {conflicts : List K} {onConflict : OnConflict} {get : K → Option V}
    {toWrite : Dict K V} {item : K × V} {j : K}
    (h : j ∈ (resolveItem conflicts onConflict get toWrite item).keys) :
    j = item.1 ∨ j ∈ toWrite.keys := by
  by_cases hj : j = item.1
  · exact .inl hj
  · rw [← Dict.isSome_get?_iff, get?_resolveItem, if_neg hj, Dict.isSome_get?_iff] at h
    exact .inr h

/-- **What the loop writes.** Each key of the items gets its resolved value, every other key keeps
what the dictionary held. -/
theorem get?_resolveItems {conflicts : List K} {onConflict : OnConflict} {get : K → Option V}
    {toWrite : Dict K V} {items : List (K × V)} (hnd : (items.map Prod.fst).Nodup) (j : K) :
    (resolveItems conflicts onConflict get toWrite items).get? j =
      ((items.lookup j).bind (resolved conflicts onConflict get j)).or (toWrite.get? j) := by
  induction items generalizing toWrite with
  | nil => rfl
  | cons item items ih =>
    obtain ⟨k, v⟩ := item
    simp only [List.map_cons, List.nodup_cons] at hnd
    rw [resolveItems_cons, ih hnd.2, get?_resolveItem, Dict.lookup_cons_ite]
    by_cases h : j = k
    · subst h
      simp [Dict.lookup_eq_none_of_not_mem hnd.1]
    · simp [h]

/-- The loop reads the conflicting keys among the items, nothing else. -/
theorem resolveItems_congr {conflicts : List K} {onConflict : OnConflict} {get get' : K → Option V}
    {toWrite : Dict K V} {items : List (K × V)} (h : ∀ k ∈ items.map Prod.fst, get k = get' k) :
    resolveItems conflicts onConflict get toWrite items =
      resolveItems conflicts onConflict get' toWrite items := by
  induction items generalizing toWrite with
  | nil => rfl
  | cons item items ih =>
    rw [resolveItems_cons, resolveItems_cons, resolveItem_congr (h item.1 (by simp))]
    exact ih fun k hk => h k (by simp [hk])

/-- The entries the loop adds, in the order of the items. -/
theorem entries_resolveItems {conflicts : List K} {onConflict : OnConflict} {get : K → Option V}
    {toWrite : Dict K V} {items : List (K × V)} (hnd : (items.map Prod.fst).Nodup)
    (hdisj : ∀ k ∈ items.map Prod.fst, k ∉ toWrite.keys) :
    (resolveItems conflicts onConflict get toWrite items).entries =
      toWrite.entries ++ items.filterMap fun item =>
        (resolved conflicts onConflict get item.1 item.2).map (item.1, ·) := by
  induction items generalizing toWrite with
  | nil => simp
  | cons item items ih =>
    obtain ⟨key, value⟩ := item
    simp only [List.map_cons, List.nodup_cons] at hnd
    have hkey : key ∉ toWrite.keys := hdisj key (by simp)
    have hset : ∀ v, ((toWrite.set key v).entries) = toWrite.entries ++ [(key, v)] := fun v =>
      Dict.entries_set_of_not_mem hkey
    have hrest : ∀ k ∈ items.map Prod.fst,
        k ∉ (resolveItem conflicts onConflict get toWrite (key, value)).keys := by
      intro k hk hmem
      rcases mem_keys_resolveItem hmem with rfl | hmem
      · exact hnd.1 hk
      · exact hdisj k (List.mem_cons_of_mem _ hk) hmem
    rw [resolveItems_cons, ih hnd.2 hrest, List.filterMap_cons]
    by_cases hc : key ∈ conflicts
    · by_cases hs : onConflict = .skip
      · simp [resolveItem, resolved, hc, hs]
      · simp [resolveItem, resolved, hc, hs, hset]
    · simp [resolveItem, resolved, hc, hset]

end Loop

/-! ### `resolve_conflicts` -/

variable [LinearOrder K] [ShallowMerge V]

/-- `resolve_conflicts(items, on_conflict, contains_many, get)`. -/
def resolveConflicts (items : Dict K V) (onConflict : OnConflict)
    (containsMany : List K → List Bool) (get : K → Option V) :
    Except (StoreError K) (Dict K V) :=
  let keys := items.keys
  let conflicts := conflictsOf keys (containsMany keys)
  if conflicts ≠ [] ∧ onConflict = .raise then .error (.keyError (sorted conflicts))
  else .ok (resolveItems conflicts onConflict get ∅ items.entries)

/-! ### Lookups that are computations -/

section Monadic

universe u

variable {M : Type → Type u} [Monad M]

omit [LinearOrder K] in
/-- One iteration of the loop with a `get` that is awaited, or that may raise. -/
def resolveItemM [DecidableEq K] (conflicts : List K) (onConflict : OnConflict)
    (get : K → M (Option V)) (toWrite : Dict K V) (item : K × V) : M (Dict K V) :=
  if item.1 ∈ conflicts then
    if onConflict = .skip then pure toWrite
    else do
      let old ← get item.1
      return toWrite.set item.1 (ShallowMerge.merge old item.2)
  else pure (toWrite.set item.1 item.2)

/-- `resolve_conflicts` with such lookups. -/
def resolveConflictsM (items : Dict K V) (onConflict : OnConflict)
    (containsMany : List K → M (List Bool)) (get : K → M (Option V)) :
    M (Except (StoreError K) (Dict K V)) := do
  let keys := items.keys
  let found ← containsMany keys
  let conflicts := conflictsOf keys found
  if conflicts ≠ [] ∧ onConflict = .raise then return .error (.keyError (sorted conflicts))
  else
    let toWrite ← items.entries.foldlM (resolveItemM conflicts onConflict get) ∅
    return .ok toWrite

end Monadic

end Persista
