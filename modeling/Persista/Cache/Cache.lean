import Persista.Store.InMemory
import Mathlib.Algebra.Order.Monoid.Defs
import Mathlib.Data.Rat.Defs

/-!
# `Cache`

`cache/cache.py`, synchronous API over an `InMemoryStore`. A value is written wrapped with the time
at which it expires; a lookup that finds an expired entry deletes it. Times and ttls are exact
numbers of any ordered type, and `now` is what `time.time()` answers to the call.

`try_get` and `contains` are `_get`, and `get_many` and `contains_many` are `try_get_many`, so there
are two lookups: one entry at a time (`Cache.tryGet`), and a batch that is split into hits and
expired keys (`Cache.tryGetMany`).
-/

namespace Persista

variable {K V T : Type}

/-- `{"value": value, "expires_at": expires_at}`. -/
structure Entry (V T : Type) where
  value : V
  expiresAt : Option T
  deriving DecidableEq

/-- Both fields are overwritten by a merge. -/
instance : ShallowMerge (Entry V T) where
  merge _ new := new

/-- `expires_at is not None and time.time() > expires_at`. -/
def Entry.expired [LT T] [DecidableLT T] (e : Entry V T) (now : T) : Bool :=
  match e.expiresAt with
  | none => false
  | some t => decide (t < now)

/-- A `ttl` argument: not given, or a number or `None`. -/
inductive Ttl (T : Type)
  | unset
  | given (ttl : Option T)

variable [LinearOrder K] [LinearOrder T] [AddCommMonoid T] [ToString T]

/-- A cache over an `InMemoryStore`. -/
structure Cache (K V T : Type) [LinearOrder T] [AddCommMonoid T] where
  store : InMemoryStore K (Entry V T)
  defaultTtl : Option T
  /-- `__init__` rejects a negative default. -/
  nonneg : ∀ d ∈ defaultTtl, 0 ≤ d

namespace Cache

/-- The message of `__init__` and `_resolve_ttl`. -/
def negativeMsg (name : String) (d : T) : String :=
  name ++ " must be non-negative, got " ++ toString d

/-- `__init__` and `open`, over a new store. -/
def opened : Option T → Except (StoreError K) (Cache K V T)
  | none => .ok ⟨InMemoryStore.init.open, none, nofun⟩
  | some d =>
    if h : 0 ≤ d then .ok ⟨InMemoryStore.init.open, some d, fun _ he => Option.some.inj he ▸ h⟩
    else .error (.valueError (negativeMsg "default_ttl" d))

/-- `_resolve_ttl`. -/
def resolveTtl (defaultTtl : Option T) (ttl : Ttl T) : Except (StoreError K) (Option T) :=
  match (match ttl with | .unset => defaultTtl | .given ttl => ttl) with
  | none => .ok none
  | some d => if d < 0 then .error (.valueError (negativeMsg "ttl" d)) else .ok (some d)

/-- `set`. -/
def set (c : Cache K V T) (now : T) (key : K) (value : V) (ttl : Ttl T) :
    Except (StoreError K) (Cache K V T) := do
  let resolvedTtl ← resolveTtl c.defaultTtl ttl
  if resolvedTtl = some 0 then
    return { c with store := ← c.store.delete key }
  let expiresAt := resolvedTtl.map (now + ·)
  return { c with store := ← c.store.set key ⟨value, expiresAt⟩ .overwrite }

/-- `set_many`. -/
def setMany (c : Cache K V T) (now : T) (items : Dict K V) (ttl : Ttl T) :
    Except (StoreError K) (Cache K V T) := do
  if items.entries = [] then
    return c
  let resolvedTtl ← resolveTtl c.defaultTtl ttl
  if resolvedTtl = some 0 then
    return { c with store := ← c.store.deleteMany items.keys }
  let expiresAt := resolvedTtl.map (now + ·)
  return { c with store := ← c.store.setMany (items.mapValues (⟨·, expiresAt⟩)) .overwrite }

/-- `_get`, `try_get`: a hit is `some value`. -/
def tryGet (c : Cache K V T) (now : T) (key : K) :
    Except (StoreError K) (Cache K V T × Option V) := do
  match ← c.store.get key with
  | none => return (c, none)
  | some entry =>
    if entry.expired now then
      return ({ c with store := ← c.store.delete key }, none)
    return (c, some entry.value)

/-- `get`. -/
def get (c : Cache K V T) (now : T) (key : K) (default : V) :
    Except (StoreError K) (Cache K V T × V) := do
  let (c, hit) ← c.tryGet now key
  return (c, hit.getD default)

/-- `contains`. -/
def contains (c : Cache K V T) (now : T) (key : K) :
    Except (StoreError K) (Cache K V T × Bool) := do
  let (c, hit) ← c.tryGet now key
  return (c, hit.isSome)

/-- One iteration of `_split_many`. -/
def splitEntry (now : T) (acc : Dict K V × List K) (item : K × Option (Entry V T)) :
    Dict K V × List K :=
  match item with
  | (_, none) => acc
  | (key, some entry) =>
    if entry.expired now then (acc.1, acc.2 ++ [key]) else (acc.1.set key entry.value, acc.2)

/-- `_split_many`: the hits and the expired keys of a batch. -/
def splitMany (now : T) (keys : List K) (entries : List (Option (Entry V T))) :
    Dict K V × List K :=
  (keys.zip entries).foldl (splitEntry now) (∅, [])

/-- `try_get_many`. -/
def tryGetMany (c : Cache K V T) (now : T) (keys : List K) :
    Except (StoreError K) (Cache K V T × Dict K V) := do
  if keys = [] then
    return (c, ∅)
  let entries ← c.store.getMany keys
  let (results, expiredKeys) := splitMany now keys entries
  if expiredKeys = [] then
    return (c, results)
  return ({ c with store := ← c.store.deleteMany expiredKeys }, results)

/-- `get_many`. -/
def getMany (c : Cache K V T) (now : T) (keys : List K) (default : V) :
    Except (StoreError K) (Cache K V T × Dict K V) := do
  if keys = [] then
    return (c, ∅)
  let (c, hits) ← c.tryGetMany now keys
  return (c, Dict.ofList (keys.map fun key => (key, (hits.get? key).getD default)))

/-- `contains_many`. -/
def containsMany (c : Cache K V T) (now : T) (keys : List K) :
    Except (StoreError K) (Cache K V T × List Bool) := do
  let (c, hits) ← c.tryGetMany now keys
  return (c, keys.map fun key => decide (key ∈ hits.keys))

/-- `delete`. -/
def delete (c : Cache K V T) (key : K) : Except (StoreError K) (Cache K V T) := do
  return { c with store := ← c.store.delete key }

/-- `delete_many`. -/
def deleteMany (c : Cache K V T) (keys : List K) : Except (StoreError K) (Cache K V T) := do
  return { c with store := ← c.store.deleteMany keys }

/-- `clear`. -/
def clear (c : Cache K V T) : Except (StoreError K) (Cache K V T) := do
  return { c with store := ← c.store.clear }

end Cache

end Persista
