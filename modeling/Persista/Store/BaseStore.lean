import Persista.Lib.Refinement
import Persista.Store.Contents

/-!
# `BaseStore`

`store/base.py`: the calls every store answers, and what they promise together. An open store is a
map from keys to values: a write call is the operation of that name on the map, errors included, and
a read call answers from the map and leaves it alone. `RecordStore` and `Cache` are written over
`BaseStore`, so what is proved of them from the promise holds on every backend that keeps it.

Generators are run to their end, on a store that nobody writes to in the meantime.

## Main definitions

* `BaseStore` — the calls
* `BaseStore.IsMap` — the promise
* `BaseStore.Follows` — what it says of runs

## Main results

* `BaseStore.Yields.of_entries` — batches that are cut from the pairs of a map
* `BaseStore.Reads.values` — `values` yields the values of the map
-/

namespace Persista

/-- The calls of a store; `σ` is the state of the store and of what is behind it. -/
structure BaseStore (σ K V : Type) where
  /-- `set`, `set_many`, `delete`, `delete_many` and `clear`. -/
  exec : σ → StoreOp K V → Except (StoreError K) σ
  get : σ → K → Except (StoreError K) (Option V)
  getMany : σ → List K → Except (StoreError K) (List (Option V))
  contains : σ → K → Except (StoreError K) Bool
  containsMany : σ → List K → Except (StoreError K) (List Bool)
  keys : σ → Except (StoreError K) (List K)
  /-- `list(store.iter_batches(batch_size))`. -/
  iterBatches : σ → ℤ → Except (StoreError K) (List (Dict K V))
  count : σ → Except (StoreError K) ℕ

namespace BaseStore

variable {σ K V : Type}

/-- `list(store.values(batch_size))`: `yield from batch.values()` for each batch. -/
def values (store : BaseStore σ K V) (s : σ) (batchSize : ℤ) : Except (StoreError K) (List V) := do
  let batches ← store.iterBatches s batchSize
  return batches.flatMap Dict.values

/-! ### The promise -/

/-- The keys of a map, each once. -/
structure Lists (m : Contents K V) (keys : List K) : Prop where
  nodup : keys.Nodup
  mem_iff : ∀ k, k ∈ keys ↔ (m k).isSome

/-- The pairs of a map, each once, in batches that are not too long. -/
structure Yields (m : Contents K V) (batchSize : ℕ) (batches : List (Dict K V)) : Prop where
  nodup : (batches.flatMap Dict.keys).Nodup
  mem_iff : ∀ k v, (k, v) ∈ batches.flatMap Dict.entries ↔ m k = some v
  length_le : ∀ batch ∈ batches, batch.length ≤ batchSize

/-- The read calls answer from the map `m`, and refuse a batch size that is not positive. -/
structure Reads (store : BaseStore σ K V) (s : σ) (m : Contents K V) : Prop where
  get (key : K) : store.get s key = .ok (m key)
  getMany (keys : List K) : store.getMany s keys = .ok (keys.map m)
  contains (key : K) : store.contains s key = .ok (m key).isSome
  containsMany (keys : List K) : store.containsMany s keys = .ok (m.containsMany keys)
  keys : ∃ keys, store.keys s = .ok keys ∧ Lists m keys
  count : ∃ keys, store.count s = .ok keys.length ∧ Lists m keys
  iterBatches (batchSize : ℤ) (hb : 1 ≤ batchSize) :
    ∃ batches, store.iterBatches s batchSize = .ok batches ∧ Yields m batchSize.toNat batches
  refuses (batchSize : ℤ) (e : StoreError K) (he : validateBatchSize batchSize = .error e) :
    store.iterBatches s batchSize = .error e

/-- In the states that are `Good`, the store is the map `contents`. -/
structure IsMap [LinearOrder K] [ShallowMerge V] (store : BaseStore σ K V)
    (contents : σ → Contents K V) (Good : σ → Prop) : Prop where
  refines : Refinement.Refines store.exec Contents.exec contents Good
  reads {s : σ} (h : Good s) : Reads store s (contents s)

/-- Over every run of write calls the store does what one map does: it raises what the map raises,
and what it is asked afterwards it answers from the map. -/
def Follows [LinearOrder K] [ShallowMerge V] (store : BaseStore σ K V) (s : σ)
    (m : Contents K V) : Prop :=
  ∀ ops : List (StoreOp K V), ∃ s' m' raised,
    Refinement.runOps store.exec s ops = (s', raised) ∧
      Refinement.runOps Contents.exec m ops = (m', raised) ∧ Reads store s' m'

theorem IsMap.follows [LinearOrder K] [ShallowMerge V] {store : BaseStore σ K V}
    {contents : σ → Contents K V} {Good : σ → Prop} (h : IsMap store contents Good) {s : σ}
    (hs : Good s) : Follows store s (contents s) := by
  intro ops
  obtain ⟨hgood, hrun⟩ := h.refines.run hs ops
  exact ⟨_, _, _, rfl, hrun, h.reads hgood⟩

theorem validateBatchSize_of_le {batchSize : ℤ} (hb : 1 ≤ batchSize) :
    (validateBatchSize batchSize : Except (StoreError K) Unit) = .ok () :=
  if_neg (by omega)

/-! ### Pairs and batches -/

variable {m : Contents K V} {batchSize : ℕ} {batches : List (Dict K V)}

theorem keys_flatMap_entries (batches : List (Dict K V)) :
    (batches.flatMap Dict.entries).map Prod.fst = batches.flatMap Dict.keys := by
  rw [List.map_flatMap]
  rfl

/-- Batches are right when the pairs in them are the pairs of the map. -/
theorem Yields.of_entries {pairs : List (K × V)} (hnd : (pairs.map Prod.fst).Nodup)
    (hmem : ∀ k v, (k, v) ∈ pairs ↔ m k = some v)
    (hflat : (batches.map Dict.entries).flatten = pairs)
    (hlen : ∀ batch ∈ batches, batch.length ≤ batchSize) : Yields m batchSize batches where
  nodup := by
    rw [← keys_flatMap_entries, List.flatMap_def, hflat]
    exact hnd
  mem_iff k v := by
    rw [List.flatMap_def, hflat]
    exact hmem k v
  length_le := hlen

/-- The batches hold the keys of the map. -/
theorem Yields.lists (h : Yields m batchSize batches) : Lists m (batches.flatMap Dict.keys) where
  nodup := h.nodup
  mem_iff k := by
    rw [← keys_flatMap_entries, List.mem_map, Option.isSome_iff_exists]
    constructor
    · rintro ⟨⟨j, v⟩, hp, rfl⟩
      exact ⟨v, (h.mem_iff j v).mp hp⟩
    · rintro ⟨v, hv⟩
      exact ⟨(k, v), (h.mem_iff k v).mpr hv, rfl⟩

/-- The values come in the order of the keys. -/
theorem Yields.map_some_values (h : Yields m batchSize batches) :
    (batches.flatMap Dict.values).map some = (batches.flatMap Dict.keys).map m := by
  have hvalues : batches.flatMap Dict.values = (batches.flatMap Dict.entries).map Prod.snd := by
    rw [List.map_flatMap]
    rfl
  rw [hvalues, ← keys_flatMap_entries, List.map_map, List.map_map]
  refine List.map_congr_left fun p hp => ?_
  exact ((h.mem_iff p.1 p.2).mp hp).symm

/-- The values that `values` yields are those of the map. -/
theorem Reads.values {store : BaseStore σ K V} {s : σ} (h : Reads store s m) {batchSize : ℤ}
    (hb : 1 ≤ batchSize) :
    ∃ keys values, store.values s batchSize = .ok values ∧ Lists m keys ∧
      values.map some = keys.map m := by
  obtain ⟨batches, hbatches, hyields⟩ := h.iterBatches batchSize hb
  refine ⟨_, batches.flatMap Dict.values, ?_, hyields.lists, hyields.map_some_values⟩
  rw [BaseStore.values, hbatches]
  rfl

/-- Two listings of a map have the same length. -/
theorem Lists.length_eq {keys keys' : List K} (h : Lists m keys) (h' : Lists m keys') :
    keys.length = keys'.length :=
  ((List.perm_ext_iff_of_nodup h.nodup h'.nodup).mpr fun k =>
    (h.mem_iff k).trans (h'.mem_iff k).symm).length_eq

/-- A dictionary lists its own keys. -/
theorem lists_keys [DecidableEq K] (d : Dict K V) : Lists d.get? d.keys where
  nodup := d.nodup
  mem_iff _ := Dict.isSome_get?_iff.symm

end BaseStore

end Persista
