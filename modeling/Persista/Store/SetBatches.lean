import Persista.Store.Backends
import Persista.Store.Batches

/-!
# `set_batches` and `iter_batches`, store to store

`BaseStore.set_batches` is a loop over `set_many`, so on a store that is a map it does what the same
loop does on the map: under `raise` it stops at the first batch with a conflict and leaves what the
batches before it wrote. Fed with what `iter_batches` of another store yields it copies that store.
Since no key comes twice, neither batch size matters.

## Main results

* `Contents.writeBatches_raise` — where the loop stops
* `BaseStore.writeBatches_map` — the loop on a store, and on its map
* `copy_law` — copying one store into another
-/

namespace Persista

open BaseStore Batches

variable {σ τ K V : Type} [LinearOrder K] [ShallowMerge V]

/-! ### The loop on a map -/

namespace Contents

/-- `set_many(dict(batch))`, batch by batch. -/
def writeBatches (onConflict : OnConflict) (m : Contents K V) :
    List (List (K × V)) → Contents K V × Except (StoreError K) Unit
  | [] => (m, .ok ())
  | batch :: batches =>
    match m.setMany (Dict.ofList batch) onConflict with
    | .ok m' => writeBatches onConflict m' batches
    | .error e => (m, .error e)

/-- Without `raise` each key goes through the last value of each batch. -/
theorem writeBatches_of_ne_raise {onConflict : OnConflict} (ho : onConflict ≠ .raise)
    (m : Contents K V) (batches : List (List (K × V))) :
    writeBatches onConflict m batches =
      (fun k => afterAll onConflict (m k) (valuesAt k (kept batches)), .ok ()) := by
  induction batches generalizing m with
  | nil => rfl
  | cons batch batches ih =>
    rcases setMany_spec m (Dict.ofList batch) onConflict with ⟨hr, -, -⟩ | ⟨-, hs⟩
    · exact absurd hr ho
    · rw [writeBatches, hs]
      refine (ih _).trans (congrArg (·, _) (funext fun k => ?_))
      rw [get?_ofList, valuesAt_kept_cons]
      cases (valuesAt k batch).getLast? with
      | none => rw [conflictValue_none, Option.toList_none, List.nil_append]
      | some v => rw [Option.toList_some, List.singleton_append, afterAll_cons]

/-- `raise` lets a new key in. -/
theorem conflictValue_raise_of_none (new : Option V) : conflictValue .raise new none = new := by
  cases new <;> rfl

/-- **Where the loop stops.** Under `raise` it goes on as long as no batch has a key that is there
already, and leaves what the batches before that one wrote. -/
theorem writeBatches_raise (m : Contents K V) (batches : List (List (K × V))) :
    ∃ done left m', batches = done ++ left ∧
      (∀ k, m' k = (m k).or (valuesAt k (kept done)).head?) ∧
      (∀ k, (m k).isSome → valuesAt k (kept done) = []) ∧
      match left with
      | [] => writeBatches .raise m batches = (m', .ok ())
      | batch :: _ => m'.conflicts (Dict.ofList batch).keys ≠ [] ∧
        writeBatches .raise m batches =
          (m', .error (.keyError (sorted (m'.conflicts (Dict.ofList batch).keys)))) := by
  induction batches generalizing m with
  | nil => exact ⟨[], [], m, rfl, fun k => by simp [kept, valuesAt], fun k _ => rfl, rfl⟩
  | cons batch batches ih =>
    rcases setMany_spec m (Dict.ofList batch) .raise with ⟨-, hc, hs⟩ | ⟨hc, hs⟩
    · refine ⟨[], batch :: batches, m, rfl, fun k => by simp [kept, valuesAt], fun k _ => rfl,
        hc, ?_⟩
      rw [writeBatches, hs]
    · -- the batch is written, and no key of it was there
      have hnew : ∀ k, (m k).isSome → (valuesAt k batch).getLast? = none := by
        intro k hk
        rw [← get?_ofList, Dict.get?_eq_none_iff]
        intro hmem
        have hconflict : k ∈ m.conflicts (Dict.ofList batch).keys :=
          List.mem_filter.mpr ⟨hmem, hk⟩
        rw [hc rfl] at hconflict
        exact List.not_mem_nil hconflict
      obtain ⟨done, left, m', hsplit, hm', hdone, hend⟩ :=
        ih fun k => conflictValue .raise ((Dict.ofList batch).get? k) (m k)
      refine ⟨batch :: done, left, m', by rw [hsplit, List.cons_append], fun k => ?_,
        fun k hk => ?_, ?_⟩
      · rw [hm', valuesAt_kept_cons, get?_ofList]
        cases hmk : m k with
        | none =>
          rw [conflictValue_raise_of_none]
          cases (valuesAt k batch).getLast? <;> rfl
        | some old => rw [hnew k (by rw [hmk]; rfl), conflictValue_none]; rfl
      · have hnone := hnew k hk
        rw [valuesAt_kept_cons, hnone, Option.toList_none, List.nil_append]
        refine hdone k ?_
        rw [get?_ofList, hnone, conflictValue_none]
        exact hk
      · rw [writeBatches, hs]
        exact hend

end Contents

/-! ### The loop on a store -/

namespace BaseStore

variable (store : BaseStore σ K V)

/-- `for batch in batches: self.set_many(dict(batch), on_conflict=on_conflict)`. -/
def writeBatches (onConflict : OnConflict) (s : σ) :
    List (List (K × V)) → σ × Except (StoreError K) Unit
  | [] => (s, .ok ())
  | batch :: batches =>
    match store.exec s (.setMany (Dict.ofList batch) onConflict) with
    | .ok s' => writeBatches onConflict s' batches
    | .error e => (s, .error e)

/-- `set_batches(items, batch_size, on_conflict)`. -/
def setBatches (batchify : Snapshot.Cutting (K × V)) (s : σ) (items : List (K × V))
    (batchSize : ℤ) (onConflict : OnConflict) : σ × Except (StoreError K) Unit :=
  match validateBatchSize batchSize with
  | .ok () => writeBatches store onConflict s (batchify.run items batchSize.toNat)
  | .error e => (s, .error e)

variable {store} {contents : σ → Contents K V} {Good : σ → Prop}

/-- **The loop on a store** does what it does on the map of the store. -/
theorem writeBatches_map (h : IsMap store contents Good) {s : σ} (hs : Good s)
    (onConflict : OnConflict) (batches : List (List (K × V))) :
    Good (store.writeBatches onConflict s batches).1 ∧
      (contents s).writeBatches onConflict batches =
        (contents (store.writeBatches onConflict s batches).1,
          (store.writeBatches onConflict s batches).2) := by
  induction batches generalizing s with
  | nil => exact ⟨hs, rfl⟩
  | cons batch batches ih =>
    have hcomm : (store.exec s (.setMany (Dict.ofList batch) onConflict)).map contents =
        (contents s).setMany (Dict.ofList batch) onConflict := h.refines.comm hs
    rw [writeBatches, Contents.writeBatches, ← hcomm]
    cases he : store.exec s (.setMany (Dict.ofList batch) onConflict) with
    | error e => exact ⟨hs, rfl⟩
    | ok s' => exact ih (h.refines.inv hs he)

end BaseStore

/-! ### Copying -/

section Copy

/-- What copying the map `m` into a store that holds `old` leaves there: every key goes through the
strategy once. Under `raise` a key of both maps stops the copy; what it leaves then is the old value
of each key, or a new key. -/
inductive Copied (onConflict : OnConflict) (m old new : Contents K V) :
    Except (StoreError K) Unit → Prop
  | all (hraise : onConflict = .raise → ∀ k, m k = none ∨ old k = none)
      (hnew : ∀ k, new k = Contents.conflictValue onConflict (m k) (old k)) :
      Copied onConflict m old new (.ok ())
  | stopped {conflicts : List K} (hraise : onConflict = .raise) (hne : conflicts ≠ [])
      (hboth : ∀ k ∈ conflicts, (m k).isSome ∧ (old k).isSome)
      (hnew : ∀ k, new k = old k ∨ old k = none ∧ new k = m k) :
      Copied onConflict m old new (.error (.keyError conflicts))

variable {src : BaseStore σ K V} {dst : BaseStore τ K V} {contents : σ → Contents K V}
  {contents' : τ → Contents K V} {Good : σ → Prop} {Good' : τ → Prop} {s : σ} {t : τ}

omit [ShallowMerge V] in
theorem valuesAt_append (k : K) (l l' : List (K × V)) :
    valuesAt k (l ++ l') = valuesAt k l ++ valuesAt k l' :=
  List.filterMap_append

omit [ShallowMerge V] in
/-- Of pairs with distinct keys `dict` keeps all. -/
theorem kept_of_nodup {batches : List (List (K × V))}
    (hnd : (batches.flatten.map Prod.fst).Nodup) : kept batches = batches.flatten := by
  rw [kept, List.flatMap_def]
  refine congrArg List.flatten ((List.map_congr_left fun batch hbatch => ?_).trans
    (List.map_id batches))
  exact entries_ofList_of_mem hnd rfl hbatch

omit [ShallowMerge V] in
/-- What an iteration yields has the values of the map. -/
theorem valuesAt_of_yields {m : Contents K V} {size : ℕ} {batches : List (Dict K V)}
    (h : Yields m size batches) (k : K) :
    valuesAt k (batches.flatMap Dict.entries) = (m k).toList := by
  have hnd : ((batches.flatMap Dict.entries).map Prod.fst).Nodup := by
    rw [keys_flatMap_entries]
    exact h.nodup
  rw [valuesAt_of_nodup hnd]
  congr 1
  cases hm : m k with
  | some v => exact Dict.lookup_eq_some_of_mem hnd ((h.mem_iff k v).mpr hm)
  | none =>
    refine Dict.lookup_eq_none_of_not_mem fun hmem => ?_
    obtain ⟨⟨j, v⟩, hp, rfl⟩ := List.mem_map.mp hmem
    rw [(h.mem_iff j v).mp hp] at hm
    cases hm

/-- The values of one key: none or one. -/
theorem afterAll_toList (onConflict : OnConflict) (old new : Option V) :
    afterAll onConflict old new.toList = Contents.conflictValue onConflict new old := by
  cases new with
  | none => exact (conflictValue_none old).symm
  | some v => rfl

omit [ShallowMerge V] in
theorem sorted_ne_nil {keys : List K} (h : keys ≠ []) : sorted keys ≠ [] := by
  obtain ⟨k, hk⟩ := List.exists_mem_of_ne_nil keys h
  exact List.ne_nil_of_mem (mem_sorted.mpr hk)

omit [LinearOrder K] [ShallowMerge V] in
theorem eq_some_of_cons_eq_toList {x : Option V} {v : V} {l : List V} (h : v :: l = x.toList) :
    x = some v := by
  cases x with
  | none => cases h
  | some w =>
    rw [Option.toList_some, List.cons.injEq] at h
    rw [h.1]

omit [LinearOrder K] [ShallowMerge V] in
theorem eq_nil_of_append_cons_eq_toList {x : Option V} {v : V} {l l' : List V}
    (h : l ++ ((some v).toList ++ l') = x.toList) : l = [] ∧ x = some v := by
  cases l with
  | nil => exact ⟨rfl, eq_some_of_cons_eq_toList h⟩
  | cons w l =>
    have hx := eq_some_of_cons_eq_toList h
    subst hx
    have hlength := congrArg List.length h
    simp at hlength

/-- **The loop on pairs with distinct keys.** -/
theorem copied_writeBatches {m : Contents K V} (onConflict : OnConflict) (old : Contents K V)
    {batches : List (List (K × V))} (hnd : (batches.flatten.map Prod.fst).Nodup)
    (hm : ∀ k, valuesAt k batches.flatten = (m k).toList) :
    Copied onConflict m old (old.writeBatches onConflict batches).1
      (old.writeBatches onConflict batches).2 := by
  have hkept := kept_of_nodup hnd
  by_cases ho : onConflict = .raise
  · subst ho
    obtain ⟨done, left, new, hsplit, hnew, hdone, hend⟩ := Contents.writeBatches_raise old batches
    have hparts : ∀ k, valuesAt k (kept done) ++ valuesAt k (kept left) = (m k).toList := by
      intro k
      rw [← hm, ← hkept, hsplit, ← valuesAt_append, kept, kept, kept, List.flatMap_append]
    cases left with
    | nil =>
      have hvalues : ∀ k, valuesAt k (kept done) = (m k).toList := fun k => by
        rw [← hparts k]
        exact (List.append_nil _).symm
      rw [hend]
      refine .all (fun _ k => ?_) fun k => ?_
      · cases hold : old k with
        | none => exact .inr rfl
        | some v =>
          have hnil := hdone k (by rw [hold]; rfl)
          rw [hvalues, Option.toList_eq_nil_iff] at hnil
          exact .inl hnil
      · show new k = _
        rw [hnew, hvalues]
        cases hold : old k with
        | none =>
          rw [Contents.conflictValue_raise_of_none, Option.none_or]
          cases m k <;> rfl
        | some v =>
          have hnil := hdone k (by rw [hold]; rfl)
          rw [hvalues, Option.toList_eq_nil_iff] at hnil
          rw [hnil]
          rfl
    | cons batch left =>
      obtain ⟨hne, hend⟩ := hend
      rw [hend]
      refine .stopped rfl (sorted_ne_nil hne) (fun k hk => ?_) fun k => ?_
      · obtain ⟨hmem, hthere⟩ := List.mem_filter.mp (mem_sorted.mp hk)
        -- the key has a value in this batch, so it had none before
        obtain ⟨v, hv⟩ := Option.isSome_iff_exists.mp (Dict.isSome_get?_iff.mpr hmem)
        have hpart := hparts k
        rw [valuesAt_kept_cons, ← get?_ofList, hv] at hpart
        obtain ⟨hnil, hmk⟩ := eq_nil_of_append_cons_eq_toList hpart
        rw [hnew, hnil, List.head?_nil, Option.or_none] at hthere
        exact ⟨by rw [hmk]; rfl, hthere⟩
      · show new k = old k ∨ old k = none ∧ new k = m k
        rw [hnew]
        cases hold : old k with
        | some v => exact .inl rfl
        | none =>
          cases hvalues : valuesAt k (kept done) with
          | nil => exact .inl rfl
          | cons v values =>
            have hpart := hparts k
            rw [hvalues] at hpart
            refine .inr ⟨rfl, ?_⟩
            rw [eq_some_of_cons_eq_toList hpart]
            rfl
  · rw [Contents.writeBatches_of_ne_raise ho]
    refine .all (fun h => absurd h ho) fun k => ?_
    show afterAll onConflict (old k) (valuesAt k (kept batches)) = _
    rw [hkept, hm, afterAll_toList]

/-- **Copying a store.** `dst.set_batches(items, batch_size, on_conflict)` with the items that
`src.iter_batches` yields, on any two stores that are maps and for any two batch sizes: every key of
`src` goes through the strategy once, and under `raise` the copy stops at keys that are in both. -/
theorem copy_law (hsrc : IsMap src contents Good) (hdst : IsMap dst contents' Good') (hs : Good s)
    (ht : Good' t) (batchify : Snapshot.Cutting (K × V)) {readSize writeSize : ℤ}
    (hread : 1 ≤ readSize) (hwrite : 1 ≤ writeSize) (onConflict : OnConflict) :
    ∃ batches t' raised, src.iterBatches s readSize = .ok batches ∧
      dst.setBatches batchify t (batches.flatMap Dict.entries) writeSize onConflict =
        (t', raised) ∧
      Good' t' ∧ Copied onConflict (contents s) (contents' t) (contents' t') raised := by
  obtain ⟨batches, hbatches, hyields⟩ := (hsrc.reads hs).iterBatches readSize hread
  have hpositive : 1 ≤ writeSize.toNat := by omega
  have hflat := batchify.flatten_run (batches.flatMap Dict.entries) hpositive
  have hnd : ((batchify.run (batches.flatMap Dict.entries) writeSize.toNat).flatten.map
      Prod.fst).Nodup := by
    rw [hflat, keys_flatMap_entries]
    exact hyields.nodup
  obtain ⟨hgood, hmap⟩ := writeBatches_map hdst ht onConflict
    (batchify.run (batches.flatMap Dict.entries) writeSize.toNat)
  have hcopied := copied_writeBatches onConflict (contents' t) hnd fun k => by
    rw [hflat]
    exact valuesAt_of_yields hyields k
  rw [hmap] at hcopied
  refine ⟨batches, _, _, hbatches, ?_, hgood, hcopied⟩
  rw [BaseStore.setBatches, validateBatchSize_of_le hwrite]

end Copy

/-- An `InMemoryStore` with two keys, and a DuckDB table with one of them. -/
def copySource : InMemoryStore ℕ (Dict String ℕ) :=
  ⟨.ofList [(1, .ofList [("a", 1)]), (2, .ofList [("a", 2)])], false⟩

def copyTarget : TableStore ℕ (Dict String ℕ) := ⟨.ofList [(2, .ofList [("b", 3)])], false⟩

/-- The fields of the key that is in both are merged. -/
theorem copy_law_merge : ∃ batches t',
    (InMemoryStore.baseStore byPosition).iterBatches copySource 1 = .ok batches ∧
      (BaseDuckDBStore.baseStore ⟨id, id⟩ inOrder).setBatches byPosition copyTarget
        (batches.flatMap Dict.entries) 2 .merge = (t', .ok ()) ∧
      TableStore.lookup (BaseDuckDBStore.backend ⟨id, id⟩ inOrder) t' 2 =
        some (.ofList [("b", 3), ("a", 2)]) := by
  have hopen : InMemoryStore.Opened copySource := rfl
  have hopen' : TableStore.Opened copyTarget := rfl
  obtain ⟨batches, t', raised, hbatches, hset, -, hcopied⟩ :=
    copy_law (InMemoryStore.isMap byPosition) (BaseDuckDBStore.isMap ⟨id, id⟩ inOrder fun _ => rfl)
      hopen hopen' byPosition (by decide : (1 : ℤ) ≤ 1) (by decide : (1 : ℤ) ≤ 2) .merge
  cases hcopied with
  | all _ hnew => exact ⟨batches, t', hbatches, hset, (hnew 2).trans (by decide)⟩
  | stopped hraise => cases hraise

end Persista
