import Persista.Json.Value
import Persista.Store.Sqlite

/-!
# `set_batches`

`BaseStore.set_batches` cuts an iterable of pairs into batches and writes each of them with one
`set_many(dict(batch))`. The strategy is applied batch by batch. Of a key that a batch has more than
once, `dict` keeps the last value, so what is written does not go through the strategy pair by
pair.

`batchify` is not part of the repository; it is a parameter that cuts a list into consecutive runs.

## Main results

* `Batches.afterAll` — what a sequence of values makes of one key
* `Batches.setBatches_contents` — `set_batches` is `set`, pair by pair, on the pairs that `dict`
  keeps of each batch
* `Batches.set_batches_law` — when that is `set` on all pairs
-/

namespace Persista

namespace Batches

variable {K V : Type} [LinearOrder K]

/-! ### The two loops -/

section Loops

variable [ShallowMerge V]

/-- `for batch in batches: self.set_many(dict(batch), on_conflict=on_conflict)`. -/
def writeBatches (onConflict : OnConflict) (s : InMemoryStore K V) :
    List (List (K × V)) → InMemoryStore K V × Except (StoreError K) Unit
  | [] => (s, .ok ())
  | batch :: batches =>
    match s.setMany (Dict.ofList batch) onConflict with
    | .ok s' => writeBatches onConflict s' batches
    | .error e => (s, .error e)

/-- `set_batches(items, batch_size, on_conflict)`. -/
def setBatches (batchify : List (K × V) → ℕ → List (List (K × V))) (s : InMemoryStore K V)
    (items : List (K × V)) (batchSize : ℤ) (onConflict : OnConflict) :
    InMemoryStore K V × Except (StoreError K) Unit :=
  match validateBatchSize batchSize with
  | .ok () => writeBatches onConflict s (batchify items batchSize.toNat)
  | .error e => (s, .error e)

/-- `for key, value in items: store.set(key, value, on_conflict)`. -/
def setEach (onConflict : OnConflict) (s : InMemoryStore K V) :
    List (K × V) → InMemoryStore K V × Except (StoreError K) Unit
  | [] => (s, .ok ())
  | (key, value) :: items =>
    match s.set key value onConflict with
    | .ok s' => setEach onConflict s' items
    | .error e => (s, .error e)

/-! ### One key at a time -/

/-- The values a list of pairs has for a key. -/
def valuesAt (k : K) (items : List (K × V)) : List V :=
  items.filterMap fun p => if p.1 = k then some p.2 else none

/-- The pairs that `dict` keeps of each batch. -/
def kept (batches : List (List (K × V))) : List (K × V) :=
  batches.flatMap fun batch => (Dict.ofList batch).entries

/-- What values written one after the other make of one key. -/
def afterAll (onConflict : OnConflict) (old : Option V) (values : List V) : Option V :=
  values.foldl (fun old value => Contents.conflictValue onConflict (some value) old) old

end Loops

theorem valuesAt_cons (j : K) (v : V) (items : List (K × V)) (k : K) :
    valuesAt k ((j, v) :: items) = if k = j then v :: valuesAt k items else valuesAt k items := by
  by_cases h : k = j
  · subst h
    simp [valuesAt]
  · have h' : ¬ j = k := fun hj => h hj.symm
    simp [valuesAt, h, h']

theorem get?_setAll_eq_getLast? (d : Dict K V) (items : List (K × V)) (k : K) :
    (d.setAll items).get? k = (valuesAt k items).getLast?.or (d.get? k) := by
  induction items generalizing d with
  | nil => rfl
  | cons p items ih =>
    obtain ⟨j, v⟩ := p
    rw [Dict.setAll_cons, ih, Dict.get?_set, valuesAt_cons]
    by_cases h : k = j
    · rw [if_pos h, if_pos h, List.getLast?_cons]
      cases (valuesAt k items).getLast? <;> rfl
    · rw [if_neg h, if_neg h]

/-- `dict` keeps the last value of a key. -/
theorem get?_ofList (items : List (K × V)) (k : K) :
    (Dict.ofList items).get? k = (valuesAt k items).getLast? := by
  rw [Dict.ofList, get?_setAll_eq_getLast?, Dict.get?_empty, Option.or_none]

theorem valuesAt_of_not_mem {items : List (K × V)} {k : K} (h : k ∉ items.map Prod.fst) :
    valuesAt k items = [] := by
  rw [valuesAt, List.filterMap_eq_nil_iff]
  intro p hp
  have hne : ¬ p.1 = k := fun hk => h (hk ▸ List.mem_map_of_mem hp)
  exact if_neg hne

theorem valuesAt_of_nodup {items : List (K × V)} (hnd : (items.map Prod.fst).Nodup) (k : K) :
    valuesAt k items = (items.lookup k).toList := by
  induction items with
  | nil => rfl
  | cons p items ih =>
    obtain ⟨j, v⟩ := p
    rw [List.map_cons, List.nodup_cons] at hnd
    rw [Dict.lookup_cons_ite, valuesAt_cons]
    by_cases h : k = j
    · rw [if_pos h, if_pos h, valuesAt_of_not_mem (h ▸ hnd.1)]
      rfl
    · rw [if_neg h, if_neg h, ih hnd.2]

/-- Of the values of a key, the last of each batch is kept. -/
theorem valuesAt_kept_cons (k : K) (batch : List (K × V)) (batches : List (List (K × V))) :
    valuesAt k (kept (batch :: batches)) =
      (valuesAt k batch).getLast?.toList ++ valuesAt k (kept batches) := by
  rw [kept, List.flatMap_cons, valuesAt, List.filterMap_append]
  change valuesAt k (Dict.ofList batch).entries ++ valuesAt k (kept batches) = _
  rw [valuesAt_of_nodup (Dict.ofList batch).nodup, ← get?_ofList]
  rfl

theorem valuesAt_flatten_cons (k : K) (batch : List (K × V)) (batches : List (List (K × V))) :
    valuesAt k (batch :: batches).flatten = valuesAt k batch ++ valuesAt k batches.flatten := by
  rw [List.flatten_cons, valuesAt, List.filterMap_append]
  rfl

/-! ### What the loops do to one key -/

section Runs

variable [ShallowMerge V] {onConflict : OnConflict} {s : InMemoryStore K V}

/-- A batch, on an open store, under a strategy that does not raise. -/
theorem setMany_spec (h : s.Opened) (ho : onConflict ≠ .raise) (items : Dict K V) :
    ∃ s', s.setMany items onConflict = .ok s' ∧ s'.Opened ∧
      ∀ k, s'.contents k = Contents.conflictValue onConflict (items.get? k) (s.contents k) := by
  have hmap := InMemoryStore.setMany_of_opened h items onConflict
  rcases Contents.setMany_spec s.contents items onConflict with ⟨hr, -, -⟩ | ⟨-, hs⟩
  · exact absurd hr ho
  · rw [hs] at hmap
    cases he : s.setMany items onConflict with
    | error e => rw [he] at hmap; cases hmap
    | ok s' =>
      rw [he] at hmap
      have hcontents : s'.contents = _ := Except.ok.inj hmap
      exact ⟨s', rfl, InMemoryStore.setMany_opened he h, fun k => congrFun hcontents k⟩

theorem afterAll_cons (old : Option V) (v : V) (values : List V) :
    afterAll onConflict old (v :: values) =
      afterAll onConflict (Contents.conflictValue onConflict (some v) old) values := rfl

theorem conflictValue_none (old : Option V) :
    Contents.conflictValue onConflict none old = old := by
  cases onConflict <;> rfl

/-- `set`, pair by pair: each key goes through its own values. -/
theorem setEach_spec (h : s.Opened) (ho : onConflict ≠ .raise) (items : List (K × V)) :
    ∃ s', setEach onConflict s items = (s', .ok ()) ∧
      ∀ k, s'.contents k = afterAll onConflict (s.contents k) (valuesAt k items) := by
  induction items generalizing s with
  | nil => exact ⟨s, rfl, fun k => rfl⟩
  | cons p items ih =>
    obtain ⟨j, v⟩ := p
    obtain ⟨t, ht, hopen, hcontents⟩ := setMany_spec h ho (Dict.ofList [(j, v)])
    obtain ⟨s', hs', hs⟩ := ih hopen
    refine ⟨s', ?_, fun k => ?_⟩
    · rw [setEach, InMemoryStore.set, ht]
      exact hs'
    · rw [hs, hcontents, get?_ofList, valuesAt_cons, valuesAt_cons]
      by_cases hk : k = j
      · rw [if_pos hk, if_pos hk, afterAll_cons]
        rfl
      · rw [if_neg hk, if_neg hk]
        exact congrArg (afterAll onConflict · (valuesAt k items)) (conflictValue_none _)

/-- `set_many`, batch by batch: each key goes through the last value of each batch. -/
theorem writeBatches_spec (h : s.Opened) (ho : onConflict ≠ .raise)
    (batches : List (List (K × V))) :
    ∃ s', writeBatches onConflict s batches = (s', .ok ()) ∧
      ∀ k, s'.contents k = afterAll onConflict (s.contents k) (valuesAt k (kept batches)) := by
  induction batches generalizing s with
  | nil => exact ⟨s, rfl, fun k => rfl⟩
  | cons batch batches ih =>
    obtain ⟨t, ht, hopen, hcontents⟩ := setMany_spec h ho (Dict.ofList batch)
    obtain ⟨s', hs', hs⟩ := ih hopen
    refine ⟨s', ?_, fun k => ?_⟩
    · rw [writeBatches, ht]
      exact hs'
    · rw [hs, hcontents, get?_ofList, valuesAt_kept_cons]
      cases (valuesAt k batch).getLast? with
      | none => rw [conflictValue_none, Option.toList_none, List.nil_append]
      | some v => rw [Option.toList_some, List.singleton_append, afterAll_cons]

end Runs

/-! ### Strategy by strategy -/

theorem getLast?_kept (k : K) (batches : List (List (K × V))) :
    (valuesAt k (kept batches)).getLast? = (valuesAt k batches.flatten).getLast? := by
  induction batches with
  | nil => rfl
  | cons batch batches ih =>
    rw [valuesAt_kept_cons, valuesAt_flatten_cons, List.getLast?_append, List.getLast?_append, ih]
    cases (valuesAt k batch).getLast? <;> rfl

theorem kept_eq_nil_iff (k : K) (batches : List (List (K × V))) :
    valuesAt k (kept batches) = [] ↔ valuesAt k batches.flatten = [] := by
  rw [← List.getLast?_eq_none_iff, getLast?_kept, List.getLast?_eq_none_iff]

section Strategies

variable [ShallowMerge V]

/-- Under `overwrite` the last value stays. -/
theorem afterAll_overwrite (old : Option V) (values : List V) :
    afterAll .overwrite old values = values.getLast?.or old := by
  induction values generalizing old with
  | nil => rfl
  | cons v values ih =>
    have hv : Contents.conflictValue .overwrite (some v) old = some v := by cases old <;> rfl
    rw [afterAll_cons, ih, hv, List.getLast?_cons]
    cases values.getLast? <;> rfl

/-- Under `skip` the first value stays. -/
theorem afterAll_skip (old : Option V) (values : List V) :
    afterAll .skip old values = old.or values.head? := by
  induction values generalizing old with
  | nil => simp [afterAll]
  | cons v values ih =>
    rw [afterAll_cons, ih]
    cases old <;> rfl

end Strategies

variable {F J : Type} [DecidableEq F]

/-- The value of a field. -/
def field (f : F) (value : Option (Dict F J)) : Option J := value.bind (·.get? f)

/-- The last value that some values have for a field. -/
def lastField (f : F) (values : List (Dict F J)) : Option J :=
  (values.filterMap (·.get? f)).getLast?

theorem lastField_cons (f : F) (v : Dict F J) (values : List (Dict F J)) :
    lastField f (v :: values) = (lastField f values).or (v.get? f) := by
  rw [lastField, lastField, List.filterMap_cons]
  cases v.get? f with
  | none => simp
  | some j =>
    simp only [List.getLast?_cons]
    cases (values.filterMap (·.get? f)).getLast? <;> rfl

theorem field_conflictValue_merge (f : F) (v : Dict F J) (old : Option (Dict F J)) :
    field f (Contents.conflictValue .merge (some v) old) = (v.get? f).or (field f old) := by
  cases old with
  | none => simp [Contents.conflictValue, field]
  | some d => simp [Contents.conflictValue, field, ShallowMerge.merge]

/-- Under `merge` each field gets its last value. -/
theorem field_afterAll_merge (f : F) (old : Option (Dict F J)) (values : List (Dict F J)) :
    field f (afterAll .merge old values) = (lastField f values).or (field f old) := by
  induction values generalizing old with
  | nil => rfl
  | cons v values ih =>
    rw [afterAll_cons, ih, field_conflictValue_merge, lastField_cons, Option.or_assoc]

theorem isSome_afterAll_merge (old : Option (Dict F J)) (values : List (Dict F J)) :
    (afterAll .merge old values).isSome = (old.isSome || !values.isEmpty) := by
  induction values generalizing old with
  | nil => simp [afterAll]
  | cons v values ih =>
    have hv : (Contents.conflictValue .merge (some v) old).isSome = true := by cases old <;> rfl
    rw [afterAll_cons, ih, hv]
    simp

/-! ### `set_batches` against `set` -/

/-- Two values that Python takes for equal: a `dict` does not remember the order of its fields. -/
def SameValue (x y : Option (Dict F J)) : Prop :=
  x.isSome = y.isSome ∧ ∀ f, field f x = field f y

/-- The same keys with the same values. -/
def SameContents (m m' : Contents K (Dict F J)) : Prop := ∀ k, SameValue (m k) (m' k)

/-- What `dict` drops from the batches makes no difference. Under `skip`, a key that is not there
has the same value at its first place and at the end of the first batch it is in; under `merge`,
each field of a key has the same last value among all pairs and among those kept. -/
def Harmless (onConflict : OnConflict) (m : Contents K (Dict F J))
    (batches : List (List (K × Dict F J))) : Prop :=
  match onConflict with
  | .skip => ∀ k, m k = none →
      SameValue (valuesAt k (kept batches)).head? (valuesAt k batches.flatten).head?
  | .merge => ∀ k f, (lastField f (valuesAt k (kept batches))).or (field f (m k)) =
      (lastField f (valuesAt k batches.flatten)).or (field f (m k))
  | .overwrite | .raise => True

theorem sameValue_rfl (x : Option (Dict F J)) : SameValue x x := ⟨rfl, fun _ => rfl⟩

theorem sameContents_iff_harmless {onConflict : OnConflict} (ho : onConflict ≠ .raise)
    (m : Contents K (Dict F J)) (batches : List (List (K × Dict F J))) :
    SameContents (fun k => afterAll onConflict (m k) (valuesAt k (kept batches)))
        (fun k => afterAll onConflict (m k) (valuesAt k batches.flatten)) ↔
      Harmless onConflict m batches := by
  cases onConflict with
  | raise => exact absurd rfl ho
  | overwrite =>
    refine ⟨fun _ => trivial, fun _ k => ?_⟩
    simp only [afterAll_overwrite, getLast?_kept]
    exact sameValue_rfl _
  | skip =>
    refine forall_congr' fun k => ?_
    simp only [afterAll_skip]
    cases m k with
    | none => simp
    | some d => simp [sameValue_rfl]
  | merge =>
    refine forall_congr' fun k => ?_
    have hnil : (valuesAt k (kept batches)).isEmpty = (valuesAt k batches.flatten).isEmpty := by
      rw [Bool.eq_iff_iff, List.isEmpty_iff, List.isEmpty_iff, kept_eq_nil_iff]
    simp only [SameValue, field_afterAll_merge, isSome_afterAll_merge, hnil, true_and]

/-- **`set_batches`.** It does what `set` does, pair by pair, with the pairs that are the last of
their key in their batch; that is what `set` does with all pairs exactly when the others make no
difference. -/
theorem set_batches_law
    (batchify : List (K × Dict F J) → ℕ → List (List (K × Dict F J)))
    (hruns : ∀ items n, 1 ≤ n → (batchify items n).flatten = items)
    (data : Dict K (Dict F J)) (items : List (K × Dict F J)) (onConflict : OnConflict)
    (ho : onConflict ≠ .raise) (n : ℕ) (hn : 1 ≤ n) :
    ∃ batched keptOnly each,
      setBatches batchify ⟨data, false⟩ items n onConflict = (batched, .ok ()) ∧
      setEach onConflict ⟨data, false⟩ (kept (batchify items n)) = (keptOnly, .ok ()) ∧
      setEach onConflict ⟨data, false⟩ items = (each, .ok ()) ∧
      batched.contents = keptOnly.contents ∧
      (SameContents batched.contents each.contents ↔
        Harmless onConflict data.get? (batchify items n)) := by
  have hopen : (⟨data, false⟩ : InMemoryStore K (Dict F J)).Opened := rfl
  obtain ⟨batched, hb, hbatched⟩ := writeBatches_spec hopen ho (batchify items n)
  obtain ⟨keptOnly, hk, hkept⟩ := setEach_spec hopen ho (kept (batchify items n))
  obtain ⟨each, he, heach⟩ := setEach_spec hopen ho items
  have hsize : validateBatchSize (n : ℤ) = (.ok () : Except (StoreError K) Unit) :=
    if_neg (by omega)
  refine ⟨batched, keptOnly, each, ?_, hk, he, ?_, ?_⟩
  · rw [setBatches, hsize]
    exact hb
  · funext k
    rw [hbatched, hkept]
  · rw [← sameContents_iff_harmless ho, hruns items n hn]
    refine forall_congr' fun k => ?_
    rw [hbatched, heach]
    rfl

/-! ### A key twice in a batch -/

open Json

/-- `("1", {"a": 1})`, `("1", {"b": 2})`, `("2", {})`. -/
def pairs : List (PyStr × Dict PyStr ℕ) :=
  [(ofString "1", .ofList [(ofString "a", 1)]), (ofString "1", .ofList [(ofString "b", 2)]),
    (ofString "2", ∅)]

/-- In batches of one pair every pair is kept. -/
theorem set_batches_one : ∃ batched each,
    setBatches chunk ⟨∅, false⟩ pairs 1 .merge = (batched, .ok ()) ∧
      setEach .merge ⟨∅, false⟩ pairs = (each, .ok ()) ∧
      SameContents batched.contents each.contents := by
  obtain ⟨batched, -, each, hbatched, -, heach, -, hsame⟩ :=
    set_batches_law chunk (fun _ _ => flatten_chunk) ∅ pairs .merge (by decide) 1 le_rfl
  refine ⟨batched, each, hbatched, heach, hsame.mpr fun k f => ?_⟩
  rw [flatten_chunk le_rfl, show kept (chunk pairs 1) = pairs from rfl]

/-- **A field is lost.** In one batch of two pairs the first pair of `"1"` is not kept, and its
field is not merged; one pair at a time it is. -/
theorem set_batches_two : ∃ one two,
    setBatches chunk ⟨∅, false⟩ pairs 1 .merge = (one, .ok ()) ∧
      setBatches chunk ⟨∅, false⟩ pairs 2 .merge = (two, .ok ()) ∧
      ¬ SameContents two.contents one.contents := by
  refine ⟨_, _, rfl, rfl, fun h => ?_⟩
  have hfield := (h (ofString "1")).2 (ofString "a")
  revert hfield
  decide

end Batches

end Persista
