import Persista.Cache.Ttl

/-!
# Present and missing keys

`split_try_get_many` and `split_get_many` of `cache/utils.py`, and `split_present_missing` of
`store/keys.py`: three ways to tell the keys of a batch that a cache has from those it has not. A
caller computes the missing ones and stores them with one `set_many`.

`split_get_many` asks whether a value is the object that was passed for the default. Values here are
objects, equal when they are the same one, and a hit is a copy of the object that was cached, since
the store copies what goes in and what comes out. `copy.deepcopy` returns some objects as they are
(`None`, numbers, strings) and makes a new one of the others; so a hit is taken for a miss when the
default itself was cached and is such an object, and never otherwise.

## Main results

* `Cache.split_law` — what the three say after any history of calls
* `Cache.fill_law` — a batch whose missing keys were stored is complete
-/

namespace Persista

namespace Cache

variable {K V T : Type} [LinearOrder K]

/-- `(present if ... else missing).append(key)`. -/
def place (acc : List K × List K) (key : K) (present : Bool) : List K × List K :=
  if present then (acc.1 ++ [key], acc.2) else (acc.1, acc.2 ++ [key])

/-- `split_try_get_many`. -/
def splitTryGetMany (keys : List K) (values : Dict K V) : List K × List K :=
  keys.foldl (fun acc key => place acc key (decide (key ∈ values.keys))) ([], [])

/-- What `get_many` returns for a key: a copy of a cached object, or the default. -/
inductive Returned (V : Type)
  | copy (cached : V)
  | default

/-- The value that is returned. A copy has the value of what it is a copy of. -/
def Returned.value (default : V) : Returned V → V
  | .copy cached => cached
  | .default => default

/-- `value is default`. A copy is the default when the default was cached, and is one of the objects
that `copy.deepcopy` returns as they are. -/
def Returned.isDefault [DecidableEq V] (returnsItself : V → Bool) (default : V) :
    Returned V → Bool
  | .copy cached => returnsItself cached && decide (cached = default)
  | .default => true

/-- `{key: hits.get(key, default) for key in keys}`, as objects. -/
def returned (hits : Dict K V) (keys : List K) : Dict K (Returned V) :=
  Dict.ofList (keys.map fun key => (key, (hits.get? key).elim .default .copy))

/-- `split_get_many`; `none` when a key is not in the dictionary. -/
def splitGetMany [DecidableEq V] (returnsItself : V → Bool) (keys : List K)
    (values : Dict K (Returned V)) (default : V) : Option (List K × List K) :=
  keys.foldlM (fun acc key => (values.get? key).map fun value =>
    place acc key (!value.isDefault returnsItself default)) ([], [])

/-- `split_present_missing`; `none` when `zip` raises. -/
def splitPresentMissing (keys : List K) (flags : List Bool) : Option (List K × List K) :=
  if keys.length = flags.length then
    some ((keys.zip flags).foldl (fun acc p => place acc p.1 p.2) ([], []))
  else none

/-- The keys with a property, and the others, in their order. -/
def partitioned (keys : List K) (p : K → Bool) : List K × List K :=
  (keys.filter p, keys.filter fun key => !p key)

/-! ### The loops -/

omit [LinearOrder K] in
theorem foldl_place (keys : List K) (p : K → Bool) (acc : List K × List K) :
    keys.foldl (fun acc key => place acc key (p key)) acc =
      (acc.1 ++ (partitioned keys p).1, acc.2 ++ (partitioned keys p).2) := by
  induction keys generalizing acc with
  | nil => simp [partitioned]
  | cons key keys ih =>
    rw [List.foldl_cons, ih, place]
    cases hp : p key with
    | true => simp [partitioned, hp]
    | false => simp [partitioned, hp]

omit [LinearOrder K] in
theorem partitioned_eq_foldl (keys : List K) (p : K → Bool) :
    keys.foldl (fun acc key => place acc key (p key)) ([], []) = partitioned keys p := by
  rw [foldl_place, List.nil_append, List.nil_append]

omit [LinearOrder K] in
theorem partitioned_congr {keys : List K} {p q : K → Bool} (h : ∀ key ∈ keys, p key = q key) :
    partitioned keys p = partitioned keys q := by
  have hnot : ∀ key ∈ keys, (!p key) = !q key := fun key hkey => by rw [h key hkey]
  rw [partitioned, partitioned, List.filter_congr h, List.filter_congr hnot]

theorem splitTryGetMany_hitsOf (f : K → Option V) (keys : List K) :
    splitTryGetMany keys (hitsOf f keys) = partitioned keys fun key => (f key).isSome := by
  rw [splitTryGetMany, partitioned_eq_foldl]
  refine partitioned_congr fun key hkey => ?_
  rw [Bool.eq_iff_iff, decide_eq_true_iff, ← Dict.isSome_get?_iff, get?_hitsOf hkey]

omit [LinearOrder K] in
theorem splitPresentMissing_map (p : K → Bool) (keys : List K) :
    splitPresentMissing keys (keys.map p) = some (partitioned keys p) := by
  rw [splitPresentMissing, if_pos (List.length_map p).symm, ← partitioned_eq_foldl]
  congr 1
  rw [← List.map_prod_left_eq_zip, List.foldl_map]

theorem splitGetMany_values [DecidableEq V] (returnsItself : V → Bool)
    {values : Dict K (Returned V)} {f : K → Returned V} {keys : List K}
    (hvalues : ∀ key ∈ keys, values.get? key = some (f key)) (default : V) :
    splitGetMany returnsItself keys values default =
      some (partitioned keys fun key => !(f key).isDefault returnsItself default) := by
  rw [← partitioned_eq_foldl, splitGetMany]
  generalize (([], []) : List K × List K) = acc
  induction keys generalizing acc with
  | nil => rfl
  | cons key keys ih =>
    rw [List.foldlM_cons, hvalues key List.mem_cons_self]
    exact ih (fun key' hkey' => hvalues key' (List.mem_cons_of_mem key hkey')) _

/-! ### A batch -/

variable [LinearOrder T] [AddCommMonoid T] [ToString T] {c : Cache K V T} {d : Option T}
  {history : List (T × Call K V T)} {t : T}

omit [LinearOrder T] [AddCommMonoid T] [ToString T] in
theorem get?_ofList_map (f : K → V) {keys : List K} (key : K) :
    (Dict.ofList (keys.map fun key => (key, f key))).get? key =
      if key ∈ keys then some (f key) else none := by
  have hmap : keys.map (fun key => (key, f key)) =
      keys.filterMap fun key => (some (f key)).map (key, ·) :=
    (congrFun List.filterMap_eq_map' keys).symm
  rw [hmap, Dict.get?_ofList_filterMap]

/-- The next call answers what the history says. -/
theorem answer_run (hc : opened d = .ok c)
    (hclock : (history.map Prod.fst ++ [t]).Pairwise (· ≤ ·)) (call : Call K V T) :
    ((c.run history).exec t call).map Prod.snd = expected d (lookup d history · t) call :=
  ((Agrees.run (hits_opened hc) hclock).exec le_rfl call).1

omit [LinearOrder T] [AddCommMonoid T] [ToString T] in
/-- The objects that are returned have the values that `get_many` answers. -/
theorem mapValues_returned (f : K → Option V) (keys : List K) (default : V) :
    (returned (hitsOf f keys) keys).mapValues (·.value default) =
      Dict.ofList (keys.map fun key => (key, (f key).getD default)) := by
  rw [returned, Dict.mapValues_ofList, List.map_map]
  refine congrArg Dict.ofList (List.map_congr_left fun key hkey => ?_)
  rw [Function.comp_apply, get?_hitsOf hkey]
  cases f key <;> rfl

/-- **Three ways to split a batch.** After any calls at times that do not go backwards,
`try_get_many` and `contains_many` tell the keys that are found from the others. `get_many` tells
those that are found and are not the default itself from the others. -/
theorem split_law [DecidableEq V] (hc : opened d = .ok c)
    (hclock : (history.map Prod.fst ++ [t]).Pairwise (· ≤ ·)) (keys : List K)
    (returnsItself : V → Bool) (default : V) :
    (∃ hits, ((c.run history).exec t (.tryGetMany keys)).map Prod.snd = .ok (.values hits) ∧
      splitTryGetMany keys hits =
        partitioned keys (fun key => (lookup d history key t).isSome) ∧
      ((c.run history).exec t (.getMany keys default)).map Prod.snd =
        .ok (.values ((returned hits keys).mapValues (·.value default))) ∧
      splitGetMany returnsItself keys (returned hits keys) default =
        some (partitioned keys fun key => (lookup d history key t).any fun value =>
          !(returnsItself value && decide (value = default)))) ∧
    ∃ flags, ((c.run history).exec t (.containsMany keys)).map Prod.snd = .ok (.flags flags) ∧
      splitPresentMissing keys flags =
        some (partitioned keys fun key => (lookup d history key t).isSome) := by
  refine ⟨⟨_, answer_run hc hclock (.tryGetMany keys), ?_, ?_, ?_⟩,
    ⟨_, answer_run hc hclock (.containsMany keys), ?_⟩⟩
  · exact splitTryGetMany_hitsOf (lookup d history · t) keys
  · rw [mapValues_returned]
    exact answer_run hc hclock (.getMany keys default)
  · rw [splitGetMany_values returnsItself (fun key hkey => by rw [returned, get?_ofList_map,
      if_pos hkey]) default]
    refine congrArg some (partitioned_congr fun key hkey => ?_)
    rw [get?_hitsOf hkey]
    cases lookup d history key t <;> rfl
  · exact splitPresentMissing_map (fun key => (lookup d history key t).isSome) keys

/-- A key that expires at 5, and two that expire at 9. -/
def twoWrites : List (ℤ × Call ℕ ℕ ℤ) :=
  [(0, .set 1 10 .unset), (4, .setMany (Dict.ofList [(2, 20), (3, 0)]) .unset)]

/-- The cached `0` is the default. It is taken for a miss when a copy of it is the object itself. -/
theorem split_law_twoWrites : ∃ c : Cache ℕ ℕ ℤ, opened (some 5) = .ok c ∧
    (∃ flags, ((c.run twoWrites).exec 6 (.containsMany [3, 1, 2])).map Prod.snd =
        .ok (.flags flags) ∧ splitPresentMissing [3, 1, 2] flags = some ([3, 2], [1])) ∧
    (∃ hits, ((c.run twoWrites).exec 6 (.tryGetMany [3, 1, 2])).map Prod.snd =
        .ok (.values hits) ∧
      splitGetMany (fun _ => true) [3, 1, 2] (returned hits [3, 1, 2]) 0 = some ([2], [3, 1])) ∧
    ∃ hits, ((c.run twoWrites).exec 6 (.tryGetMany [3, 1, 2])).map Prod.snd =
        .ok (.values hits) ∧
      splitGetMany (fun _ => false) [3, 1, 2] (returned hits [3, 1, 2]) 0 =
        some ([3, 2], [1]) := by
  obtain ⟨c, hc⟩ : ∃ c : Cache ℕ ℕ ℤ, opened (some 5) = .ok c := ⟨_, rfl⟩
  have hclock : (twoWrites.map Prod.fst ++ [6]).Pairwise (· ≤ ·) := by decide
  obtain ⟨⟨hits, hanswer, -, -, hsplit⟩, hflags⟩ :=
    split_law hc hclock [3, 1, 2] (fun _ => true) 0
  obtain ⟨⟨hits', hanswer', -, -, hsplit'⟩, -⟩ :=
    split_law hc hclock [3, 1, 2] (fun _ => false) 0
  exact ⟨c, hc, hflags, ⟨hits, hanswer, hsplit⟩, hits', hanswer', hsplit'⟩

/-! ### Filling a batch -/

/-- What a caller stores: a result for each key that is missing. -/
def filled (missing : List K) (compute : K → V) : Dict K V :=
  Dict.ofList (missing.map fun key => (key, compute key))

/-- The calls of a caller who fills a batch: a lookup at `t₁`, and a write at `t₂`. -/
def fillCalls (t₁ t₂ : T) (keys missing : List K) (compute : K → V) (ttl : Ttl T) :
    List (T × Call K V T) :=
  [(t₁, .tryGetMany keys), (t₂, .setMany (filled missing compute) ttl)]

/-- The keys of a batch that are missing. -/
def missing (d : Option T) (history : List (T × Call K V T)) (t : T) (keys : List K) : List K :=
  (partitioned keys fun key => (lookup d history key t).isSome).2

/-- What is found later is what was found before, as long as no call comes between. -/
theorem lookup_of_later {key : K} {t t' : T} {value value' : V}
    (h : lookup d history key t = some value) (h' : lookup d history key t' = some value') :
    value' = value := by
  obtain ⟨w, hw, hread⟩ := Option.bind_eq_some_iff.mp h
  obtain ⟨w', hw', hread'⟩ := Option.bind_eq_some_iff.mp h'
  obtain rfl := Option.some.inj (hw.symm.trans hw')
  obtain ⟨-, hvalue⟩ := Option.ite_none_right_eq_some.mp hread
  obtain ⟨-, hvalue'⟩ := Option.ite_none_right_eq_some.mp hread'
  exact Option.some.inj (hvalue'.symm.trans hvalue)

/-- What is looked up after the missing keys were stored: the others as they are by then, and these
for as long as their ttl says. -/
theorem lookup_fillCalls {t₁ t₂ : T} (t₃ : T) {keys : List K} {compute : K → V} {ttl : Ttl T}
    {resolved : Option T} (hr : (resolveTtl d ttl : Except (StoreError K) _) = .ok resolved)
    {key : K} (hkey : key ∈ keys) :
    lookup d (history ++ fillCalls t₁ t₂ keys (missing d history t₁ keys) compute ttl) key t₃ =
      if (lookup d history key t₁).isSome then lookup d history key t₃
      else (⟨compute key, t₂, resolved⟩ : Write V T).read t₃ := by
  have hlast : lastWrite d (history ++ fillCalls t₁ t₂ keys (missing d history t₁ keys) compute ttl)
      key = lastWriteAfter d t₂ (.setMany (filled (missing d history t₁ keys) compute) ttl) key
        (lastWrite d history key) := by
    rw [lastWrite, List.foldl_append]
    rfl
  have hmissing : key ∈ missing d history t₁ keys ↔ ¬ (lookup d history key t₁).isSome := by
    rw [missing, partitioned, List.mem_filter, and_iff_right hkey, Bool.not_eq_true',
      Bool.not_eq_true]
  rw [lookup, reads, hlast, lastWriteAfter, effect, hr]
  dsimp only
  rw [filled, get?_ofList_map]
  by_cases hfound : (lookup d history key t₁).isSome
  · rw [if_neg fun hmem => hmissing.mp hmem hfound, if_pos hfound]
    rfl
  · rw [if_pos (hmissing.mpr hfound), if_neg hfound]
    rfl

/-- **Filling a batch.** A batch is looked up at `t₁`, its missing keys are stored at `t₂`, and it
is looked up again at `t₃`: what was found is found unless it has expired by then, and the others
are for as long as their ttl says. So the batch is complete when nothing has expired meanwhile. -/
theorem fill_law {t₁ t₂ t₃ : T} (hc : opened d = .ok c)
    (hclock : (history.map Prod.fst ++ [t₁, t₂, t₃]).Pairwise (· ≤ ·)) (keys : List K)
    (compute : K → V) {ttl : Ttl T} {resolved : Option T}
    (hr : (resolveTtl d ttl : Except (StoreError K) _) = .ok resolved) :
    ∃ hits, ((c.run (history ++
        fillCalls t₁ t₂ keys (missing d history t₁ keys) compute ttl)).exec t₃
          (.tryGetMany keys)).map Prod.snd = .ok (.values hits) ∧
      (∀ key ∈ keys, hits.get? key = if (lookup d history key t₁).isSome then
        lookup d history key t₃ else (⟨compute key, t₂, resolved⟩ : Write V T).read t₃) ∧
      ((∀ key ∈ keys, (lookup d history key t₁).isSome → (lookup d history key t₃).isSome) →
        resolved ≠ some 0 → (∀ x ∈ resolved, t₃ ≤ t₂ + x) →
        splitTryGetMany keys hits = (keys, []) ∧
          ∀ key ∈ keys, hits.get? key = some ((lookup d history key t₁).getD (compute key))) := by
  set after := history ++ fillCalls t₁ t₂ keys (missing d history t₁ keys) compute ttl with hafter
  have hclock' : (after.map Prod.fst ++ [t₃]).Pairwise (· ≤ ·) := by
    rw [hafter, List.map_append, List.append_assoc]
    exact hclock
  have hget : ∀ key ∈ keys, (hitsOf (lookup d after · t₃) keys).get? key =
      if (lookup d history key t₁).isSome then lookup d history key t₃
      else (⟨compute key, t₂, resolved⟩ : Write V T).read t₃ := fun key hkey => by
    rw [get?_hitsOf hkey]
    exact lookup_fillCalls t₃ hr hkey
  refine ⟨_, answer_run hc hclock' (.tryGetMany keys), hget, fun hlive hz hfresh => ?_⟩
  have hall : ∀ key ∈ keys, (hitsOf (lookup d after · t₃) keys).get? key =
      some ((lookup d history key t₁).getD (compute key)) := by
    intro key hkey
    rw [hget key hkey]
    cases hfound : lookup d history key t₁ with
    | some value =>
      obtain ⟨value', hvalue'⟩ := Option.isSome_iff_exists.mp
        (hlive key hkey (by rw [hfound]; rfl))
      rw [if_pos (show (some value).isSome from rfl), hvalue', lookup_of_later hfound hvalue']
      rfl
    | none =>
      rw [if_neg (show ¬ (none : Option V).isSome from Bool.false_ne_true)]
      exact if_pos ⟨hz, hfresh⟩
  refine ⟨?_, hall⟩
  have hpresent : ∀ key ∈ keys, (lookup d after key t₃).isSome = true := fun key hkey => by
    rw [← get?_hitsOf (f := (lookup d after · t₃)) hkey, hall key hkey]
    rfl
  rw [splitTryGetMany_hitsOf, partitioned_congr hpresent, partitioned]
  simp

/-- The key that has expired is computed again, while the time goes on. -/
theorem fill_law_twoWrites : ∃ c : Cache ℕ ℕ ℤ, opened (some 5) = .ok c ∧
    ∃ hits, ((c.run (twoWrites ++ fillCalls 6 7 [2, 1] [1] (· * 100) .unset)).exec 9
        (.tryGetMany [2, 1])).map Prod.snd = .ok (.values hits) ∧
      splitTryGetMany [2, 1] hits = ([2, 1], []) ∧ hits.get? 1 = some 100 := by
  obtain ⟨c, hc⟩ : ∃ c : Cache ℕ ℕ ℤ, opened (some 5) = .ok c := ⟨_, rfl⟩
  have hclock : (twoWrites.map Prod.fst ++ [6, 7, 9]).Pairwise (· ≤ ·) := by decide
  have hr : (resolveTtl (some 5) (.unset : Ttl ℤ) : Except (StoreError ℕ) _) = .ok (some 5) := rfl
  obtain ⟨hits, hhits, -, hcomplete⟩ := fill_law hc hclock [2, 1] (· * 100) hr
  obtain ⟨hsplit, hvalues⟩ := hcomplete (by decide) (by decide) (by decide)
  exact ⟨c, hc, hits, hhits, hsplit, hvalues 1 (by decide)⟩

end Cache

end Persista
