import Persista.Cache.Ttl
import Persista.Json.Dumps
import Mathlib.Data.List.Lex

/-!
# `Cache.memoize`

`get_or_compute` and the wrapper that `memoize` makes of a function, with the `json` strategy: the
key of a call is a hash of the JSON text of its function name and arguments (`make_json_key`). The
hash is a parameter.

## When the wrapper is transparent

Two calls share their entry exactly when their JSON readings are the same (`makeJsonKey_eq_iff`),
and then the second one gets the result of the first (`memoize_shares`). So `f([1])` and `f((1,))`
share a result, as do `f({1: x})` and `f({"1": x})` (`memoize_confuses`). The keys of a `dict` that
cannot be sorted make the wrapper raise. In runs without two such calls whose results differ
(`Distinguishable`) every call returns what the undecorated function does (`memoize_transparent`).
-/

namespace Persista

namespace Cache

open Json

variable {K V T : Type}

/-! ### The wrapper -/

/-- A decorated function: its `__qualname__`, the `ttl` of its decorator, and itself. -/
structure Memoized (V T : Type) where
  qualname : PyStr
  ttl : Ttl T
  fn : List PyVal → Dict PyStr PyVal → V

/-- A call of a decorated function. -/
structure MemoCall (V T : Type) where
  func : Memoized V T
  args : List PyVal
  kwargs : Dict PyStr PyVal

/-- What the undecorated function returns. -/
def MemoCall.value (call : MemoCall V T) : V := call.func.fn call.args call.kwargs

/-- `{"func": func_name, "args": args, "kwargs": kwargs}`. -/
def payload (funcName : PyStr) (args : List PyVal) (kwargs : Dict PyStr PyVal) : PyVal :=
  .dict [(.str (ofString "func"), .str funcName), (.str (ofString "args"), .tuple args),
    (.str (ofString "kwargs"), .ofDict kwargs)]

/-- What the JSON text of a call says. -/
def MemoCall.reading (call : MemoCall V T) : Option Reading :=
  Json.reading true (payload call.func.qualname call.args call.kwargs)

/-- `make_json_key`; `none` when `json.dumps` raises. -/
def makeJsonKey (hashBytes : ByteArray → K) (funcName : PyStr) (args : List PyVal)
    (kwargs : Dict PyStr PyVal) : Option K :=
  (dumps true (payload funcName args kwargs)).map fun raw => hashBytes raw.toUTF8

/-- What a wrapped call raises. -/
inductive MemoError (K : Type)
  | typeError
  | store (e : StoreError K)

variable [LinearOrder K] [LinearOrder T] [AddCommMonoid T] [ToString T]

/-- `get_or_compute`, which looks at the clock when it looks up and when it stores. -/
def getOrCompute (c : Cache K V T) (now : T × T) (key : K) (fn : List PyVal → Dict PyStr PyVal → V)
    (args : List PyVal) (kwargs : Dict PyStr PyVal) (ttl : Ttl T) :
    Cache K V T × Except (StoreError K) V :=
  match c.tryGet now.1 key with
  | .error e => (c, .error e)
  | .ok (c, some value) => (c, .ok value)
  | .ok (c, none) =>
    let value := fn args kwargs
    match c.set now.2 key value ttl with
    | .error e => (c, .error e)
    | .ok c => (c, .ok value)

/-- The wrapper of `memoize`. -/
def wrapper (hashBytes : ByteArray → K) (c : Cache K V T) (now : T × T) (call : MemoCall V T) :
    Cache K V T × Except (MemoError K) V :=
  match makeJsonKey hashBytes call.func.qualname call.args call.kwargs with
  | none => (c, .error .typeError)
  | some key =>
    let (c, outcome) :=
      c.getOrCompute now key call.func.fn call.args call.kwargs call.func.ttl
    (c, outcome.mapError .store)

/-- What the calls of a run return. -/
def returns (hashBytes : ByteArray → K) (c : Cache K V T) :
    List ((T × T) × MemoCall V T) → List (Except (MemoError K) V)
  | [] => []
  | (now, call) :: calls =>
    let (c, outcome) := c.wrapper hashBytes now call
    outcome :: c.returns hashBytes calls

/-! ### Keys -/

omit [LinearOrder K] [LinearOrder T] [AddCommMonoid T] [ToString T] in
theorem makeJsonKey_of_reading (hashBytes : ByteArray → K) {call : MemoCall V T} {r : Reading}
    (h : call.reading = some r) :
    makeJsonKey hashBytes call.func.qualname call.args call.kwargs =
      some (hashBytes (String.ofList (render r)).toUTF8) := by
  rw [makeJsonKey, dumps, show Json.reading true _ = some r from h]
  rfl

omit [LinearOrder K] in
/-- What shares a key reads the same. -/
theorem reading_eq_of_makeJsonKey {hashBytes : ByteArray → K}
    (hinj : Function.Injective hashBytes) {name name' : PyStr} {args args' : List PyVal}
    {kwargs kwargs' : Dict PyStr PyVal}
    (h : makeJsonKey hashBytes name args kwargs = makeJsonKey hashBytes name' args' kwargs') :
    Json.reading true (payload name args kwargs) =
      Json.reading true (payload name' args' kwargs') := by
  refine dumps_eq_iff.mp (Option.map_injective (fun s s' heq => ?_) h)
  exact String.toByteArray_inj.mp (hinj heq)

omit [LinearOrder K] [LinearOrder T] [AddCommMonoid T] [ToString T] in
/-- **Two calls share a key if and only if they have the same reading.** -/
theorem makeJsonKey_eq_iff {hashBytes : ByteArray → K} (hinj : Function.Injective hashBytes)
    {call call' : MemoCall V T} :
    makeJsonKey hashBytes call.func.qualname call.args call.kwargs =
        makeJsonKey hashBytes call'.func.qualname call'.args call'.kwargs ↔
      call.reading = call'.reading := by
  exact ⟨reading_eq_of_makeJsonKey hinj,
    fun h => by rw [makeJsonKey, dumps_eq_iff.mpr h, makeJsonKey]⟩

/-! ### What is stored -/

variable {c : Cache K V T} {key : K} {value : V} {now : T} {calls : List ((T × T) × MemoCall V T)}

omit [ToString T] in
/-- A lookup only takes entries away. -/
theorem tryGet_sub (h : c.store.Opened) (now : T) (key : K) :
    ∃ c', c.tryGet now key = .ok (c', c.finds key now) ∧ c'.store.Opened ∧
      ∀ k e, c'.store.contents k = some e → c.store.contents k = some e := by
  rw [tryGet]
  rw [InMemoryStore.get_of_opened h, finds]
  cases hc : c.store.contents key with
  | none => exact ⟨c, rfl, h, fun _ _ he => he⟩
  | some e =>
    by_cases he : e.expired now
    · refine ⟨{ c with store := ⟨c.store.data.erase key, false⟩ }, ?_, rfl, fun k e' he' => ?_⟩
      · simp [InMemoryStore.delete_of_opened h, hit, he]
      · simp only [InMemoryStore.contents_erase, Contents.delete] at he'
        split at he'
        · cases he'
        · exact he'
    · exact ⟨c, by simp [he, hit], h, fun _ _ he => he⟩

/-- A write puts its value under its key. -/
theorem set_sub (h : c.store.Opened) (now : T) (key : K) (value : V) {ttl : Ttl T}
    {resolved : Option T}
    (hr : (resolveTtl c.defaultTtl ttl : Except (StoreError K) _) = .ok resolved) :
    ∃ c', c.set now key value ttl = .ok c' ∧ c'.store.Opened ∧
      ∀ k e, c'.store.contents k = some e →
        (k = key ∧ e.value = value) ∨ c.store.contents k = some e := by
  by_cases hz : resolved = some 0
  · refine ⟨{ c with store := ⟨c.store.data.erase key, false⟩ }, ?_, rfl, fun k e he => .inr ?_⟩
    · simp [set, hr, hz, InMemoryStore.delete_of_opened h]
    · simp only [InMemoryStore.contents_erase, Contents.delete] at he
      split at he
      · cases he
      · exact he
  · obtain ⟨store, hs, hopen, hcon⟩ := InMemoryStore.setMany_overwrite h
      (Dict.ofList [(key, (⟨value, resolved.map (now + ·)⟩ : Entry V T))])
    refine ⟨{ c with store := store }, ?_, hopen, fun k e he => ?_⟩
    · simp [set, hr, hz, InMemoryStore.set, hs]
    · rw [hcon] at he
      by_cases hk : k = key
      · refine .inl ⟨hk, ?_⟩
        simp only [Dict.ofList, hk, Dict.setAll_cons, Dict.setAll_nil, Dict.get?_set, if_true,
          Option.some_or, Option.some.injEq] at he
        rw [← he]
      · exact .inr (by simpa [Dict.ofList, hk] using he)

/-- The `ttl` of a decorator is not negative. -/
def NonnegTtl : Ttl T → Prop
  | .given (some d) => 0 ≤ d
  | _ => True

omit [LinearOrder K] in
theorem resolveTtl_of_nonneg (c : Cache K V T) {ttl : Ttl T} (h : NonnegTtl ttl) :
    ∃ resolved, (resolveTtl c.defaultTtl ttl : Except (StoreError K) _) = .ok resolved := by
  have hok : ∀ d : T, 0 ≤ d → ¬ d < 0 := fun d hd => not_lt.mpr hd
  cases ttl with
  | unset =>
    cases hd : c.defaultTtl with
    | none => exact ⟨none, rfl⟩
    | some d => exact ⟨some d, by simp [resolveTtl, hok d (c.nonneg d hd)]⟩
  | given ttl =>
    cases ttl with
    | none => exact ⟨none, rfl⟩
    | some d => exact ⟨some d, by simp [resolveTtl, hok d h]⟩

/-- Every entry was computed by a call of the run, and is stored under the key of that call. -/
structure Sound (hashBytes : ByteArray → K) (calls : List ((T × T) × MemoCall V T))
    (c : Cache K V T) : Prop where
  opened : c.store.Opened
  computed : ∀ k e, c.store.contents k = some e → ∃ call ∈ calls.map Prod.snd,
    makeJsonKey hashBytes call.func.qualname call.args call.kwargs = some k ∧ e.value = call.value

omit [ToString T] in
/-- A hit is the value of an entry. -/
theorem exists_entry_of_finds (h : c.finds key now = some value) :
    ∃ e, c.store.contents key = some e ∧ e.value = value := by
  rw [finds, hit, Option.bind_eq_some_iff] at h
  obtain ⟨e, he, hv⟩ := h
  split at hv
  · cases hv
  · exact ⟨e, he, Option.some.inj hv⟩

/-! ### Transparency -/

variable {fn : List PyVal → Dict PyStr PyVal → V} {args : List PyVal} {kwargs : Dict PyStr PyVal}
  {ttl : Ttl T} {times : T × T} {c' c'' : Cache K V T}

theorem getOrCompute_hit (h : c.tryGet times.1 key = .ok (c', some value)) :
    c.getOrCompute times key fn args kwargs ttl = (c', .ok value) := by
  simp [getOrCompute, h]

theorem getOrCompute_miss (h : c.tryGet times.1 key = .ok (c', none))
    (hset : c'.set times.2 key (fn args kwargs) ttl = .ok c'') :
    c.getOrCompute times key fn args kwargs ttl = (c'', .ok (fn args kwargs)) := by
  simp [getOrCompute, h, hset]

/-- The wrapped calls of a run can be told from each other: their arguments have a JSON text, those
that share it share their result, and no decorator has a negative `ttl`. -/
structure Distinguishable (calls : List (MemoCall V T)) : Prop where
  serializable : ∀ call ∈ calls, call.reading.isSome
  value : ∀ call ∈ calls, ∀ call' ∈ calls, call.reading = call'.reading → call.value = call'.value
  ttl : ∀ call ∈ calls, NonnegTtl call.func.ttl

/-- **One wrapped call.** -/
theorem Sound.wrapper {hashBytes : ByteArray → K} (hinj : Function.Injective hashBytes)
    (hd : Distinguishable (calls.map Prod.snd)) (h : Sound hashBytes calls c) (now : T × T)
    {call : MemoCall V T} (hcall : call ∈ calls.map Prod.snd) :
    ∃ c', c.wrapper hashBytes now call = (c', .ok call.value) ∧ Sound hashBytes calls c' := by
  obtain ⟨r, hr⟩ := Option.isSome_iff_exists.mp (hd.serializable call hcall)
  have hkey := makeJsonKey_of_reading hashBytes hr
  set key := hashBytes (String.ofList (render r)).toUTF8 with hkeydef
  obtain ⟨c', hget, hopen, hsub⟩ := tryGet_sub h.opened now.1 key
  have hsound : Sound hashBytes calls c' := ⟨hopen, fun k e he => h.computed k e (hsub k e he)⟩
  rw [Cache.wrapper, hkey]
  dsimp only
  cases hfind : c.finds key now.1 with
  | some value =>
    -- the entry was computed by a call with the same reading
    obtain ⟨e, he, rfl⟩ := exists_entry_of_finds hfind
    obtain ⟨call', hcall', hkey', hvalue⟩ := h.computed key e he
    have hread : call'.reading = call.reading :=
      (makeJsonKey_eq_iff hinj).mp (hkey'.trans hkey.symm)
    rw [getOrCompute_hit (hfind ▸ hget), hvalue, hd.value call' hcall' call hcall hread]
    exact ⟨c', rfl, hsound⟩
  | none =>
    obtain ⟨resolved, hresolved⟩ := resolveTtl_of_nonneg (K := K) c' (hd.ttl call hcall)
    obtain ⟨c'', hset, hopen', hsub'⟩ := set_sub hopen now.2 key call.value hresolved
    rw [getOrCompute_miss (hfind ▸ hget) hset]
    refine ⟨c'', rfl, hopen', fun k e he => ?_⟩
    rcases hsub' k e he with ⟨rfl, hvalue⟩ | he
    · exact ⟨call, hcall, hkey, hvalue⟩
    · exact hsound.computed k e he

/-- The rest of a run. -/
theorem Sound.returns {hashBytes : ByteArray → K} (hinj : Function.Injective hashBytes)
    (hd : Distinguishable (calls.map Prod.snd)) (h : Sound hashBytes calls c)
    {rest : List ((T × T) × MemoCall V T)} (hrest : ∀ call ∈ rest, call ∈ calls) :
    c.returns hashBytes rest = rest.map fun call => .ok call.2.value := by
  induction rest generalizing c with
  | nil => rfl
  | cons call rest ih =>
    obtain ⟨c', hcall, hsound⟩ :=
      h.wrapper hinj hd call.1 (List.mem_map_of_mem (hrest call (by simp)))
    rw [Cache.returns, hcall, List.map_cons]
    exact congrArg _ (ih hsound fun call' h' => hrest call' (by simp [h']))

/-- **Two calls with one reading share a result**: the second one returns what the first one did,
whatever the undecorated function makes of its own arguments. -/
theorem memoize_shares (hashBytes : ByteArray → K) {c : Cache K V T} (hc : opened none = .ok c)
    (call call' : MemoCall V T) (hser : call.reading.isSome) (hread : call'.reading = call.reading)
    (httl : call.func.ttl = .unset) (now now' : T × T) (hclock : now.2 ≤ now'.1) :
    c.returns hashBytes [(now, call), (now', call')] = [.ok call.value, .ok call.value] := by
  obtain ⟨r, hr⟩ := Option.isSome_iff_exists.mp hser
  have hkey := makeJsonKey_of_reading hashBytes hr
  have hkey' := makeJsonKey_of_reading hashBytes (hread.trans hr)
  set key := hashBytes (String.ofList (render r)).toUTF8
  have hopen := (hits_opened hc now.1).opened
  have hempty : c.finds key now.1 = none := (hits_opened hc now.1).hits now.1 le_rfl key
  obtain ⟨c₁, hget, h₁⟩ := tryGet_spec hopen now.1 key
  have hresolved :
      (resolveTtl c₁.defaultTtl call.func.ttl : Except (StoreError K) (Option T)) = .ok none := by
    rw [h₁.defaultTtl, (store_of_opened hc).2, httl]
    rfl
  obtain ⟨c₂, hset, h₂⟩ := set_spec h₁.opened now.2 key call.value hresolved
  obtain ⟨c₃, hget', -⟩ := tryGet_spec h₂.opened now'.1 key
  have hfound : c₂.finds key now'.1 = some call.value := by
    rw [finds, h₂.hits now'.1 hclock key]
    simp [Write.read, Write.alive]
  rw [returns, wrapper, hkey]
  dsimp only
  rw [getOrCompute_miss (hempty ▸ hget) hset]
  dsimp only
  rw [returns, wrapper, hkey']
  dsimp only
  rw [getOrCompute_hit (hfound ▸ hget')]
  rfl

/-- **Memoization is transparent** in every run whose calls can be told from each other: each
wrapped call returns what the undecorated function does. The store keeps deep copies, so results are
values that `copy.deepcopy` copies to equal ones. -/
theorem memoize_transparent (hashBytes : ByteArray → K) (hinj : Function.Injective hashBytes)
    (d : Option T) (c : Cache K V T) (hc : opened d = .ok c)
    (calls : List ((T × T) × MemoCall V T)) (hd : Distinguishable (calls.map Prod.snd)) :
    c.returns hashBytes calls = calls.map fun call => .ok call.2.value := by
  have hstore := (store_of_opened hc).1
  have hstart : Sound hashBytes calls c :=
    ⟨by rw [hstore]; rfl, fun k e he => by rw [hstore] at he; cases he⟩
  exact hstart.returns hinj hd fun _ h => h

/-! ### A function that tells a list from a tuple -/

/-- The bytes themselves. -/
def byteValues (b : ByteArray) : List ℕ := b.data.toList.map UInt8.toNat

theorem byteValues_injective : Function.Injective byteValues := fun _ _ h =>
  ByteArray.ext (Array.toList_inj.mp
    (List.map_injective_iff.mpr (fun _ _ h => UInt8.toNat_inj.mp h) h))

/-- `isinstance(x, list)`, decorated with `memoize()`. -/
def isList : Memoized Bool ℤ where
  qualname := ofString "is_list"
  ttl := .unset
  fn args _ :=
    match args with
    | [.list _] => true
    | _ => false

/-- `is_list(x)`. -/
def isListOf (x : PyVal) : MemoCall Bool ℤ := ⟨isList, [x], ∅⟩

/-- Calls that JSON tells from each other. -/
theorem memoize_transparent_lists : ∃ c : Cache (List ℕ) Bool ℤ, opened none = .ok c ∧
    c.returns byteValues [((0, 0), isListOf (.list [.int 1])), ((1, 1), isListOf (.tuple [.int 2])),
      ((2, 2), isListOf (.list [.int 1]))] = [.ok true, .ok false, .ok true] := by
  refine ⟨_, rfl, ?_⟩
  refine (memoize_transparent byteValues byteValues_injective none _ rfl _
    ⟨fun call h => ?_, fun call h call' h' hread => ?_, fun call h => ?_⟩).trans rfl
  all_goals simp only [List.map_cons, List.map_nil, List.mem_cons, List.not_mem_nil, or_false] at h
  · rcases h with rfl | rfl | rfl <;> rfl
  · -- the texts of the two arguments differ
    simp only [List.map_cons, List.map_nil, List.mem_cons, List.not_mem_nil, or_false] at h'
    have htext := congrArg (Option.map render) hread
    rcases h with rfl | rfl | rfl <;> rcases h' with rfl | rfl | rfl <;>
      first | rfl | exact absurd htext (by decide)
  · rcases h with rfl | rfl | rfl <;> trivial

/-- **A list and a tuple.** `is_list([1])` is `True`, and then so is `is_list((1,))`. -/
theorem memoize_confuses : ∃ c : Cache (List ℕ) Bool ℤ, opened none = .ok c ∧
    c.returns byteValues
      [((0, 0), isListOf (.list [.int 1])), ((1, 1), isListOf (.tuple [.int 1]))] =
      [.ok true, .ok true] ∧
    (isListOf (.list [.int 1])).value = true ∧ (isListOf (.tuple [.int 1])).value = false :=
  ⟨_, rfl, memoize_shares byteValues rfl (isListOf (.list [.int 1])) (isListOf (.tuple [.int 1]))
    rfl rfl rfl (0, 0) (1, 1) (by decide), rfl, rfl⟩

end Cache

end Persista
