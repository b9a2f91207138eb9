import Persista.Cache.Memoize
import Persista.Http.Entry
import Persista.Lib.Interleaving

/-!
# `HttpClient.request` and `AsyncHttpClient.request`

`http/httpx/client.py`. A request of a cacheable method makes a key of its upper-cased method, its
url and its keyword arguments (`_cache_key`). An entry under the key answers it; otherwise it is
sent, and a successful response is stored under the key. `make_json_key` drops the arguments that
`is_json_serializable` does not keep, such as an `auth` object, and hashes the JSON text of the
others, so the key is as much of a request as JSON says of them.

Requests of several tasks or threads run at the same time: a request has one turn up to the point
where it is sent, and one when the response is there. The methods of the cache, synchronous or not,
are atomic here.

## Main results

* `Http.Inv.step` — every entry of the cache was stored by a request with its key
* `Http.served_same_reading` — the entry that answers a request was stored by an earlier request
  that reads the same
* `Http.served_same_json` — and has the same JSON arguments, unless a remembered answer was wrong
* `Http.served_other_auth` — but the two may have different credentials
-/

namespace Persista

namespace Http

open Interleaving Json Cache

variable {ι K T O : Type}

/-! ### The key -/

/-- A keyword argument of a request: a value that `json.dumps` writes, or an object it does not. -/
inductive Kwarg (O : Type)
  | json (value : PyVal)
  | object (object : O)

/-- A request. -/
structure Request (O : Type) where
  method : PyStr
  url : PyStr
  kwargs : Dict PyStr (Kwarg O)

/-- `is_json_serializable`, the answer it gives when it does not remember one. -/
def Kwarg.isJson : Kwarg O → Bool
  | .json _ => true
  | .object _ => false

/-- The value that `json.dumps` writes for an argument; `none` when it raises. -/
def Kwarg.json? : Kwarg O → Option PyVal
  | .json value => some value
  | .object _ => none

/-- What is fixed for a client: the hash, `str.upper`, and the methods whose responses are
cached. -/
structure Config (K : Type) where
  hashBytes : ByteArray → K
  upper : PyStr → PyStr
  cacheableMethods : List PyStr

/-- A request that has looked for its key. The answers of `is_json_serializable` are part of it:
they are remembered for values that are equal in Python, and `1` and an object that equals it may
have been confused. -/
structure Asked (O : Type) where
  request : Request O
  isJsonSerializable : Kwarg O → Bool

variable (config : Config K)

/-- The method of a request as its key spells it: `request` and `_cache_key` both make it upper
case. -/
def Config.method (a : Asked O) : PyStr := config.upper (config.upper a.request.method)

/-- `f"{method.upper()} {url}"`. -/
def Config.label (a : Asked O) : PyStr :=
  config.method a ++ ofString " " ++ a.request.url

/-- The arguments that are kept, with the values that `json.dumps` writes for them. -/
def Asked.kept (a : Asked O) : Option (Dict PyStr PyVal) := do
  let kwargs := a.request.kwargs.entries.filter fun p => a.isJsonSerializable p.2
  let items ← kwargs.mapM fun p => p.2.json?.map (p.1, ·)
  return Dict.ofList items

/-- `_cache_key`; `none` when `json.dumps` raises. -/
def Config.cacheKey (a : Asked O) : Option K := do
  makeJsonKey config.hashBytes (config.label a) [] (← a.kept)

/-- The client caches the responses to this method. -/
def Config.cacheable (method : PyStr) : Bool :=
  decide (config.upper method ∈ config.cacheableMethods.map config.upper)

/-! ### Requests that read the same -/

/-- What JSON says of the arguments that are kept. -/
def Asked.reading (a : Asked O) : Option Reading := do
  Json.reading true (.ofDict (← a.kept))

/-- The keys of two requests say the same: the method and the url, in UTF-16, and the arguments that
are kept, as JSON reads them. A method and a url can be told apart unless a method has a space. -/
structure SameReading (a a' : Asked O) : Prop where
  label : units (config.label a) = units (config.label a')
  method_url : 32 ∉ config.method a → 32 ∉ config.method a' →
    units (config.method a) = units (config.method a') ∧
      units a.request.url = units a'.request.url
  kwargs : ∃ r, a.reading = some r ∧ a'.reading = some r

theorem reading_payload (name : PyStr) (kwargs : Dict PyStr PyVal) :
    Json.reading true (payload name [] kwargs) =
      (Json.reading true (.ofDict kwargs)).map fun r => .obj [(units (ofString "args"), .arr []),
        (units (ofString "func"), .str (units name)), (units (ofString "kwargs"), r)] := by
  rw [payload, Json.reading]
  simp only [readingItems, Json.reading, readingList]
  cases Json.reading true (.ofDict kwargs) with
  | none => rfl
  | some r => rfl

/-- The code unit of a space comes from a space. -/
theorem unit_space_not_mem {s : PyStr} (h : (32 : CodePoint) ∉ s) : unit 32 ∉ units s := by
  intro hmem
  obtain ⟨c, hc, hu⟩ := List.mem_flatMap.mp hmem
  refine h ?_
  rw [utf16] at hu
  split at hu
  · next hlt =>
    have hval : c.val = 32 := by
      have := congrArg Fin.val (List.mem_singleton.mp hu)
      simp only [unit, Fin.ofNat] at this
      omega
    rwa [show (32 : CodePoint) = c from Fin.ext hval.symm]
  · next hge =>
    have hlt := c.isLt
    have hne : ∀ n, 0xd800 ≤ n → n < 0x10000 → unit 32 ≠ unit n := by
      intro n hn hn' heq
      have := congrArg Fin.val heq
      simp only [unit, Fin.ofNat] at this
      omega
    simp only [List.mem_cons, List.not_mem_nil, or_false] at hu
    rcases hu with hu | hu
    · exact absurd hu (hne _ (by omega) (by omega))
    · exact absurd hu (hne _ (by omega) (by omega))

theorem units_label (a : Asked O) :
    units (config.label a) = units (config.method a) ++ unit 32 :: units a.request.url := by
  simp only [Config.label, units, List.flatMap_append, List.append_assoc]
  rfl

variable {config} in
/-- **Requests with one key read the same.** -/
theorem sameReading_of_cacheKey (hinj : Function.Injective config.hashBytes) {a a' : Asked O}
    {key : K} (h : config.cacheKey a = some key) (h' : config.cacheKey a' = some key) :
    SameReading config a a' := by
  obtain ⟨kwargs, hk, h⟩ := Option.bind_eq_some_iff.mp h
  obtain ⟨kwargs', hk', h'⟩ := Option.bind_eq_some_iff.mp h'
  have hread := reading_eq_of_makeJsonKey hinj (h.trans h'.symm)
  rw [reading_payload, reading_payload] at hread
  -- `make_json_key` did not raise
  have hsome : (Json.reading true (.ofDict kwargs)).isSome := by
    by_contra hnone
    rw [Option.not_isSome_iff_eq_none] at hnone
    rw [makeJsonKey, dumps, reading_payload, hnone] at h
    cases h
  obtain ⟨r, hr⟩ := Option.isSome_iff_exists.mp hsome
  rw [hr, Option.map_some] at hread
  obtain ⟨r', hr', hobj⟩ := Option.map_eq_some_iff.mp hread.symm
  simp only [Reading.obj.injEq, List.cons.injEq, Prod.mk.injEq, Reading.str.injEq, true_and,
    and_true] at hobj
  obtain ⟨hlabel, rfl⟩ := hobj
  refine ⟨hlabel.symm, fun hm hm' => ?_, r', ?_, ?_⟩
  · rw [units_label, units_label] at hlabel
    have hchars : ∀ {s : PyStr}, (32 : CodePoint) ∉ s → ∀ u ∈ units s, u ≠ unit 32 :=
      fun hs u hu heq => unit_space_not_mem hs (heq ▸ hu)
    obtain ⟨hmethod, hurl⟩ := Delimited.append_inj_of_breaks (hchars hm) (hchars hm')
      (by simp [Delimited.Breaks]) (by simp [Delimited.Breaks]) hlabel.symm
    exact ⟨hmethod, (List.cons.inj hurl).2⟩
  · simp [Asked.reading, hk, hr]
  · simp [Asked.reading, hk', hr']

/-- An argument is kept when the test says so, with the value that `json.dumps` writes for it. -/
theorem Asked.get?_kept {a : Asked O} {kwargs : Dict PyStr PyVal} (h : a.kept = some kwargs)
    {name : PyStr} {value : PyVal} :
    kwargs.get? name = some value ↔
      ∃ kwarg, a.request.kwargs.get? name = some kwarg ∧ a.isJsonSerializable kwarg ∧
        kwarg.json? = some value := by
  obtain ⟨items, hitems, h⟩ := Option.bind_eq_some_iff.mp h
  obtain rfl := Option.some.inj h
  have hget := Dict.get?_ofList_mapM
    (d := a.request.kwargs.filterEntries fun p => a.isJsonSerializable p.2)
    (f := fun p => p.2.json?) hitems name
  rw [hget, Option.bind_eq_some_iff]
  constructor
  · rintro ⟨kwarg, hkwarg, hvalue⟩
    obtain ⟨hget, hkept⟩ := Dict.get?_filterEntries_eq_some.mp hkwarg
    exact ⟨kwarg, hget, hkept, hvalue⟩
  · rintro ⟨kwarg, hget, hkept, hvalue⟩
    exact ⟨kwarg, Dict.get?_filterEntries_eq_some.mpr ⟨hget, hkept⟩, hvalue⟩

/-- When nothing remembered is wrong, every argument that `json.dumps` writes is kept. -/
theorem Asked.get?_kept_isJson {a : Asked O} (ha : a.isJsonSerializable = Kwarg.isJson)
    {kwargs : Dict PyStr PyVal} (h : a.kept = some kwargs) {name : PyStr} {value : PyVal} :
    kwargs.get? name = some value ↔ a.request.kwargs.get? name = some (.json value) := by
  rw [a.get?_kept h, ha]
  constructor
  · rintro ⟨kwarg, hget, -, hvalue⟩
    cases kwarg with
    | json _ => rw [hget, Option.some.inj hvalue]
    | object _ => cases hvalue
  · intro hget
    exact ⟨.json value, hget, rfl, rfl⟩

/-- Each JSON argument of one request is one of the other, as JSON reads the names and values. -/
def JsonWithin (request request' : Request O) : Prop :=
  ∀ name value, request.kwargs.get? name = some (.json value) →
    ∃ name' value', request'.kwargs.get? name' = some (.json value') ∧
      units name' = units name ∧ Json.reading true value' = Json.reading true value

variable {config} in
/-- Requests that read the same have the same JSON arguments when nothing remembered is wrong. -/
theorem SameReading.jsonWithin {a a' : Asked O} (h : SameReading config a a')
    (ha : a.isJsonSerializable = Kwarg.isJson) (ha' : a'.isJsonSerializable = Kwarg.isJson) :
    JsonWithin a.request a'.request := by
  intro name value hvalue
  obtain ⟨r, hr, hr'⟩ := h.kwargs
  obtain ⟨kwargs, hkept, hr⟩ := Option.bind_eq_some_iff.mp hr
  obtain ⟨kwargs', hkept', hr'⟩ := Option.bind_eq_some_iff.mp hr'
  obtain ⟨ms, rfl, hread, -⟩ := reading_ofDict hr
  obtain ⟨ms', heq, -, hitems⟩ := reading_ofDict hr'
  obtain rfl := Reading.obj.inj heq
  obtain ⟨rv, hrv, hmem⟩ := hread name value ((Asked.get?_kept_isJson ha hkept).mpr hvalue)
  obtain ⟨name', value', hget, hname, hvalue'⟩ := hitems _ hmem
  exact ⟨name', value', (Asked.get?_kept_isJson ha' hkept').mp hget, hname, hvalue'.trans hrv.symm⟩

/-! ### The client -/

/-- Where a task is: between two requests, or waiting for the response to one that has a key when
it is cacheable. -/
inductive Phase (K O : Type)
  | idle
  | sending (entry : Option (K × Asked O))

/-- What happens in a run. -/
inductive Event (O : Type)
  | served (a : Asked O) (entry : Entry)
  | stored (a : Asked O) (response : Response)

/-- A client, its cache and its tasks, and what happened so far. -/
structure Client (ι K T O : Type) [LinearOrder T] [AddCommMonoid T] where
  cache : Cache K Entry T
  phase : ι → Phase K O
  events : List (Event O)

/-- A turn: a request up to the point where it is answered or sent, or what `send_request` returned
or raised. -/
inductive Turn (ι T O : Type)
  | request (i : ι) (now : T) (a : Asked O)
  | respond (i : ι) (now : T) (response : Option Response)

variable [LinearOrder K] [LinearOrder T] [AddCommMonoid T] [ToString T] [DecidableEq ι]

/-- A task moves on. -/
def Client.move (s : Client ι K T O) (i : ι) (p : Phase K O) : Client ι K T O :=
  { s with phase := Function.update s.phase i p }

/-- One turn of a client with a cache. A request that raises leaves it as it was. -/
def step (s : Client ι K T O) : Turn ι T O → Option (Client ι K T O)
  | .request i now a =>
    match s.phase i with
    | .sending _ => none
    | .idle =>
      if config.cacheable a.request.method then
        match config.cacheKey a with
        | none => some s
        | some key =>
          match s.cache.tryGet now key with
          | .error _ => some s
          | .ok (cache, some entry) =>
            some { s with cache, events := s.events ++ [.served a entry] }
          | .ok (cache, none) => some { s.move i (.sending (some (key, a))) with cache }
      else some (s.move i (.sending none))
  | .respond i now response =>
    match s.phase i, response with
    | .idle, _ => none
    | .sending (some (key, a)), some response =>
      if response.isSuccess then
        match s.cache.set now key (responseToEntry response) .unset with
        | .error _ => some (s.move i .idle)
        | .ok cache =>
          some { s.move i .idle with cache, events := s.events ++ [.stored a response] }
      else some (s.move i .idle)
    | .sending _, _ => some (s.move i .idle)

/-- A client whose cache was just opened. -/
def start (cache : Cache K Entry T) : Client ι K T O := ⟨cache, fun _ => .idle, []⟩

/-! ### The invariant -/

variable {config} {s s' : Client ι K T O} {turn : Turn ι T O} {events before after : List (Event O)}

/-- The event is among the events: a request with this key got a response that makes the entry. -/
def StoredBy (config : Config K) (events : List (Event O)) (key : K) (entry : Entry) : Prop :=
  ∃ a r, .stored a r ∈ events ∧ r.isSuccess ∧ entry = responseToEntry r ∧
    config.cacheKey a = some key

omit [LinearOrder K] in
theorem StoredBy.append {key : K} {entry : Entry} (h : StoredBy config events key entry)
    (events' : List (Event O)) : StoredBy config (events ++ events') key entry := by
  obtain ⟨a, r, hmem, hr⟩ := h
  exact ⟨a, r, List.mem_append_left _ hmem, hr⟩

/-- Every entry of the cache was stored by a request with its key, a task stores under the key of
its request, and what answered a request had been stored before. -/
structure Inv (config : Config K) (s : Client ι K T O) : Prop where
  opened : s.cache.store.Opened
  entries : ∀ key e, s.cache.store.contents key = some e → StoredBy config s.events key e.value
  sending : ∀ i key a, s.phase i = .sending (some (key, a)) → config.cacheKey a = some key
  served : ∀ before a entry after, s.events = before ++ .served a entry :: after →
    ∃ key, config.cacheKey a = some key ∧ StoredBy config before key entry

theorem eq_of_append_singleton {α : Type} {l before after : List α} {x y : α}
    (h : l ++ [x] = before ++ y :: after) :
    before = l ∧ y = x ∨ ∃ after', l = before ++ y :: after' := by
  rcases List.eq_nil_or_concat after with rfl | ⟨after', z, rfl⟩
  · obtain ⟨rfl, heq⟩ := List.append_inj' h rfl
    exact .inl ⟨rfl, (List.cons.inj heq).1.symm⟩
  · rw [List.concat_eq_append, ← List.cons_append, ← List.append_assoc] at h
    exact .inr ⟨after', (List.append_inj' h rfl).1⟩

omit [ToString T] [DecidableEq ι] in
/-- A turn that makes the cache smaller at most, and adds no event. -/
theorem Inv.quiet (h : Inv config s) (hopen : s'.cache.store.Opened)
    (hevents : s'.events = s.events)
    (hcache : ∀ key e, s'.cache.store.contents key = some e →
      s.cache.store.contents key = some e)
    (hphase : ∀ i key a, s'.phase i = .sending (some (key, a)) → config.cacheKey a = some key) :
    Inv config s' where
  opened := hopen
  entries key e he := hevents ▸ h.entries key e (hcache key e he)
  sending := hphase
  served := hevents ▸ h.served

omit [LinearOrder K] [LinearOrder T] [AddCommMonoid T] [ToString T] in
/-- A task that moves on waits with the key of its request. -/
theorem sending_of_update {phase : ι → Phase K O} {i : ι} {p : Phase K O}
    (h : ∀ i key a, phase i = .sending (some (key, a)) → config.cacheKey a = some key)
    (hp : ∀ key a, p = .sending (some (key, a)) → config.cacheKey a = some key) :
    ∀ j key a, Function.update phase i p j = .sending (some (key, a)) →
      config.cacheKey a = some key := by
  intro j key a hj
  by_cases hji : j = i
  · subst hji
    rw [Function.update_self] at hj
    exact hp key a hj
  · rw [Function.update_of_ne hji] at hj
    exact h j key a hj

/-- A request, up to the point where it is answered or sent. -/
theorem Inv.request (h : Inv config s) {i : ι} {now : T} {a : Asked O}
    (hs : step config s (.request i now a) = some s') : Inv config s' := by
  simp only [step] at hs
  cases hp : s.phase i with
  | sending _ => simp [hp] at hs
  | idle =>
    simp only [hp] at hs
    split at hs
    · cases hkey : config.cacheKey a with
      | none =>
        simp only [hkey] at hs
        cases hs
        exact h
      | some key =>
        obtain ⟨cache, hget, hopen, hsub⟩ := tryGet_sub h.opened now key
        simp only [hkey, hget] at hs
        cases hfind : s.cache.finds key now with
        | some entry =>
          simp only [hfind, Option.some.injEq] at hs
          subst hs
          obtain ⟨e, he, rfl⟩ := exists_entry_of_finds hfind
          refine ⟨hopen, fun k e' he' => (h.entries k e' (hsub k e' he')).append _, h.sending, ?_⟩
          intro before a' entry' after hevents
          rcases eq_of_append_singleton hevents with ⟨rfl, heq⟩ | ⟨after', hevents⟩
          · cases heq
            exact ⟨key, hkey, h.entries key e he⟩
          · exact h.served before a' entry' after' hevents
        | none =>
          simp only [hfind, Option.some.injEq] at hs
          subst hs
          refine h.quiet hopen rfl hsub (sending_of_update h.sending fun k a' heq => ?_)
          cases heq
          exact hkey
    · cases hs
      exact h.quiet h.opened rfl (fun _ _ he => he)
        (sending_of_update h.sending fun k a' heq => by cases heq)

/-- A response, or what was raised in its place. -/
theorem Inv.respond (h : Inv config s) {i : ι} {now : T} {response : Option Response}
    (hs : step config s (.respond i now response) = some s') : Inv config s' := by
  have hidle : Inv config (s.move i .idle) :=
    h.quiet h.opened rfl (fun _ _ he => he)
      (sending_of_update h.sending fun k a' heq => by cases heq)
  simp only [step] at hs
  cases hp : s.phase i with
  | idle => simp [hp] at hs
  | sending entry =>
    cases entry with
    | none =>
      simp only [hp, Option.some.injEq] at hs
      exact hs ▸ hidle
    | some entry =>
      obtain ⟨key, a⟩ := entry
      cases response with
      | none =>
        simp only [hp, Option.some.injEq] at hs
        exact hs ▸ hidle
      | some r =>
        simp only [hp] at hs
        split at hs
        · next hr =>
          have httl : NonnegTtl (.unset : Ttl T) := trivial
          obtain ⟨resolved, hresolved⟩ := resolveTtl_of_nonneg (K := K) s.cache httl
          obtain ⟨cache, hset, hopen, hsub⟩ :=
            set_sub h.opened now key (responseToEntry r) hresolved
          simp only [hset, Option.some.injEq] at hs
          subst hs
          refine ⟨hopen, fun k e he => ?_, hidle.sending, ?_⟩
          · rcases hsub k e he with ⟨rfl, hvalue⟩ | he
            · exact ⟨a, r, by simp, hr, hvalue, h.sending i k a hp⟩
            · exact (h.entries k e he).append _
          · intro before a' entry after hevents
            rcases eq_of_append_singleton hevents with ⟨rfl, heq⟩ | ⟨after', hevents⟩
            · cases heq
            · exact h.served before a' entry after' hevents
        · simp only [Option.some.injEq] at hs
          exact hs ▸ hidle

/-- Every turn keeps the invariant. -/
theorem Inv.step (h : Inv config s) (hs : Http.step config s turn = some s') : Inv config s' := by
  cases turn with
  | request i now a => exact h.request hs
  | respond i now response => exact h.respond hs

omit [DecidableEq ι] in
theorem inv_start {d : Option T} {c : Cache K Entry T} (hc : Cache.opened d = .ok c) :
    Inv config (start (ι := ι) (O := O) c) := by
  have hstore := (store_of_opened hc).1
  refine ⟨?_, fun key e he => ?_, ?_, ?_⟩
  · simp [start, hstore]
    rfl
  · rw [start, hstore] at he
    cases he
  · simp [start]
  · intro before a entry after hevents
    simp [start] at hevents

/-! ### What answers a request -/

/-- **What answers a request.** The entry was made by an earlier request that reads the same, from a
successful response to it. -/
theorem served_same_reading (hinj : Function.Injective config.hashBytes) {d : Option T}
    {c : Cache K Entry T} (hc : Cache.opened d = .ok c)
    (h : Reaches (Http.step config) anyTurn (start c) s) {a : Asked O} {entry : Entry}
    (hs : s.events = before ++ .served a entry :: after) :
    ∃ a' r, .stored a' r ∈ before ∧ r.isSuccess ∧ entry = responseToEntry r ∧
      SameReading config a' a := by
  have hinv : Inv config s := h.invariant (inv_start hc) fun _ _ _ hi _ hs => hi.step hs
  obtain ⟨key, hkey, a', r, hmem, hr, hentry, hkey'⟩ := hinv.served before a entry after hs
  exact ⟨a', r, hmem, hr, hentry, sameReading_of_cacheKey hinj hkey' hkey⟩

/-- **JSON arguments are compared.** When nothing that the test remembers is wrong, the request that
is answered and the one whose response answers it have the same JSON arguments; only objects are
dropped. -/
theorem served_same_json (hinj : Function.Injective config.hashBytes) {d : Option T}
    {c : Cache K Entry T} (hc : Cache.opened d = .ok c)
    (h : Reaches (Http.step config) anyTurn (start c) s) {a : Asked O} {entry : Entry}
    (hs : s.events = before ++ .served a entry :: after)
    (hplain : ∀ a' r, .stored a' r ∈ before → a'.isJsonSerializable = Kwarg.isJson)
    (ha : a.isJsonSerializable = Kwarg.isJson) :
    ∃ a' r, .stored a' r ∈ before ∧ entry = responseToEntry r ∧
      JsonWithin a.request a'.request ∧ JsonWithin a'.request a.request := by
  have hinv : Inv config s := h.invariant (inv_start hc) fun _ _ _ hi _ hs => hi.step hs
  obtain ⟨key, hkey, a', r, hmem, -, hentry, hkey'⟩ := hinv.served before a entry after hs
  have ha' := hplain a' r hmem
  exact ⟨a', r, hmem, hentry, (sameReading_of_cacheKey hinj hkey hkey').jsonWithin ha ha',
    (sameReading_of_cacheKey hinj hkey' hkey).jsonWithin ha' ha⟩

/-- Two requests with one key, one after the other: the response to the first answers the second. -/
theorem exists_served {c : Cache K Entry T} (hc : Cache.opened none = .ok c) {a b : Asked O}
    {key : K} (ha : config.cacheKey a = some key) (hb : config.cacheKey b = some key)
    (hac : config.cacheable a.request.method) (hbc : config.cacheable b.request.method)
    {r : Response} (hr : r.isSuccess) (i : ι) (now : T) :
    ∃ s : Client ι K T O, Reaches (Http.step config) anyTurn (start c) s ∧
      s.events = [.stored a r, .served b (responseToEntry r)] := by
  have hopen := (hits_opened hc now).opened
  have hempty : c.finds key now = none := (hits_opened hc now).hits now le_rfl key
  obtain ⟨c₁, hget, h₁⟩ := tryGet_spec hopen now key
  have hresolved :
      (resolveTtl c₁.defaultTtl .unset : Except (StoreError K) (Option T)) = .ok none := by
    rw [h₁.defaultTtl, (store_of_opened hc).2]
    rfl
  obtain ⟨c₂, hset, h₂⟩ := set_spec h₁.opened now key (responseToEntry r) hresolved
  obtain ⟨c₃, hget', -⟩ := tryGet_spec h₂.opened now key
  have hfound : c₂.finds key now = some (responseToEntry r) := by
    rw [finds, h₂.hits now le_rfl key]
    simp [Write.read, Write.alive]
  rw [hempty] at hget
  rw [hfound] at hget'
  let s₁ : Client ι K T O := { (start c).move i (.sending (some (key, a))) with cache := c₁ }
  let s₂ : Client ι K T O := { s₁.move i .idle with cache := c₂, events := [.stored a r] }
  let s₃ : Client ι K T O :=
    { s₂ with cache := c₃, events := [.stored a r, .served b (responseToEntry r)] }
  have hstep₁ : Http.step config (start c) (.request i now a) = some s₁ := by
    simp [Http.step, start, hac, ha, hget, s₁, Client.move]
  have hstep₂ : Http.step config s₁ (.respond i now (some r)) = some s₂ := by
    simp [Http.step, start, hr, hset, s₁, s₂, Client.move]
  have hstep₃ : Http.step config s₂ (.request i now b) = some s₃ := by
    simp [Http.step, hbc, hb, hget', s₂, s₃, Client.move]
  exact ⟨s₃, .turn (.turn (.turn .refl trivial hstep₁) trivial hstep₂) trivial hstep₃, rfl⟩

/-- A client with the default methods, whose requests have theirs in upper case. -/
def getOnly : Config (List ℕ) := ⟨byteValues, id, [ofString "GET"]⟩

/-- `client.get("/inbox", auth=BasicAuth(...))`. -/
def inboxOf (user : String) : Asked String where
  request := ⟨ofString "GET", ofString "/inbox", .ofList [(ofString "auth", .object user)]⟩
  isJsonSerializable := Kwarg.isJson

/-- The inbox of the first user. -/
def inbox : Response :=
  ⟨200, [("content-type", "text/plain"), ("content-length", "2")], [104, 105]⟩

/-- The `auth` object is not in the key. -/
theorem cacheKey_inboxOf : ∃ key, ∀ user, getOnly.cacheKey (inboxOf user) = some key := by
  have hkept : ∀ user, (inboxOf user).kept = some ∅ := fun _ => rfl
  have hkey : (makeJsonKey byteValues (ofString "GET /inbox") [] ∅).isSome := by
    rw [makeJsonKey, dumps, reading_payload]
    rfl
  obtain ⟨key, hkey⟩ := Option.isSome_iff_exists.mp hkey
  refine ⟨key, fun user => ?_⟩
  have hlabel : getOnly.label (inboxOf user) = ofString "GET /inbox" := rfl
  rw [Config.cacheKey, hkept, hlabel]
  exact hkey

/-- A request answered by the response to one that reads the same. -/
theorem served_same_reading_inbox :
    ∃ a r, .stored a r ∈ [Event.stored (inboxOf "alice") inbox] ∧ r.isSuccess ∧
      responseToEntry inbox = responseToEntry r ∧
      SameReading getOnly a (inboxOf "alice") := by
  obtain ⟨key, hkey⟩ := cacheKey_inboxOf
  obtain ⟨c, hc⟩ : ∃ c : Cache (List ℕ) Entry ℤ, Cache.opened none = .ok c := ⟨_, rfl⟩
  obtain ⟨s, hreach, hevents⟩ :=
    exists_served hc (hkey "alice") (hkey "alice") rfl rfl (r := inbox) rfl () 0
  have hevents : s.events = [Event.stored (inboxOf "alice") inbox] ++
      .served (inboxOf "alice") (responseToEntry inbox) :: [] := hevents
  exact served_same_reading byteValues_injective hc hreach hevents

/-- **Other credentials.** The response to one user answers the request of another one. -/
theorem served_other_auth :
    ∃ c : Cache (List ℕ) Entry ℤ, Cache.opened none = .ok c ∧
    ∃ s : Client Unit (List ℕ) ℤ String, Reaches (Http.step getOnly) anyTurn (start c) s ∧
      s.events =
        [.stored (inboxOf "alice") inbox, .served (inboxOf "bob") (responseToEntry inbox)] ∧
      (inboxOf "alice").request.kwargs ≠ (inboxOf "bob").request.kwargs := by
  obtain ⟨key, hkey⟩ := cacheKey_inboxOf
  obtain ⟨c, hc⟩ : ∃ c : Cache (List ℕ) Entry ℤ, Cache.opened none = .ok c := ⟨_, rfl⟩
  obtain ⟨s, hreach, hevents⟩ :=
    exists_served hc (hkey "alice") (hkey "bob") rfl rfl (r := inbox) rfl () 0
  refine ⟨c, hc, s, hreach, hevents, fun heq => ?_⟩
  have hauth : some (Kwarg.object "alice") = some (Kwarg.object "bob") :=
    congrArg (fun d => d.get? (ofString "auth")) heq
  exact absurd (Kwarg.object.inj (Option.some.inj hauth)) (by decide)

end Http

end Persista
