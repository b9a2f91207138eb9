import Persista.Cache.Ttl
import Persista.Http.Client
import Persista.Http.Settings
import Mathlib.Data.Fintype.Basic

/-!
# Requests over a cache that expires and a network that fails

The whole of `request` of `HttpClient` and `AsyncHttpClient`, `http/httpx/client.py`, which
`Http/Client.lean`, `Http/Settings.lean` and `Cache/Cache.lean` take apart: the key, a lookup that
evicts what has expired, the attempts of `send_request`, and the entry that is written. Each call on
the store of the cache is a turn, and so is the exchange with the network; between them the tasks
overtake each other.

What there should be in the cache is read off the log: the last response that was fetched for the
key (`lastFetch`), for as long as its ttl says.

## Main results

* `Http.Session.served_law` — under all interleavings, what answers a request was fetched for its
  key, and is alive
* `Http.Session.session_law` — one request at a time goes to the network exactly when the last
  response for its key is not alive
-/

namespace Persista

namespace Http

namespace Session

open Interleaving Cache Retry Float64

variable {ι K T O X Tm : Type}

/-- The arguments of a call of `request`. -/
structure Visit (O : Type) where
  asked : Asked O
  timeout : Option ℤ
  maxRetries : Option ℤ
  retryStatusCodes : Option (Finset ℤ)

/-- The settings of a call that finds nothing in the cache. -/
def Visit.call (v : Visit O) : Call := ⟨v.timeout, v.maxRetries, v.retryStatusCodes, none⟩

/-- A client, the `sleep` of its kind, and the `default_ttl` of its cache. -/
structure Setup (K T Tm : Type) where
  httpx : Httpx
  config : Config K
  charset : Charset
  sleep : Delay → Slept
  client : HttpClient Tm
  defaultTtl : Option T

variable (setup : Setup K T Tm)

/-- The key of a call whose response is to be cached. -/
def Setup.keyOf (v : Visit O) : Option K :=
  if setup.config.cacheable v.asked.request.method then setup.config.cacheKey v.asked else none

/-- The call of `send_request` or `send_request_async`. -/
def Setup.send (v : Visit O) (outcomes : ℕ → Outcome X) : Run X :=
  setup.client.requestWith setup.charset setup.sleep v.call outcomes

/-- Where a task is. -/
inductive Phase (K T O X : Type)
  | idle
  /-- `cache.get` has read the entry of the key. -/
  | looked (v : Visit O) (key : K) (entry : Option (Persista.Entry Entry T))
  /-- `cache.get` is about to delete the entry, which has expired. -/
  | evicting (v : Visit O) (key : K)
  /-- The request is on its way. It has a key when its response is to be cached. -/
  | sending (v : Visit O) (key : Option K)
  /-- `cache.set` has looked at the clock. -/
  | storing (v : Visit O) (key : K) (time : T) (run : Run X) (response : Response)

/-- What is logged. -/
inductive Event (ι K T O X : Type)
  /-- `_cache_key` has raised. -/
  | raised (v : Visit O)
  /-- An entry has answered; `none` when `_entry_to_response` raises. -/
  | served (v : Visit O) (key : K) (now : T) (response : Option Response)
  /-- There was no entry, or it had expired. -/
  | missed (v : Visit O) (key : K) (now : T)
  /-- The network has answered this task, and the response is in the cache if it is to be cached. -/
  | fetched (i : ι) (v : Visit O) (key : Option K) (time : T) (run : Run X)

/-- The cache, the latest time that was seen, the tasks, and what happened. -/
structure State (ι K T O X : Type) where
  entries : Contents K (Persista.Entry Entry T)
  clock : T
  phase : ι → Phase K T O X
  log : List (Event ι K T O X)

/-- A turn: a call, a task that moves on and sees this time, or what the network does. -/
inductive Turn (ι T O X : Type)
  | call (i : ι) (v : Visit O)
  | move (i : ι) (now : T)
  | respond (i : ι) (now : T) (outcomes : ℕ → Outcome X)

/-- An open client with an empty cache. -/
def init (clock : T) : State ι K T O X := ⟨fun _ => none, clock, fun _ => .idle, []⟩

section Source

variable [LinearOrder K] [LinearOrder T] [AddCommMonoid T] [DecidableEq ι]

/-- A task moves on, with these events. -/
def State.move (s : State ι K T O X) (i : ι) (p : Phase K T O X) (events : List (Event ι K T O X)) :
    State ι K T O X :=
  { s with phase := Function.update s.phase i p, log := s.log ++ events }

/-- `cache.set(key, _response_to_entry(response))`: with a ttl of zero the key is deleted. -/
def put (key : K) (time : T) (response : Response) (m : Contents K (Persista.Entry Entry T)) :
    Contents K (Persista.Entry Entry T) :=
  if setup.defaultTtl = some 0 then m.delete [key]
  else m.write [(key, ⟨responseToEntry response, setup.defaultTtl.map (time + ·)⟩)]

/-- One turn. -/
def step (s : State ι K T O X) : Turn ι T O X → Option (State ι K T O X)
  | .call i v =>
    match s.phase i with
    | .idle =>
      if setup.config.cacheable v.asked.request.method then
        match setup.config.cacheKey v.asked with
        | none => some (s.move i .idle [.raised v])
        | some key => some (s.move i (.looked v key (s.entries key)) [])
      else some (s.move i (.sending v none) [])
    | _ => none
  | .move i now =>
    match s.phase i with
    | .looked v key none =>
      some { s.move i (.sending v (some key)) [.missed v key now] with clock := now }
    | .looked v key (some entry) =>
      if entry.expired now then
        some { s.move i (.evicting v key) [.missed v key now] with clock := now }
      else
        some { s.move i .idle [.served v key now (entryToResponse setup.httpx entry.value)] with
          clock := now }
    | .evicting v key =>
      some { s.move i (.sending v (some key)) [] with entries := s.entries.delete [key] }
    | .storing v key time run response =>
      some { s.move i .idle [.fetched i v (some key) time run] with
        entries := put setup key time response s.entries }
    | _ => none
  | .respond i now outcomes =>
    match s.phase i with
    | .sending v key =>
      let run := setup.send v outcomes
      match run.ending, key with
      | .never, _ => none
      | .returned response, some key =>
        if response.isSuccess then
          some { s.move i (.storing v key now run response) [] with clock := now }
        else some { s.move i .idle [.fetched i v (some key) now run] with clock := now }
      | _, key => some { s.move i .idle [.fetched i v key now run] with clock := now }
    | _ => none

end Source

/-! ### What the log says -/

section Log

variable [LinearOrder K]

/-- The write of a response that was fetched for a key. -/
def fetch (key : K) : Event ι K T O X → Option (Write Response T)
  | .fetched _ _ (some k) time run =>
    match run.ending with
    | .returned response => if k = key then some ⟨response, time, setup.defaultTtl⟩ else none
    | _ => none
  | _ => none

/-- The responses that were fetched for a key. -/
def fetches (log : List (Event ι K T O X)) (key : K) : List (Write Response T) :=
  log.filterMap (fetch setup key)

/-- The last of them. -/
def lastFetch (log : List (Event ι K T O X)) (key : K) : Option (Write Response T) :=
  (fetches setup log key).getLast?

/-- Every event is as it should be after those before it. -/
def Each (P : List (Event ι K T O X) → Event ι K T O X → Prop) (log : List (Event ι K T O X)) :
    Prop :=
  ∀ before e after, log = before ++ e :: after → P before e

variable [LinearOrder T] [AddCommMonoid T]

/-- What answers a request was fetched for its key, and is alive. What is fetched is what the
retries of `send_request` make of the network. -/
def Sound (before : List (Event ι K T O X)) : Event ι K T O X → Prop
  | .raised v =>
    setup.config.cacheable v.asked.request.method ∧ setup.config.cacheKey v.asked = none
  | .served v key now response =>
    setup.keyOf v = some key ∧ ∃ w ∈ fetches setup before key, w.alive now ∧
      response = entryToResponse setup.httpx (responseToEntry w.value)
  | .missed v key _ => setup.keyOf v = some key
  | .fetched _ v key _ run => setup.keyOf v = key ∧ ∃ outcomes, run = setup.send v outcomes

/-- What a lookup should find: the last response that was fetched, if it is alive. -/
def lookup (log : List (Event ι K T O X)) (key : K) (now : T) : Option Response :=
  (lastFetch setup log key).bind (·.read now)

/-- A request is answered by what a lookup should find, and goes to the network if that is
nothing. -/
def Exact (before : List (Event ι K T O X)) : Event ι K T O X → Prop
  | .served _ key now response =>
    ∃ r, lookup setup before key now = some r ∧
      response = entryToResponse setup.httpx (responseToEntry r)
  | .missed _ key now => lookup setup before key now = none
  | _ => True

end Log

instance (p : Phase K T O X) : Decidable (p = .idle) :=
  match p with
  | .idle => .isTrue rfl
  | .looked _ _ _ | .evicting _ _ | .sending _ _ | .storing _ _ _ _ _ => .isFalse nofun

/-- One request at a time, and a clock that does not go back. -/
def OneAtATime [LinearOrder T] (s : State ι K T O X) : Turn ι T O X → Prop
  | .call _ _ => ∀ j, s.phase j = .idle
  | .move _ now | .respond _ now _ => s.clock ≤ now

instance [LinearOrder T] [Fintype ι] (s : State ι K T O X) (turn : Turn ι T O X) :
    Decidable (OneAtATime s turn) :=
  match turn with
  | .call _ _ => inferInstanceAs (Decidable (∀ j, s.phase j = .idle))
  | .move _ now | .respond _ now _ => inferInstanceAs (Decidable (s.clock ≤ now))

/-! ### What a turn does -/

variable {setup} {log : List (Event ι K T O X)} {e : Event ι K T O X}

/-- A request that returns a response returns a success. -/
theorem isSuccess_of_returned {v : Visit O} {outcomes : ℕ → Outcome X} {response : Response}
    (h : (setup.send v outcomes).ending = .returned response) : response.isSuccess := by
  obtain ⟨n, -, -, -, -, hends | hbreaks⟩ := sendRequestWith_spec setup.charset
    (setup.client.resolvedMaxRetries v.call) (setup.client.resolvedRetryStatusCodes v.call)
    setup.sleep (setup.client.resolvedTimeout v.call) false outcomes
  · have hfinish : finish (outcomes n) = .returned response := hends.ending.symm.trans h
    cases ho : outcomes n with
    | response r =>
      rw [ho, finish, raiseForStatus] at hfinish
      split at hfinish
      · next hr => exact Ending.returned.inj hfinish ▸ hr
      · cases hfinish
    | transportError e =>
      rw [ho, finish] at hfinish
      cases hfinish
  · have hending := hbreaks.ending
    rw [show (sendRequestWith _ _ _ _ _ _ _).ending = .returned response from h] at hending
    rcases hending with hnever | ⟨e, hraised⟩
    · cases hnever
    · cases hraised

section Turns

variable [LinearOrder K] [LinearOrder T] [AddCommMonoid T] [DecidableEq ι]

variable (setup) in
/-- What a turn does to the state. -/
inductive Does (s : State ι K T O X) : Turn ι T O X → State ι K T O X → Prop
  | raises {i v} (hidle : s.phase i = .idle)
      (hcache : setup.config.cacheable v.asked.request.method)
      (hkey : setup.config.cacheKey v.asked = none) :
      Does s (.call i v) (s.move i .idle [.raised v])
  | looks {i v key} (hidle : s.phase i = .idle) (hkey : setup.keyOf v = some key) :
      Does s (.call i v) (s.move i (.looked v key (s.entries key)) [])
  | passes {i v} (hidle : s.phase i = .idle) (hkey : setup.keyOf v = none) :
      Does s (.call i v) (s.move i (.sending v none) [])
  | misses {i now v key} (hphase : s.phase i = .looked v key none) :
      Does s (.move i now)
        { s.move i (.sending v (some key)) [.missed v key now] with clock := now }
  | expires {i now v key entry} (hphase : s.phase i = .looked v key (some entry))
      (hexpired : entry.expired now) :
      Does s (.move i now) { s.move i (.evicting v key) [.missed v key now] with clock := now }
  | serves {i now v key entry} (hphase : s.phase i = .looked v key (some entry))
      (halive : entry.expired now = false) :
      Does s (.move i now)
        { s.move i .idle [.served v key now (entryToResponse setup.httpx entry.value)] with
          clock := now }
  | evicts {i now v key} (hphase : s.phase i = .evicting v key) :
      Does s (.move i now)
        { s.move i (.sending v (some key)) [] with entries := s.entries.delete [key] }
  | stores {i now v key time run response}
      (hphase : s.phase i = .storing v key time run response) :
      Does s (.move i now)
        { s.move i .idle [.fetched i v (some key) time run] with
          entries := put setup key time response s.entries }
  | returns {i now v key outcomes response} (hphase : s.phase i = .sending v (some key))
      (hending : (setup.send v outcomes).ending = .returned response) :
      Does s (.respond i now outcomes)
        { s.move i (.storing v key now (setup.send v outcomes) response) [] with clock := now }
  | ends {i now v key outcomes} (hphase : s.phase i = .sending v key)
      (hkey : ∀ response, (setup.send v outcomes).ending = .returned response → key = none) :
      Does s (.respond i now outcomes)
        { s.move i .idle [.fetched i v key now (setup.send v outcomes)] with clock := now }

theorem does_of_step {s s' : State ι K T O X} {turn : Turn ι T O X}
    (h : step setup s turn = some s') : Does setup s turn s' := by
  cases turn with
  | call i v =>
    rw [step] at h
    split at h
    · next hidle =>
      split at h
      · next hcache =>
        split at h
        · next hkey => exact Option.some.inj h ▸ .raises hidle hcache hkey
        · next key hkey =>
          exact Option.some.inj h ▸ .looks hidle (by rw [Setup.keyOf, if_pos hcache, hkey])
      · next hcache => exact Option.some.inj h ▸ .passes hidle (by rw [Setup.keyOf, if_neg hcache])
    · cases h
  | move i now =>
    rw [step] at h
    split at h
    · next v key hphase => exact Option.some.inj h ▸ .misses hphase
    · next v key entry hphase =>
      split at h
      · next hexpired => exact Option.some.inj h ▸ .expires hphase hexpired
      · next halive => exact Option.some.inj h ▸ .serves hphase (Bool.eq_false_iff.mpr halive)
    · next v key hphase => exact Option.some.inj h ▸ .evicts hphase
    · next v key time run response hphase => exact Option.some.inj h ▸ .stores hphase
    · cases h
  | respond i now outcomes =>
    rw [step] at h
    split at h
    · next v key hphase =>
      dsimp only at h
      split at h
      · cases h
      · next response key hending =>
        rw [if_pos (isSuccess_of_returned hending)] at h
        exact Option.some.inj h ▸ .returns hphase hending
      · next _ hother =>
        refine Option.some.inj h ▸ .ends hphase fun response hending => ?_
        exact Option.eq_none_iff_forall_ne_some.mpr fun key hkey => hother response key hending hkey
    · cases h

end Turns

/-! ### The log grows -/

section Grows

variable {P : List (Event ι K T O X) → Event ι K T O X → Prop}

theorem each_nil : Each P [] := fun before _ _ h => by simp at h

theorem Each.snoc (h : Each P log) (he : P log e) : Each P (log ++ [e]) := by
  intro before e' after heq
  rcases eq_of_append_singleton heq with ⟨rfl, rfl⟩ | ⟨after', hlog⟩
  · exact he
  · exact h before e' after' hlog

theorem Each.append_nil (h : Each P log) : Each P (log ++ []) := (List.append_nil log).symm ▸ h

variable [LinearOrder K]

theorem fetches_append (log events : List (Event ι K T O X)) (key : K) :
    fetches setup (log ++ events) key = fetches setup log key ++ fetches setup events key :=
  List.filterMap_append

theorem mem_fetches_append {w : Write Response T} {key : K} (h : w ∈ fetches setup log key)
    (events : List (Event ι K T O X)) : w ∈ fetches setup (log ++ events) key := by
  rw [fetches_append]
  exact List.mem_append_left _ h

/-- A response that a run returned is a fetch for its key only. -/
theorem fetches_fetched {i : ι} {v : Visit O} {key : K} {time : T} {run : Run X}
    {response : Response} (h : run.ending = .returned response) (key' : K) :
    fetches setup [Event.fetched i v (some key) time run] key' =
      if key = key' then [⟨response, time, setup.defaultTtl⟩] else [] := by
  rw [fetches, List.filterMap_cons, fetch, h]
  split_ifs with hkey
  · rfl
  · rfl

/-- A run that is not to be cached, or returned nothing, is no fetch. -/
theorem fetches_ended {i : ι} {v : Visit O} {key : Option K} {time : T} {run : Run X}
    (h : ∀ response, run.ending = .returned response → key = none) (key' : K) :
    fetches setup [Event.fetched i v key time run] key' = [] := by
  cases key with
  | none => rfl
  | some key =>
    rw [fetches, List.filterMap_cons, fetch]
    cases hending : run.ending with
    | returned response => cases h response hending
    | httpStatusError r | transportError e | raised e | never => rfl

end Grows

/-! ### All interleavings -/

section Interleaved

variable [LinearOrder K] [LinearOrder T] [AddCommMonoid T]

variable (setup) in
/-- The entry that a fetch for the key has left. -/
def Stored (log : List (Event ι K T O X)) (key : K) (entry : Persista.Entry Entry T) : Prop :=
  ∃ w ∈ fetches setup log key, setup.defaultTtl ≠ some 0 ∧ w.ttl = setup.defaultTtl ∧
    entry = ⟨responseToEntry w.value, setup.defaultTtl.map (w.time + ·)⟩

omit [LinearOrder T] in
theorem Stored.append {key : K} {entry : Persista.Entry Entry T} (h : Stored setup log key entry)
    (events : List (Event ι K T O X)) : Stored setup (log ++ events) key entry := by
  obtain ⟨w, hw, hentry⟩ := h
  exact ⟨w, mem_fetches_append hw events, hentry⟩

omit [LinearOrder K] in
/-- An entry reads as the write of its response. -/
theorem hit_entry (response : Response) (time now : T) (h : setup.defaultTtl ≠ some 0) :
    hit (some ⟨responseToEntry response, setup.defaultTtl.map (time + ·)⟩) now =
      ((⟨response, time, setup.defaultTtl⟩ : Write Response T).read now).map responseToEntry := by
  rw [hit_written _ _ _ h, Write.read, Write.read, apply_ite (Option.map responseToEntry)]
  rfl

/-- An entry that has not expired is that of a response that is alive. -/
theorem Stored.alive {key : K} {entry : Persista.Entry Entry T} (h : Stored setup log key entry)
    {now : T} (halive : entry.expired now = false) :
    ∃ w ∈ fetches setup log key, w.alive now ∧ entry.value = responseToEntry w.value := by
  obtain ⟨⟨response, time, ttl⟩, hw, hzero, rfl, rfl⟩ := h
  have hhit : hit (some ⟨responseToEntry response, setup.defaultTtl.map (time + ·)⟩) now =
      ((⟨response, time, setup.defaultTtl⟩ : Write Response T).read now).map responseToEntry :=
    hit_entry response time now hzero
  rw [hit, Option.bind_some, halive, if_neg Bool.false_ne_true, eq_comm, Option.map_eq_some_iff]
    at hhit
  obtain ⟨r, hread, hr⟩ := hhit
  rw [Write.read] at hread
  split at hread
  · next h => exact ⟨_, hw, h, rfl⟩
  · cases hread

variable (setup) in
/-- What is true of a task. -/
def PhaseInv (log : List (Event ι K T O X)) : Phase K T O X → Prop
  | .idle => True
  | .looked v key entry => setup.keyOf v = some key ∧ ∀ e ∈ entry, Stored setup log key e
  | .evicting v key => setup.keyOf v = some key
  | .sending v key => setup.keyOf v = key
  | .storing v key _ run response =>
    setup.keyOf v = some key ∧ run.ending = .returned response ∧
      ∃ outcomes, run = setup.send v outcomes

omit [LinearOrder T] in
theorem PhaseInv.append {p : Phase K T O X} (h : PhaseInv setup log p)
    (events : List (Event ι K T O X)) : PhaseInv setup (log ++ events) p := by
  cases p with
  | idle | evicting v key | sending v key | storing v key time run response => exact h
  | looked v key entry => exact ⟨h.1, fun e he => (h.2 e he).append events⟩

variable (setup) in
/-- Every entry is that of a response that was fetched for its key. -/
structure Inv (s : State ι K T O X) : Prop where
  log : Each (Sound setup) s.log
  entries : ∀ key entry, s.entries key = some entry → Stored setup s.log key entry
  phase : ∀ i, PhaseInv setup s.log (s.phase i)

theorem inv_init (clock : T) : Inv setup (init clock : State ι K T O X) where
  log := each_nil
  entries _ _ h := by cases h
  phase _ := trivial

variable [DecidableEq ι] {s s' : State ι K T O X} {turn : Turn ι T O X}

/-- A task moves on. An entry that appears is that of a response that was fetched. -/
theorem Inv.next (h : Inv setup s) (i : ι) (p : Phase K T O X) (events : List (Event ι K T O X))
    (clock : T) {entries : Contents K (Persista.Entry Entry T)}
    (hlog : Each (Sound setup) (s.log ++ events))
    (hentries : ∀ key entry, entries key = some entry →
      s.entries key = some entry ∨ Stored setup (s.log ++ events) key entry)
    (hp : PhaseInv setup (s.log ++ events) p) :
    Inv setup ⟨entries, clock, Function.update s.phase i p, s.log ++ events⟩ where
  log := hlog
  entries key entry he := by
    rcases hentries key entry he with hold | hnew
    · exact (h.entries key entry hold).append events
    · exact hnew
  phase := (Function.forall_update_iff s.phase fun _ => PhaseInv setup (s.log ++ events)).mpr
    ⟨hp, fun j _ => (h.phase j).append events⟩

omit [LinearOrder T] [AddCommMonoid T] [DecidableEq ι] in
/-- An eviction leaves no new entry. -/
theorem of_delete {m : Contents K (Persista.Entry Entry T)} {key key' : K}
    {entry : Persista.Entry Entry T} (h : m.delete [key] key' = some entry) :
    m key' = some entry := by
  rw [Contents.delete] at h
  split at h
  · cases h
  · exact h

theorem Inv.step (h : Inv setup s) (hs : Session.step setup s turn = some s') : Inv setup s' := by
  cases does_of_step hs with
  | @raises i v hidle hcache hkey =>
    have hsound : Sound setup s.log (.raised v) := ⟨hcache, hkey⟩
    exact h.next i .idle _ s.clock (h.log.snoc hsound) (fun _ _ => .inl) trivial
  | @looks i v key hidle hkey =>
    refine h.next i (.looked v key (s.entries key)) [] s.clock h.log.append_nil (fun _ _ => .inl)
      ⟨hkey, fun entry he => ?_⟩
    exact (h.entries key entry he).append []
  | @passes i v hidle hkey =>
    exact h.next i (.sending v none) [] s.clock h.log.append_nil (fun _ _ => .inl) hkey
  | @misses i now v key hphase =>
    obtain ⟨hkey, -⟩ : PhaseInv setup s.log (.looked v key none) := hphase ▸ h.phase i
    have hsound : Sound setup s.log (.missed v key now) := hkey
    exact h.next i (.sending v (some key)) _ now (h.log.snoc hsound) (fun _ _ => .inl) hkey
  | @expires i now v key entry hphase hexpired =>
    obtain ⟨hkey, -⟩ : PhaseInv setup s.log (.looked v key (some entry)) := hphase ▸ h.phase i
    have hsound : Sound setup s.log (.missed v key now) := hkey
    exact h.next i (.evicting v key) _ now (h.log.snoc hsound) (fun _ _ => .inl) hkey
  | @serves i now v key entry hphase halive =>
    obtain ⟨hkey, hstored⟩ : PhaseInv setup s.log (.looked v key (some entry)) := hphase ▸ h.phase i
    obtain ⟨w, hw, hwalive, hvalue⟩ := (hstored entry rfl).alive halive
    have hsound : Sound setup s.log
        (.served v key now (entryToResponse setup.httpx entry.value)) :=
      ⟨hkey, w, hw, hwalive, by rw [hvalue]⟩
    exact h.next i .idle _ now (h.log.snoc hsound) (fun _ _ => .inl) trivial
  | @evicts i now v key hphase =>
    have hkey : PhaseInv setup s.log (.evicting v key) := hphase ▸ h.phase i
    exact h.next i (.sending v (some key)) [] s.clock h.log.append_nil
      (fun _ _ he => .inl (of_delete he)) hkey
  | @stores i now v key time run response hphase =>
    obtain ⟨hkey, hending, hrun⟩ : PhaseInv setup s.log (.storing v key time run response) :=
      hphase ▸ h.phase i
    have hsound : Sound setup s.log (.fetched i v (some key) time run) := ⟨hkey, hrun⟩
    refine h.next i .idle _ s.clock (h.log.snoc hsound) (fun key' entry he => ?_) trivial
    rw [put] at he
    split_ifs at he with hzero
    · exact .inl (of_delete he)
    · rw [Contents.write_cons, Contents.write_nil] at he
      by_cases hk : key' = key
      · subst hk
        rw [Function.update_self] at he
        refine .inr ⟨⟨response, time, setup.defaultTtl⟩, ?_, hzero, rfl, (Option.some.inj he).symm⟩
        rw [fetches_append, fetches_fetched hending, if_pos rfl]
        exact List.mem_append_right _ (List.mem_singleton_self _)
      · rw [Function.update_of_ne hk] at he
        exact .inl he
  | @returns i now v key outcomes response hphase hending =>
    have hkey : PhaseInv setup s.log (.sending v (some key)) := hphase ▸ h.phase i
    exact h.next i (.storing v key now (setup.send v outcomes) response) [] now h.log.append_nil
      (fun _ _ => .inl) ⟨hkey, hending, outcomes, rfl⟩
  | @ends i now v key outcomes hphase hkey =>
    have hkeyOf : PhaseInv setup s.log (.sending v key) := hphase ▸ h.phase i
    have hsound : Sound setup s.log (.fetched i v key now (setup.send v outcomes)) :=
      ⟨hkeyOf, outcomes, rfl⟩
    exact h.next i .idle _ now (h.log.snoc hsound) (fun _ _ => .inl) trivial

end Interleaved

/-! ### One request at a time -/

section Alone

variable [LinearOrder K] [LinearOrder T] [AddCommMonoid T]

omit [LinearOrder T] [AddCommMonoid T] in
/-- Nothing was fetched for the key. -/
theorem lastFetch_append_of_nil {events : List (Event ι K T O X)} {key : K}
    (h : fetches setup events key = []) :
    lastFetch setup (log ++ events) key = lastFetch setup log key := by
  rw [lastFetch, fetches_append, h, List.append_nil]
  rfl

theorem lookup_append_of_nil {events : List (Event ι K T O X)} {key : K}
    (h : fetches setup events key = []) (now : T) :
    lookup setup (log ++ events) key now = lookup setup log key now := by
  rw [lookup, lastFetch_append_of_nil h]
  rfl

/-- A response that is fetched is what its key is looked up to from then on. -/
theorem lookup_append_fetched {i : ι} {v : Visit O} {key : K} {time : T} {run : Run X}
    {response : Response} (h : run.ending = .returned response) (key' : K) (now : T) :
    lookup setup (log ++ [Event.fetched i v (some key) time run]) key' now =
      if key = key' then (⟨response, time, setup.defaultTtl⟩ : Write Response T).read now
      else lookup setup log key' now := by
  split_ifs with hk
  · rw [lookup, lastFetch, fetches_append, fetches_fetched h, if_pos hk, List.getLast?_concat]
    rfl
  · exact lookup_append_of_nil (by rw [fetches_fetched h, if_neg hk]) now

variable (setup) in
/-- From the time `clock` on, a lookup of the cache finds what it should find. -/
def Shows (entries : Contents K (Persista.Entry Entry T)) (clock : T)
    (log : List (Event ι K T O X)) : Prop :=
  ∀ key t, clock ≤ t → hit (entries key) t = (lookup setup log key t).map responseToEntry

variable {entries : Contents K (Persista.Entry Entry T)} {clock : T}

theorem Shows.append (h : Shows setup entries clock log) {events : List (Event ι K T O X)}
    (hevents : ∀ key, fetches setup events key = []) {now : T} (hnow : clock ≤ now) :
    Shows setup entries now (log ++ events) := fun key t ht => by
  rw [h key t (hnow.trans ht), lookup_append_of_nil (hevents key)]

theorem Shows.delete (h : Shows setup entries clock log) {key : K}
    (hkey : ∀ t, clock ≤ t → lookup setup log key t = none) :
    Shows setup (entries.delete [key]) clock log := by
  intro key' t ht
  rw [Contents.delete]
  split_ifs with hk
  · obtain rfl := List.mem_singleton.mp hk
    rw [hkey t ht]
    rfl
  · exact h key' t ht

theorem Shows.put (h : Shows setup entries clock log) {i : ι} {v : Visit O} {key : K} {time : T}
    {run : Run X} {response : Response} (hending : run.ending = .returned response) :
    Shows setup (put setup key time response entries) clock
      (log ++ [.fetched i v (some key) time run]) := by
  intro key' t ht
  rw [lookup_append_fetched hending, Session.put]
  by_cases hk : key' = key
  · subst hk
    rw [if_pos rfl]
    split_ifs with hzero
    · rw [Contents.delete, if_pos (List.mem_singleton_self _), hzero, read_zero]
      rfl
    · rw [Contents.write_cons, Contents.write_nil, Function.update_self]
      exact hit_entry response time t hzero
  · rw [if_neg (Ne.symm hk), ← h key' t ht]
    split_ifs with hzero
    · rw [Contents.delete, if_neg (by simpa using hk)]
    · rw [Contents.write_cons, Contents.write_nil, Function.update_of_ne hk]

variable (setup) in
/-- What the only task that is at work has read still holds. -/
def Fresh (entries : Contents K (Persista.Entry Entry T)) (clock : T)
    (log : List (Event ι K T O X)) : Phase K T O X → Prop
  | .looked _ key entry => entry = entries key
  | .evicting _ key => ∀ t, clock ≤ t → lookup setup log key t = none
  | .storing _ _ _ run response => run.ending = .returned response
  | _ => True

variable (setup) in
/-- The cache finds what it should find, and at most one task is at work. -/
structure ExactInv (s : State ι K T O X) : Prop where
  log : Each (Exact setup) s.log
  shows : Shows setup s.entries s.clock s.log
  alone : ∀ i, s.phase i ≠ .idle → ∀ j, j ≠ i → s.phase j = .idle
  phase : ∀ i, Fresh setup s.entries s.clock s.log (s.phase i)

theorem exactInv_init (clock : T) : ExactInv setup (init clock : State ι K T O X) where
  log := each_nil
  shows _ _ _ := rfl
  alone _ h := absurd rfl h
  phase _ := trivial

variable [DecidableEq ι] {s s' : State ι K T O X} {turn : Turn ι T O X}

/-- The only task at work moves on. -/
theorem exactInv_next {i : ι} (hquiet : ∀ j, j ≠ i → s.phase j = .idle) {p : Phase K T O X}
    (hlog : Each (Exact setup) log) (hshows : Shows setup entries clock log)
    (hp : Fresh setup entries clock log p) :
    ExactInv setup ⟨entries, clock, Function.update s.phase i p, log⟩ where
  log := hlog
  shows := hshows
  alone j hj k hk := by
    change Function.update s.phase i p j ≠ .idle at hj
    change Function.update s.phase i p k = .idle
    by_cases hji : j = i
    · subst hji
      rw [Function.update_of_ne hk, hquiet k hk]
    · rw [Function.update_of_ne hji, hquiet j hji] at hj
      exact absurd rfl hj
  phase := (Function.forall_update_iff s.phase fun _ => Fresh setup entries clock log).mpr
    ⟨hp, fun j hj => hquiet j hj ▸ trivial⟩

theorem ExactInv.step (h : ExactInv setup s) (hG : OneAtATime s turn)
    (hs : Session.step setup s turn = some s') : ExactInv setup s' := by
  have hquiet {i : ι} {p : Phase K T O X} (hphase : s.phase i = p) (hp : p ≠ .idle) :
      ∀ j, j ≠ i → s.phase j = .idle := h.alone i (hphase ▸ hp)
  cases does_of_step hs with
  | @raises i v hidle hcache hkey =>
    have hexact : Exact setup s.log (.raised v) := trivial
    exact exactInv_next (fun j _ => hG j) (h.log.snoc hexact)
      (h.shows.append (fun _ => rfl) le_rfl) trivial
  | @looks i v key hidle hkey =>
    exact exactInv_next (fun j _ => hG j) h.log.append_nil
      (h.shows.append (fun _ => rfl) le_rfl) rfl
  | @passes i v hidle hkey =>
    exact exactInv_next (fun j _ => hG j) h.log.append_nil
      (h.shows.append (fun _ => rfl) le_rfl) trivial
  | @misses i now v key hphase =>
    have hnone : none = s.entries key := (hphase ▸ h.phase i : Fresh _ _ _ _ (.looked v key none))
    have hhit := h.shows key now hG
    rw [← hnone, eq_comm] at hhit
    have hexact : Exact setup s.log (.missed v key now) := Option.map_eq_none_iff.mp hhit
    exact exactInv_next (hquiet hphase (by simp)) (h.log.snoc hexact)
      (h.shows.append (fun _ => rfl) hG) trivial
  | @expires i now v key entry hphase hexpired =>
    have hentry : some entry = s.entries key :=
      (hphase ▸ h.phase i : Fresh _ _ _ _ (.looked v key (some entry)))
    have hgone : ∀ t, now ≤ t → lookup setup s.log key t = none := fun t ht => by
      have hhit := h.shows key t (hG.trans ht)
      rw [← hentry, hit_of_expired hexpired ht, eq_comm] at hhit
      exact Option.map_eq_none_iff.mp hhit
    have hexact : Exact setup s.log (.missed v key now) := hgone now le_rfl
    have hevents : fetches setup ([.missed v key now] : List (Event ι K T O X)) key = [] := rfl
    exact exactInv_next (hquiet hphase (by simp)) (h.log.snoc hexact)
      (h.shows.append (fun _ => rfl) hG)
      fun t ht => (lookup_append_of_nil hevents t).trans (hgone t ht)
  | @serves i now v key entry hphase halive =>
    have hentry : some entry = s.entries key :=
      (hphase ▸ h.phase i : Fresh _ _ _ _ (.looked v key (some entry)))
    have hhit := h.shows key now hG
    rw [← hentry, hit, Option.bind_some, halive, if_neg Bool.false_ne_true, eq_comm,
      Option.map_eq_some_iff] at hhit
    obtain ⟨r, hr, hvalue⟩ := hhit
    have hexact : Exact setup s.log
        (.served v key now (entryToResponse setup.httpx entry.value)) := ⟨r, hr, by rw [hvalue]⟩
    exact exactInv_next (hquiet hphase (by simp)) (h.log.snoc hexact)
      (h.shows.append (fun _ => rfl) hG) trivial
  | @evicts i now v key hphase =>
    have hgone : ∀ t, s.clock ≤ t → lookup setup s.log key t = none :=
      (hphase ▸ h.phase i : Fresh _ _ _ _ (.evicting v key))
    exact exactInv_next (hquiet hphase (by simp)) h.log.append_nil
      ((h.shows.delete hgone).append (fun _ => rfl) le_rfl) trivial
  | @stores i now v key time run response hphase =>
    have hending : run.ending = .returned response :=
      (hphase ▸ h.phase i : Fresh _ _ _ _ (.storing v key time run response))
    have hexact : Exact setup s.log (.fetched i v (some key) time run) := trivial
    exact exactInv_next (hquiet hphase (by simp)) (h.log.snoc hexact) (h.shows.put hending) trivial
  | @returns i now v key outcomes response hphase hending =>
    exact exactInv_next (hquiet hphase (by simp)) h.log.append_nil
      (h.shows.append (fun _ => rfl) hG) hending
  | @ends i now v key outcomes hphase hkey =>
    have hexact : Exact setup s.log (.fetched i v key now (setup.send v outcomes)) := trivial
    exact exactInv_next (hquiet hphase (by simp)) (h.log.snoc hexact)
      (h.shows.append (fetches_ended hkey) hG) trivial

end Alone

/-! ### Runs -/

section Runs

variable [LinearOrder K] [LinearOrder T] [AddCommMonoid T] [DecidableEq ι] {s : State ι K T O X}

/-- **All interleavings.** What answers a request was fetched for its key by a request before, and
its ttl is not over; what is fetched is a run of `send_request`. -/
theorem served_law (setup : Setup K T Tm) (clock : T)
    (h : Reaches (step setup) anyTurn (init clock) s) : Each (Sound setup) s.log :=
  (h.invariant (inv_init clock) fun _ _ _ hi _ hs => hi.step hs).log

/-- **One request at a time.** A request is answered by the last response that was fetched for its
key, for as long as its ttl says, and goes to the network otherwise. -/
theorem session_law (setup : Setup K T Tm) (clock : T)
    (h : Reaches (step setup) OneAtATime (init clock) s) : Each (Exact setup) s.log :=
  (h.invariant (exactInv_init clock) fun _ _ _ hi hG hs => hi.step hG hs).log

end Runs

/-! ### Two tasks and one key -/

section Twice

variable [LinearOrder K] [LinearOrder T] [AddCommMonoid T] [DecidableEq ι] {v : Visit O} {key : K}
  {outcomes : ℕ → Outcome X} {response : Response}

omit [LinearOrder K] [LinearOrder T] [AddCommMonoid T] [DecidableEq ι] in
theorem cacheable_of_keyOf (hkey : setup.keyOf v = some key) :
    setup.config.cacheable v.asked.request.method ∧ setup.config.cacheKey v.asked = some key := by
  rw [Setup.keyOf] at hkey
  split at hkey
  · next h => exact ⟨h, hkey⟩
  · cases hkey

/-- Two equal requests, one after the other: the response to the first answers the second. -/
theorem reaches_served (hnone : setup.defaultTtl = none) (hkey : setup.keyOf v = some key)
    (hsend : (setup.send v outcomes).ending = .returned response) (i j : ι) (now : T) :
    ∃ s : State ι K T O X, Reaches (step setup) OneAtATime (init now) s ∧ s.log =
        [.missed v key now, .fetched i v (some key) now (setup.send v outcomes),
          .served v key now (entryToResponse setup.httpx (responseToEntry response))] := by
  have hcache := cacheable_of_keyOf hkey
  have hsuccess : response.isSuccess := isSuccess_of_returned hsend
  let s₁ : State ι K T O X := (init now).move i (.looked v key none) []
  let s₂ : State ι K T O X :=
    { s₁.move i (.sending v (some key)) [.missed v key now] with clock := now }
  let s₃ : State ι K T O X :=
    { s₂.move i (.storing v key now (setup.send v outcomes) response) [] with clock := now }
  let s₄ : State ι K T O X :=
    { s₃.move i .idle [.fetched i v (some key) now (setup.send v outcomes)] with
      entries := put setup key now response s₃.entries }
  let s₅ : State ι K T O X :=
    s₄.move j (.looked v key (some ⟨responseToEntry response, none⟩)) []
  let s₆ : State ι K T O X := { s₅.move j .idle
    [.served v key now (entryToResponse setup.httpx (responseToEntry response))] with clock := now }
  have h₁ : step setup (init now) (.call i v) = some s₁ := by
    simp [step, init, hcache, s₁]
  have h₂ : step setup s₁ (.move i now) = some s₂ := by
    simp [step, s₁, State.move, s₂]
  have h₃ : step setup s₂ (.respond i now outcomes) = some s₃ := by
    simp [step, s₂, State.move, hsend, hsuccess, s₃]
  have h₄ : step setup s₃ (.move i now) = some s₄ := by
    simp [step, s₃, State.move, s₄]
  have hidle : ∀ k, s₄.phase k = .idle := fun k => by
    by_cases hk : k = i <;> simp [s₄, s₃, s₂, s₁, State.move, init, hk]
  have h₅ : step setup s₄ (.call j v) = some s₅ := by
    rw [step, hidle j]
    simp [s₄, State.move, hcache, put, hnone, s₃, s₂, s₁, init, s₅]
  have h₆ : step setup s₅ (.move j now) = some s₆ := by
    simp [step, s₅, State.move, Persista.Entry.expired, s₆]
  refine ⟨s₆, ?_, ?_⟩
  · exact (((((Reaches.refl.turn (fun _ => rfl) h₁).turn le_rfl h₂).turn le_rfl h₃).turn le_rfl
      h₄).turn hidle h₅).turn le_rfl h₆
  · simp [s₆, s₅, s₄, s₃, s₂, s₁, State.move, init]

/-- Two equal requests that overlap, and one after them: each of the first two goes to the network,
and the third is answered from the cache. -/
theorem reaches_overlapping (hnone : setup.defaultTtl = none) (hkey : setup.keyOf v = some key)
    (hsend : (setup.send v outcomes).ending = .returned response) {i j : ι} (hij : i ≠ j)
    (now : T) : ∃ s : State ι K T O X,
      Reaches (step setup) anyTurn (init now) s ∧ s.log =
        [.missed v key now, .missed v key now,
          .fetched i v (some key) now (setup.send v outcomes),
          .fetched j v (some key) now (setup.send v outcomes),
          .served v key now (entryToResponse setup.httpx (responseToEntry response))] := by
  have hcache := cacheable_of_keyOf hkey
  have hsuccess : response.isSuccess := isSuccess_of_returned hsend
  let run := setup.send v outcomes
  let s₁ : State ι K T O X := (init now).move i (.looked v key none) []
  let s₂ : State ι K T O X := s₁.move j (.looked v key none) []
  let s₃ : State ι K T O X :=
    { s₂.move i (.sending v (some key)) [.missed v key now] with clock := now }
  let s₄ : State ι K T O X :=
    { s₃.move j (.sending v (some key)) [.missed v key now] with clock := now }
  let s₅ : State ι K T O X := { s₄.move i (.storing v key now run response) [] with clock := now }
  let s₆ : State ι K T O X := { s₅.move j (.storing v key now run response) [] with clock := now }
  let s₇ : State ι K T O X := { s₆.move i .idle [.fetched i v (some key) now run] with
    entries := put setup key now response s₆.entries }
  let s₈ : State ι K T O X := { s₇.move j .idle [.fetched j v (some key) now run] with
    entries := put setup key now response s₇.entries }
  let s₉ : State ι K T O X :=
    s₈.move i (.looked v key (some ⟨responseToEntry response, none⟩)) []
  let s₁₀ : State ι K T O X := { s₉.move i .idle
    [.served v key now (entryToResponse setup.httpx (responseToEntry response))] with clock := now }
  have h₁ : step setup (init now) (.call i v) = some s₁ := by
    simp [step, init, hcache, s₁]
  have h₂ : step setup s₁ (.call j v) = some s₂ := by
    simp [step, s₁, State.move, init, hcache, hij.symm, s₂]
  have h₃ : step setup s₂ (.move i now) = some s₃ := by
    simp [step, s₂, s₁, State.move, hij, s₃]
  have h₄ : step setup s₃ (.move j now) = some s₄ := by
    simp [step, s₃, s₂, State.move, hij.symm, s₄]
  have h₅ : step setup s₄ (.respond i now outcomes) = some s₅ := by
    simp [step, s₄, s₃, State.move, hij, hsend, hsuccess, s₅, run]
  have h₆ : step setup s₅ (.respond j now outcomes) = some s₆ := by
    simp [step, s₅, s₄, State.move, hij.symm, hsend, hsuccess, s₆, run]
  have h₇ : step setup s₆ (.move i now) = some s₇ := by
    simp [step, s₆, s₅, State.move, hij, s₇]
  have h₈ : step setup s₇ (.move j now) = some s₈ := by
    simp [step, s₇, s₆, State.move, hij.symm, s₈]
  have h₉ : step setup s₈ (.call i v) = some s₉ := by
    simp [step, s₈, s₇, State.move, hij, hcache, put, hnone, s₉]
  have h₁₀ : step setup s₉ (.move i now) = some s₁₀ := by
    simp [step, s₉, State.move, Persista.Entry.expired, s₁₀]
  refine ⟨s₁₀, ?_, ?_⟩
  · exact (((((((((Reaches.refl.turn trivial h₁).turn trivial h₂).turn trivial h₃).turn trivial
      h₄).turn trivial h₅).turn trivial h₆).turn trivial h₇).turn trivial h₈).turn trivial
      h₉).turn trivial h₁₀
  · simp [s₁₀, s₉, s₈, s₇, s₆, s₅, s₄, s₃, s₂, s₁, State.move, init, run]

end Twice

/-- A client without a `default_ttl`. -/
def plainSetup : Setup (List ℕ) ℤ ℤ where
  httpx := gzipOnly
  config := getOnly
  charset := ascii
  sleep := cpython.timeSleep
  client := tenAroundFive
  defaultTtl := none

/-- `client.get("/inbox")`. -/
def getInbox : Visit String := ⟨inboxOf "alice", none, none, none⟩

/-- The server answers at once. -/
theorem send_getInbox :
    (plainSetup.send getInbox fun _ => .response (T := Unit) inbox).ending = .returned inbox := by
  rw [Setup.send, HttpClient.requestWith, Visit.call]
  simp only [sendRequestWith]
  rw [Retry.loop]
  rfl

theorem exists_keyOf_getInbox : ∃ key, plainSetup.keyOf getInbox = some key := by
  obtain ⟨key, hkey⟩ := cacheKey_inboxOf
  refine ⟨key, ?_⟩
  rw [Setup.keyOf, show plainSetup.config.cacheable getInbox.asked.request.method = true from rfl,
    if_pos rfl]
  exact hkey "alice"

/-- Two tasks ask for the inbox at the same time, and one of them again. -/
theorem served_law_inbox : ∃ s : State Bool (List ℕ) ℤ String Unit,
    s.log.length = 5 ∧ Each (Sound plainSetup) s.log := by
  obtain ⟨key, hkey⟩ := exists_keyOf_getInbox
  obtain ⟨s, hs, hlog⟩ := reaches_overlapping rfl hkey send_getInbox Bool.false_ne_true 0
  exact ⟨s, by rw [hlog]; rfl, served_law plainSetup 0 hs⟩

/-- One task asks for the inbox, and then the other. -/
theorem session_law_inbox : ∃ s : State Bool (List ℕ) ℤ String Unit,
    s.log.length = 3 ∧ Each (Exact plainSetup) s.log := by
  obtain ⟨key, hkey⟩ := exists_keyOf_getInbox
  obtain ⟨s, hs, hlog⟩ := reaches_served rfl hkey send_getInbox false true 0
  exact ⟨s, by rw [hlog]; rfl, session_law plainSetup 0 hs⟩

end Session

end Http

end Persista
