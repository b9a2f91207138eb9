import Persista.Http.Session

/-!
# No stampede

`http/httpx/client.py`. Nothing keeps two tasks from fetching the same url at the same time. But
when the cache has no `default_ttl`, an entry stays once it is there, so only those requests go to
the network that had looked before the first response was stored. A task has one request on its way
at a time: when its response is stored its next requests for the key find an entry.

## Main results

* `Http.Session.FetchedOnce.step` — what a turn preserves
* `Http.Session.fetched_once` — without a ttl, no task fetches a key twice
-/

namespace Persista

namespace Http

namespace Session

open Interleaving Cache Retry

variable {ι K T O X Tm : Type} {setup : Setup K T Tm} {log : List (Event ι K T O X)}

section Stampede

variable [LinearOrder K] [LinearOrder T] [AddCommMonoid T]

/-- A task on its way to a fetch for the key, or back from it. -/
def Phase.underway (key : K) : Phase K T O X → Bool
  | .looked _ k none | .sending _ (some k) | .storing _ k _ _ _ => decide (k = key)
  | _ => false

/-- What is true of a task when no entry expires. -/
def Everlasting : Phase K T O X → Prop
  | .looked _ _ entry => ∀ e ∈ entry, e.expiresAt = none
  | .evicting _ _ => False
  | .storing _ _ _ run response => run.ending = .returned response
  | _ => True

variable [DecidableEq ι]

/-- The event is a fetch of a task. -/
def Event.isFetchBy (i : ι) : Event ι K T O X → Bool
  | .fetched j _ _ _ _ => decide (j = i)
  | _ => false

variable (setup) in
/-- The responses that a task has fetched for a key. -/
def fetchesBy (i : ι) (log : List (Event ι K T O X)) (key : K) : List (Write Response T) :=
  fetches setup (log.filter (Event.isFetchBy i)) key

variable (setup) in
/-- A task that has fetched a key has done so once, the key has an entry, and the task is not on its
way to fetch it again. -/
structure FetchedOnce (s : State ι K T O X) : Prop where
  entries : ∀ key entry, s.entries key = some entry → entry.expiresAt = none
  phase : ∀ i, Everlasting (s.phase i)
  held : ∀ i key, fetchesBy setup i s.log key ≠ [] → (s.entries key).isSome
  away : ∀ i key, fetchesBy setup i s.log key ≠ [] → (s.phase i).underway key = false
  once : ∀ i key, (fetchesBy setup i s.log key).length ≤ 1

omit [LinearOrder T] [AddCommMonoid T] in
theorem fetchedOnce_init (clock : T) : FetchedOnce setup (init clock : State ι K T O X) where
  entries _ _ h := by cases h
  phase _ := trivial
  held _ _ h := absurd rfl h
  away _ _ _ := rfl
  once _ _ := Nat.zero_le 1

variable {s s' : State ι K T O X} {turn : Turn ι T O X}
  {entries : Contents K (Persista.Entry Entry T)} {clock : T} {i : ι} {p : Phase K T O X}

omit [LinearOrder T] [AddCommMonoid T] in
theorem fetchesBy_append (j : ι) (log events : List (Event ι K T O X)) (key : K) :
    fetchesBy setup j (log ++ events) key =
      fetchesBy setup j log key ++ fetchesBy setup j events key := by
  rw [fetchesBy, List.filter_append, fetches_append]
  rfl

omit [LinearOrder T] [AddCommMonoid T] in
/-- A response that a run returned is a fetch of its task, for its key only. -/
theorem fetchesBy_fetched {v : Visit O} {key : K} {time : T} {run : Run X} {response : Response}
    (h : run.ending = .returned response) (j : ι) (key' : K) :
    fetchesBy setup j [Event.fetched i v (some key) time run] key' =
      if i = j ∧ key = key' then [⟨response, time, setup.defaultTtl⟩] else [] := by
  rw [fetchesBy, List.filter_singleton, Event.isFetchBy]
  by_cases hij : i = j
  · rw [decide_eq_true hij, cond_true, fetches_fetched h]
    simp only [hij, true_and]
  · rw [decide_eq_false hij, cond_false, if_neg fun h => hij h.1]
    rfl

omit [LinearOrder T] [AddCommMonoid T] in
/-- Events without a fetch have none of a task's. -/
theorem fetchesBy_eq_nil {events : List (Event ι K T O X)} {key : K}
    (h : fetches setup events key = []) (j : ι) : fetchesBy setup j events key = [] := by
  rw [fetches, List.filterMap_eq_nil_iff] at h
  rw [fetchesBy, fetches, List.filterMap_eq_nil_iff]
  exact fun e he => h e (List.mem_of_mem_filter he)

omit [LinearOrder T] [AddCommMonoid T] in
/-- A task that moves on without a fetch. -/
theorem FetchedOnce.next (h : FetchedOnce setup s) (hentries : s'.entries = s.entries)
    (hphase : s'.phase = Function.update s.phase i p) (hp : Everlasting p)
    (hfetches : ∀ j key, fetchesBy setup j s'.log key = fetchesBy setup j s.log key)
    (haway : ∀ key, fetchesBy setup i s.log key ≠ [] → p.underway key = false) :
    FetchedOnce setup s' := by
  refine ⟨hentries ▸ h.entries, ?_, fun j key hkey => ?_, fun j key hkey => ?_, fun j key => ?_⟩
  · rw [hphase]
    exact (Function.forall_update_iff s.phase fun _ => Everlasting).mpr
      ⟨hp, fun j _ => h.phase j⟩
  · rw [hfetches] at hkey
    exact hentries ▸ h.held j key hkey
  · rw [hfetches] at hkey
    rw [hphase]
    by_cases hj : j = i
    · subst hj
      rw [Function.update_self]
      exact haway key hkey
    · rw [Function.update_of_ne hj]
      exact h.away j key hkey
  · rw [hfetches]
    exact h.once j key

/-- A task that stores what it fetched. -/
theorem FetchedOnce.stores (hnone : setup.defaultTtl = none) (h : FetchedOnce setup s) {v : Visit O}
    {key : K} {time : T} {run : Run X} {response : Response}
    (hphase : s.phase i = .storing v key time run response) :
    FetchedOnce setup { s.move i .idle [.fetched i v (some key) time run] with
      entries := put setup key time response s.entries } := by
  set s' : State ι K T O X := { s.move i .idle [.fetched i v (some key) time run] with
    entries := put setup key time response s.entries } with hs'
  have hending : run.ending = .returned response :=
    (hphase ▸ h.phase i : Everlasting (.storing v key time run response))
  have hput : s'.entries = Function.update s.entries key
      (some ⟨responseToEntry response, none⟩) := by
    rw [hs', put, if_neg (by simp [hnone]), Contents.write_cons, Contents.write_nil,
      hnone]
    rfl
  have hfetches (j : ι) (key' : K) : fetchesBy setup j s'.log key' =
      fetchesBy setup j s.log key' ++
        if i = j ∧ key = key' then [⟨response, time, setup.defaultTtl⟩] else [] :=
    (fetchesBy_append j _ _ key').trans (congrArg _ (fetchesBy_fetched hending j key'))
  have hidle : s'.phase = Function.update s.phase i .idle := rfl
  -- the task was on its way, so it has not fetched the key before
  have hfirst : fetchesBy setup i s.log key = [] := by
    by_contra hkey
    have haway := h.away i key hkey
    rw [hphase, Phase.underway, decide_eq_false_iff_not] at haway
    exact haway rfl
  refine ⟨fun key' entry he => ?_, ?_, fun j key' hkey => ?_, fun j key' hkey => ?_,
    fun j key' => ?_⟩
  · rw [hput] at he
    by_cases hk : key' = key
    · subst hk
      rw [Function.update_self, Option.some.injEq] at he
      exact he ▸ rfl
    · rw [Function.update_of_ne hk] at he
      exact h.entries key' entry he
  · exact (Function.forall_update_iff s.phase fun _ => Everlasting).mpr
      ⟨trivial, fun j _ => h.phase j⟩
  · rw [hput]
    by_cases hk : key' = key
    · subst hk
      rw [Function.update_self]
      rfl
    · rw [hfetches, if_neg fun h => hk h.2.symm, List.append_nil] at hkey
      rw [Function.update_of_ne hk]
      exact h.held j key' hkey
  · rw [hidle]
    by_cases hj : j = i
    · subst hj
      rw [Function.update_self]
      rfl
    · rw [hfetches, if_neg fun h => hj h.1.symm, List.append_nil] at hkey
      rw [Function.update_of_ne hj]
      exact h.away j key' hkey
  · rw [hfetches]
    split_ifs with hij
    · obtain ⟨rfl, rfl⟩ := hij
      rw [hfirst]
      exact le_rfl
    · rw [List.append_nil]
      exact h.once j key'

theorem FetchedOnce.step (hnone : setup.defaultTtl = none) (h : FetchedOnce setup s)
    (hs : Session.step setup s turn = some s') : FetchedOnce setup s' := by
  have hquiet {events : List (Event ι K T O X)} (hevents : ∀ key, fetches setup events key = [])
      (j : ι) (key : K) :
      fetchesBy setup j (s.log ++ events) key = fetchesBy setup j s.log key := by
    rw [fetchesBy_append, fetchesBy_eq_nil (hevents key), List.append_nil]
  have haway {i : ι} {q : Phase K T O X} (hphase : s.phase i = q) (key : K)
      (hkey : fetchesBy setup i s.log key ≠ []) : q.underway key = false :=
    hphase ▸ h.away i key hkey
  cases does_of_step hs with
  | raises _ _ _ => exact h.next rfl rfl trivial (hquiet fun _ => rfl) fun _ _ => rfl
  | @looks i v key _ hkey =>
    refine h.next rfl rfl (fun entry he => h.entries key entry he) (hquiet fun _ => rfl)
      fun key' hfetched => ?_
    -- a key that was fetched has an entry
    obtain ⟨entry, he⟩ := Option.isSome_iff_exists.mp (h.held i key' hfetched)
    cases hk : s.entries key with
    | some entry => rfl
    | none =>
      refine decide_eq_false fun heq => ?_
      rw [heq, he] at hk
      cases hk
  | passes _ _ => exact h.next rfl rfl trivial (hquiet fun _ => rfl) fun _ _ => rfl
  | misses hphase =>
    exact h.next rfl rfl trivial (hquiet fun _ => rfl) fun key hkey => haway hphase key hkey
  | @expires i now v key entry hphase hexpired =>
    have hlasts : Everlasting (.looked v key (some entry) : Phase K T O X) := hphase ▸ h.phase i
    rw [Persista.Entry.expired, hlasts entry rfl] at hexpired
    cases hexpired
  | serves _ _ => exact h.next rfl rfl trivial (hquiet fun _ => rfl) fun _ _ => rfl
  | @evicts i now v key hphase =>
    have hnever : Everlasting (.evicting v key : Phase K T O X) := hphase ▸ h.phase i
    exact hnever.elim
  | stores hphase => exact h.stores hnone hphase
  | returns hphase hending =>
    exact h.next rfl rfl hending (hquiet fun _ => rfl) fun key hkey => haway hphase key hkey
  | ends _ hkey => exact h.next rfl rfl trivial (hquiet (fetches_ended hkey)) fun _ _ => rfl

/-- **No stampede.** Without a ttl, each task fetches a key at most once, in whatever order the
tasks take their turns, and one that has fetched it is never on its way to fetch it again. -/
theorem fetched_once (setup : Setup K T Tm) (hnone : setup.defaultTtl = none)
    (clock : T) (h : Reaches (step setup) anyTurn (init clock) s) (i : ι) (key : K) :
    (fetchesBy setup i s.log key).length ≤ 1 ∧
      (fetchesBy setup i s.log key ≠ [] → (s.phase i).underway key = false) := by
  have honce : FetchedOnce setup s :=
    h.invariant (fetchedOnce_init clock) fun _ _ _ hi _ hs => hi.step hnone hs
  exact ⟨honce.once i key, honce.away i key⟩

end Stampede

/-- Each of two tasks that ask at the same time fetches the inbox, and no more than once. -/
theorem fetched_once_inbox : ∃ (s : State Bool (List ℕ) ℤ String Unit) (key : List ℕ),
    (∀ i, fetchesBy plainSetup i s.log key ≠ []) ∧
      ∀ i, (fetchesBy plainSetup i s.log key).length ≤ 1 := by
  obtain ⟨key, hkey⟩ := exists_keyOf_getInbox
  obtain ⟨s, hs, hlog⟩ := reaches_overlapping rfl hkey send_getInbox Bool.false_ne_true 0
  refine ⟨s, key, fun i => ?_, fun i => (fetched_once plainSetup rfl 0 hs i key).1⟩
  rw [hlog]
  cases i <;> simp [fetchesBy, Event.isFetchBy, fetches, fetch, send_getInbox]

end Session

end Http

end Persista
