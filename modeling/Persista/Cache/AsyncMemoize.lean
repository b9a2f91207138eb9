import Persista.Cache.Memoize
import Persista.Lib.Interleaving

/-!
# Asynchronous memoization, one task per call

`Cache.amemoize`, and `cached` and `async_cached` of `cache/interface.py`, on functions that are
awaited. `aget_or_compute` looks a key up, computes on a miss and stores the result: at each call on
the store and while the function runs any other task may take its turns. Between two turns anybody
may remove keys, clear a cache, or replace the shared cache that `get_cache` returns. Clocks are
arbitrary.

Nothing locks a key, so two tasks that miss compute the same result twice and the later one
overwrites the earlier. What saves them is that every entry was computed by a call with its key, and
an eviction, which may well take away an entry that has just been written, only makes another task
compute again.

## Main results

* `MemoTasks.Inv.step` — what a turn preserves
* `MemoTasks.amemoize_transparent` — a call that has returned returned what the function does
* `MemoTasks.amemoize_once` — a result that never expires is not computed by calls that begin later
-/

namespace Persista

namespace MemoTasks

open Interleaving Cache

variable {ι γ K V T : Type}

/-- A decorated call: its cache, when its decorator is `amemoize` of that cache. Without one it is
the shared cache at the time. -/
structure Call (γ V T : Type) extends MemoCall V T where
  cache : Option γ

/-- Where a task is in its call. -/
inductive Phase (γ K V T : Type)
  | start
  /-- `store.aget(key)` comes next. -/
  | looking (cache : γ) (key : K)
  /-- `_aget` has read the entry of the key. -/
  | got (cache : γ) (key : K) (entry : Option (Entry V T))
  /-- `store.adelete(key)` comes next: the entry has expired. -/
  | evicting (cache : γ) (key : K)
  /-- `fn(*args, **kwargs)` is awaited. -/
  | computing (cache : γ) (key : K)
  /-- `aset` comes to its call on the store: it writes an entry, or with a ttl of zero deletes the
  key. -/
  | storing (cache : γ) (key : K) (entry : Option (Entry V T)) (value : V)
  | done (outcome : Except (MemoError K) V)

/-- The caches, the shared one, and the tasks. -/
structure Server (ι γ K V T : Type) where
  entries : γ → Contents K (Entry V T)
  /-- `_state["cache"]`. -/
  shared : γ
  task : ι → Phase γ K V T

/-- What happens next. -/
inductive Turn (ι γ K T : Type)
  /-- A task moves on, and sees this time when it looks at the clock. -/
  | task (i : ι) (now : T)
  /-- `set_cache(cache)`. -/
  | setCache (cache : γ)
  /-- Somebody deletes keys of a cache. -/
  | remove (cache : γ) (keys : List K)
  /-- Somebody clears a cache. -/
  | clear (cache : γ)

section

variable [DecidableEq ι] [DecidableEq γ]

/-- All caches are empty, and all tasks are about to call. -/
def init (shared : γ) : Server ι γ K V T := ⟨fun _ _ => none, shared, fun _ => .start⟩

/-- A task moves on; the caches are as they were. -/
def Server.move (s : Server ι γ K V T) (i : ι) (p : Phase γ K V T) : Server ι γ K V T :=
  { s with task := Function.update s.task i p }

/-- The entries of a cache are changed. -/
def Server.change (s : Server ι γ K V T) (cache : γ)
    (f : Contents K (Entry V T) → Contents K (Entry V T)) : Server ι γ K V T :=
  { s with entries := Function.update s.entries cache (f (s.entries cache)) }

omit [DecidableEq γ] in
theorem Server.task_move (s : Server ι γ K V T) (i : ι) (p : Phase γ K V T) :
    (s.move i p).task = Function.update s.task i p := rfl

omit [DecidableEq ι] in
theorem Server.entries_change (s : Server ι γ K V T) (cache : γ)
    (f : Contents K (Entry V T) → Contents K (Entry V T)) :
    (s.change cache f).entries = Function.update s.entries cache (f (s.entries cache)) := rfl

variable [LinearOrder K]

/-- `store.aset` of an entry, or `store.adelete`. -/
def put (key : K) (entry : Option (Entry V T)) (m : Contents K (Entry V T)) :
    Contents K (Entry V T) := Function.update m key entry

variable [LinearOrder T] [AddCommMonoid T] [ToString T]

/-- `aset`, up to its call on the store. -/
def beginSet (defaultTtl : Option T) (ttl : Ttl T) (cache : γ) (key : K) (value : V) (now : T) :
    Phase γ K V T :=
  match resolveTtl defaultTtl ttl with
  | .error e => .done (.error (.store e))
  | .ok resolvedTtl =>
    .storing cache key (if resolvedTtl = some 0 then none
      else some ⟨value, resolvedTtl.map (now + ·)⟩) value

/-- The turn of a task. -/
def act (hashBytes : ByteArray → K) (defaultTtl : γ → Option T) (call : Call γ V T)
    (s : Server ι γ K V T) (i : ι) (now : T) : Option (Server ι γ K V T) :=
  match s.task i with
  | .start =>
    match makeJsonKey hashBytes call.func.qualname call.args call.kwargs with
    | none => some (s.move i (.done (.error .typeError)))
    | some key => some (s.move i (.looking (call.cache.getD s.shared) key))
  | .looking cache key => some (s.move i (.got cache key (s.entries cache key)))
  | .got cache key none => some (s.move i (.computing cache key))
  | .got cache key (some entry) =>
    if entry.expired now then some (s.move i (.evicting cache key))
    else some (s.move i (.done (.ok entry.value)))
  | .evicting cache key =>
    some ((s.change cache (put key none)).move i (.computing cache key))
  | .computing cache key =>
    some (s.move i (beginSet (defaultTtl cache) call.func.ttl cache key call.value now))
  | .storing cache key entry value =>
    some ((s.change cache (put key entry)).move i (.done (.ok value)))
  | .done _ => none

/-- One turn. -/
def step (hashBytes : ByteArray → K) (defaultTtl : γ → Option T) (calls : ι → Call γ V T)
    (s : Server ι γ K V T) : Turn ι γ K T → Option (Server ι γ K V T)
  | .task i now => act hashBytes defaultTtl (calls i) s i now
  | .setCache cache => some { s with shared := cache }
  | .remove cache keys => some (s.change cache (·.delete keys))
  | .clear cache => some (s.change cache fun _ _ => none)

end

/-! ### The invariant -/

/-- Every entry, in whichever cache, and every task is as it should be. -/
structure Holds (P : K → Entry V T → Prop) (Q : ι → Phase γ K V T → Prop)
    (s : Server ι γ K V T) : Prop where
  entries : ∀ cache key e, s.entries cache key = some e → P key e
  task : ∀ i, Q i (s.task i)

/-- The key of a call. -/
def keyOf (hashBytes : ByteArray → K) (call : Call γ V T) : Option K :=
  makeJsonKey hashBytes call.func.qualname call.args call.kwargs

section Invariant

variable (hashBytes : ByteArray → K) (calls : ι → Call γ V T)

/-- The value was computed by a call with the key. -/
def Computed (key : K) (value : V) : Prop :=
  ∃ j, keyOf hashBytes (calls j) = some key ∧ (calls j).value = value

/-- What is true of a task. -/
def TaskInv (i : ι) : Phase γ K V T → Prop
  | .start => True
  | .looking _ key | .evicting _ key | .computing _ key => keyOf hashBytes (calls i) = some key
  | .got _ key entry =>
    keyOf hashBytes (calls i) = some key ∧ ∀ e ∈ entry, Computed hashBytes calls key e.value
  | .storing _ key entry value =>
    keyOf hashBytes (calls i) = some key ∧ value = (calls i).value ∧
      ∀ e ∈ entry, e.value = (calls i).value
  | .done outcome => outcome = .ok (calls i).value

/-- The invariant: every entry was computed by a call with its key. -/
abbrev Inv (s : Server ι γ K V T) : Prop :=
  Holds (fun key e => Computed hashBytes calls key e.value) (TaskInv hashBytes calls) s

/-- The calls can be told from each other: their arguments have a JSON text, those that share it
share their result, and no decorator has a negative `ttl`. -/
structure Distinguishable [LinearOrder T] [AddCommMonoid T] : Prop where
  serializable : ∀ i, (calls i).reading.isSome
  value : ∀ i j, (calls i).reading = (calls j).reading → (calls i).value = (calls j).value
  ttl : ∀ i, NonnegTtl (calls i).func.ttl

end Invariant

variable {hashBytes : ByteArray → K} {calls : ι → Call γ V T} {s s' : Server ι γ K V T} {i : ι}

section Steps

variable [DecidableEq ι]

variable {P : K → Entry V T → Prop} {Q : ι → Phase γ K V T → Prop}

/-- A task that moves on. -/
theorem Holds.move (h : Holds P Q s) {p : Phase γ K V T} (hp : Q i p) : Holds P Q (s.move i p) where
  entries := h.entries
  task j := by
    by_cases hj : j = i
    · subst hj
      rwa [Server.task_move, Function.update_self]
    · rw [Server.task_move, Function.update_of_ne hj]
      exact h.task j

variable [DecidableEq γ]

omit [DecidableEq ι] in
/-- Entries may go away, and right ones may be put. -/
theorem Holds.change (h : Holds P Q s) (cache : γ)
    {f : Contents K (Entry V T) → Contents K (Entry V T)}
    (hf : ∀ key e, f (s.entries cache) key = some e → s.entries cache key = some e ∨ P key e) :
    Holds P Q (s.change cache f) where
  entries cache' key e he := by
    rw [Server.entries_change] at he
    by_cases hc : cache' = cache
    · subst hc
      rw [Function.update_self] at he
      rcases hf key e he with hold | hnew
      · exact h.entries cache' key e hold
      · exact hnew
    · rw [Function.update_of_ne hc] at he
      exact h.entries cache' key e he
  task := h.task

variable [LinearOrder K]

omit [DecidableEq ι] [DecidableEq γ] in
/-- What a deletion leaves was there. -/
theorem of_delete {m : Contents K (Entry V T)} {keys : List K} {key : K} {e : Entry V T}
    (h : m.delete keys key = some e) : m key = some e := by
  rw [Contents.delete] at h
  split at h
  · cases h
  · exact h

omit [DecidableEq ι] in
theorem Holds.put (h : Holds P Q s) (cache : γ) (key : K) (entry : Option (Entry V T))
    (hentry : ∀ e ∈ entry, P key e) : Holds P Q (s.change cache (put key entry)) := by
  refine h.change cache fun k e he => ?_
  rw [MemoTasks.put, Function.update_apply] at he
  split at he
  · next hk =>
    subst hk
    exact .inr (hentry e he)
  · exact .inl he

variable [LinearOrder T] [AddCommMonoid T] [ToString T]

omit [DecidableEq ι] [DecidableEq γ] [LinearOrder K] in
/-- A `ttl` that is not negative resolves, over a default that is not negative. -/
theorem exists_resolveTtl {defaultTtl : Option T} (hd : ∀ d ∈ defaultTtl, 0 ≤ d) {ttl : Ttl T}
    (h : NonnegTtl ttl) :
    ∃ resolved, (resolveTtl defaultTtl ttl : Except (StoreError K) _) = .ok resolved :=
  resolveTtl_of_nonneg (V := Unit) ⟨InMemoryStore.init, defaultTtl, hd⟩ h

variable {defaultTtl : γ → Option T}

omit [DecidableEq ι] [DecidableEq γ] [LinearOrder K] [ToString T] in
/-- Calls that share a key share their result. -/
theorem Computed.eq_value (hinj : Function.Injective hashBytes) (hd : Distinguishable calls)
    {key : K} {value : V} (h : Computed hashBytes calls key value)
    (hkey : keyOf hashBytes (calls i) = some key) : value = (calls i).value := by
  obtain ⟨j, hj, rfl⟩ := h
  exact hd.value j i ((makeJsonKey_eq_iff hinj).mp (hj.trans hkey.symm))

/-- **One turn of a task.** -/
theorem Inv.act (hinj : Function.Injective hashBytes) (hd : Distinguishable calls)
    (hdefault : ∀ cache, ∀ d ∈ defaultTtl cache, 0 ≤ d) (h : Inv hashBytes calls s) {now : T}
    (hs : act hashBytes defaultTtl (calls i) s i now = some s') : Inv hashBytes calls s' := by
  have htask := h.task i
  cases hp : s.task i with
  | start =>
    obtain ⟨r, hr⟩ := Option.isSome_iff_exists.mp (hd.serializable i)
    have hkey := makeJsonKey_of_reading hashBytes hr
    simp only [MemoTasks.act, hp, hkey, Option.some.injEq] at hs
    subst hs
    exact h.move hkey
  | looking cache key =>
    rw [hp] at htask
    simp only [MemoTasks.act, hp, Option.some.injEq] at hs
    subst hs
    exact h.move ⟨htask, fun e he => h.entries cache key e he⟩
  | got cache key entry =>
    rw [hp] at htask
    obtain ⟨hkey, hentry⟩ := htask
    cases entry with
    | none =>
      simp only [MemoTasks.act, hp, Option.some.injEq] at hs
      subst hs
      exact h.move hkey
    | some entry =>
      simp only [MemoTasks.act, hp] at hs
      split at hs
      · obtain rfl := Option.some.inj hs
        exact h.move hkey
      · obtain rfl := Option.some.inj hs
        have hvalue := (hentry entry rfl).eq_value hinj hd hkey
        exact h.move (congrArg Except.ok hvalue)
  | evicting cache key =>
    rw [hp] at htask
    simp only [MemoTasks.act, hp, Option.some.injEq] at hs
    subst hs
    have hnone : ∀ e ∈ (none : Option (Entry V T)), Computed hashBytes calls key e.value := by
      intro e he
      cases he
    exact (h.put cache key none hnone).move htask
  | computing cache key =>
    rw [hp] at htask
    obtain ⟨resolved, hresolved⟩ :=
      exists_resolveTtl (K := K) (hdefault cache) (hd.ttl i)
    simp only [MemoTasks.act, hp, beginSet, hresolved, Option.some.injEq] at hs
    subst hs
    refine h.move ⟨htask, rfl, fun e he => ?_⟩
    split at he
    · cases he
    · rw [← Option.some.inj he]
  | storing cache key entry value =>
    rw [hp] at htask
    obtain ⟨hkey, rfl, hentry⟩ := htask
    simp only [MemoTasks.act, hp, Option.some.injEq] at hs
    subst hs
    refine (h.put cache key entry fun e he => ⟨i, hkey, (hentry e he).symm⟩).move rfl
  | done outcome =>
    simp only [MemoTasks.act, hp] at hs
    cases hs

/-- **One turn.** -/
theorem Inv.step (hinj : Function.Injective hashBytes) (hd : Distinguishable calls)
    (hdefault : ∀ cache, ∀ d ∈ defaultTtl cache, 0 ≤ d) (h : Inv hashBytes calls s)
    {turn : Turn ι γ K T} (hs : step hashBytes defaultTtl calls s turn = some s') :
    Inv hashBytes calls s' := by
  cases turn with
  | task i now => exact h.act hinj hd hdefault hs
  | setCache cache =>
    obtain rfl := Option.some.inj hs
    exact ⟨h.entries, h.task⟩
  | remove cache keys =>
    obtain rfl := Option.some.inj hs
    exact h.change cache fun _ _ he => .inl (of_delete he)
  | clear cache =>
    obtain rfl := Option.some.inj hs
    exact h.change cache fun key e he => nomatch he

/-- **Asynchronous memoization is transparent.** However any number of tasks interleave, whatever
their clocks say and whoever removes keys, clears caches or replaces the shared cache, a call that
has returned returned what the undecorated function does. -/
theorem amemoize_transparent (hashBytes : ByteArray → K) (hinj : Function.Injective hashBytes)
    (defaultTtl : γ → Option T) (hdefault : ∀ cache, ∀ d ∈ defaultTtl cache, 0 ≤ d)
    (calls : ι → Call γ V T) (hd : Distinguishable calls) (shared : γ) {s : Server ι γ K V T}
    (h : Reaches (step hashBytes defaultTtl calls) anyTurn (init shared) s) :
    (∀ i outcome, s.task i = .done outcome → outcome = .ok (calls i).value) ∧
      ∀ cache key e, s.entries cache key = some e →
        ∃ j, keyOf hashBytes (calls j) = some key ∧ (calls j).value = e.value := by
  have hinv : Inv hashBytes calls s := by
    refine h.invariant ⟨fun _ _ _ he => (nomatch he), fun _ => trivial⟩
      fun s s' turn hs _ hstep => ?_
    exact hs.step hinj hd hdefault hstep
  refine ⟨fun i outcome hdone => ?_, hinv.entries⟩
  have htask := hinv.task i
  rw [hdone] at htask
  exact htask

/-! ### Results that never expire -/

omit [DecidableEq ι] [DecidableEq γ] in
/-- What nobody gave a `ttl` never expires. -/
def Everlasting (defaultTtl : γ → Option T) (calls : ι → Call γ V T) : Prop :=
  ∀ i cache, (resolveTtl (defaultTtl cache) (calls i).func.ttl : Except (StoreError K) _) = .ok none

/-- The entries a task has to do with do not expire, and it evicts none. -/
def Phase.Lasting : Phase γ K V T → Prop
  | .got _ _ entry => ∀ e ∈ entry, e.expiresAt = none
  | .evicting _ _ => False
  | .storing _ _ entry _ => ∃ e, entry = some e ∧ e.expiresAt = none
  | _ => True

/-- No entry expires. -/
abbrev Lasting (s : Server ι γ K V T) : Prop :=
  Holds (fun _ e => e.expiresAt = none) (fun _ p => p.Lasting) s

/-- The task computes a result, or is about to. -/
def Phase.Computes : Phase γ K V T → Prop
  | .evicting _ _ | .computing _ _ | .storing _ _ _ _ => True
  | _ => False

/-- The task looks for the key in the cache, and has found it if it has looked. -/
def Phase.Served (cache : γ) (key : K) : Phase γ K V T → Prop
  | .start | .done _ => True
  | .looking cache' key' => cache' = cache ∧ key' = key
  | .got cache' key' entry => cache' = cache ∧ key' = key ∧ entry.isSome
  | _ => False

/-- Nobody removes the key from the cache, and the call goes on using that cache. -/
def Keeps (call : Call γ V T) (cache : γ) (key : K) : Turn ι γ K T → Prop
  | .task _ _ => True
  | .setCache shared => call.cache.getD shared = cache
  | .remove cache' keys => cache' = cache → key ∉ keys
  | .clear cache' => cache' ≠ cache

/-- What the turn of a task does when nothing expires: no entry goes away, the other tasks stand
where they stood, and a task that is served goes on being served. -/
structure Progress (hashBytes : ByteArray → K) (calls : ι → Call γ V T) (i : ι)
    (s s' : Server ι γ K V T) : Prop where
  lasting : Lasting s'
  shared : s'.shared = s.shared
  kept : ∀ cache key, (s.entries cache key).isSome → (s'.entries cache key).isSome
  others : ∀ j, j ≠ i → s'.task j = s.task j
  served : ∀ cache key, keyOf hashBytes (calls i) = some key →
    (calls i).cache.getD s.shared = cache → (s.entries cache key).isSome →
    (s.task i).Served cache key → (s'.task i).Served cache key

omit [DecidableEq ι] [LinearOrder T] [AddCommMonoid T] [ToString T] in
/-- What is put under a key is there. -/
theorem isSome_put {cache cache' : γ} {key key' : K} {entry : Option (Entry V T)}
    (hentry : entry.isSome) (h : (s.entries cache key).isSome) :
    ((s.change cache' (put key' entry)).entries cache key).isSome := by
  rw [Server.entries_change]
  by_cases hc : cache = cache'
  · subst hc
    rw [Function.update_self, put, Function.update_apply]
    split
    · exact hentry
    · exact h
  · rw [Function.update_of_ne hc]
    exact h

/-- **One turn of a task**, when nothing expires. -/
theorem Lasting.act (hever : Everlasting (K := K) defaultTtl calls) (h : Lasting s) {now : T}
    (hs : MemoTasks.act hashBytes defaultTtl (calls i) s i now = some s') :
    Progress hashBytes calls i s s' := by
  have htask := h.task i
  -- a task that only moves on
  have hmove : ∀ p : Phase γ K V T, s.move i p = s' → p.Lasting →
      (∀ cache key, keyOf hashBytes (calls i) = some key → (calls i).cache.getD s.shared = cache →
        (s.entries cache key).isSome → (s.task i).Served cache key → p.Served cache key) →
      Progress hashBytes calls i s s' := by
    rintro p rfl hlasting hserved
    refine ⟨h.move hlasting, rfl, fun _ _ hsome => hsome, fun j hj => ?_, ?_⟩
    · rw [Server.task_move, Function.update_of_ne hj]
    · rw [Server.task_move, Function.update_self]
      exact hserved
  cases hp : s.task i with
  | start =>
    cases hkey : makeJsonKey hashBytes (calls i).func.qualname (calls i).args (calls i).kwargs with
    | none =>
      simp only [MemoTasks.act, hp, hkey, Option.some.injEq] at hs
      exact hmove _ hs trivial fun _ _ _ _ _ _ => trivial
    | some key =>
      simp only [MemoTasks.act, hp, hkey, Option.some.injEq] at hs
      refine hmove _ hs trivial fun cache key' hkey' hcache _ _ => ⟨hcache, ?_⟩
      exact Option.some.inj (hkey.symm.trans hkey')
  | looking cache key =>
    simp only [MemoTasks.act, hp, Option.some.injEq] at hs
    refine hmove _ hs (fun e he => h.entries cache key e he) ?_
    rw [hp]
    rintro _ _ - - hsome ⟨rfl, rfl⟩
    exact ⟨rfl, rfl, hsome⟩
  | got cache key entry =>
    rw [hp] at htask
    cases entry with
    | none =>
      simp only [MemoTasks.act, hp, Option.some.injEq] at hs
      refine hmove _ hs trivial ?_
      rw [hp]
      rintro _ _ - - - ⟨-, -, hsome⟩
      cases hsome
    | some entry =>
      have hlive : ¬ entry.expired now := by simp [Entry.expired, htask entry rfl]
      simp only [MemoTasks.act, hp, if_neg hlive, Option.some.injEq] at hs
      exact hmove _ hs trivial fun _ _ _ _ _ _ => trivial
  | evicting cache key =>
    rw [hp] at htask
    cases htask
  | computing cache key =>
    simp only [MemoTasks.act, hp, beginSet, hever i cache, Option.some.injEq] at hs
    refine hmove _ hs ⟨_, if_neg (by simp), rfl⟩ ?_
    rw [hp]
    exact fun _ _ _ _ _ hserved => hserved.elim
  | storing cache key entry value =>
    rw [hp] at htask
    obtain ⟨e, rfl, hexpires⟩ := htask
    simp only [MemoTasks.act, hp, Option.some.injEq] at hs
    subst hs
    refine ⟨(h.put cache key (some e) fun e' he' => ?_).move trivial, rfl,
      fun cache' key' hsome => isSome_put rfl hsome, fun j hj => ?_, ?_⟩
    · rw [← Option.some.inj he']
      exact hexpires
    · exact Function.update_of_ne hj _ _
    · rw [Server.task_move, Function.update_self]
      exact fun _ _ _ _ _ _ => trivial
  | done outcome =>
    simp only [MemoTasks.act, hp] at hs
    cases hs

/-- Nothing expires, the key is in the cache that the call uses, and the call is served. -/
structure Hit (calls : ι → Call γ V T) (j : ι) (cache : γ) (key : K) (s : Server ι γ K V T) :
    Prop where
  lasting : Lasting s
  uses : (calls j).cache.getD s.shared = cache
  held : (s.entries cache key).isSome
  served : (s.task j).Served cache key

omit [DecidableEq ι] [LinearOrder K] [LinearOrder T] [AddCommMonoid T] [ToString T] in
/-- Entries that go away from other keys. -/
theorem Hit.change {j : ι} {cache cache' : γ} {key : K} (h : Hit calls j cache key s)
    {f : Contents K (Entry V T) → Contents K (Entry V T)}
    (hf : ∀ k e, f (s.entries cache') k = some e → s.entries cache' k = some e)
    (hkeep : cache' = cache → f (s.entries cache') key = s.entries cache' key) :
    Hit calls j cache key (s.change cache' f) where
  lasting := h.lasting.change cache' fun k e he => .inl (hf k e he)
  uses := h.uses
  held := by
    rw [Server.entries_change]
    by_cases hc : cache = cache'
    · subst hc
      rw [Function.update_self, hkeep rfl]
      exact h.held
    · rw [Function.update_of_ne hc]
      exact h.held
  served := h.served

/-- **One turn.** -/
theorem Hit.step (hever : Everlasting (K := K) defaultTtl calls) {j : ι} {cache : γ} {key : K}
    (hkey : keyOf hashBytes (calls j) = some key) (h : Hit calls j cache key s)
    {turn : Turn ι γ K T} (hkeeps : Keeps (calls j) cache key turn)
    (hs : step hashBytes defaultTtl calls s turn = some s') : Hit calls j cache key s' := by
  cases turn with
  | task i now =>
    have hprogress := h.lasting.act hever hs
    refine ⟨hprogress.lasting, by rw [hprogress.shared]; exact h.uses,
      hprogress.kept cache key h.held, ?_⟩
    by_cases hj : j = i
    · subst hj
      exact hprogress.served cache key hkey h.uses h.held h.served
    · rw [hprogress.others j hj]
      exact h.served
  | setCache shared =>
    obtain rfl := Option.some.inj hs
    exact ⟨⟨h.lasting.entries, h.lasting.task⟩, hkeeps, h.held, h.served⟩
  | remove cache' keys =>
    obtain rfl := Option.some.inj hs
    exact h.change (fun _ _ he => of_delete he) fun hc => if_neg (hkeeps hc)
  | clear cache' =>
    obtain rfl := Option.some.inj hs
    exact h.change (fun k e he => (nomatch he)) fun hc => (hkeeps hc).elim

theorem Lasting.step (hever : Everlasting (K := K) defaultTtl calls) (h : Lasting s)
    {turn : Turn ι γ K T} (hs : step hashBytes defaultTtl calls s turn = some s') : Lasting s' := by
  cases turn with
  | task i now => exact (h.act hever hs).lasting
  | setCache shared =>
    obtain rfl := Option.some.inj hs
    exact ⟨h.entries, h.task⟩
  | remove cache keys =>
    obtain rfl := Option.some.inj hs
    exact h.change cache fun _ _ he => .inl (of_delete he)
  | clear cache =>
    obtain rfl := Option.some.inj hs
    exact h.change cache fun key e he => (nomatch he)

/-- **A result that never expires is computed by calls that began before it was stored.** When no
decorator and no cache has a `ttl`, a call that begins when its key is in its cache does not
compute, as long as nobody removes the key and the call goes on using that cache. -/
theorem amemoize_once (hashBytes : ByteArray → K) (defaultTtl : γ → Option T)
    (calls : ι → Call γ V T) (hever : Everlasting (K := K) defaultTtl calls) (shared : γ)
    {s s' : Server ι γ K V T}
    (h : Reaches (step hashBytes defaultTtl calls) anyTurn (init shared) s) (j : ι) (key : K)
    (hkey : keyOf hashBytes (calls j) = some key) (hstart : s.task j = .start)
    (hheld : (s.entries ((calls j).cache.getD s.shared) key).isSome)
    (hrun : Reaches (step hashBytes defaultTtl calls)
      (fun _ => Keeps (calls j) ((calls j).cache.getD s.shared) key) s s') :
    ¬ (s'.task j).Computes := by
  have hlasting : Lasting s := h.invariant ⟨fun _ _ _ he => (nomatch he), fun _ => trivial⟩
    fun _ _ _ hs _ hstep => hs.step hever hstep
  have hhit : Hit calls j ((calls j).cache.getD s.shared) key s' :=
    hrun.invariant ⟨hlasting, rfl, hheld, hstart ▸ trivial⟩
      fun _ _ _ hs hkeeps hstep => hs.step hever hkey hkeeps hstep
  have hserved := hhit.served
  cases hp : s'.task j with
  | evicting _ _ | computing _ _ | storing _ _ _ _ =>
    rw [hp] at hserved
    exact hserved.elim
  | start | looking _ _ | got _ _ _ | done _ => exact id

end Steps

/-! ### Two tasks with one call -/

/-- `is_list([1])`, decorated with `amemoize()` of the only cache. -/
def sameCall (_ : Bool) : Call Unit Bool ℤ := ⟨isListOf (.list [.int 1]), some ()⟩

/-- Both tasks miss, and both compute. -/
def bothMiss : List (Turn Bool Unit (List ℕ) ℤ) :=
  (List.replicate 5 [.task false 0, .task true 0]).flatten

theorem distinguishable_sameCall : Distinguishable sameCall where
  serializable _ := rfl
  value _ _ _ := rfl
  ttl _ := trivial

theorem amemoize_transparent_both : ∃ s : Server Bool Unit (List ℕ) Bool ℤ,
    play (step byteValues (fun _ => none) sameCall) (init ()) bothMiss = some s ∧
      ∀ i outcome, s.task i = .done outcome → outcome = .ok true := by
  obtain ⟨s, hs⟩ : ∃ s,
      play (step byteValues (fun _ => none) sameCall) (init ()) bothMiss = some s := ⟨_, rfl⟩
  exact ⟨s, hs, (amemoize_transparent byteValues byteValues_injective (fun _ => none)
    (fun _ _ h => (nomatch h)) sameCall distinguishable_sameCall () (reaches_of_play hs)).1⟩

/-- The caches and the tasks after the turns of a schedule, on keys that are the lengths of their
texts. -/
def played (schedule : List (Turn Bool Unit ℕ ℤ)) : Option (Server Bool Unit ℕ Bool ℤ) :=
  play (step ByteArray.size (fun _ => none) sameCall) (init ()) schedule

theorem amemoize_once_second : ∃ s s' : Server Bool Unit ℕ Bool ℤ,
    played (List.replicate 5 (.task false 0)) = some s ∧
      play (step ByteArray.size (fun _ => none) sameCall) s (List.replicate 3 (.task true 9)) =
        some s' ∧ ¬ (s'.task true).Computes := by
  obtain ⟨s', hs'⟩ : ∃ s', ((played (List.replicate 5 (.task false 0))).bind fun s =>
      play (step ByteArray.size (fun _ => none) sameCall) s (List.replicate 3 (.task true 9))) =
        some s' := ⟨_, rfl⟩
  obtain ⟨s, hs, hplay⟩ := Option.bind_eq_some_iff.mp hs'
  have hstart : (played (List.replicate 5 (.task false 0))).map (fun s => s.task true) =
      some .start := rfl
  have hheld : (played (List.replicate 5 (.task false 0))).map (fun s =>
      (s.entries () ((keyOf ByteArray.size (sameCall true)).getD 0)).isSome) = some true := rfl
  rw [hs, Option.map_some, Option.some.injEq] at hstart hheld
  exact ⟨s, s', hs, hplay, amemoize_once ByteArray.size (fun _ => none) sameCall (fun _ _ => rfl) ()
    (reaches_of_play hs) true _ rfl hstart hheld
    (Reaches.refl.play_of_forall (fun turn h => List.eq_of_mem_replicate h ▸ trivial) hplay)⟩

end MemoTasks

end Persista
