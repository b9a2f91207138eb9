import Persista.Cache.Cache
import Mathlib.Algebra.Group.Int.Defs
import Mathlib.Data.List.Induction

/-!
# The TTL law of `Cache`

What a lookup should answer is a matter of the history of the calls: the last write of the key,
unless it was removed since or its ttl is over (`lookup`). The implementation keeps wrapped entries
and deletes expired ones when a lookup happens to find them. The two agree (`ttl_law`) whenever the
clock does not go backwards, and then an eviction can never be noticed: an entry that was expired
when it was evicted would be expired now.

## Main results

* `Cache.Agrees.exec` — a call keeps the agreement, and answers what the history says
* `Cache.ttl_law` — every call of every run answers what the history before it says
-/

namespace Persista

namespace Cache

variable {K V T : Type} [LinearOrder K] [LinearOrder T] [AddCommMonoid T] [ToString T]

/-! ### The calls -/

/-- The calls of a cache. -/
inductive Call (K V T : Type)
  | set (key : K) (value : V) (ttl : Ttl T)
  | setMany (items : Dict K V) (ttl : Ttl T)
  | delete (key : K)
  | deleteMany (keys : List K)
  | clear
  | get (key : K) (default : V)
  | tryGet (key : K)
  | contains (key : K)
  | getMany (keys : List K) (default : V)
  | tryGetMany (keys : List K)
  | containsMany (keys : List K)

/-- What a call returns. -/
inductive Answer (K V : Type)
  | done
  | value (v : V)
  | hit (v : Option V)
  | flag (b : Bool)
  | values (d : Dict K V)
  | flags (l : List Bool)

/-- A call at the time `now`. A call that raises leaves the cache as it was. -/
def exec (c : Cache K V T) (now : T) (call : Call K V T) :
    Except (StoreError K) (Cache K V T × Answer K V) :=
  match call with
  | .set key value ttl => (c.set now key value ttl).map (·, .done)
  | .setMany items ttl => (c.setMany now items ttl).map (·, .done)
  | .delete key => (c.delete key).map (·, .done)
  | .deleteMany keys => (c.deleteMany keys).map (·, .done)
  | .clear => c.clear.map (·, .done)
  | .get key default => (c.get now key default).map fun r => (r.1, .value r.2)
  | .tryGet key => (c.tryGet now key).map fun r => (r.1, .hit r.2)
  | .contains key => (c.contains now key).map fun r => (r.1, .flag r.2)
  | .getMany keys default => (c.getMany now keys default).map fun r => (r.1, .values r.2)
  | .tryGetMany keys => (c.tryGetMany now keys).map fun r => (r.1, .values r.2)
  | .containsMany keys => (c.containsMany now keys).map fun r => (r.1, .flags r.2)

/-- The cache after a call. -/
def next (c : Cache K V T) (now : T) (call : Call K V T) : Cache K V T :=
  match c.exec now call with
  | .ok (c', _) => c'
  | .error _ => c

/-- The cache after a list of calls. -/
def run (c : Cache K V T) (history : List (T × Call K V T)) : Cache K V T :=
  history.foldl (fun c e => c.next e.1 e.2) c

/-! ### What the history says -/

/-- A write: its value, its time and its resolved ttl. -/
structure Write (V T : Type) where
  value : V
  time : T
  ttl : Option T

/-- A write is alive: it was not made with a ttl of zero, and its ttl is not over. -/
def Write.alive (w : Write V T) (now : T) : Prop :=
  w.ttl ≠ some 0 ∧ ∀ d ∈ w.ttl, now ≤ w.time + d

instance (w : Write V T) (now : T) : Decidable (w.alive now) := inferInstanceAs (Decidable (_ ∧ _))

/-- What a lookup finds of a write. -/
def Write.read (w : Write V T) (now : T) : Option V := if w.alive now then some w.value else none

/-- What a call does to a key: a new write (`some (some w)`), a removal (`some none`), or
nothing. -/
def effect (defaultTtl : Option T) (now : T) (call : Call K V T) (key : K) :
    Option (Option (Write V T)) :=
  match call with
  | .set k value ttl =>
    match (resolveTtl defaultTtl ttl : Except (StoreError K) _) with
    | .ok ttl => if key = k then some (some ⟨value, now, ttl⟩) else none
    | .error _ => none
  | .setMany items ttl =>
    match (resolveTtl defaultTtl ttl : Except (StoreError K) _) with
    | .ok ttl => (items.get? key).map (some ⟨·, now, ttl⟩)
    | .error _ => none
  | .delete k => if key = k then some none else none
  | .deleteMany keys => if key ∈ keys then some none else none
  | .clear => some none
  | _ => none

/-- The last write of a key after one more call. -/
def lastWriteAfter (defaultTtl : Option T) (now : T) (call : Call K V T) (key : K)
    (last : Option (Write V T)) : Option (Write V T) :=
  (effect defaultTtl now call key).getD last

/-- The last write of a key that was not removed since. -/
def lastWrite (defaultTtl : Option T) (history : List (T × Call K V T)) (key : K) :
    Option (Write V T) :=
  history.foldl (fun last e => lastWriteAfter defaultTtl e.1 e.2 key last) none

/-- What lookups find of the last writes. -/
def reads (last : K → Option (Write V T)) (key : K) (now : T) : Option V :=
  (last key).bind (·.read now)

/-- What a lookup should answer: the value of the last write, if it is alive. -/
def lookup (defaultTtl : Option T) (history : List (T × Call K V T)) : K → T → Option V :=
  reads (lastWrite defaultTtl history)

/-- The hits of a batch, in the order of the keys. -/
def hitsOf (f : K → Option V) (keys : List K) : Dict K V :=
  Dict.ofList (keys.filterMap fun key => (f key).map (key, ·))

/-- What a call should answer, when `hit` is what a lookup of a key should. -/
def expected (defaultTtl : Option T) (hit : K → Option V) (call : Call K V T) :
    Except (StoreError K) (Answer K V) :=
  match call with
  | .set _ _ ttl => (resolveTtl defaultTtl ttl).map fun _ => .done
  | .setMany items ttl =>
    if items.entries = [] then .ok .done else (resolveTtl defaultTtl ttl).map fun _ => .done
  | .delete _ | .deleteMany _ | .clear => .ok .done
  | .get key default => .ok (.value ((hit key).getD default))
  | .tryGet key => .ok (.hit (hit key))
  | .contains key => .ok (.flag (hit key).isSome)
  | .getMany keys default =>
    .ok (.values (Dict.ofList (keys.map fun key => (key, (hit key).getD default))))
  | .tryGetMany keys => .ok (.values (hitsOf hit keys))
  | .containsMany keys => .ok (.flags (keys.map fun key => (hit key).isSome))

/-! ### One entry -/

/-- What a lookup makes of an entry. -/
def hit (entry : Option (Entry V T)) (now : T) : Option V :=
  entry.bind fun e => if e.expired now then none else some e.value

omit [AddCommMonoid T] [ToString T] in
/-- An entry that was expired misses ever after: it may as well be gone. -/
theorem hit_of_expired {e : Entry V T} {t now : T} (h : e.expired t) (ht : t ≤ now) :
    hit (some e) now = none := by
  obtain ⟨value, expiresAt⟩ := e
  cases expiresAt with
  | none => cases h
  | some x =>
    have hx : x < now := (of_decide_eq_true h).trans_le ht
    simp [hit, Entry.expired, hx]

omit [ToString T] in
/-- An entry hits as long as its write is alive. -/
theorem hit_written (value : V) (t now : T) {ttl : Option T} (h : ttl ≠ some 0) :
    hit (some ⟨value, ttl.map (t + ·)⟩) now = (⟨value, t, ttl⟩ : Write V T).read now := by
  cases ttl with
  | none => simp [hit, Entry.expired, Write.read, Write.alive]
  | some d =>
    by_cases hd : now ≤ t + d
    · have hlt : ¬ t + d < now := not_lt.mpr hd
      simp [hit, Entry.expired, Write.read, Write.alive, hd, hlt, h]
    · simp [hit, Entry.expired, Write.read, Write.alive, hd, lt_of_not_ge hd]

omit [ToString T] in
/-- A write with a ttl of zero is never found. -/
theorem read_zero (value : V) (t now : T) : (⟨value, t, some 0⟩ : Write V T).read now = none := by
  simp [Write.read, Write.alive]

/-! ### What a cache answers from now on -/

/-- From `now` on `c` is open and finds `f k t` when it looks `k` up at the time `t`. -/
structure Hits (c : Cache K V T) (defaultTtl : Option T) (now : T) (f : K → T → Option V) :
    Prop where
  opened : c.store.Opened
  defaultTtl : c.defaultTtl = defaultTtl
  hits : ∀ t, now ≤ t → ∀ k, hit (c.store.contents k) t = f k t

/-- What `c` itself finds. -/
def finds (c : Cache K V T) (k : K) (t : T) : Option V := hit (c.store.contents k) t

variable {c : Cache K V T} {now : T}

omit [ToString T] in
theorem Hits.self (h : c.store.Opened) : c.Hits c.defaultTtl now c.finds :=
  ⟨h, rfl, fun _ _ _ => rfl⟩

omit [ToString T] in
/-- Evicting expired entries is not observable. -/
theorem Hits.evict {store : InMemoryStore K (Entry V T)} (hopen : store.Opened)
    {keys : List K} (hcon : store.contents = c.store.contents.delete keys)
    (hexp : ∀ k ∈ keys, ∀ e ∈ c.store.contents k, e.expired now) :
    Hits { c with store := store } c.defaultTtl now c.finds where
  opened := hopen
  defaultTtl := rfl
  hits t ht k := by
    rw [show store.contents k = _ from congrFun hcon k, Contents.delete, finds]
    split
    · next hk =>
      cases hc : c.store.contents k with
      | none => rfl
      | some e => exact (hit_of_expired (hexp k hk e hc) ht).symm
    · rfl

/-! ### The lookups -/

omit [ToString T] in
/-- **One entry at a time.** -/
theorem tryGet_spec (h : c.store.Opened) (now : T) (key : K) :
    ∃ c', c.tryGet now key = .ok (c', c.finds key now) ∧ c'.Hits c.defaultTtl now c.finds := by
  rw [tryGet]
  rw [InMemoryStore.get_of_opened h, finds]
  cases hc : c.store.contents key with
  | none => exact ⟨c, rfl, Hits.self h⟩
  | some e =>
    by_cases he : e.expired now
    · have hmiss := hit_of_expired he le_rfl
      refine ⟨{ c with store := ⟨c.store.data.erase key, false⟩ }, ?_,
        Hits.evict rfl (InMemoryStore.contents_erase _ _ _) fun k hk => ?_⟩
      · simp [InMemoryStore.delete_of_opened h, hmiss, he]
      · obtain rfl := List.mem_singleton.mp hk
        rw [hc]
        exact fun e' he' => Option.some.inj he' ▸ he
    · exact ⟨c, by simp [he, hit], Hits.self h⟩

omit [AddCommMonoid T] [ToString T] in
/-- The loop of `_split_many`. -/
theorem foldl_splitEntry (contents : Contents K (Entry V T)) (now : T) (keys : List K)
    (acc : Dict K V × List K) :
    (keys.zip (keys.map contents)).foldl (splitEntry now) acc =
      (acc.1.setAll (keys.filterMap fun key => (hit (contents key) now).map (key, ·)),
        acc.2 ++ keys.filter fun key => (contents key).any (·.expired now)) := by
  induction keys generalizing acc with
  | nil => simp
  | cons key keys ih =>
    simp only [List.map_cons, List.zip_cons_cons, List.foldl_cons, ih]
    cases hc : contents key with
    | none => simp [splitEntry, hit, hc]
    | some e => by_cases he : e.expired now <;> simp [splitEntry, hit, hc, he]

omit [ToString T] in
/-- **A batch.** Duplicate keys are found once, and evicted twice. -/
theorem tryGetMany_spec (h : c.store.Opened) (now : T) (keys : List K) :
    ∃ c', c.tryGetMany now keys = .ok (c', hitsOf (c.finds · now) keys) ∧
      c'.Hits c.defaultTtl now c.finds := by
  rw [tryGetMany]
  by_cases hk : keys = []
  · exact ⟨c, by simp [hk, hitsOf, Dict.ofList], Hits.self h⟩
  · have hsplit := foldl_splitEntry c.store.contents now keys (∅, [])
    simp only [if_neg hk, InMemoryStore.getMany_of_opened h, Refinement.ok_bind, splitMany, hsplit,
      List.nil_append]
    set expiredKeys := keys.filter fun key => (c.store.contents key).any (·.expired now) with hexp
    by_cases he : expiredKeys = []
    · exact ⟨c, by simp [he, hitsOf, Dict.ofList, finds], Hits.self h⟩
    · obtain ⟨store, hs, hopen, hcon⟩ := InMemoryStore.deleteMany_of_opened h expiredKeys
      refine ⟨{ c with store := store }, ?_, Hits.evict hopen hcon fun k hk e hce => ?_⟩
      · simp [he, hs, hitsOf, Dict.ofList, finds]
      · have := (List.mem_filter.mp hk).2
        rwa [show c.store.contents k = some e from hce] at this

theorem get?_hitsOf {f : K → Option V} {keys : List K} {key : K} (h : key ∈ keys) :
    (hitsOf f keys).get? key = f key := by
  rw [hitsOf, Dict.get?_ofList_filterMap, if_pos h]

omit [ToString T] in
theorem getMany_spec (h : c.store.Opened) (now : T) (keys : List K) (default : V) :
    ∃ c', c.getMany now keys default = .ok (c', Dict.ofList (keys.map fun key =>
        (key, ((c.finds · now) key).getD default))) ∧
      c'.Hits c.defaultTtl now c.finds := by
  rw [getMany]
  by_cases hk : keys = []
  · exact ⟨c, by simp [hk, Dict.ofList], Hits.self h⟩
  · obtain ⟨c', hc', hh⟩ := tryGetMany_spec h now keys
    refine ⟨c', ?_, hh⟩
    simp only [if_neg hk, hc', Refinement.ok_bind, Refinement.pure_ok]
    rw [List.map_congr_left fun key hkey => by rw [get?_hitsOf hkey]]

omit [ToString T] in
theorem containsMany_spec (h : c.store.Opened) (now : T) (keys : List K) :
    ∃ c', c.containsMany now keys = .ok (c', keys.map fun key => ((c.finds · now) key).isSome) ∧
      c'.Hits c.defaultTtl now c.finds := by
  obtain ⟨c', hc', hh⟩ := tryGetMany_spec h now keys
  refine ⟨c', ?_, hh⟩
  simp only [containsMany, hc', Refinement.ok_bind, Refinement.pure_ok]
  rw [List.map_congr_left fun key hkey => ?_]
  rw [Bool.eq_iff_iff, decide_eq_true_iff, ← Dict.isSome_get?_iff, get?_hitsOf hkey]

/-! ### The writes -/

omit [ToString T] in
theorem delete_spec (h : c.store.Opened) (now : T) (key : K) :
    ∃ c', c.delete key = .ok c' ∧
      c'.Hits c.defaultTtl now fun k t => if k = key then none else c.finds k t := by
  refine ⟨{ c with store := ⟨c.store.data.erase key, false⟩ }, ?_, rfl, rfl, fun t _ k => ?_⟩
  · simp [delete, InMemoryStore.delete_of_opened h]
  · simp only [InMemoryStore.contents_erase, Contents.delete, List.mem_singleton]
    split <;> rfl

omit [ToString T] in
theorem deleteMany_spec (h : c.store.Opened) (now : T) (keys : List K) :
    ∃ c', c.deleteMany keys = .ok c' ∧
      c'.Hits c.defaultTtl now fun k t => if k ∈ keys then none else c.finds k t := by
  obtain ⟨store, hs, hopen, hcon⟩ := InMemoryStore.deleteMany_of_opened h keys
  refine ⟨{ c with store := store }, by simp [deleteMany, hs], hopen, rfl, fun t _ k => ?_⟩
  simp only [hcon, Contents.delete]
  split <;> rfl

omit [ToString T] in
theorem clear_spec (h : c.store.Opened) (now : T) :
    ∃ c', c.clear = .ok c' ∧ c'.Hits c.defaultTtl now fun _ _ => none :=
  ⟨{ c with store := { c.store with data := ∅ } },
    by simp [clear, InMemoryStore.clear, InMemoryStore.checkOpen_of_opened h], h, rfl,
    fun _ _ _ => rfl⟩

/-- **One write.** With a ttl of zero nothing is stored and the old entry goes away. -/
theorem set_spec (h : c.store.Opened) (now : T) (key : K) (value : V) {ttl : Ttl T}
    {resolved : Option T}
    (hr : (resolveTtl c.defaultTtl ttl : Except (StoreError K) _) = .ok resolved) :
    ∃ c', c.set now key value ttl = .ok c' ∧ c'.Hits c.defaultTtl now fun k t =>
      if k = key then (⟨value, now, resolved⟩ : Write V T).read t else c.finds k t := by
  by_cases hz : resolved = some 0
  · subst hz
    obtain ⟨c', hc', hh⟩ := delete_spec h now key
    refine ⟨c', by simpa [set, hr, delete] using hc', ?_⟩
    simpa only [read_zero] using hh
  · obtain ⟨store, hs, hopen, hcon⟩ := InMemoryStore.setMany_overwrite h
      (Dict.ofList [(key, (⟨value, resolved.map (now + ·)⟩ : Entry V T))])
    refine ⟨{ c with store := store }, ?_, hopen, rfl, fun t _ k => ?_⟩
    · simp [set, hr, hz, InMemoryStore.set, hs]
    · rw [hcon]
      by_cases hk : k = key
      · simp [Dict.ofList, hk, hit_written _ _ _ hz]
      · simp [Dict.ofList, hk, finds]

/-- **A batch of writes.** -/
theorem setMany_spec (h : c.store.Opened) (now : T) {items : Dict K V} (hne : items.entries ≠ [])
    {ttl : Ttl T} {resolved : Option T}
    (hr : (resolveTtl c.defaultTtl ttl : Except (StoreError K) _) = .ok resolved) :
    ∃ c', c.setMany now items ttl = .ok c' ∧ c'.Hits c.defaultTtl now fun k t =>
      match items.get? k with
      | some value => (⟨value, now, resolved⟩ : Write V T).read t
      | none => c.finds k t := by
  by_cases hz : resolved = some 0
  · subst hz
    obtain ⟨c', hc', hh⟩ := deleteMany_spec h now items.keys
    refine ⟨c', by simpa [setMany, hr, hne, deleteMany] using hc', hh.opened, hh.defaultTtl,
      fun t ht k => ?_⟩
    rw [hh.hits t ht k]
    cases hi : items.get? k with
    | none => rw [if_neg (Dict.get?_eq_none_iff.mp hi)]
    | some value =>
      rw [if_pos (Dict.isSome_get?_iff.mp (by simp [hi]))]
      exact (read_zero value now t).symm
  · obtain ⟨store, hs, hopen, hcon⟩ := InMemoryStore.setMany_overwrite h
      (items.mapValues fun value => (⟨value, resolved.map (now + ·)⟩ : Entry V T))
    refine ⟨{ c with store := store }, ?_, hopen, rfl, fun t _ k => ?_⟩
    · simp [setMany, hr, hz, hne, hs]
    · rw [hcon, Dict.get?_mapValues]
      cases hi : items.get? k with
      | none => rfl
      | some value => simp [hit_written _ _ _ hz]

/-! ### The law -/

/-- The cache finds the last writes. -/
def Agrees (c : Cache K V T) (defaultTtl : Option T) (now : T) (last : K → Option (Write V T)) :
    Prop :=
  c.Hits defaultTtl now (reads last)

/-- A call at `t` answers what the last writes say, and leaves the cache in agreement with the
writes it makes of them. -/
def Lawful (c : Cache K V T) (defaultTtl : Option T) (t : T) (last : K → Option (Write V T))
    (call : Call K V T) : Prop :=
  (c.exec t call).map Prod.snd = expected defaultTtl (reads last · t) call ∧
    (c.next t call).Agrees defaultTtl t fun k => lastWriteAfter defaultTtl t call k (last k)

variable {d : Option T} {last : K → Option (Write V T)} {t : T} {call : Call K V T}

/-- A call that returns. -/
theorem Agrees.returns (h : c.Agrees d now last) {c' : Cache K V T} (a : Answer K V)
    {g : K → T → Option V} (he : c.exec t call = .ok (c', a))
    (hx : expected d (reads last · t) call = .ok a) (hh : c'.Hits c.defaultTtl t g)
    (hg : ∀ k t', t ≤ t' → g k t' = reads (fun k => lastWriteAfter d t call k (last k)) k t') :
    c.Lawful d t last call := by
  refine ⟨by rw [he, hx]; rfl, ?_⟩
  rw [show c.next t call = c' by simp [next, he]]
  exact ⟨hh.opened, hh.defaultTtl.trans h.defaultTtl,
    fun t' ht' k => (hh.hits t' ht' k).trans (hg k t' ht')⟩

/-- A call that raises leaves the cache as it was. -/
theorem Agrees.raises (h : c.Agrees d now last) (ht : now ≤ t) (e : StoreError K)
    (he : c.exec t call = .error e) (hx : expected d (reads last · t) call = .error e)
    (hg : ∀ k, lastWriteAfter d t call k (last k) = last k) : c.Lawful d t last call := by
  refine ⟨by rw [he, hx]; rfl, ?_⟩
  rw [show c.next t call = c by simp [next, he], funext hg]
  exact ⟨h.opened, h.defaultTtl, fun t' ht' => h.hits t' (ht.trans ht')⟩

theorem Agrees.set (h : c.Agrees d now last) (ht : now ≤ t) (key : K) (value : V) (ttl : Ttl T) :
    c.Lawful d t last (.set key value ttl) := by
  have hd : c.defaultTtl = d := h.defaultTtl
  cases hr : (resolveTtl d ttl : Except (StoreError K) _) with
  | error e =>
    exact h.raises ht e (by simp [Cache.exec, Cache.set, hd, hr]) (by simp [expected, hr])
      fun k => by simp [lastWriteAfter, effect, hr]
  | ok resolved =>
    obtain ⟨c', hc', hh⟩ := set_spec h.opened t key value (hd ▸ hr)
    refine h.returns .done (by simp [Cache.exec, hc']) (by simp [expected, hr]) hh
      fun k t' ht' => ?_
    have hfind : c.finds k t' = reads last k t' := h.hits t' (ht.trans ht') k
    by_cases hk : k = key
    · simp [reads, lastWriteAfter, effect, hr, hk]
    · simp [reads, lastWriteAfter, effect, hr, hk, hfind]

theorem Agrees.setMany (h : c.Agrees d now last) (ht : now ≤ t) (items : Dict K V) (ttl : Ttl T) :
    c.Lawful d t last (.setMany items ttl) := by
  have hd : c.defaultTtl = d := h.defaultTtl
  have hfind : ∀ k t', t ≤ t' → c.finds k t' = reads last k t' :=
    fun k t' ht' => h.hits t' (ht.trans ht') k
  by_cases hne : items.entries = []
  · have hnone : ∀ k, items.get? k = none := fun k => by simp [Dict.get?, hne]
    have hlast : ∀ k, lastWriteAfter d t (.setMany items ttl) k (last k) = last k := fun k => by
      rw [lastWriteAfter, effect, hnone]
      split <;> rfl
    refine h.returns .done (by simp [Cache.exec, Cache.setMany, hne]) (by simp [expected, hne])
      (Hits.self h.opened) fun k t' ht' => ?_
    rw [hfind k t' ht', funext hlast]
  · cases hr : (resolveTtl d ttl : Except (StoreError K) _) with
    | error e =>
      exact h.raises ht e (by simp [Cache.exec, Cache.setMany, hne, hd, hr])
        (by simp [expected, hne, hr]) fun k => by simp [lastWriteAfter, effect, hr]
    | ok resolved =>
      obtain ⟨c', hc', hh⟩ := setMany_spec h.opened t hne (hd ▸ hr)
      refine h.returns .done (by simp [Cache.exec, hc']) (by simp [expected, hne, hr]) hh
        fun k t' ht' => ?_
      cases hi : items.get? k with
      | none => simp [reads, lastWriteAfter, effect, hr, hi, hfind k t' ht']
      | some value => simp [reads, lastWriteAfter, effect, hr, hi]

/-- **One call.** A lookup finds what the last writes say and evicts only what nobody finds any
more; a write replaces or removes the last writes of its keys. -/
theorem Agrees.exec (h : c.Agrees d now last) (ht : now ≤ t) (call : Call K V T) :
    c.Lawful d t last call := by
  have hfind : ∀ k t', t ≤ t' → c.finds k t' = reads last k t' :=
    fun k t' ht' => h.hits t' (ht.trans ht') k
  have hnow : (c.finds · t) = (reads last · t) := funext fun k => hfind k t le_rfl
  cases call with
  | set key value ttl => exact h.set ht key value ttl
  | setMany items ttl => exact h.setMany ht items ttl
  | delete key =>
    obtain ⟨c', hc', hh⟩ := delete_spec h.opened t key
    refine h.returns .done (by simp [Cache.exec, hc']) rfl hh fun k t' ht' => ?_
    by_cases hk : k = key
    · simp [reads, lastWriteAfter, effect, hk]
    · simp [reads, lastWriteAfter, effect, hk, hfind k t' ht']
  | deleteMany keys =>
    obtain ⟨c', hc', hh⟩ := deleteMany_spec h.opened t keys
    refine h.returns .done (by simp [Cache.exec, hc']) rfl hh fun k t' ht' => ?_
    by_cases hk : k ∈ keys
    · simp [reads, lastWriteAfter, effect, hk]
    · simp [reads, lastWriteAfter, effect, hk, hfind k t' ht']
  | clear =>
    obtain ⟨c', hc', hh⟩ := clear_spec h.opened t
    exact h.returns .done (by simp [Cache.exec, hc']) rfl hh fun k t' _ => rfl
  | get key default =>
    obtain ⟨c', hc', hh⟩ := tryGet_spec h.opened t key
    rw [hfind key t le_rfl] at hc'
    exact h.returns (.value ((reads last key t).getD default)) (by simp [Cache.exec, get, hc']) rfl
      hh hfind
  | tryGet key =>
    obtain ⟨c', hc', hh⟩ := tryGet_spec h.opened t key
    rw [hfind key t le_rfl] at hc'
    exact h.returns (.hit (reads last key t)) (by simp [Cache.exec, hc']) rfl hh hfind
  | contains key =>
    obtain ⟨c', hc', hh⟩ := tryGet_spec h.opened t key
    rw [hfind key t le_rfl] at hc'
    exact h.returns (.flag (reads last key t).isSome) (by simp [Cache.exec, contains, hc']) rfl
      hh hfind
  | getMany keys default =>
    obtain ⟨c', hc', hh⟩ := getMany_spec h.opened t keys default
    rw [hnow] at hc'
    exact h.returns (.values (Dict.ofList (keys.map fun key =>
      (key, (reads last key t).getD default)))) (by simp [Cache.exec, hc']) rfl hh hfind
  | tryGetMany keys =>
    obtain ⟨c', hc', hh⟩ := tryGetMany_spec h.opened t keys
    rw [hnow] at hc'
    exact h.returns (.values (hitsOf (reads last · t) keys)) (by simp [Cache.exec, hc']) rfl
      hh hfind
  | containsMany keys =>
    obtain ⟨c', hc', hh⟩ := containsMany_spec h.opened t keys
    rw [hnow] at hc'
    exact h.returns (.flags (keys.map fun key => (reads last key t).isSome))
      (by simp [Cache.exec, hc']) rfl hh hfind

/-! ### Runs -/

/-- The cache agrees with its history after every run whose clock does not go backwards. -/
theorem Agrees.run (h : ∀ t, c.Agrees d t fun _ => none) {history : List (T × Call K V T)} {t : T}
    (hclock : (history.map Prod.fst ++ [t]).Pairwise (· ≤ ·)) :
    (c.run history).Agrees d t (lastWrite d history) := by
  induction history using List.reverseRecOn generalizing t with
  | nil => exact h t
  | append_singleton history e ih =>
    rw [List.map_append, List.pairwise_append] at hclock
    obtain ⟨hbefore, -, hle⟩ := hclock
    have het : e.1 ≤ t := hle e.1 (by simp) t (by simp)
    have hstep := ((ih hbefore).exec le_rfl e.2).2
    have hlast : lastWrite d (history ++ [e]) =
        fun k => lastWriteAfter d e.1 e.2 k (lastWrite d history k) :=
      funext fun k => by simp [lastWrite]
    rw [hlast, Cache.run, List.foldl_append]
    exact ⟨hstep.opened, hstep.defaultTtl, fun t' ht' => hstep.hits t' (het.trans ht')⟩

omit [LinearOrder K] in
/-- A cache that was just opened is empty. -/
theorem store_of_opened (h : opened d = .ok c) :
    c.store = InMemoryStore.init.open ∧ c.defaultTtl = d := by
  simp only [opened] at h
  cases d with
  | none =>
    cases h
    exact ⟨rfl, rfl⟩
  | some d =>
    dsimp only at h
    split at h
    · cases h
      exact ⟨rfl, rfl⟩
    · cases h

theorem hits_opened (h : opened d = .ok c) (t : T) : c.Agrees d t fun _ => none := by
  obtain ⟨hs, hd⟩ := store_of_opened h
  exact ⟨by rw [hs]; rfl, hd, fun t _ k => by rw [hs]; rfl⟩

/-- The last write of a key is the one that no later call replaced or removed. -/
theorem lastWrite_eq_some_iff {history : List (T × Call K V T)} {key : K} {w : Write V T} :
    lastWrite d history key = some w ↔
      ∃ before now call after, history = before ++ (now, call) :: after ∧
        effect d now call key = some (some w) ∧ ∀ e ∈ after, effect d e.1 e.2 key = none := by
  induction history using List.reverseRecOn with
  | nil => simp [lastWrite]
  | append_singleton history e ih =>
    have hlast : lastWrite d (history ++ [e]) key =
        (effect d e.1 e.2 key).getD (lastWrite d history key) := by
      simp [lastWrite, lastWriteAfter]
    rw [hlast]
    constructor
    · intro h
      cases he : effect d e.1 e.2 key with
      | some w' =>
        rw [he] at h
        exact ⟨history, e.1, e.2, [], rfl, he.trans (congrArg some h), by simp⟩
      | none =>
        rw [he] at h
        obtain ⟨before, now, call, after, rfl, hw, hafter⟩ := ih.mp h
        refine ⟨before, now, call, after ++ [e], by simp, hw, fun e' he' => ?_⟩
        rcases List.mem_append.mp he' with he' | he'
        · exact hafter e' he'
        · rw [List.mem_singleton.mp he', he]
    · rintro ⟨before, now, call, after, heq, hw, hafter⟩
      rcases List.eq_nil_or_concat after with rfl | ⟨after, e', rfl⟩
      · obtain ⟨rfl, he⟩ := List.append_inj' heq rfl
        rw [List.cons.inj he |>.1, hw]
        rfl
      · rw [List.concat_eq_append, ← List.cons_append, ← List.append_assoc] at heq
        obtain ⟨rfl, he⟩ := List.append_inj' heq rfl
        rw [List.cons.inj he |>.1, hafter e' (by simp), Option.getD_none]
        exact ih.mpr ⟨before, now, call, after, rfl, hw, fun x hx => hafter x (by simp [hx])⟩

/-- What a lookup should find, spelt out. -/
theorem lookup_eq_some_iff {history : List (T × Call K V T)} {key : K} {now : T} {v : V} :
    lookup d history key now = some v ↔
      ∃ w, lastWrite d history key = some w ∧ w.value = v ∧ w.ttl ≠ some 0 ∧
        ∀ x ∈ w.ttl, now ≤ w.time + x := by
  simp only [lookup, reads, Option.bind_eq_some_iff, Write.read]
  refine exists_congr fun w => and_congr_right fun _ => ?_
  rw [Option.ite_none_right_eq_some, Option.some_inj]
  exact and_comm

/-- **The TTL law.** After any calls at times that never go backwards, the next call answers what
the history says: a lookup hits with a value exactly when the last call that concerned the key wrote
that value, not with a ttl of zero, and its ttl is not over. Lookups concern no key, so whatever
they evicted is not observable. -/
theorem ttl_law (d : Option T) (c : Cache K V T) (hc : opened d = .ok c)
    (history : List (T × Call K V T)) (t : T)
    (hclock : (history.map Prod.fst ++ [t]).Pairwise (· ≤ ·)) (call : Call K V T) :
    ((c.run history).exec t call).map Prod.snd = expected d (lookup d history · t) call ∧
      ∀ key v, lookup d history key t = some v ↔
        ∃ before now wrote after w, history = before ++ (now, wrote) :: after ∧
          effect d now wrote key = some (some w) ∧
          (∀ e ∈ after, effect d e.1 e.2 key = none) ∧
          w.value = v ∧ w.ttl ≠ some 0 ∧ ∀ x ∈ w.ttl, t ≤ w.time + x := by
  refine ⟨((Agrees.run (hits_opened hc) hclock).exec le_rfl call).1, fun key v => ?_⟩
  rw [lookup_eq_some_iff]
  constructor
  · rintro ⟨w, hw, hread⟩
    obtain ⟨before, now, wrote, after, heq, he, hafter⟩ := lastWrite_eq_some_iff.mp hw
    exact ⟨before, now, wrote, after, w, heq, he, hafter, hread⟩
  · rintro ⟨before, now, wrote, after, w, heq, he, hafter, hread⟩
    exact ⟨w, lastWrite_eq_some_iff.mpr ⟨before, now, wrote, after, heq, he, hafter⟩, hread⟩

/-- An entry still hits at the very time its ttl ends, although a batch evicted its neighbour
before: that one was written with a ttl of its own. -/
theorem ttl_law_boundary : ∃ c : Cache ℕ ℕ ℤ, opened (some 5) = .ok c ∧
    ((c.run [(0, .setMany (Dict.ofList [(1, 10), (2, 20)]) .unset),
      (1, .set 2 21 (.given (some 1))), (3, .tryGetMany [2, 1, 2])]).exec 5
        (.tryGetMany [1, 2])).map Prod.snd = .ok (.values (Dict.ofList [(1, 10)])) := by
  refine ⟨_, rfl, ?_⟩
  rw [(ttl_law (some 5) _ rfl _ 5 (by decide) _).1]
  rfl

end Cache

end Persista
