import Persista.Store.InMemory

/-!
# An in-memory store and its iterations

`InMemoryStore.iter_batches` and `BaseStore.values` are generator functions: a call runs nothing
and returns a generator, and everything happens when the generator is advanced. The first `next`
checks the batch size and that the store is open, and takes a list of the pairs; every later one
goes on in that list, whatever has become of the store.

A `Session` is a store with the generators that clients have of it. `Session.call` is every call
that takes and compares no values; those that do are in `Store/Aliasing`.

## Values

None of these calls looks at a value. So the session is generic in its values and the calls commute
with every map of them (`Session.map_call`), and the values a call returns, as well as those the
session holds afterwards, are values it held before (`Session.held_call`,
`Session.results_call`). `batchify` is not part of the repository; it is a parameter that cuts a
list into consecutive runs and does not look at the items either.
-/

namespace Persista

variable {K V W : Type}

/-- The same store over other values. -/
def InMemoryStore.map (f : V → W) (s : InMemoryStore K V) : InMemoryStore K W :=
  ⟨s.data.mapValues f, s.closed⟩

namespace Iteration

/-- `batchify(items, size)`. -/
structure Batchify where
  /-- The batches of a list. -/
  run {X : Type} (items : List X) (size : ℕ) : List (List X)
  /-- The batches are consecutive runs. -/
  flatten_run {X : Type} (items : List X) {size : ℕ} (hs : 1 ≤ size) :
    (run items size).flatten = items
  /-- Where the list is cut does not depend on its items. -/
  run_map {X Y : Type} (f : X → Y) (items : List X) (size : ℕ) :
    run (items.map f) size = (run items size).map (List.map f)

/-- A generator: just created, or suspended with what it has yet to yield. A generator that has
returned, or raised, has nothing. -/
inductive Iterator (K V : Type)
  | iterBatches (batchSize : ℤ)
  | values (batchSize : ℤ)
  | batches (rest : List (List (K × V)))
  | eachValue (rest : List V)

/-- What a call returns or raises. -/
inductive Outcome (K V : Type)
  | done
  | raised (e : StoreError K)
  | value (v : Option V)
  | values (vs : List (Option V))
  | keys (keys : List K)
  | flag (b : Bool)
  | flags (bs : List Bool)
  | count (n : ℕ)
  | iterator (i : ℕ)
  | batch (items : Dict K V)
  | item (v : V)
  | stopIteration

/-- The calls that take and compare no values. Generators are numbered in the order of their
creation. -/
inductive Call (K : Type)
  | «open»
  | close
  | contains (key : K)
  | containsMany (keys : List K)
  | keys
  | count
  | delete (key : K)
  | deleteMany (keys : List K)
  | clear
  | iterBatches (batchSize : ℤ)
  | values (batchSize : ℤ)
  | next (i : ℕ)

/-- A store and its generators. -/
structure Session (K V : Type) where
  store : InMemoryStore K V
  iterators : List (Iterator K V)

namespace Outcome

/-- What a reading call makes of what it read. -/
def reply {X : Type} (f : X → Outcome K V) : Except (StoreError K) X → Outcome K V
  | .ok x => f x
  | .error e => .raised e

/-- The values in an outcome. -/
def results : Outcome K V → List V
  | .value v => v.toList
  | .values vs => vs.reduceOption
  | .batch items => items.values
  | .item v => [v]
  | _ => []

/-- The same outcome over other values. -/
def map (f : V → W) : Outcome K V → Outcome K W
  | .done => .done
  | .raised e => .raised e
  | .value v => .value (v.map f)
  | .values vs => .values (vs.map (Option.map f))
  | .keys ks => .keys ks
  | .flag b => .flag b
  | .flags bs => .flags bs
  | .count n => .count n
  | .iterator i => .iterator i
  | .batch items => .batch (items.mapValues f)
  | .item v => .item (f v)
  | .stopIteration => .stopIteration

end Outcome

/-! ### Advancing a generator -/

namespace Iterator

/-- The values a generator has yet to yield. -/
def held : Iterator K V → List V
  | .batches rest => rest.flatten.map Prod.snd
  | .eachValue rest => rest
  | .iterBatches _ | .values _ => []

/-- The same generator over other values. -/
def map (f : V → W) : Iterator K V → Iterator K W
  | .iterBatches batchSize => .iterBatches batchSize
  | .values batchSize => .values batchSize
  | .batches rest => .batches (rest.map (List.map fun p => (p.1, f p.2)))
  | .eachValue rest => .eachValue (rest.map f)

/-- `iter_batches` up to its loop. -/
def start (batchify : Batchify) (s : InMemoryStore K V) (batchSize : ℤ) :
    Except (StoreError K) (List (List (K × V))) := do
  validateBatchSize batchSize
  s.checkOpen
  return batchify.run s.data.entries batchSize.toNat

variable [LinearOrder K]

/-- One turn of `for batch in batchify(...): yield dict(batch)`. -/
def nextBatch : List (List (K × V)) → Outcome K V × Iterator K V
  | [] => (.stopIteration, .batches [])
  | batch :: rest => (.batch (Dict.ofList batch), .batches rest)

omit [LinearOrder K] in
/-- One turn of `yield from batch.values()`. -/
def nextValue : List V → Outcome K V × Iterator K V
  | [] => (.stopIteration, .eachValue [])
  | v :: rest => (.item v, .eachValue rest)

/-- `next(generator)`. -/
def next (batchify : Batchify) (s : InMemoryStore K V) :
    Iterator K V → Outcome K V × Iterator K V
  | .iterBatches batchSize =>
    match start batchify s batchSize with
    | .ok runs => nextBatch runs
    | .error e => (.raised e, .batches [])
  | .values batchSize =>
    match start batchify s batchSize with
    | .ok runs => nextValue (runs.flatMap fun batch => (Dict.ofList batch).values)
    | .error e => (.raised e, .eachValue [])
  | .batches rest => nextBatch rest
  | .eachValue rest => nextValue rest

end Iterator

/-! ### Calls -/

namespace Session

/-- The store of a client that has just constructed it. -/
def init : Session K V := ⟨.init, []⟩

/-- The values that later calls can return: those of the store and of its generators. -/
def held (s : Session K V) : List V := s.store.data.values ++ s.iterators.flatMap Iterator.held

/-- The same session over other values. -/
def map (f : V → W) (s : Session K V) : Session K W :=
  ⟨s.store.map f, s.iterators.map (Iterator.map f)⟩

/-- What a writing call leaves. -/
def write (s : Session K V) :
    Except (StoreError K) (InMemoryStore K V) → Outcome K V × Session K V
  | .ok store => (.done, { s with store := store })
  | .error e => (.raised e, s)

/-- A call that takes and compares no values. -/
def call [LinearOrder K] (batchify : Batchify) (s : Session K V) :
    Call K → Outcome K V × Session K V
  | .open => (.done, { s with store := s.store.open })
  | .close => (.done, { s with store := s.store.close })
  | .contains key => (.reply .flag (s.store.contains key), s)
  | .containsMany keys => (.reply .flags (s.store.containsMany keys), s)
  | .keys => (.reply .keys s.store.keys, s)
  | .count => (.reply .count s.store.count, s)
  | .delete key => s.write (s.store.delete key)
  | .deleteMany keys => s.write (s.store.deleteMany keys)
  | .clear => s.write s.store.clear
  | .iterBatches batchSize =>
    (.iterator s.iterators.length,
      { s with iterators := s.iterators ++ [.iterBatches batchSize] })
  | .values batchSize =>
    (.iterator s.iterators.length, { s with iterators := s.iterators ++ [.values batchSize] })
  | .next i =>
    match s.iterators[i]? with
    | some it =>
      ((it.next batchify s.store).1,
        { s with iterators := s.iterators.set i (it.next batchify s.store).2 })
    | none => (.stopIteration, s)

end Session

/-! ### The calls commute with maps of the values -/

section Map

variable (f : V → W)

theorem checkOpen_map (s : InMemoryStore K V) : (s.map f).checkOpen = s.checkOpen := rfl

theorem start_map (batchify : Batchify) (s : InMemoryStore K V) (batchSize : ℤ) :
    Iterator.start batchify (s.map f) batchSize =
      (Iterator.start batchify s batchSize).map
        (List.map (List.map fun p => (p.1, f p.2))) := by
  have hrun := batchify.run_map (fun p : K × V => (p.1, f p.2)) s.data.entries batchSize.toNat
  rw [Iterator.start, Iterator.start, checkOpen_map]
  cases validateBatchSize (K := K) batchSize with
  | error e => rfl
  | ok u =>
    cases s.checkOpen with
    | error e => rfl
    | ok u => exact congrArg Except.ok hrun

variable [LinearOrder K]

theorem nextBatch_map (rest : List (List (K × V))) :
    Iterator.nextBatch (rest.map (List.map fun p => (p.1, f p.2))) =
      ((Iterator.nextBatch rest).1.map f, (Iterator.nextBatch rest).2.map f) := by
  cases rest with
  | nil => rfl
  | cons batch rest =>
    simp only [List.map_cons, Iterator.nextBatch, Outcome.map, Iterator.map,
      Dict.mapValues_ofList]

omit [LinearOrder K] in
theorem nextValue_map (rest : List V) :
    Iterator.nextValue (K := K) (rest.map f) =
      ((Iterator.nextValue (K := K) rest).1.map f, (Iterator.nextValue rest).2.map f) := by
  cases rest <;> rfl

theorem values_batches_map (batches : List (List (K × V))) :
    (batches.map (List.map fun p => (p.1, f p.2))).flatMap
        (fun batch => (Dict.ofList batch).values) =
      (batches.flatMap fun batch => (Dict.ofList batch).values).map f := by
  rw [List.flatMap_map, List.map_flatMap]
  congr 1
  funext batch
  rw [← Dict.mapValues_ofList, Dict.values_mapValues]

theorem next_map (batchify : Batchify) (s : InMemoryStore K V) (it : Iterator K V) :
    (it.map f).next batchify (s.map f) =
      ((it.next batchify s).1.map f, (it.next batchify s).2.map f) := by
  cases it with
  | iterBatches batchSize =>
    simp only [Iterator.map, Iterator.next, start_map]
    cases Iterator.start batchify s batchSize with
    | error e => rfl
    | ok batches => exact nextBatch_map f batches
  | values batchSize =>
    simp only [Iterator.map, Iterator.next, start_map]
    cases Iterator.start batchify s batchSize with
    | error e => rfl
    | ok batches =>
      have hvalues := nextValue_map (K := K) f
        (batches.flatMap fun batch => (Dict.ofList batch).values)
      rw [← values_batches_map] at hvalues
      exact hvalues
  | batches rest => exact nextBatch_map f rest
  | eachValue rest => exact nextValue_map f rest

theorem delete_map (s : InMemoryStore K V) (key : K) :
    (s.map f).delete key = (s.delete key).map (InMemoryStore.map f) := by
  rw [InMemoryStore.delete, InMemoryStore.delete, checkOpen_map]
  cases s.checkOpen with
  | error e => rfl
  | ok u =>
    have herase := Dict.mapValues_erase s.data key f
    exact congrArg (fun data => Except.ok (InMemoryStore.mk data s.closed)) herase.symm

theorem deleteMany_map (s : InMemoryStore K V) (keys : List K) :
    (s.map f).deleteMany keys = (s.deleteMany keys).map (InMemoryStore.map f) := by
  induction keys generalizing s with
  | nil => rfl
  | cons key keys ih =>
    rw [InMemoryStore.deleteMany, InMemoryStore.deleteMany, List.foldlM_cons, List.foldlM_cons,
      delete_map]
    cases s.delete key with
    | error e => rfl
    | ok s' => exact ih s'

theorem get_map (s : InMemoryStore K V) (key : K) :
    (s.map f).get key = (s.get key).map (Option.map f) := by
  rw [InMemoryStore.get, InMemoryStore.get, checkOpen_map]
  cases s.checkOpen with
  | error e => rfl
  | ok u => exact congrArg Except.ok (Dict.get?_mapValues s.data f key)

theorem getMany_map (s : InMemoryStore K V) (keys : List K) :
    (s.map f).getMany keys = (s.getMany keys).map (List.map (Option.map f)) := by
  induction keys with
  | nil => rfl
  | cons key keys ih =>
    rw [InMemoryStore.getMany] at ih
    rw [InMemoryStore.getMany, InMemoryStore.getMany, List.mapM_cons, List.mapM_cons, ih, get_map]
    cases s.get key with
    | error e => rfl
    | ok v =>
      rw [InMemoryStore.getMany]
      cases keys.mapM s.get with
      | error e => rfl
      | ok vs => rfl

omit [LinearOrder K] in
theorem write_map (s : Session K V) (r : Except (StoreError K) (InMemoryStore K V)) :
    (s.map f).write (r.map (InMemoryStore.map f)) =
      ((s.write r).1.map f, (s.write r).2.map f) := by
  cases r <;> rfl

omit [LinearOrder K] in
/-- A reading call that reads the same. -/
theorem read_map {X : Type} {g : X → Outcome K V} {g' : X → Outcome K W} (s : Session K V)
    {r r' : Except (StoreError K) X} (hr : r' = r) (hg : ∀ x, g' x = (g x).map f) :
    (Outcome.reply g' r', s.map f) = ((Outcome.reply g r).map f, s.map f) := by
  subst hr
  cases r' with
  | error e => rfl
  | ok x => exact Prod.ext (hg x) rfl

/-- **The calls do not look at the values.** -/
theorem Session.map_call (batchify : Batchify) (s : Session K V) (c : Call K) :
    (s.map f).call batchify c =
      ((s.call batchify c).1.map f, (s.call batchify c).2.map f) := by
  have hkeys : (s.store.map f).data.keys = s.store.data.keys := Dict.keys_mapValues _ _
  cases c with
  | «open» =>
    rcases s with ⟨⟨data, _ | _⟩, iterators⟩ <;> rfl
  | close => rfl
  | contains key =>
    have hc : (s.store.map f).contains key = s.store.contains key := by
      rw [InMemoryStore.contains, hkeys]
      rfl
    exact read_map f s hc fun _ => rfl
  | containsMany keys =>
    have hc : (s.store.map f).containsMany keys = s.store.containsMany keys := by
      rw [InMemoryStore.containsMany, hkeys]
      rfl
    exact read_map f s hc fun _ => rfl
  | keys =>
    have hc : (s.store.map f).keys = s.store.keys := by
      rw [InMemoryStore.keys, hkeys]
      rfl
    exact read_map f s hc fun _ => rfl
  | count =>
    have hc : (s.store.map f).count = s.store.count := by
      rw [InMemoryStore.count, ← Dict.length_keys, hkeys, Dict.length_keys]
      rfl
    exact read_map f s hc fun _ => rfl
  | delete key =>
    have hd := write_map f s (s.store.delete key)
    rw [← delete_map] at hd
    exact hd
  | deleteMany keys =>
    have hd := write_map f s (s.store.deleteMany keys)
    rw [← deleteMany_map] at hd
    exact hd
  | clear =>
    rcases s with ⟨⟨data, _ | _⟩, iterators⟩ <;> rfl
  | iterBatches batchSize =>
    simp only [Session.call, Session.map, List.length_map, List.map_append]
    rfl
  | values batchSize =>
    simp only [Session.call, Session.map, List.length_map, List.map_append]
    rfl
  | next i =>
    simp only [Session.call, Session.map, List.getElem?_map]
    cases s.iterators[i]? with
    | none => rfl
    | some it =>
      have hnext := next_map f batchify s.store it
      simp only [Option.map_some, hnext, List.map_set]

omit [LinearOrder K] in
/-- Maps that agree on what a session holds. -/
theorem Session.map_congr {s : Session K V} {f g : V → W} (h : ∀ v ∈ s.held, f v = g v) :
    s.map f = s.map g := by
  have hdata : s.store.data.mapValues f = s.store.data.mapValues g :=
    Dict.mapValues_congr fun v hv => h v (List.mem_append_left _ hv)
  have hiterators : s.iterators.map (Iterator.map f) = s.iterators.map (Iterator.map g) := by
    refine List.map_congr_left fun it hit => ?_
    have hheld : ∀ v ∈ it.held, f v = g v := fun v hv =>
      h v (List.mem_append_right _ (List.mem_flatMap.mpr ⟨it, hit, hv⟩))
    cases it with
    | iterBatches batchSize => rfl
    | values batchSize => rfl
    | batches rest =>
      refine congrArg Iterator.batches (List.map_congr_left fun batch hbatch => ?_)
      refine List.map_congr_left fun p hp => ?_
      rw [hheld p.2 (List.mem_map_of_mem (List.mem_flatten_of_mem hbatch hp))]
    | eachValue rest => exact congrArg Iterator.eachValue (List.map_congr_left hheld)
  rw [Session.map, Session.map, InMemoryStore.map, InMemoryStore.map, hdata, hiterators]

end Map

/-! ### The calls make no values -/

/-- What a call returns once the store is known to be open. -/
theorem eq_of_checked {X : Type} {s : InMemoryStore K V} {x y : X}
    (h : (s.checkOpen >>= fun _ => .ok x) = .ok y) : x = y := by
  cases hopen : s.checkOpen with
  | error e =>
    rw [hopen] at h
    cases h
  | ok u =>
    rw [hopen] at h
    exact Except.ok.inj h

section Held

variable [LinearOrder K] {batchify : Batchify}

omit [LinearOrder K] in
theorem start_mem {s : InMemoryStore K V} {batchSize : ℤ} {batches : List (List (K × V))}
    (h : Iterator.start batchify s batchSize = .ok batches) {batch : List (K × V)}
    (hbatch : batch ∈ batches) {v : V} (hv : v ∈ batch.map Prod.snd) : v ∈ s.data.values := by
  rw [Iterator.start] at h
  cases hsize : validateBatchSize (K := K) batchSize with
  | error e => rw [hsize] at h; cases h
  | ok u =>
    rw [hsize] at h
    have hrun : batchify.run s.data.entries batchSize.toNat = batches := eq_of_checked h
    have hpos : 1 ≤ batchSize.toNat := by
      by_contra hneg
      have hlt : batchSize < 1 := by omega
      rw [validateBatchSize, if_pos hlt] at hsize
      cases hsize
    obtain ⟨p, hp, rfl⟩ := List.mem_map.mp hv
    refine List.mem_map_of_mem ?_
    rw [← batchify.flatten_run s.data.entries hpos, hrun]
    exact List.mem_flatten_of_mem hbatch hp

theorem nextBatch_mem {rest : List (List (K × V))} {v : V}
    (hv : v ∈ (Iterator.nextBatch rest).1.results ∨ v ∈ (Iterator.nextBatch rest).2.held) :
    ∃ batch ∈ rest, v ∈ batch.map Prod.snd := by
  cases rest with
  | nil => rcases hv with hv | hv <;> cases hv
  | cons batch rest =>
    rcases hv with hv | hv
    · exact ⟨batch, List.mem_cons_self, Dict.mem_values_ofList hv⟩
    · obtain ⟨p, hp, rfl⟩ := List.mem_map.mp hv
      obtain ⟨b, hb, hp⟩ := List.mem_flatten.mp hp
      exact ⟨b, List.mem_cons_of_mem _ hb, List.mem_map_of_mem hp⟩

omit [LinearOrder K] in
theorem nextValue_mem {rest : List V} {v : V}
    (hv : v ∈ (Iterator.nextValue (K := K) rest).1.results ∨
      v ∈ (Iterator.nextValue (K := K) rest).2.held) : v ∈ rest := by
  cases rest with
  | nil => rcases hv with hv | hv <;> cases hv
  | cons w rest =>
    rcases hv with hv | hv
    · rw [List.mem_singleton.mp hv]
      exact List.mem_cons_self
    · exact List.mem_cons_of_mem _ hv

/-- A generator yields what it held, or what it finds in the store. -/
theorem next_mem {s : InMemoryStore K V} {it : Iterator K V} {v : V}
    (hv : v ∈ (it.next batchify s).1.results ∨ v ∈ (it.next batchify s).2.held) :
    v ∈ s.data.values ∨ v ∈ it.held := by
  cases it with
  | iterBatches batchSize =>
    rw [Iterator.next] at hv
    cases hstart : Iterator.start batchify s batchSize with
    | error e => rw [hstart] at hv; rcases hv with hv | hv <;> cases hv
    | ok batches =>
      rw [hstart] at hv
      obtain ⟨batch, hbatch, hv⟩ := nextBatch_mem hv
      exact .inl (start_mem hstart hbatch hv)
  | values batchSize =>
    rw [Iterator.next] at hv
    cases hstart : Iterator.start batchify s batchSize with
    | error e => rw [hstart] at hv; rcases hv with hv | hv <;> cases hv
    | ok batches =>
      rw [hstart] at hv
      obtain ⟨batch, hbatch, hv⟩ := List.mem_flatMap.mp (nextValue_mem hv)
      exact .inl (start_mem hstart hbatch (Dict.mem_values_ofList hv))
  | batches rest =>
    obtain ⟨batch, hbatch, hv⟩ := nextBatch_mem hv
    obtain ⟨p, hp, rfl⟩ := List.mem_map.mp hv
    exact .inr (List.mem_map_of_mem (List.mem_flatten_of_mem hbatch hp))
  | eachValue rest => exact .inr (nextValue_mem hv)

namespace Session

omit [LinearOrder K] in
theorem mem_held {s : Session K V} {v : V} :
    v ∈ s.held ↔ v ∈ s.store.data.values ∨ ∃ it ∈ s.iterators, v ∈ it.held := by
  rw [held, List.mem_append, List.mem_flatMap]

omit [LinearOrder K] in
/-- A store with fewer values. -/
theorem held_store {s : Session K V} {store : InMemoryStore K V}
    (h : ∀ v ∈ store.data.values, v ∈ s.store.data.values) :
    ({ s with store := store } : Session K V).held ⊆ s.held := by
  intro v hv
  rcases mem_held.mp hv with hv | hv
  · exact mem_held.mpr (.inl (h v hv))
  · exact mem_held.mpr (.inr hv)

theorem values_delete {s s' : InMemoryStore K V} {key : K} (h : s.delete key = .ok s') :
    ∀ v ∈ s'.data.values, v ∈ s.data.values := by
  have hs' : { s with data := s.data.erase key } = s' := eq_of_checked h
  subst hs'
  exact fun v => Dict.mem_values_erase

theorem values_deleteMany {s s' : InMemoryStore K V} {keys : List K}
    (h : s.deleteMany keys = .ok s') : ∀ v ∈ s'.data.values, v ∈ s.data.values := by
  induction keys generalizing s with
  | nil => cases h; exact fun v hv => hv
  | cons key keys ih =>
    rw [InMemoryStore.deleteMany, List.foldlM_cons] at h
    cases hd : s.delete key with
    | error e => rw [hd] at h; cases h
    | ok t =>
      rw [hd] at h
      exact fun v hv => values_delete hd v (ih h v hv)

omit [LinearOrder K] in
theorem held_write {s : Session K V} {r : Except (StoreError K) (InMemoryStore K V)}
    (h : ∀ store, r = .ok store → ∀ v ∈ store.data.values, v ∈ s.store.data.values) :
    (s.write r).2.held ⊆ s.held := by
  cases r with
  | error e => exact fun v hv => hv
  | ok store => exact held_store (h store rfl)

omit [LinearOrder K] in
theorem held_append {s : Session K V} {it : Iterator K V} (h : it.held = []) :
    ({ s with iterators := s.iterators ++ [it] } : Session K V).held ⊆ s.held := by
  intro v hv
  rw [held, List.flatMap_append, List.flatMap_singleton, h, List.append_nil] at hv
  exact hv

theorem mem_values_of_get {s : InMemoryStore K V} {key : K} {v : V}
    (h : s.get key = .ok (some v)) : v ∈ s.data.values :=
  Dict.mem_values_of_get? (eq_of_checked h)

theorem mem_values_of_getMany {s : InMemoryStore K V} {keys : List K} {vs : List (Option V)}
    (h : s.getMany keys = .ok vs) {v : V} (hv : some v ∈ vs) : v ∈ s.data.values := by
  induction keys generalizing vs with
  | nil => cases h; cases hv
  | cons key keys ih =>
    rw [InMemoryStore.getMany, List.mapM_cons] at h
    cases hget : s.get key with
    | error e => rw [hget] at h; cases h
    | ok w =>
      cases hmany : keys.mapM s.get with
      | error e => rw [hget, hmany] at h; cases h
      | ok ws =>
        rw [hget, hmany] at h
        cases h
        rcases List.mem_cons.mp hv with rfl | hv
        · exact mem_values_of_get hget
        · exact ih hmany hv

/-- **A session holds nothing it did not hold before.** -/
theorem held_call (batchify : Batchify) (s : Session K V) (c : Call K) :
    (s.call batchify c).2.held ⊆ s.held := by
  cases c with
  | «open» =>
    refine held_store fun v hv => ?_
    rw [InMemoryStore.open] at hv
    split at hv
    · cases hv
    · exact hv
  | close => exact held_store fun v hv => by cases hv
  | contains key => exact fun v hv => hv
  | containsMany keys => exact fun v hv => hv
  | keys => exact fun v hv => hv
  | count => exact fun v hv => hv
  | delete key => exact held_write fun store h => values_delete h
  | deleteMany keys => exact held_write fun store h => values_deleteMany h
  | clear =>
    refine held_write fun store h v hv => ?_
    have hstore : { s.store with data := ∅ } = store := eq_of_checked h
    subst hstore
    cases hv
  | iterBatches batchSize => exact held_append rfl
  | values batchSize => exact held_append rfl
  | next i =>
    rw [call]
    cases hi : s.iterators[i]? with
    | none => exact fun v hv => hv
    | some it =>
      have hmem : it ∈ s.iterators := List.mem_of_getElem? hi
      intro v hv
      rcases mem_held.mp hv with hv | ⟨it', hit', hv⟩
      · exact mem_held.mpr (.inl hv)
      · rcases List.mem_or_eq_of_mem_set hit' with hold | rfl
        · exact mem_held.mpr (.inr ⟨it', hold, hv⟩)
        · rcases next_mem (.inr hv) with hv | hv
          · exact mem_held.mpr (.inl hv)
          · exact mem_held.mpr (.inr ⟨it, hmem, hv⟩)

omit [LinearOrder K] in
theorem results_reply {X : Type} {g : X → Outcome K V} (hg : ∀ x, (g x).results = [])
    (r : Except (StoreError K) X) : (Outcome.reply g r).results = [] := by
  cases r with
  | error e => rfl
  | ok x => exact hg x

omit [LinearOrder K] in
theorem results_write (s : Session K V) (r : Except (StoreError K) (InMemoryStore K V)) :
    (s.write r).1.results = [] := by
  cases r <;> rfl

/-- **A call returns what the session holds.** -/
theorem results_call (batchify : Batchify) (s : Session K V) (c : Call K) :
    (s.call batchify c).1.results ⊆ s.held := by
  cases c with
  | «open» => exact List.nil_subset _
  | close => exact List.nil_subset _
  | contains key => rw [call, results_reply fun _ => rfl]; exact List.nil_subset _
  | containsMany keys => rw [call, results_reply fun _ => rfl]; exact List.nil_subset _
  | keys => rw [call, results_reply fun _ => rfl]; exact List.nil_subset _
  | count => rw [call, results_reply fun _ => rfl]; exact List.nil_subset _
  | delete key => rw [call, results_write]; exact List.nil_subset _
  | deleteMany keys => rw [call, results_write]; exact List.nil_subset _
  | clear => rw [call, results_write]; exact List.nil_subset _
  | iterBatches batchSize => exact List.nil_subset _
  | values batchSize => exact List.nil_subset _
  | next i =>
    rw [call]
    cases hi : s.iterators[i]? with
    | none => exact List.nil_subset _
    | some it =>
      intro v hv
      rcases next_mem (.inl hv) with hv | hv
      · exact mem_held.mpr (.inl hv)
      · exact mem_held.mpr (.inr ⟨it, List.mem_of_getElem? hi, hv⟩)

end Session

end Held

end Iteration

end Persista
