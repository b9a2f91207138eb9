import Persista.Store.InMemory
import Persista.Store.Rows

/-!
# The LMDB stores

`store/lmdb.py`. A write runs inside one write transaction, on the transaction's own view of the
environment: leaving the `with` block normally commits the view, leaving it by an exception drops
it. Encoding is part of the loop that writes, so it can raise when some items have already been put
into the transaction; `putMany` and `putResolved` therefore return what the transaction holds
whichever way they end.

`set_many` does not call `resolve_conflicts`: it has the same loop inlined, reading from the
transaction it is writing to. The two are compared here. What makes them agree is that the keys of
`items` are distinct, so no read of the loop sees an earlier put of it.

## Main results

* `LmdbStore.setMany_eq_resolveConflicts` — the inlined loop is `resolve_conflicts` and a write
* `LmdbStore.snd_setMany_of_error` — a call that raises leaves the environment as it was
-/

namespace Persista

/-- The state of a `BaseLmdbStore`: the committed entries and `_closed`. -/
structure LmdbStore (K R : Type) where
  env : Contents K R
  closed : Bool

/-! ### `aresolve_conflicts` -/

section Aresolve

variable {K V S : Type} [LinearOrder K] [ShallowMerge V]

/-- `aresolve_conflicts(items, on_conflict, contains_many, get)`. An awaited lookup may change the
state `S` of the event loop. -/
def aresolveConflicts (items : Dict K V) (onConflict : OnConflict)
    (containsMany : List K → StateM S (List Bool)) (get : K → StateM S (Option V)) :
    StateM S (Except (StoreError K) (Dict K V)) :=
  resolveConflictsM items onConflict containsMany get

variable {onConflict : OnConflict} {items : Dict K V} {get : K → Option V}
  {aget : K → StateM S (Option V)}

theorem run_resolveItemM (hg : ∀ key σ, ((aget key).run σ).1 = get key) (conflicts : List K)
    (toWrite : Dict K V) (item : K × V) (σ : S) :
    ((resolveItemM conflicts onConflict aget toWrite item).run σ).1 =
      resolveItem conflicts onConflict get toWrite item := by
  rw [resolveItemM, resolveItem, ← hg item.1 σ]
  split_ifs <;> rfl

theorem run_foldlM_resolveItemM (hg : ∀ key σ, ((aget key).run σ).1 = get key)
    (conflicts : List K) (todo : List (K × V)) (toWrite : Dict K V) (σ : S) :
    ((todo.foldlM (resolveItemM conflicts onConflict aget) toWrite).run σ).1 =
      resolveItems conflicts onConflict get toWrite todo := by
  induction todo generalizing toWrite σ with
  | nil => rfl
  | cons item todo ih =>
    rw [List.foldlM_cons, resolveItems_cons, ← run_resolveItemM hg conflicts toWrite item σ]
    exact ih _ _

/-- The two versions agree as far as their lookups do. -/
theorem aresolveConflicts_eq {containsMany : List K → List Bool}
    {acontainsMany : List K → StateM S (List Bool)}
    (hc : ∀ keys σ, ((acontainsMany keys).run σ).1 = containsMany keys)
    (hg : ∀ key σ, ((aget key).run σ).1 = get key) (σ : S) :
    ((aresolveConflicts items onConflict acontainsMany aget).run σ).1 =
      resolveConflicts items onConflict containsMany get := by
  rw [aresolveConflicts, resolveConflictsM, StateT.run_bind, resolveConflicts, ← hc items.keys σ]
  generalize (acontainsMany items.keys).run σ = p
  obtain ⟨found, σ'⟩ := p
  show ((if _ then _ else _ : StateM S (Except (StoreError K) (Dict K V))).run σ').1 = _
  by_cases hr : conflictsOf items.keys found ≠ [] ∧ onConflict = .raise
  · rw [if_pos hr, if_pos hr]
    rfl
  · rw [if_neg hr, if_neg hr]
    exact congrArg Except.ok (run_foldlM_resolveItemM hg _ _ _ _)

end Aresolve

namespace LmdbStore

variable {K V R E : Type}

/-- `_check_open`. -/
def checkOpen (s : LmdbStore K R) : Except (StoreError K) Unit :=
  if s.closed then .error (.runtimeError (notOpenMsg "LmdbStore")) else .ok ()

/-- `get`. -/
def get (codec : Codec V R E) (s : LmdbStore K R) (key : K) : Except (StoreError K) (Option V) := do
  s.checkOpen
  return (s.env key).map codec.decode

/-- `contains_many`. -/
def containsMany (s : LmdbStore K R) (keys : List K) : Except (StoreError K) (List Bool) := do
  s.checkOpen
  if keys = [] then return []
  else return keys.map fun key => (s.env key).isSome

/-- The values of the committed entries. -/
def contents (codec : Codec V R E) (s : LmdbStore K R) : Contents K V := fun key =>
  (s.env key).map codec.decode

variable {codec : Codec V R E} {s s' : LmdbStore K R}

theorem get_eq_ok_iff {key : K} {value : Option V} :
    s.get codec key = .ok value ↔ s.closed = false ∧ s.contents codec key = value := by
  rw [LmdbStore.get, checkOpen, contents]
  cases s.closed <;> simp

theorem containsMany_eq_ok_iff {keys : List K} {found : List Bool} :
    s.containsMany keys = .ok found ↔
      s.closed = false ∧ (keys.map fun key => (s.env key).isSome) = found := by
  rw [LmdbStore.containsMany, checkOpen]
  cases s.closed
  · by_cases hk : keys = [] <;> simp [hk]
  · simp

theorem containsMany_contents (codec : Codec V R E) (s : LmdbStore K R) :
    (s.contents codec).containsMany = s.env.containsMany := by
  funext keys
  simp [Contents.containsMany, contents]

/-! ### The write transaction -/

/-- `with self._environment.begin(write=True) as txn`. -/
def begin {X : Type} (env : Contents K R) (body : Contents K R → Except X Unit × Contents K R) :
    Except X Unit × Contents K R :=
  match body env with
  | (.ok (), txn) => (.ok (), txn)
  | (.error e, _) => (.error e, env)

/-- A transaction that is left by an exception is aborted. -/
theorem snd_begin_of_error {X : Type} {env : Contents K R}
    {body : Contents K R → Except X Unit × Contents K R} {e : X}
    (h : (begin env body).1 = .error e) : (begin env body).2 = env := by
  revert h
  rw [begin]
  split
  · intro h
    cases h
  · intro _
    rfl

variable [LinearOrder K]

/-- `txn.put(self._key_bytes(key), self._encode(value))` for each item. -/
def putMany (codec : Codec V R E) (txn : Contents K R) :
    List (K × V) → Except (WriteError K E) Unit × Contents K R
  | [] => (.ok (), txn)
  | (key, value) :: items =>
    match codec.encode value with
    | .error e => (.error (.encode e), txn)
    | .ok raw => putMany codec (Function.update txn key (some raw)) items

/-- The loop of `set_many`, which merges what the transaction holds at that moment. -/
def putResolved [ShallowMerge V] (codec : Codec V R E) (conflicts : List K)
    (onConflict : OnConflict) (txn : Contents K R) :
    List (K × V) → Except (WriteError K E) Unit × Contents K R
  | [] => (.ok (), txn)
  | (key, value) :: items =>
    if key ∈ conflicts ∧ onConflict = .skip then putResolved codec conflicts onConflict txn items
    else
      let toWrite :=
        if key ∈ conflicts then ShallowMerge.merge ((txn key).map codec.decode) value else value
      match codec.encode toWrite with
      | .error e => (.error (.encode e), txn)
      | .ok raw =>
        putResolved codec conflicts onConflict (Function.update txn key (some raw)) items

/-! ### The calls -/

/-- `_set_many`. -/
def writeItems (codec : Codec V R E) (s : LmdbStore K R) (items : Dict K V) :
    Except (WriteError K E) Unit × LmdbStore K R :=
  if items.entries = [] then (.ok (), s)
  else
    let (outcome, env) := begin s.env fun txn => putMany codec txn items.entries
    (outcome, { s with env := env })

/-- `set_many`. -/
def setMany [ShallowMerge V] (codec : Codec V R E) (s : LmdbStore K R) (items : Dict K V)
    (onConflict : OnConflict) : Except (WriteError K E) Unit × LmdbStore K R :=
  match s.checkOpen with
  | .error e => (.error (.store e), s)
  | .ok () =>
    if items.entries = [] then (.ok (), s)
    else if onConflict = .overwrite then s.writeItems codec items
    else
      let keys := items.keys
      let (outcome, env) := begin s.env fun txn =>
        let conflicts := keys.filter fun key => (txn key).isSome
        if conflicts ≠ [] ∧ onConflict = .raise then
          (.error (.store (.keyError (sorted conflicts))), txn)
        else putResolved codec conflicts onConflict txn items.entries
      (outcome, { s with env := env })

/-! ### What the loops put -/

variable {txn env : Contents K R} {rows : List (K × V)} {items : Dict K V}
  {onConflict : OnConflict} {conflicts : List K}

theorem putMany_of_not_mem {txn : Contents K R} {rows : List (K × V)} {k : K}
    (h : k ∉ rows.map Prod.fst) : (putMany codec txn rows).2 k = txn k := by
  induction rows generalizing txn with
  | nil => rfl
  | cons row rows ih =>
    obtain ⟨key, value⟩ := row
    simp only [List.map_cons, List.mem_cons, not_or] at h
    rw [putMany]
    split
    · rfl
    · rw [ih h.2, Function.update_of_ne h.1]

/-- A loop that ends puts values that decode to the ones given. -/
theorem decode_putMany (hround : codec.RoundTrip) {txn env : Contents K R} {rows : List (K × V)}
    (h : putMany codec txn rows = (.ok (), env)) :
    (fun k => (env k).map codec.decode) =
      Contents.write (fun k => (txn k).map codec.decode) rows := by
  induction rows generalizing txn with
  | nil =>
    cases h
    rfl
  | cons row rows ih =>
    obtain ⟨key, value⟩ := row
    rw [putMany] at h
    split at h
    · cases h
    · next raw he =>
      rw [ih h, Contents.write_cons]
      congr 1
      funext k
      by_cases hk : k = key
      · subst hk
        simp [hround value raw he]
      · simp [hk]

theorem writeItems_eq (s : LmdbStore K R) (items : Dict K V) :
    s.writeItems codec items =
      ((begin s.env fun txn => putMany codec txn items.entries).1,
        { s with env := (begin s.env fun txn => putMany codec txn items.entries).2 }) := by
  rw [writeItems]
  split
  · next h => rw [h]; rfl
  · rfl

variable [ShallowMerge V]

theorem putResolved_eq_putMany {get : K → Option V} {txn : Contents K R} {items : List (K × V)}
    (hnd : (items.map Prod.fst).Nodup)
    (hget : ∀ k ∈ items.map Prod.fst, (txn k).map codec.decode = get k) :
    putResolved codec conflicts onConflict txn items =
      putMany codec txn (items.filterMap fun item =>
        (resolved conflicts onConflict get item.1 item.2).map (item.1, ·)) := by
  induction items generalizing txn with
  | nil => rfl
  | cons item items ih =>
    obtain ⟨key, value⟩ := item
    simp only [List.map_cons, List.nodup_cons] at hnd
    have hkey : (txn key).map codec.decode = get key := hget key (by simp)
    -- a put of this iteration is not seen by the reads of the later ones
    have hput : ∀ raw, ∀ k ∈ items.map Prod.fst,
        (Function.update txn key (some raw) k).map codec.decode = get k := by
      intro raw k hk
      rw [Function.update_of_ne (ne_of_mem_of_not_mem hk hnd.1)]
      exact hget k (List.mem_cons_of_mem _ hk)
    rw [putResolved, List.filterMap_cons]
    by_cases hskip : key ∈ conflicts ∧ onConflict = .skip
    · rw [if_pos hskip, ih hnd.2 fun k hk => hget k (List.mem_cons_of_mem _ hk)]
      simp [resolved, hskip]
    · have hres : resolved conflicts onConflict get key value = some
          (if key ∈ conflicts then ShallowMerge.merge ((txn key).map codec.decode) value
            else value) := by
        by_cases hc : key ∈ conflicts
        · have hs : onConflict ≠ .skip := fun h => hskip ⟨hc, h⟩
          simp [resolved, hc, hs, hkey]
        · simp [resolved, hc]
      rw [if_neg hskip, hres]
      simp only [Option.map_some, putMany]
      split
      · rfl
      · next raw _ => exact ih hnd.2 (hput raw)

variable (codec) in
theorem setMany_of_resolve (h : s.closed = false) (ho : onConflict ≠ .overwrite)
    (items : Dict K V) :
    s.setMany codec items onConflict =
      match resolveConflicts items onConflict (s.contents codec).containsMany
          (s.contents codec) with
      | .error e => (.error (.store e), s)
      | .ok toWrite => s.writeItems codec toWrite := by
  rw [containsMany_contents]
  have hopen : s.checkOpen = .ok () := by simp [checkOpen, h]
  simp only [setMany, hopen, if_neg ho]
  by_cases he : items.entries = []
  · have hk : items.keys = [] := by rw [Dict.keys, he]; rfl
    simp only [resolveConflicts, he, hk, conflictsOf, if_true]
    rfl
  · simp only [if_neg he, resolveConflicts, Contents.conflictsOf_containsMany]
    by_cases hr : s.env.conflicts items.keys ≠ [] ∧ onConflict = .raise
    · have hr' : (items.keys.filter fun key => (s.env key).isSome) ≠ [] ∧ onConflict = .raise := hr
      rw [if_pos hr]
      simp only [begin, if_pos hr']
      rfl
    · have hr' : ¬ ((items.keys.filter fun key => (s.env key).isSome) ≠ [] ∧
          onConflict = .raise) := hr
      have hput : putResolved codec (s.env.conflicts items.keys) onConflict s.env items.entries =
          putMany codec s.env (resolveItems (s.env.conflicts items.keys) onConflict
            (s.contents codec) ∅ items.entries).entries := by
        rw [putResolved_eq_putMany items.nodup fun k _ => rfl,
          entries_resolveItems items.nodup fun k _ hk => by cases hk]
        rfl
      rw [if_neg hr]
      simp only [begin, if_neg hr', writeItems_eq]
      rw [← hput]
      rfl

omit [ShallowMerge V] in
theorem snd_writeItems_of_error {e : WriteError K E}
    (h : (s.writeItems codec items).1 = .error e) : (s.writeItems codec items).2 = s := by
  rw [writeItems_eq] at h ⊢
  simp only [snd_begin_of_error h]

/-- A call that raises leaves the store as it was, at whichever item. -/
theorem snd_setMany_of_error {e : WriteError K E}
    (h : (s.setMany codec items onConflict).1 = .error e) :
    (s.setMany codec items onConflict).2 = s := by
  revert h
  rw [setMany]
  split
  · intro _
    rfl
  · split_ifs
    · intro _
      rfl
    · exact snd_writeItems_of_error
    · intro h
      simp only [snd_begin_of_error h]

omit [ShallowMerge V] in
theorem contents_writeItems (hround : codec.RoundTrip)
    (h : s.writeItems codec items = (.ok (), s')) :
    s'.closed = s.closed ∧ s'.contents codec = (s.contents codec).write items.entries := by
  rw [writeItems_eq, begin] at h
  cases hp : putMany codec s.env items.entries with
  | mk outcome env =>
    cases outcome with
    | error e =>
      rw [hp] at h
      cases h
    | ok _ =>
      rw [hp] at h
      cases h
      exact ⟨rfl, decode_putMany hround hp⟩

/-- **A successful `set_many`, on values.** -/
theorem contents_setMany (hround : codec.RoundTrip) (h : s.closed = false)
    (ho : onConflict ≠ .overwrite) (hs : s.setMany codec items onConflict = (.ok (), s')) :
    s'.closed = false ∧
      (s.contents codec).setMany items onConflict = .ok (s'.contents codec) := by
  rw [setMany_of_resolve codec h ho] at hs
  rw [Contents.setMany, if_neg ho]
  cases hr : resolveConflicts items onConflict (s.contents codec).containsMany
      (s.contents codec) with
  | error e =>
    rw [hr] at hs
    cases hs
  | ok toWrite =>
    rw [hr] at hs
    obtain ⟨hclosed, hcon⟩ := contents_writeItems hround hs
    exact ⟨hclosed.trans h, congrArg Except.ok hcon.symm⟩

omit [ShallowMerge V] in
theorem env_writeItems_of_not_mem {key : K} (hk : key ∉ items.keys) :
    (s.writeItems codec items).2.env key = s.env key := by
  have hput : (putMany codec s.env items.entries).2 key = s.env key := putMany_of_not_mem hk
  rw [writeItems_eq, begin]
  cases hp : putMany codec s.env items.entries with
  | mk outcome env =>
    cases outcome with
    | error e => rfl
    | ok _ =>
      rw [hp] at hput
      exact hput

variable (codec) in
theorem env_setMany_of_not_mem (h : s.closed = false) (ho : onConflict ≠ .overwrite) {key : K}
    (hk : key ∉ items.keys) : (s.setMany codec items onConflict).2.env key = s.env key := by
  rw [setMany_of_resolve codec h ho]
  cases hr : resolveConflicts items onConflict (s.contents codec).containsMany
      (s.contents codec) with
  | error e => rfl
  | ok toWrite =>
    refine env_writeItems_of_not_mem fun hmem => ?_
    have hnone : toWrite.get? key = none := by
      rw [Contents.get?_resolveConflicts hr, Dict.get?_eq_none_iff.mpr hk, Option.bind_none]
    exact Dict.get?_eq_none_iff.mp hnone hmem

omit [ShallowMerge V] in
variable (codec txn rows) in
theorem fst_putMany_ne_store (error : StoreError K) :
    (putMany codec txn rows).1 ≠ .error (.store error) := by
  induction rows generalizing txn with
  | nil => nofun
  | cons row rows ih =>
    obtain ⟨key, value⟩ := row
    rw [putMany]
    split
    · simp
    · exact ih _

omit [ShallowMerge V] in
/-- The write raises what the encoder raises, nothing else. -/
theorem fst_writeItems_ne_store (error : StoreError K) :
    (s.writeItems codec items).1 ≠ .error (.store error) := by
  have hput := fst_putMany_ne_store codec s.env items.entries error
  rw [writeItems_eq, begin]
  revert hput
  cases putMany codec s.env items.entries with
  | mk outcome env => cases outcome <;> exact id

/-- **LMDB's inlined conflict resolution.** With the store's own `contains_many` and `get`,
`set_many` is `resolve_conflicts` followed by the write of what it returns, errors included;
`aresolve_conflicts` returns the same when its lookups answer the same; what both keep of a
conflicting key under `merge` is the union of the stored and the new value, the new one winning;
and a call that succeeds leaves the keys outside `items` as they were. -/
theorem setMany_eq_resolveConflicts {F J : Type} [DecidableEq F] (codec : Codec (Dict F J) R E)
    (hround : codec.RoundTrip) (s : LmdbStore K R) (containsMany : List K → List Bool)
    (get : K → Option (Dict F J)) (hc : ∀ keys, s.containsMany keys = .ok (containsMany keys))
    (hg : ∀ key, s.get codec key = .ok (get key)) (items : Dict K (Dict F J))
    (onConflict : OnConflict) (ho : onConflict ≠ .overwrite) :
    (s.setMany codec items onConflict =
      match resolveConflicts items onConflict containsMany get with
      | .error e => (.error (.store e), s)
      | .ok toWrite => s.writeItems codec toWrite) ∧
    ((∃ keys, (s.setMany codec items onConflict).1 = .error (.store (.keyError keys))) ↔
      ∃ keys, resolveConflicts items onConflict containsMany get = .error (.keyError keys)) ∧
    (∀ (S : Type) (acontainsMany : List K → StateM S (List Bool))
      (aget : K → StateM S (Option (Dict F J))),
      (∀ keys σ, ((acontainsMany keys).run σ).1 = containsMany keys) →
      (∀ key σ, ((aget key).run σ).1 = get key) →
      ∀ σ, ((aresolveConflicts items onConflict acontainsMany aget).run σ).1 =
        resolveConflicts items onConflict containsMany get) ∧
    (∀ toWrite, resolveConflicts items onConflict containsMany get = .ok toWrite →
      ∀ key, toWrite.get? key = (items.get? key).bind fun new =>
        match get key with
        | none => some new
        | some old => if onConflict = .skip then none else some (old.update new)) ∧
    (∀ s', s.setMany codec items onConflict = (.ok (), s') →
      (∀ key, s'.get codec key = .ok (match items.get? key, get key with
        | none, old => old
        | some new, none => some new
        | some new, some old => if onConflict = .skip then some old else some (old.update new))) ∧
      ∀ key, key ∉ items.keys → s'.env key = s.env key) ∧
    ∀ (old new : Dict F J) (field : F),
      (old.update new).get? field = (new.get? field).or (old.get? field) := by
  have hclosed : s.closed = false := (containsMany_eq_ok_iff.mp (hc [])).1
  obtain rfl : s.contents codec = get := funext fun key => (get_eq_ok_iff.mp (hg key)).2
  obtain rfl : (s.contents codec).containsMany = containsMany := by
    funext keys
    rw [containsMany_contents]
    exact (containsMany_eq_ok_iff.mp (hc keys)).2
  have hset := setMany_of_resolve codec hclosed ho items
  refine ⟨?_, ?_, ?_, ?_, ?_, ?_⟩
  · rw [hset]
    cases resolveConflicts items onConflict (s.contents codec).containsMany
        (s.contents codec) <;> rfl
  · rw [hset]
    cases hr : resolveConflicts items onConflict (s.contents codec).containsMany
        (s.contents codec) with
    | error e => simp
    | ok toWrite => simp [fst_writeItems_ne_store]
  · intro S acontainsMany aget hac hag σ
    exact aresolveConflicts_eq hac hag σ
  · intro toWrite hr key
    rw [Contents.get?_resolveConflicts hr key]
    cases items.get? key <;> cases s.contents codec key <;> rfl
  · intro s' hs
    obtain ⟨hclosed', hcon⟩ := contents_setMany hround hclosed ho hs
    refine ⟨fun key => ?_, fun key hk => ?_⟩
    · rw [get_eq_ok_iff]
      refine ⟨hclosed', ?_⟩
      rw [Contents.setMany_apply hcon ho key]
      cases items.get? key <;> cases s.contents codec key <;> rfl
    · have hframe := env_setMany_of_not_mem codec hclosed ho hk
      rwa [hs] at hframe
  · intro old new field
    exact Dict.get?_update old new field

/-- Values kept as they are. -/
def plainCodec : Codec (Dict ℕ ℕ) (Dict ℕ ℕ) Unit := ⟨.ok, id⟩

/-- A store that holds `{1: {1: 10, 2: 20}}`. -/
def stored : LmdbStore ℕ (Dict ℕ ℕ) :=
  ⟨fun key => if key = 1 then some (Dict.ofList [(1, 10), (2, 20)]) else none, false⟩

/-- `{1: {2: 21, 3: 30}, 5: {}}`. -/
def merged : Dict ℕ (Dict ℕ ℕ) := Dict.ofList [(1, Dict.ofList [(2, 21), (3, 30)]), (5, ∅)]

/-- After merging, key `1` holds `{1: 10, 2: 21, 3: 30}`. -/
theorem setMany_merged : ∃ s', stored.setMany plainCodec merged .merge = (.ok (), s') ∧
    s'.get plainCodec 1 = .ok (some (Dict.ofList [(1, 10), (2, 21), (3, 30)])) := by
  have h := setMany_eq_resolveConflicts plainCodec (fun _ _ h => by cases h; rfl) stored
    (fun keys => keys.map fun key => (stored.env key).isSome) stored.env
    (fun keys => by cases keys <;> rfl)
    (fun key => by simp [LmdbStore.get, checkOpen, stored, plainCodec]) merged .merge nofun
  exact ⟨_, rfl, (h.2.2.2.2.1 _ rfl).1 1⟩

end LmdbStore

end Persista
