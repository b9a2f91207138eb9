import Persista.Store.Redis
import Mathlib.Data.String.Basic

/-!
# The Redis stores are serializable

Any number of clients, each running one of the calls of `Redis.Call`, interleave their commands in
any order. The calls that are over, in the order of their last effective command, explain the
contents.

## Where a call takes effect

* a call that writes, or that finds nothing to write, at its successful EXEC
* a `raise` call that raises `KeyError`, at its SMISMEMBER
* a call that fails its own checks, at its start

WATCH covers the data keys and not the reserved set, which the existence test reads. That is enough
because every block modifies a data key whenever it changes that key's membership; `Consistent` is
the invariant that says so. A client that was not marked dirty has therefore read the present
contents (`ClientInv`), existence included.
-/

namespace Persista

namespace Redis

open Interleaving

variable {ι K V R : Type} [LinearOrder K] [DecidableEq ι] [ShallowMerge V] {layout : Layout V R}
  {keysSet : K} {calls : ι → Call K V}

/-- What is true of a client inside `set_many`. -/
def ClientInv (layout : Layout V R) (keysSet : K) (db : Keyspace K R) (items : Dict K V)
    (onConflict : OnConflict) (c : Client K V) : Prop :=
  match c.phase with
  | .start => True
  | .watch => onConflict ≠ .overwrite ∧ keysSet ∉ items.keys
  | .watched => onConflict ≠ .overwrite ∧ keysSet ∉ items.keys ∧ c.watching = items.keys
  | .resolving conflicts todo toWrite =>
    onConflict ≠ .overwrite ∧ keysSet ∉ items.keys ∧ c.watching = items.keys ∧
      (c.dirty = false →
        (contents keysSet db).Resolving layout items onConflict conflicts todo toWrite)
  | .done _ => True

/-- The invariant of a run that started on the database `db₀`. -/
structure Inv (layout : Layout V R) (keysSet : K) (calls : ι → Call K V) (db₀ : Keyspace K R)
    (s : System ι K V R) : Prop where
  consistent : Consistent keysSet s.db
  client : ∀ i items onConflict, calls i = .setMany items onConflict →
    ClientInv layout keysSet s.db items onConflict (s.client i)
  serial : Serializable (fun i m => Call.atomic layout keysSet m (calls i)) (contents keysSet db₀)
    (fun i => (s.client i).phase.outcome) (contents keysSet s.db)

variable {db₀ : Keyspace K R} {s : System ι K V R}

omit [DecidableEq ι] in
theorem inv_init (h : Consistent keysSet db₀) : Inv layout keysSet calls db₀ (init db₀) where
  consistent := h
  client _ _ _ _ := trivial
  serial := Serializable.start fun _ => rfl

/-! ### The two kinds of turns -/

/-- A command that modifies nothing, inside a call. -/
theorem Inv.move (h : Inv layout keysSet calls db₀ s) {i : ι} {c : Client K V}
    (hi : (s.client i).phase.outcome = none) (hc : c.phase.outcome = none)
    (hinv : ∀ items onConflict, calls i = .setMany items onConflict →
      ClientInv layout keysSet s.db items onConflict c) :
    Inv layout keysSet calls db₀ (s.move i c) where
  consistent := h.consistent
  client j items onConflict hj := by
    by_cases hji : j = i
    · subst hji
      simpa [System.move] using hinv items onConflict hj
    · simpa [System.move, hji] using h.client j items onConflict hj
  serial := Serializable.stay (f := fun c : Client K V => c.phase.outcome) h.serial
    (hc.trans hi.symm)

/-- A call that is over without having modified anything. -/
theorem Inv.finished (h : Inv layout keysSet calls db₀ s) {i : ι} {o : Except (StoreError K) Unit}
    (hi : (s.client i).phase.outcome = none)
    (hcall : Call.atomic layout keysSet (contents keysSet s.db) (calls i) =
      (o, contents keysSet s.db)) :
    Inv layout keysSet calls db₀ (s.move i ⟨.done o, [], false⟩) where
  consistent := h.consistent
  client j items onConflict hj := by
    by_cases hji : j = i
    · subst hji
      simp [System.move, ClientInv]
    · simpa [System.move, hji] using h.client j items onConflict hj
  serial := Serializable.take (f := fun c : Client K V => c.phase.outcome) h.serial hi hcall rfl

/-- A block of another client: a client that is not marked dirty has not been disturbed. -/
theorem ClientInv.block {db : Keyspace K R} {items : Dict K V} {onConflict : OnConflict}
    {c : Client K V} (h : ClientInv layout keysSet db items onConflict c)
    (block : List (Command K R)) :
    ClientInv layout keysSet (execBlock db block) items onConflict
      { c with dirty := c.dirty || c.watching.any (blockModifies db block) } := by
  obtain ⟨phase, watching, dirty⟩ := c
  cases phase with
  | start => trivial
  | watch => exact h
  | watched => exact h
  | done o => trivial
  | resolving conflicts todo toWrite =>
    obtain ⟨ho, hk, rfl, hres⟩ := h
    refine ⟨ho, hk, rfl, fun hd => ?_⟩
    simp only [Bool.or_eq_false_iff, List.any_eq_false] at hd
    refine (hres hd.1).congr fun k hki => ?_
    have hsame : execBlock db block k = db k :=
      execBlock_of_not_modifies (by simpa using hd.2 k hki)
    rw [contents, contents, getString_congr hsame]

/-- A call that takes effect with its block. -/
theorem Inv.multi (h : Inv layout keysSet calls db₀ s) {i : ι} {block : List (Command K R)}
    (hi : (s.client i).phase.outcome = none) (hb : Consistent keysSet (execBlock s.db block))
    (hcall : Call.atomic layout keysSet (contents keysSet s.db) (calls i) =
      (.ok (), contents keysSet (execBlock s.db block))) :
    Inv layout keysSet calls db₀ (s.multi i block) where
  consistent := hb
  client j items onConflict hj := by
    by_cases hji : j = i
    · subst hji
      simp [System.multi, ClientInv]
    · simpa [System.multi, hji] using (h.client j items onConflict hj).block block
  serial := h.serial.complete hi hcall (by simp [System.multi, Phase.outcome])
    fun j hji => by simp [System.multi, hji, Phase.outcome]

/-! ### Every turn keeps the invariant -/

theorem atomic_setMany {m : Contents K R} {items : Dict K V} {onConflict : OnConflict}
    (hk : keysSet ∉ items.keys) :
    Call.atomic layout keysSet m (.setMany items onConflict) =
      Contents.atomicSetMany layout items onConflict m :=
  if_neg hk

/-- In a consistent database the set of keys answers the existence query. -/
theorem found_eq {db : Keyspace K R} (h : Consistent keysSet db) (keys : List K) :
    (keys.map fun k => decide (k ∈ members db keysSet)) = (contents keysSet db).containsMany keys :=
  List.map_congr_left fun k _ => by rw [Bool.eq_iff_iff, decide_eq_true_iff, h.mem_iff]

section SetMany

variable {s' : System ι K V R} {i : ι} {items : Dict K V} {onConflict : OnConflict}

omit [LinearOrder K] [DecidableEq ι] [ShallowMerge V] in
/-- Client `i` runs one call. -/
theorem forall_setMany {P : Dict K V → OnConflict → Prop}
    (hcalls : calls i = .setMany items onConflict) (h : P items onConflict) :
    ∀ items' onConflict', calls i = .setMany items' onConflict' → P items' onConflict' := by
  intro items' onConflict' he
  rw [hcalls] at he
  cases he
  exact h

/-- The checks before the loop, and the `overwrite`. -/
theorem Inv.start (h : Inv layout keysSet calls db₀ s)
    (hcalls : calls i = .setMany items onConflict)
    (hp : (s.client i).phase = .start) (hs : step layout keysSet calls s i = some s') :
    Inv layout keysSet calls db₀ s' := by
  have hout : (s.client i).phase.outcome = none := by rw [hp]; rfl
  simp only [step, hcalls, hp] at hs
  split_ifs at hs with he hk ho <;> cases hs
  · obtain rfl : items = ∅ := Dict.ext he
    refine h.finished hout ?_
    rw [hcalls]
    exact (atomic_setMany (by simp)).trans Contents.atomicSetMany_empty
  · refine h.finished hout ?_
    rw [hcalls]
    simp [Call.atomic, hk]
  · subst ho
    obtain ⟨hb, hcon⟩ := consistent_writeBlock layout h.consistent hk
    refine h.multi hout hb ?_
    rw [hcalls, hcon]
    exact (atomic_setMany hk).trans Contents.atomicSetMany_overwrite
  · exact h.move hout rfl (forall_setMany hcalls ⟨ho, hk⟩)

/-- The existence query. -/
theorem Inv.query (h : Inv layout keysSet calls db₀ s)
    (hcalls : calls i = .setMany items onConflict)
    (hp : (s.client i).phase = .watched) (hs : step layout keysSet calls s i = some s') :
    Inv layout keysSet calls db₀ s' := by
  have hout : (s.client i).phase.outcome = none := by rw [hp]; rfl
  have hinv := h.client i items onConflict hcalls
  simp only [ClientInv, hp] at hinv
  obtain ⟨ho, hk, hw⟩ := hinv
  simp only [step, hcalls, hp, found_eq h.consistent, Contents.conflictsOf_containsMany] at hs
  split_ifs at hs with hc <;> cases hs
  · -- the call raises, on the contents it reads now
    obtain ⟨hc, rfl⟩ := hc
    refine h.finished hout ?_
    rw [hcalls]
    exact (atomic_setMany hk).trans (Contents.atomicSetMany_of_conflict hc)
  · exact h.move hout rfl
      (forall_setMany hcalls ⟨ho, hk, hw, fun _ => Contents.Resolving.start (by tauto)⟩)

/-- The loop over the items, and the EXEC. -/
theorem Inv.resolve (h : Inv layout keysSet calls db₀ s)
    (hcalls : calls i = .setMany items onConflict) {conflicts : List K} {todo : List (K × V)}
    {toWrite : Dict K V} (hp : (s.client i).phase = .resolving conflicts todo toWrite)
    (hs : step layout keysSet calls s i = some s') : Inv layout keysSet calls db₀ s' := by
  have hout : (s.client i).phase.outcome = none := by rw [hp]; rfl
  have hinv := h.client i items onConflict hcalls
  simp only [ClientInv, hp] at hinv
  obtain ⟨ho, hk, hw, hres⟩ := hinv
  cases todo with
  | cons item todo =>
    have hget : (fun k => (getString s.db k).map layout.rowToValue) =
        (contents keysSet s.db).read layout := by
      rw [contents_eq_getString h.consistent.keys]
      rfl
    simp only [step, hcalls, hp, hget] at hs
    cases hs
    exact h.move hout rfl (forall_setMany hcalls ⟨ho, hk, hw, fun hd => (hres hd).get⟩)
  | nil =>
    cases hd : (s.client i).dirty with
    | true =>
      simp only [step, hcalls, hp, hd, if_true] at hs
      cases hs
      exact h.move hout rfl (forall_setMany hcalls ⟨ho, hk⟩)
    | false =>
      simp only [step, hcalls, hp, hd, Bool.false_eq_true, if_false] at hs
      cases hs
      have hr := hres hd
      have hk' : keysSet ∉ toWrite.keys := fun hmem => hk (hr.keys_sub _ hmem)
      obtain ⟨hb, hcon⟩ := consistent_writeBlock layout h.consistent hk'
      refine h.multi hout hb ?_
      rw [hcalls, hcon]
      exact (atomic_setMany hk).trans (hr.finish ho)

theorem Inv.setMany_step (h : Inv layout keysSet calls db₀ s)
    (hcalls : calls i = .setMany items onConflict)
    (hs : step layout keysSet calls s i = some s') : Inv layout keysSet calls db₀ s' := by
  cases hp : (s.client i).phase with
  | start => exact h.start hcalls hp hs
  | watch =>
    have hinv := h.client i items onConflict hcalls
    simp only [ClientInv, hp] at hinv
    simp only [step, hcalls, hp] at hs
    cases hs
    exact h.move (by rw [hp]; rfl) rfl (forall_setMany hcalls ⟨hinv.1, hinv.2, rfl⟩)
  | watched => exact h.query hcalls hp hs
  | resolving conflicts todo toWrite => exact h.resolve hcalls hp hs
  | done o =>
    simp only [step, hcalls, hp] at hs
    cases hs

end SetMany

theorem Inv.step (h : Inv layout keysSet calls db₀ s) {i : ι} {s' : System ι K V R}
    (hs : Redis.step layout keysSet calls s i = some s') : Inv layout keysSet calls db₀ s' := by
  cases hcalls : calls i with
  | setMany items onConflict => exact h.setMany_step hcalls hs
  | delete key =>
    rw [Redis.step] at hs
    cases hp : (s.client i).phase <;> simp only [hcalls, hp] at hs <;> try cases hs
    have hout : (s.client i).phase.outcome = none := by rw [hp]; rfl
    split_ifs at hs with hk <;> cases hs
    · refine h.finished hout ?_
      rw [hcalls]
      simp [Call.atomic, hk]
    · have hk' : keysSet ∉ [key] := by simpa using Ne.symm hk
      obtain ⟨hb, hcon⟩ := consistent_deleteBlock h.consistent hk'
      refine h.multi hout hb ?_
      rw [hcalls, hcon]
      simp [Call.atomic, hk]
  | deleteMany keys =>
    rw [Redis.step] at hs
    cases hp : (s.client i).phase <;> simp only [hcalls, hp] at hs <;> try cases hs
    have hout : (s.client i).phase.outcome = none := by rw [hp]; rfl
    split_ifs at hs with he hk <;> cases hs
    · refine h.finished hout ?_
      rw [hcalls, he]
      have hdel : (contents keysSet s.db).delete [] = contents keysSet s.db := by
        funext k
        simp [Contents.delete]
      simp [Call.atomic, hdel]
    · refine h.finished hout ?_
      rw [hcalls]
      simp [Call.atomic, hk]
    · obtain ⟨hb, hcon⟩ := consistent_deleteBlock h.consistent hk
      refine h.multi hout hb ?_
      rw [hcalls, hcon]
      simp [Call.atomic, hk]

/-- Every state of every run satisfies the invariant. -/
theorem inv_of_reaches (hdb : Consistent keysSet db₀)
    (h : Reaches (Redis.step layout keysSet calls) anyTurn (init db₀) s) :
    Inv layout keysSet calls db₀ s :=
  h.invariant (inv_init hdb) fun _ _ _ hi _ hs => hi.step hs

/-- **The optimistic transactions are serializable.** In every state of every run the calls that are
over, executed atomically in some order, give the outcomes they had and the contents there are. -/
theorem transactions_serializable (hdb : Consistent keysSet db₀)
    (h : Reaches (Redis.step layout keysSet calls) anyTurn (init db₀) s) :
    Serializable (fun i m => Call.atomic layout keysSet m (calls i)) (contents keysSet db₀)
      (fun i => (s.client i).phase.outcome) (contents keysSet s.db) :=
  (inv_of_reaches hdb h).serial

/-! ### A merge that retries -/

/-- A `merge` and an `overwrite` of one key. -/
def mergeOverwrite : Bool → Call String (Dict String ℕ)
  | false => .setMany (.ofList [("k", .ofList [("a", 1)])]) .merge
  | true => .setMany (.ofList [("k", .ofList [("b", 2)])]) .overwrite

/-- The schedule: the `overwrite` runs after the `merge` found the key missing; EXEC fails and the
second round of the loop merges into the new value. -/
def retrySchedule : List Bool :=
  [false, false, false, true, false, false, false, false, false, false]

/-- The end of that run. -/
def retried : Option (System Bool String (Dict String ℕ) (Dict String ℕ)) :=
  play (Redis.step ⟨id, id⟩ "__keys__" mergeOverwrite) (init fun _ => none) retrySchedule

theorem transactions_serializable_retry :
    ∃ s, retried = some s ∧
      ((s.client false).phase.outcome, (s.client true).phase.outcome,
        contents "__keys__" s.db "k") =
          (some (.ok ()), some (.ok ()), some (.ofList [("b", 2), ("a", 1)])) ∧
      Serializable (fun i m => Call.atomic ⟨id, id⟩ "__keys__" m (mergeOverwrite i))
        (contents "__keys__" fun _ => none) (fun i => (s.client i).phase.outcome)
        (contents "__keys__" s.db) := by
  obtain ⟨s, hs, ho⟩ := Option.map_eq_some_iff.mp
    (rfl : retried.map (fun s => ((s.client false).phase.outcome, (s.client true).phase.outcome,
      contents "__keys__" s.db "k")) = some _)
  exact ⟨s, hs, ho, transactions_serializable consistent_empty (reaches_of_play hs)⟩

end Redis

end Persista
