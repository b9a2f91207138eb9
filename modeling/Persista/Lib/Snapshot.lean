import Persista.Lib.Dict
import Persista.Lib.Interleaving

/-!
# Iterating over a snapshot of the keys

An iterator lists the keys of a store once, cuts the list into batches, and reads one batch at each
later turn; a key that holds no value by then is left out. Anybody may change the store between two
of its turns, the first included.

The snapshot fixes which keys can be yielded and in which batch, so no key is yielded twice whatever
happens to the store. The values are those of the moment of the read. Nothing about the operations
is needed but that the store goes on listing the keys that hold a value.

## Main definitions

* `Source` — a store as an iterator sees it, and `Source.Lists` when it can be trusted
* `Iteration`, `step` — an iterator and a store that changes under it
* `Law` — what is promised of every run

## Main results

* `Inv.step` — what one turn preserves
* `law` — the promises are kept when the operations keep the listing right
-/

namespace Snapshot

open Interleaving

variable {σ Op K V : Type}

/-- A store as an iterator sees it. -/
structure Source (σ K V : Type) where
  /-- The keys, in an order of the store's own. -/
  list : σ → List K
  /-- The value under a key. -/
  read : σ → K → Option V

/-- The keys that hold a value are listed, once each, and no others. -/
structure Source.Lists (source : Source σ K V) (s : σ) : Prop where
  nodup : (source.list s).Nodup
  mem_iff : ∀ k, k ∈ source.list s ↔ (source.read s k).isSome

/-- How a list of keys is cut. -/
structure Cutting (K : Type) where
  /-- The batches of a list. -/
  run (keys : List K) (size : ℕ) : List (List K)
  /-- The batches are consecutive runs. -/
  flatten_run (keys : List K) {size : ℕ} (hs : 1 ≤ size) : (run keys size).flatten = keys
  /-- No batch is longer than asked for. -/
  length_le (keys : List K) {size : ℕ} (hs : 1 ≤ size) :
    ∀ batch ∈ run keys size, batch.length ≤ size

/-- Where an iterator stands: just created, or with batches of keys that it has yet to read. -/
inductive Iterator (K : Type)
  | created
  | pulling (left : List (List K))
  deriving DecidableEq

/-- What happens next: the iterator takes a turn, or somebody calls an operation. -/
inductive Turn (Op : Type)
  | next
  | op (op : Op)

/-- An iteration on its way. -/
structure Iteration (σ K V : Type) where
  store : σ
  iterator : Iterator K
  /-- What has been yielded. -/
  batches : List (Dict K V)

/-- An iteration that has not begun. -/
def start (s : σ) : Iteration σ K V := ⟨s, .created, []⟩

namespace Iteration

/-- The keys yielded, in their order. -/
def yielded (it : Iteration σ K V) : List K := it.batches.flatMap Dict.keys

/-- All batches have been read. -/
def Exhausted (it : Iteration σ K V) : Prop := it.iterator = .pulling []

end Iteration

/-- The key holds a value. -/
def Holds (source : Source σ K V) (k : K) (it : Iteration σ K V) (_ : Turn Op) : Prop :=
  (source.read it.store k).isSome

instance (source : Source σ K V) (k : K) (it : Iteration σ K V) (turn : Turn Op) :
    Decidable (Holds source k it turn) :=
  inferInstanceAs (Decidable ((source.read it.store k).isSome = true))

/-- The key holds no value. -/
def Lacks (source : Source σ K V) (k : K) (it : Iteration σ K V) (_ : Turn Op) : Prop :=
  source.read it.store k = none

variable [DecidableEq K]

/-- One read: the keys that hold a value, with it. -/
def readBatch (m : K → Option V) (keys : List K) : Dict K V :=
  .ofList (keys.filterMap fun k => (m k).map (k, ·))

/-- One turn. An exhausted iterator stays as it is. -/
def step (exec : σ → Op → Option σ) (source : Source σ K V) (cutting : Cutting K) (size : ℕ)
    (it : Iteration σ K V) : Turn Op → Option (Iteration σ K V)
  | .next =>
    match it.iterator with
    | .created => some { it with iterator := .pulling (cutting.run (source.list it.store) size) }
    | .pulling [] => some it
    | .pulling (keys :: left) =>
      some { it with
        iterator := .pulling left
        batches := it.batches ++ [readBatch (source.read it.store) keys] }
  | .op op => (exec it.store op).map fun store => { it with store }

/-! ### The promises -/

section Law

variable (exec : σ → Op → Option σ) (source : Source σ K V) (cutting : Cutting K) (size : ℕ)

/-- What is promised of every iteration that starts on `s₀`. -/
structure Law (s₀ : σ) : Prop where
  /-- No key is yielded twice. -/
  distinct : ∀ it, Reaches (step exec source cutting size) anyTurn (start s₀) it →
    it.yielded.Nodup
  /-- No batch is longer than asked for. -/
  bounded : ∀ it, Reaches (step exec source cutting size) anyTurn (start s₀) it →
    ∀ batch ∈ it.batches, batch.length ≤ size
  /-- A key that holds a value from before the first turn of the iterator until it is exhausted is
  yielded once. -/
  complete : ∀ it it' k, Reaches (step exec source cutting size) anyTurn (start s₀) it →
    it.iterator = .created → Reaches (step exec source cutting size) (Holds source k) it it' →
    it'.Exhausted → it'.yielded.count k = 1
  /-- A batch holds what the store holds at the turn that reads it. -/
  current : ∀ it it', Reaches (step exec source cutting size) anyTurn (start s₀) it →
    step exec source cutting size it .next = some it' → it'.batches = it.batches ∨
      ∃ batch, it'.batches = it.batches ++ [batch] ∧
        ∀ k v, batch.get? k = some v → source.read it.store k = some v
  /-- A key that has lost its value and gets no other is not yielded any more. -/
  deleted : ∀ it it' k, Reaches (step exec source cutting size) anyTurn (start s₀) it →
    k ∉ it.yielded → Reaches (step exec source cutting size) (Lacks source k) it it' →
    k ∉ it'.yielded
  /-- An iterator that takes enough turns is exhausted. -/
  exhausts : ∀ it, Reaches (step exec source cutting size) anyTurn (start s₀) it →
    ∃ n it', play (step exec source cutting size) it (List.replicate n .next) = some it' ∧
      it'.Exhausted

end Law

/-! ### One read -/

theorem get?_readBatch (m : K → Option V) (keys : List K) (k : K) :
    (readBatch m keys).get? k = if k ∈ keys then m k else none :=
  Dict.get?_ofList_filterMap m keys k

theorem mem_keys_readBatch {m : K → Option V} {keys : List K} {k : K} :
    k ∈ (readBatch m keys).keys ↔ k ∈ keys ∧ (m k).isSome := by
  rw [← Dict.isSome_get?_iff, get?_readBatch]
  split
  · next h => simp [h]
  · next h => simp [h]

theorem length_readBatch_le (m : K → Option V) (keys : List K) :
    (readBatch m keys).length ≤ keys.length := by
  rw [← Dict.length_keys]
  have hsub : (readBatch m keys).keys ⊆ keys := fun k hk => (mem_keys_readBatch.mp hk).1
  exact ((readBatch m keys).nodup.subperm hsub).length_le

/-! ### What holds all along -/

section Runs

variable {exec : σ → Op → Option σ} {source : Source σ K V} {cutting : Cutting K} {size : ℕ}
  {P : σ → Prop} {it it' : Iteration σ K V} {k : K}

/-- What holds all along: the store is good, and the keys that have been yielded and those that are
still to be read are apart. -/
structure Inv (P : σ → Prop) (size : ℕ) (it : Iteration σ K V) : Prop where
  good : P it.store
  distinct : it.yielded.Nodup
  fresh : it.iterator = .created → it.batches = []
  apart : ∀ left, it.iterator = .pulling left → (it.yielded ++ left.flatten).Nodup
  short : ∀ left, it.iterator = .pulling left → ∀ keys ∈ left, keys.length ≤ size
  bounded : ∀ batch ∈ it.batches, batch.length ≤ size

omit [DecidableEq K] in
theorem inv_start {s : σ} (h : P s) : Inv P size (start s : Iteration σ K V) where
  good := h
  distinct := List.nodup_nil
  fresh _ := rfl
  apart _ hleft := by cases hleft
  short _ hleft := by cases hleft
  bounded _ hb := by cases hb

/-- What one turn does. -/
theorem step_cases {turn : Turn Op} (h : step exec source cutting size it turn = some it') :
    (∃ op store, turn = .op op ∧ exec it.store op = some store ∧ it' = { it with store }) ∨
    turn = .next ∧
      (it.iterator = .created ∧
          it' = { it with iterator := .pulling (cutting.run (source.list it.store) size) } ∨
        it.iterator = .pulling [] ∧ it' = it ∨
        ∃ keys left, it.iterator = .pulling (keys :: left) ∧
          it' = { it with
            iterator := .pulling left
            batches := it.batches ++ [readBatch (source.read it.store) keys] }) := by
  cases turn with
  | op op =>
    obtain ⟨store, hstore, rfl⟩ := Option.map_eq_some_iff.mp h
    exact .inl ⟨op, store, rfl, hstore, rfl⟩
  | next =>
    refine .inr ⟨rfl, ?_⟩
    rw [step] at h
    split at h
    · next hc => exact .inl ⟨hc, (Option.some.inj h).symm⟩
    · next hp => exact .inr (.inl ⟨hp, (Option.some.inj h).symm⟩)
    · next keys left hp => exact .inr (.inr ⟨keys, left, hp, (Option.some.inj h).symm⟩)

omit [DecidableEq K] in
theorem yielded_append (it : Iteration σ K V) (iterator : Iterator K) (batch : Dict K V) :
    Iteration.yielded { it with iterator, batches := it.batches ++ [batch] } =
      it.yielded ++ batch.keys := by
  rw [Iteration.yielded, Iteration.yielded, List.flatMap_append, List.flatMap_singleton]

/-- A batch yields keys of its own only. -/
theorem nodup_append_readBatch {yielded keys rest : List K} (m : K → Option V)
    (h : (yielded ++ (keys ++ rest)).Nodup) :
    (yielded ++ (readBatch m keys).keys ++ rest).Nodup := by
  have hsub : (readBatch m keys).keys ⊆ keys := fun k hk => (mem_keys_readBatch.mp hk).1
  simp only [List.nodup_append] at h ⊢
  obtain ⟨hyielded, ⟨hkeys, hrest, hkr⟩, hyk⟩ := h
  refine ⟨⟨hyielded, (readBatch m keys).nodup, fun a ha b hb => ?_⟩, hrest, fun a ha b hb => ?_⟩
  · exact hyk a ha b (List.mem_append_left _ (hsub hb))
  · rcases List.mem_append.mp ha with ha | ha
    · exact hyk a ha b (List.mem_append_right _ hb)
    · exact hkr a (hsub ha) b hb

/-- **One turn.** -/
theorem Inv.step (hs : 1 ≤ size) (hgood : ∀ s op s', P s → exec s op = some s' → P s')
    (hlists : ∀ s, P s → source.Lists s) (h : Inv P size it) {turn : Turn Op}
    (hstep : step exec source cutting size it turn = some it') : Inv P size it' := by
  rcases step_cases hstep with ⟨op, store, rfl, hexec, rfl⟩ | ⟨rfl, hnext⟩
  · exact ⟨hgood _ op _ h.good hexec, h.distinct, h.fresh, h.apart, h.short, h.bounded⟩
  · rcases hnext with ⟨hc, rfl⟩ | ⟨-, rfl⟩ | ⟨keys, left, hp, rfl⟩
    · refine ⟨h.good, h.distinct, nofun, ?_, ?_, h.bounded⟩
      · rintro left hleft
        obtain rfl := Iterator.pulling.inj hleft
        have hnone : it.yielded = [] := by rw [Iteration.yielded, h.fresh hc, List.flatMap_nil]
        rw [cutting.flatten_run _ hs]
        show (it.yielded ++ source.list it.store).Nodup
        rw [hnone, List.nil_append]
        exact (hlists _ h.good).nodup
      · rintro left hleft
        obtain rfl := Iterator.pulling.inj hleft
        exact cutting.length_le _ hs
    · exact h
    · have hapart := h.apart _ hp
      rw [List.flatten_cons] at hapart
      have hnodup := nodup_append_readBatch (source.read it.store) hapart
      refine ⟨h.good, ?_, nofun, ?_, ?_, ?_⟩
      · rw [yielded_append]
        exact (List.nodup_append.mp hnodup).1
      · rintro left' hleft
        obtain rfl := Iterator.pulling.inj hleft
        rw [yielded_append]
        exact hnodup
      · rintro left' hleft
        obtain rfl := Iterator.pulling.inj hleft
        exact fun keys' hkeys' => h.short _ hp keys' (List.mem_cons_of_mem keys hkeys')
      · intro batch hbatch
        rcases List.mem_append.mp hbatch with hbatch | hbatch
        · exact h.bounded batch hbatch
        · obtain rfl := List.mem_singleton.mp hbatch
          exact (length_readBatch_le _ _).trans (h.short _ hp keys List.mem_cons_self)

/-- A key that holds a value all along has been yielded or is still to be read. -/
theorem mem_of_holds (hs : 1 ≤ size) (hgood : ∀ s op s', P s → exec s op = some s' → P s')
    (hlists : ∀ s, P s → source.Lists s) (h : Inv P size it) (hc : it.iterator = .created)
    (hr : Reaches (step exec source cutting size) (Holds source k) it it') :
    Inv P size it' ∧ (it'.iterator = .created ∨
      ∃ left, it'.iterator = .pulling left ∧ (k ∈ it'.yielded ∨ k ∈ left.flatten)) := by
  refine hr.invariant (P := fun it' => Inv P size it' ∧ (it'.iterator = .created ∨
    ∃ left, it'.iterator = .pulling left ∧ (k ∈ it'.yielded ∨ k ∈ left.flatten)))
    ⟨h, .inl hc⟩ fun it it' turn hinv hholds hstep => ?_
  refine ⟨hinv.1.step hs hgood hlists hstep, ?_⟩
  rcases step_cases hstep with ⟨op, store, rfl, -, rfl⟩ | ⟨rfl, hnext⟩
  · exact hinv.2
  · rcases hnext with ⟨-, rfl⟩ | ⟨-, rfl⟩ | ⟨keys, left, hp, rfl⟩
    · refine .inr ⟨_, rfl, .inr ?_⟩
      rw [cutting.flatten_run _ hs]
      exact ((hlists _ hinv.1.good).mem_iff k).mpr hholds
    · exact hinv.2
    · refine .inr ⟨left, rfl, ?_⟩
      rw [yielded_append, List.mem_append]
      rcases hinv.2 with hc | ⟨left', hp', hmem⟩
      · rw [hp] at hc
        cases hc
      · obtain rfl := Iterator.pulling.inj (hp.symm.trans hp')
        rw [List.flatten_cons, List.mem_append] at hmem
        rcases hmem with hmem | hmem | hmem
        · exact .inl (.inl hmem)
        · exact .inl (.inr (mem_keys_readBatch.mpr ⟨hmem, hholds⟩))
        · exact .inr hmem

variable (exec source cutting size) in
/-- An iterator with so many batches left. -/
theorem exhausts_pulling (it : Iteration σ K V) {left : List (List K)}
    (hp : it.iterator = .pulling left) :
    ∃ it', play (step exec source cutting size) it (List.replicate left.length .next) =
      some it' ∧ it'.Exhausted := by
  induction left generalizing it with
  | nil => exact ⟨it, rfl, hp⟩
  | cons keys left ih =>
    obtain ⟨it', hplay, hdone⟩ := ih { it with
      iterator := .pulling left
      batches := it.batches ++ [readBatch (source.read it.store) keys] } rfl
    refine ⟨it', ?_, hdone⟩
    rw [List.length_cons, List.replicate_succ, play, List.foldlM_cons]
    simp only [Snapshot.step, hp]
    exact hplay

/-- What a turn of the iterator yields is what it reads. -/
theorem read_of_next (h : step exec source cutting size it .next = some it') :
    it'.batches = it.batches ∨ ∃ batch, it'.batches = it.batches ++ [batch] ∧
      ∀ k v, batch.get? k = some v → source.read it.store k = some v := by
  rcases step_cases h with ⟨op, store, hop, -⟩ | ⟨-, hnext⟩
  · cases hop
  · rcases hnext with ⟨-, rfl⟩ | ⟨-, rfl⟩ | ⟨keys, left, hp, rfl⟩
    · exact .inl rfl
    · exact .inl rfl
    · refine .inr ⟨_, rfl, fun k v hget => ?_⟩
      rw [get?_readBatch] at hget
      split at hget
      · exact hget
      · cases hget

/-- A key without a value is not yielded. -/
theorem notMem_of_lacks (hk : k ∉ it.yielded)
    (hr : Reaches (step exec source cutting size) (Lacks source k) it it') : k ∉ it'.yielded := by
  refine hr.invariant (P := fun it => k ∉ it.yielded) hk fun it it' turn hk hlack hstep => ?_
  rcases step_cases hstep with ⟨op, store, rfl, -, rfl⟩ | ⟨rfl, hnext⟩
  · exact hk
  · rcases hnext with ⟨-, rfl⟩ | ⟨-, rfl⟩ | ⟨keys, left, hp, rfl⟩
    · exact hk
    · exact hk
    · rw [yielded_append, List.mem_append, not_or]
      refine ⟨hk, fun hmem => ?_⟩
      have hsome := (mem_keys_readBatch.mp hmem).2
      rw [show source.read it.store k = none from hlack] at hsome
      cases hsome

variable (exec source cutting size) in
/-- An iterator that takes enough turns is exhausted. -/
theorem exhausts (it : Iteration σ K V) :
    ∃ n it', play (step exec source cutting size) it (List.replicate n .next) = some it' ∧
      it'.Exhausted := by
  cases hi : it.iterator with
  | pulling left => exact ⟨left.length, exhausts_pulling exec source cutting size it hi⟩
  | created =>
    obtain ⟨it', hplay, hdone⟩ := exhausts_pulling exec source cutting size
      { it with iterator := .pulling (cutting.run (source.list it.store) size) } rfl
    refine ⟨(cutting.run (source.list it.store) size).length + 1, it', ?_, hdone⟩
    rw [List.replicate_succ, play, List.foldlM_cons]
    simp only [Snapshot.step, hi]
    exact hplay

/-- **Iteration over a snapshot of the keys.** The promises are kept when every operation keeps the
listing right. -/
theorem law (hs : 1 ≤ size) (hgood : ∀ s op s', P s → exec s op = some s' → P s')
    (hlists : ∀ s, P s → source.Lists s) {s₀ : σ} (h₀ : P s₀) :
    Law exec source cutting size s₀ := by
  have hinv : ∀ it, Reaches (step exec source cutting size) anyTurn (start s₀) it →
      Inv P size it := fun it hr =>
    hr.invariant (inv_start h₀) fun _ _ _ hi _ hstep => hi.step hs hgood hlists hstep
  refine ⟨fun it hr => (hinv it hr).distinct, fun it hr => (hinv it hr).bounded, ?_,
    fun _ _ _ hstep => read_of_next hstep, fun _ _ _ _ hk hlacks => notMem_of_lacks hk hlacks,
    fun it _ => exhausts exec source cutting size it⟩
  intro it it' k hr hc hholds hdone
  obtain ⟨hi, hcreated | ⟨left, hp, hmem⟩⟩ := mem_of_holds hs hgood hlists (hinv it hr) hc hholds
  · cases hcreated.symm.trans hdone
  · obtain rfl := Iterator.pulling.inj (hp.symm.trans hdone)
    exact List.count_eq_one_of_mem hi.distinct (hmem.resolve_right List.not_mem_nil)

end Runs

end Snapshot
