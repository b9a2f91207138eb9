import Persista.Json.Value
import Persista.Lib.Interleaving
import Persista.Store.Aliasing
import Persista.Store.Sqlite

/-!
# Isolation of an `InMemoryStore` from its clients

A client creates objects, passes them to the store, obtains objects from it, and writes into any
object it can reach from those, at any depth and at any time between two calls. The docstring of
`InMemoryStore` promises that no such write affects the store.

## The statement

A run logs each call with its arguments as they read when the call was made, and with its outcome
as it read when it was delivered. `World.Determined` says that the log is that of the `reference`, a
store of immutable values, executing the logged calls, and that what the store holds reads like what
the reference holds. Then no write of a client was seen through the store.

That does not hold of every run: `iter_batches` and `values` yield the store's own values
(`isolation_broken_by_iteration`). It holds of the runs in which no client writes into a yielded
value that the store, or an iteration that is still going on, still holds
(`isolated_unless_yielded`). Every other write is harmless, those into values that were copied on
their way as well as those into a yielded value that has since been overwritten or deleted.

## Main results

* `isolated_step` — what a turn keeps
* `isolated_unless_yielded` — the run theorem
* `isolation_broken_by_iteration` — a write into a batch changes what `get` returns
-/

namespace Persista

namespace Aliasing

open Heap Interleaving Iteration

variable {K A : Type}

/-! ### The client's turns -/

/-- A value the client names: an atom, or what it finds by following fields from an object that it
created or obtained. -/
inductive Operand (K A : Type)
  | atom (a : Option A)
  | path (root : ℕ) (fields : List (Field K))

/-- A turn: the client creates an object, gives an object new fields, or calls the store. -/
inductive Turn (K A : Type)
  | create (cls : Cls) (fields : List (Field K × Operand K A))
  | write (target : Operand K A) (fields : List (Field K × Operand K A))
  | call (op : Op K (Operand K A) (Operand K A))

/-- The heap, the store with its generators, the objects the client created or obtained, the values
that iterations yielded, and the log of the calls. -/
structure World (K A : Type) where
  heap : PyHeap K A
  session : Session K (PyVal A)
  roots : List (PyVal A)
  yielded : List (PyVal A)
  log : List (Op K (PyTree K A) (Dict K (PyTree K A)) × Outcome K (PyTree K A))

/-- A pair of a `dict` with keys of the store. -/
def Field.pair? {V : Type} (p : Field K × V) : Option (K × V) :=
  match p.1 with
  | .key k => some (k, p.2)
  | .index _ => none

/-- A `list`. -/
def listObj [DecidableEq K] (vs : List (Option (PyVal A))) : PyObj K A :=
  ⟨.list, Dict.ofList (vs.zipIdx.map fun p => (.index p.2, p.1.getD (.atom none)))⟩

/-- A `dict` with keys of the store. -/
def dictObj [DecidableEq K] (items : Dict K (PyVal A)) : PyObj K A :=
  ⟨.dict, Dict.ofList (items.entries.map fun p => (.key p.1, p.2))⟩

/-- The client receives an outcome. What holds several values is a new `list` or `dict`. -/
def deliver [DecidableEq K] (h : PyHeap K A) : Outcome K (PyVal A) → PyHeap K A × List (PyVal A)
  | .value (some v) => (h, [v])
  | .item v => (h, [v])
  | .values vs => ((h.alloc (listObj vs)).1, [(h.alloc (listObj vs)).2])
  | .batch items => ((h.alloc (dictObj items)).1, [(h.alloc (dictObj items)).2])
  | _ => (h, [])

namespace World

/-- Nothing has happened. -/
def init : World K A := ⟨⟨[]⟩, .init, [], [], []⟩

variable [LinearOrder K]

/-- The value an operand stands for. -/
def value? (w : World K A) : Operand K A → Option (PyVal A)
  | .atom a => some (.atom a)
  | .path root fields => w.roots[root]?.bind (w.heap.follow fields)

/-- The fields that operands stand for. -/
def fields? (w : World K A) (fields : List (Field K × Operand K A)) :
    Option (Dict (Field K) (PyVal A)) :=
  (fields.mapM fun p => (w.value? p.2).map fun v => (p.1, v)).map Dict.ofList

/-- The value is a `dict`. -/
def isDict (w : World K A) (v : PyVal A) : Bool :=
  (w.heap.obj? v).any fun o => decide (o.cls = .dict)

/-- The `dict` an operand stands for. -/
def dict? (w : World K A) (o : Operand K A) : Option (PyVal A) :=
  (w.value? o).bind fun v => if w.isDict v then some v else none

/-- `items.items()`, for the `dict` an operand stands for. -/
def items? (w : World K A) (o : Operand K A) : Option (Dict K (PyVal A)) :=
  (w.dict? o).bind fun v => ((w.heap.fields v).entries.mapM Field.pair?).map Dict.ofList

/-- The arguments of a call. The values stored are `dict`s. -/
def op? (w : World K A) :
    Op K (Operand K A) (Operand K A) → Option (Op K (PyVal A) (Dict K (PyVal A)))
  | .call c => some (.call c)
  | .get key => some (.get key)
  | .getMany keys => some (.getMany keys)
  | .filter fieldFilters => (w.items? fieldFilters).map .filter
  | .set key value onConflict => (w.dict? value).map fun v => .set key v onConflict
  | .setMany items onConflict =>
    (w.items? items).bind fun items =>
      if items.values.all w.isDict then some (.setMany items onConflict) else none

/-- The world after a call: the outcome is delivered, and logged as it reads then. -/
def afterCall (w : World K A) (op : Op K (PyVal A) (Dict K (PyVal A))) (r : Effect K A) :
    World K A where
  heap := (deliver r.2.1 r.1).1
  session := r.2.2
  roots := w.roots ++ (deliver r.2.1 r.1).2
  yielded := w.yielded ++ op.yielded r.1
  log := w.log ++ [(op.map w.heap.tree, r.1.map r.2.1.tree)]

/-- A turn; `none` when an operand stands for nothing. -/
def step (batchify : Batchify) (eq : Option (PyTree K A) → PyTree K A → Bool) (w : World K A) :
    Turn K A → Option (World K A)
  | .create cls fields =>
    (w.fields? fields).map fun fields =>
      { w with heap := (w.heap.alloc ⟨cls, fields⟩).1
               roots := w.roots ++ [(w.heap.alloc ⟨cls, fields⟩).2] }
  | .write target fields =>
    match w.value? target with
    | some (.ref a) =>
      (w.fields? fields).map fun fields => { w with heap := w.heap.setFields a fields }
    | _ => none
  | .call op =>
    (w.op? op).map fun op => w.afterCall op (exec batchify eq op w.heap w.session)

/-- The turn does not write into a value that an iteration yielded and that the store or an
iteration still holds. -/
def SparesYielded (w : World K A) (turn : Turn K A) : Prop :=
  ∀ target fields a, turn = .write target fields → w.value? target = some (.ref a) →
    ∀ v ∈ w.session.held, v ∈ w.yielded → ¬ w.heap.Reach v a

/-- The calls had the outcomes, and left the values, that the calls alone determine. -/
def Determined (batchify : Batchify) (eq : Option (PyTree K A) → PyTree K A → Bool)
    (w : World K A) : Prop :=
  serial (reference batchify eq) .init (w.log.map Prod.fst) =
    (w.log.map Prod.snd, w.session.map w.heap.tree)

end World

/-! ### Turns keep the client's objects apart from the store's -/

section Turns

variable [LinearOrder K] {own : Set ℕ} {w : World K A}

/-- The client owns what it created or obtained. -/
structure World.Apart (w : World K A) (own : Set ℕ) : Prop where
  separated : w.heap.Separated own w.session.held w.yielded
  roots_owned : ∀ v ∈ w.roots, Owned own v

theorem World.Apart.value (hw : w.Apart own) {o : Operand K A} {v : PyVal A}
    (hv : w.value? o = some v) : Owned own v := by
  cases o with
  | atom a =>
    cases hv
    intro r hr
    cases hr
  | path root fields =>
    obtain ⟨u, hu, hv⟩ := Option.bind_eq_some_iff.mp hv
    exact hw.separated.owned_follow (hw.roots_owned u (List.mem_of_getElem? hu)) hv

theorem World.Apart.fields (hw : w.Apart own) {fields : List (Field K × Operand K A)}
    {d : Dict (Field K) (PyVal A)} (hd : w.fields? fields = some d) :
    ∀ v ∈ d.values, Owned own v := by
  obtain ⟨l, hl, rfl⟩ := Option.map_eq_some_iff.mp hd
  intro v hv
  obtain ⟨q, hq, rfl⟩ := List.mem_map.mp (Dict.mem_values_ofList hv)
  obtain ⟨p, -, hp⟩ := (mem_mapM_iff hl).mp hq
  obtain ⟨u, hu, rfl⟩ := Option.map_eq_some_iff.mp hp
  exact hw.value hu

theorem World.Apart.dict (hw : w.Apart own) {o : Operand K A} {v : PyVal A}
    (hv : w.dict? o = some v) : Owned own v := by
  obtain ⟨u, hu, hv⟩ := Option.bind_eq_some_iff.mp hv
  split at hv
  · cases hv
    exact hw.value hu
  · cases hv

theorem World.Apart.items (hw : w.Apart own) {o : Operand K A} {items : Dict K (PyVal A)}
    (hi : w.items? o = some items) : ∀ v ∈ items.values, Owned own v := by
  obtain ⟨u, hu, hi⟩ := Option.bind_eq_some_iff.mp hi
  obtain ⟨l, hl, rfl⟩ := Option.map_eq_some_iff.mp hi
  intro v hv
  obtain ⟨p, hp, rfl⟩ := List.mem_map.mp (Dict.mem_values_ofList hv)
  obtain ⟨⟨f, x⟩, hq, hqp⟩ := (mem_mapM_iff hl).mp hp
  have hx : x = p.2 := by
    cases f with
    | key k => cases hqp; rfl
    | index i => cases hqp
  exact hx ▸ hw.separated.owned_field (hw.dict hu) (List.mem_map_of_mem hq)

theorem World.Apart.op (hw : w.Apart own) {o : Op K (Operand K A) (Operand K A)}
    {op : Op K (PyVal A) (Dict K (PyVal A))} (hop : w.op? o = some op) :
    ∀ v ∈ op.values, Owned own v := by
  cases o with
  | call c => cases hop; exact fun v hv => by cases hv
  | get key => cases hop; exact fun v hv => by cases hv
  | getMany keys => cases hop; exact fun v hv => by cases hv
  | filter fieldFilters =>
    obtain ⟨items, hitems, rfl⟩ := Option.map_eq_some_iff.mp hop
    exact hw.items hitems
  | set key value onConflict =>
    obtain ⟨u, hu, rfl⟩ := Option.map_eq_some_iff.mp hop
    intro v hv
    rw [List.mem_singleton.mp hv]
    exact hw.dict hu
  | setMany items onConflict =>
    obtain ⟨items, hitems, hop⟩ := Option.bind_eq_some_iff.mp hop
    split at hop
    · cases hop
      exact hw.items hitems
    · cases hop

/-- Receiving an outcome. -/
theorem deliver_spec {h : PyHeap K A} {held handed : List (PyVal A)}
    (hs : h.Separated own held handed) {o : Outcome K (PyVal A)}
    (ho : ∀ v ∈ o.results, Owned own v) :
    ∃ own', Grows h (deliver h o).1 own own' held handed ∧
      ∀ v ∈ (deliver h o).2, Owned own' v := by
  have hnone : Owned own (.atom none : PyVal A) := fun r hr => by cases hr
  -- the new object is the client's, with the values it holds
  have halloc : ∀ obj : PyObj K A, (∀ v ∈ obj.fields.values, Owned own v) →
      ∃ own', Grows h (h.alloc obj).1 own own' held handed ∧
        ∀ v ∈ [(h.alloc obj).2], Owned own' v := by
    intro obj hobj
    refine ⟨_, ⟨h.extends_alloc obj, Set.subset_union_left, hs.alloc hobj⟩, ?_⟩
    intro v hv r hr
    rw [List.mem_singleton.mp hv] at hr
    exact .inr (Val.ref.inj hr).symm
  -- what is not a container is received as it is
  have hsame : ∀ vs : List (PyVal A), (∀ v ∈ vs, Owned own v) →
      ∃ own', Grows h h own own' held handed ∧ ∀ v ∈ vs, Owned own' v :=
    fun vs hvs => ⟨own, .refl hs, hvs⟩
  have hnil : ∀ v ∈ ([] : List (PyVal A)), Owned own v := fun v hv => by cases hv
  cases o with
  | value v =>
    cases v with
    | none => exact hsame [] hnil
    | some v => exact hsame [v] ho
  | item v => exact hsame [v] ho
  | values vs =>
    refine halloc (listObj vs) fun v hv => ?_
    obtain ⟨p, hp, rfl⟩ := List.mem_map.mp (Dict.mem_values_ofList hv)
    obtain ⟨⟨x, i⟩, hx, rfl⟩ := List.mem_map.mp hp
    cases x with
    | none => exact hnone
    | some x => exact ho x (List.reduceOption_mem_iff.mpr (List.fst_mem_of_mem_zipIdx hx))
  | batch items =>
    refine halloc (dictObj items) fun v hv => ?_
    obtain ⟨p, hp, rfl⟩ := List.mem_map.mp (Dict.mem_values_ofList hv)
    obtain ⟨q, hq, rfl⟩ := List.mem_map.mp hp
    exact ho q.2 (List.mem_map_of_mem hq)
  | done => exact hsame [] hnil
  | raised e => exact hsame [] hnil
  | keys ks => exact hsame [] hnil
  | flag b => exact hsame [] hnil
  | flags bs => exact hsame [] hnil
  | count n => exact hsame [] hnil
  | iterator i => exact hsame [] hnil
  | stopIteration => exact hsame [] hnil

end Turns

/-! ### Runs -/

section Runs

variable [LinearOrder K] {batchify : Batchify} {eq : Option (PyTree K A) → PyTree K A → Bool}
  {own : Set ℕ} {w w' : World K A}

/-- The invariant of a run. -/
def World.Isolated (batchify : Batchify) (eq : Option (PyTree K A) → PyTree K A → Bool)
    (w : World K A) : Prop :=
  (∃ own, w.Apart own) ∧ w.Determined batchify eq

/-- At the start the client owns nothing and the store holds nothing. -/
theorem isolated_init : (World.init : World K A).Isolated batchify eq := by
  have hedge : ∀ a b, ¬ (⟨[]⟩ : PyHeap K A).Edge a b := fun a b hab => by cases hab
  refine ⟨⟨∅, ⟨?_, ?_, ?_, ?_, ?_, ?_⟩, fun v hv => by cases hv⟩, rfl⟩
  · exact fun a b hab => absurd hab (hedge a b)
  · exact fun a ha => absurd ha (Set.notMem_empty a)
  · exact fun a ha => absurd ha (Set.notMem_empty a)
  · exact fun v hv => by cases hv
  · exact fun v hv => by cases hv
  · exact fun v hv => by cases hv

/-- A call extends the log as the reference's call does. -/
theorem isolated_call (hw : w.Apart own) (hdet : w.Determined batchify eq)
    {op : Op K (PyVal A) (Dict K (PyVal A))} (hop : ∀ v ∈ op.values, Owned own v) {r : Effect K A}
    (hr : exec batchify eq op w.heap w.session = r) :
    (w.afterCall op r).Isolated batchify eq := by
  have hsim := simulated_exec batchify eq hw.separated fun v hv => hw.separated.valid (hop v hv)
  rw [hr] at hsim
  obtain ⟨own₁, hgrows₁, hresults⟩ := hsim.grows
  obtain ⟨own₂, hgrows₂, hdelivered⟩ := deliver_spec hgrows₁.separated hresults
  refine ⟨⟨own₂, hgrows₂.separated, ?_⟩, ?_⟩
  · intro v hv
    rcases List.mem_append.mp hv with hv | hv
    · exact (hw.roots_owned v hv).mono (hgrows₁.own_subset.trans hgrows₂.own_subset)
    · exact hdelivered v hv
  · have hread : r.2.2.map (deliver r.2.1 r.1).1.tree = r.2.2.map r.2.1.tree :=
      map_extends hgrows₁.separated hgrows₂.extends_heap
    rw [World.Determined] at hdet ⊢
    rw [World.afterCall, List.map_append, List.map_append, List.map_singleton, List.map_singleton,
      serial_append, hdet, hsim.refines, hread]

/-- **A turn that spares the yielded values.** -/
theorem isolated_step {turn : Turn K A} (hw : w.Isolated batchify eq)
    (hspare : w.SparesYielded turn) (hstep : w.step batchify eq turn = some w') :
    w'.Isolated batchify eq := by
  obtain ⟨⟨own, hapart⟩, hdet⟩ := hw
  have hsep := hapart.separated
  cases turn with
  | create cls fields =>
    obtain ⟨d, hd, rfl⟩ := Option.map_eq_some_iff.mp hstep
    have hx := w.heap.extends_alloc ⟨cls, d⟩
    refine ⟨⟨own ∪ {w.heap.size}, hsep.alloc (hapart.fields hd), ?_⟩, ?_⟩
    · intro v hv
      rcases List.mem_append.mp hv with hv | hv
      · exact (hapart.roots_owned v hv).mono Set.subset_union_left
      · intro r hr
        rw [List.mem_singleton.mp hv] at hr
        exact .inr (Val.ref.inj hr).symm
    · rw [World.Determined] at hdet ⊢
      rw [hdet, map_extends hsep hx]
  | write target fields =>
    rw [World.step] at hstep
    cases hv : w.value? target with
    | none => rw [hv] at hstep; cases hstep
    | some v =>
      cases v with
      | atom a => rw [hv] at hstep; cases hstep
      | ref a =>
        rw [hv] at hstep
        obtain ⟨d, hd, rfl⟩ := Option.map_eq_some_iff.mp hstep
        have ha : a ∈ own := hapart.value hv a rfl
        obtain ⟨hsep', hagree⟩ :=
          hsep.setFields ha (hspare target fields a rfl hv) (hapart.fields hd)
        refine ⟨⟨own, hsep', hapart.roots_owned⟩, ?_⟩
        have hread : w.session.map (w.heap.setFields a d).tree = w.session.map w.heap.tree :=
          Session.map_congr fun v hv => (hagree v hv).tree
        rw [World.Determined] at hdet ⊢
        rw [hdet, hread]
  | call op =>
    obtain ⟨op', hop, rfl⟩ := Option.map_eq_some_iff.mp hstep
    exact isolated_call hapart hdet (hapart.op hop) rfl

end Runs

/-- **Isolation.** In a run without a write into a value that an iteration yielded and that is still
held, the outcomes of all calls, and what the store and its iterations hold, are those of a store of
immutable values: they are determined by the calls and by what their arguments read like when the
calls are made. -/
theorem isolated_unless_yielded [LinearOrder K] (batchify : Batchify)
    (eq : Option (PyTree K A) → PyTree K A → Bool) {w : World K A}
    (h : Reaches (World.step batchify eq) World.SparesYielded World.init w) :
    w.Determined batchify eq :=
  (h.invariant isolated_init fun _ _ _ hw hspare hstep => isolated_step hw hspare hstep).2

/-! ### A write into a batch -/

theorem map_chunk {X Y : Type} (f : X → Y) (items : List X) (size : ℕ) :
    chunk (items.map f) size = (chunk items size).map (List.map f) := by
  rw [chunk, chunk, List.length_map, List.map_map]
  refine List.map_congr_left fun start _ => ?_
  rw [Function.comp_apply, List.map_take, List.map_drop]

/-- Batches of a fixed size. -/
def chunks : Batchify where
  run := chunk
  flatten_run _ _ hs := flatten_chunk hs
  run_map f items size := map_chunk f items size

section Runs

open Json

/-- `==`, on atoms. -/
def sameAtom (x : Option (PyTree PyStr ℤ)) (y : PyTree PyStr ℤ) : Bool :=
  match x with
  | some t => decide (t [] = y [])
  | none => decide (y [] = some (.atom none))

/-- `store.open()`, `d = {"n": 1}`, `store.set("1", d)`. -/
def stored : List (Turn PyStr ℤ) :=
  [.call (.call .open), .create .dict [(.key (ofString "n"), .atom (some 1))],
    .call (.set (ofString "1") (.path 0 []) .overwrite)]

/-- `batch = next(store.iter_batches(32))`, `batch["1"]["n"] = 2`, `store.get("1")`. -/
def writtenThroughBatch : List (Turn PyStr ℤ) :=
  [.call (.call (.iterBatches 32)), .call (.call (.next 0)),
    .write (.path 1 [.key (ofString "1")]) [(.key (ofString "n"), .atom (some 2))],
    .call (.get (ofString "1"))]

/-- `value = store.get("1")`, `value["n"] = 2`, `d["n"] = 3`, `store.get("1")`, then a batch, a
`delete`, and a write into the value of the batch. -/
def writtenElsewhere : List (Turn PyStr ℤ) :=
  [.call (.get (ofString "1")),
    .write (.path 1 []) [(.key (ofString "n"), .atom (some 2))],
    .write (.path 0 []) [(.key (ofString "n"), .atom (some 3))],
    .call (.get (ofString "1")),
    .call (.call (.iterBatches 32)), .call (.call (.next 0)),
    .call (.call (.delete (ofString "1"))),
    .write (.path 3 [.key (ofString "1")]) [(.key (ofString "n"), .atom (some 4))],
    .call (.set (ofString "1") (.path 3 [.key (ofString "1")]) .merge),
    .call (.get (ofString "1"))]

/-- What the last call read in the field `"n"`. -/
def lastRead (outcomes : List (Outcome PyStr (PyTree PyStr ℤ))) :
    Option (Heap.Node Cls (Field PyStr) (Option ℤ)) :=
  match outcomes.getLast? with
  | some (.value (some t)) => t [.key (ofString "n")]
  | _ => none

/-- Nothing was yielded yet, or nothing is held any more, or it is not a write. -/
def World.Harmless (w : World PyStr ℤ) (turn : Turn PyStr ℤ) : Bool :=
  match turn with
  | .write _ _ => w.yielded.isEmpty || w.session.held.isEmpty
  | _ => true

theorem World.Harmless.spares {w : World PyStr ℤ} {turn : Turn PyStr ℤ}
    (h : w.Harmless turn = true) : w.SparesYielded turn := by
  intro target fields a hturn _ v hheld hyielded
  subst hturn
  rw [Harmless, Bool.or_eq_true, List.isEmpty_iff, List.isEmpty_iff] at h
  rcases h with h | h
  · rw [h] at hyielded
    cases hyielded
  · rw [h] at hheld
    cases hheld

/-- Writes into copies, and into a yielded value that has been deleted since. -/
theorem isolated_writtenElsewhere : ∃ w : World PyStr ℤ,
    Reaches (World.step chunks sameAtom) World.SparesYielded World.init w ∧
      lastRead (w.log.map Prod.snd) = some (.atom (some 4)) ∧ w.Determined chunks sameAtom := by
  have hrun : (play (guarded (World.step chunks sameAtom) fun w turn => w.Harmless turn = true)
      World.init (stored ++ writtenElsewhere)).map (fun w => lastRead (w.log.map Prod.snd)) =
        some (some (.atom (some 4))) := by decide
  obtain ⟨w, hw, hread⟩ := Option.map_eq_some_iff.mp hrun
  have hreaches : Reaches (World.step chunks sameAtom) World.SparesYielded World.init w :=
    (reaches_of_play_guarded hw).mono fun _ _ h => World.Harmless.spares h
  exact ⟨w, hreaches, hread, isolated_unless_yielded chunks sameAtom hreaches⟩

/-- **`iter_batches` hands out the store's own values.** After the write into the batch `get` reads
`2`; nothing but `1` was ever stored. -/
theorem isolation_broken_by_iteration :
    ¬ ∀ w : World PyStr ℤ, Reaches (World.step chunks sameAtom) anyTurn World.init w →
      w.Determined chunks sameAtom := by
  intro h
  have hrun : (play (World.step chunks sameAtom) World.init (stored ++ writtenThroughBatch)).any
      (fun w => decide (lastRead (w.log.map Prod.snd) = some (.atom (some 2))) &&
        decide (lastRead (serial (reference chunks sameAtom) .init (w.log.map Prod.fst)).1 =
          some (.atom (some 1)))) = true := by decide
  obtain ⟨w, hw, hread⟩ := (Option.any_eq_true _ _).mp hrun
  obtain ⟨htwo, hone⟩ := Bool.and_eq_true_iff.mp hread
  have hdet := h w (reaches_of_play hw)
  rw [World.Determined] at hdet
  rw [hdet] at hone
  exact absurd ((of_decide_eq_true htwo).symm.trans (of_decide_eq_true hone)) (by decide)

end Runs

end Aliasing

end Persista
