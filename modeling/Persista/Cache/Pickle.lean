import Persista.Cache.Serializable
import Persista.Json.Value
import Persista.Lib.SharedTree

/-!
# `make_pickle_key` and the identities of objects

`pickle` writes objects, not values: it follows their identities, and where it comes to an object
that it has written before it writes a reference. A key of the `pickle` strategy is a hash of what
it writes of the function name, the arguments, and a new list of new pairs of the keyword arguments,
sorted by their names. Strings, lists, tuples and dictionaries have identities; the empty tuple is
one object and is not memoized, and neither are `None` and integers.

## What a key depends on

The pairs of a `dict` are written in the order in which they came, so `f({"a": 1, "b": 2})` and
`f({"b": 2, "a": 1})` have different keys, as do `f(x, x)` and `f([1], [1])` for `x = [1]`. Two
calls have one key exactly when a renaming of the identities makes the one of the other
(`pickle_keys_by_value_iff`).

What is written stands here for the bytes, which it determines and which can be read back.
-/

namespace Persista

namespace Cache

open Json

/-- An object built from `None`, integers, strings, lists, tuples and dictionaries, with the
identities that matter. The keys of a `dict` are distinct and hashable. -/
inductive Obj
  | none
  | int (n : ℤ)
  | str (id : ℕ) (s : PyStr)
  | list (id : ℕ) (items : List Obj)
  | tuple (id : ℕ) (items : List Obj)
  | dict (id : ℕ) (items : List (Obj × Obj))

namespace Obj

/-! ### Equality -/

mutual

/-- `v == w`. -/
def eq : Obj → Obj → Bool
  | .none, .none => true
  | .int m, .int n => decide (m = n)
  | .str _ s, .str _ t => decide (s = t)
  | .list _ vs, .list _ ws => eqItems vs ws
  | .tuple _ vs, .tuple _ ws => eqItems vs ws
  | .dict _ vs, .dict _ ws => decide (vs.length = ws.length) && eqMembers vs ws
  | _, _ => false

/-- The items of two lists or of two tuples. -/
def eqItems : List Obj → List Obj → Bool
  | [], [] => true
  | v :: vs, w :: ws => v.eq w && eqItems vs ws
  | _, _ => false

/-- Each member of a `dict` is one of another `dict`. -/
def eqMembers : List (Obj × Obj) → List (Obj × Obj) → Bool
  | [], _ => true
  | (k, v) :: vs, ws =>
    (match ws.find? fun item => k.eq item.1 with
      | some item => v.eq item.2
      | Option.none => false) && eqMembers vs ws

end

/-! ### What is pickled -/

/-- The object of a call, or made by `make_pickle_key`. -/
inductive Ident
  | given (id : ℕ)
  | new (k : ℕ)
  deriving DecidableEq

/-- What an object is, its parts apart. -/
inductive Label
  | none
  | int (n : ℤ)
  | str (s : PyStr)
  | list
  | tuple
  | dict
  deriving DecidableEq

/-- A list and a `dict` are memoized before their items are written, a tuple after. -/
def Label.early : Label → Bool
  | .list | .dict => true
  | _ => false

/-- A tuple. The empty one is not memoized. -/
def tupleNode (id : Ident) (items : List (SharedTree Ident Label)) : SharedTree Ident Label :=
  .node (if items.isEmpty then Option.none else some id) .tuple items

mutual

/-- What `pickle` sees of an object. The keys and values of a `dict` alternate. -/
def tree : Obj → SharedTree Ident Label
  | .none => .node Option.none .none []
  | .int n => .node Option.none (.int n) []
  | .str id s => .node (some (.given id)) (.str s) []
  | .list id items => .node (some (.given id)) .list (trees items)
  | .tuple id items => tupleNode (.given id) (trees items)
  | .dict id items => .node (some (.given id)) .dict (treesItems items)

/-- The items of a list or a tuple. -/
def trees : List Obj → List (SharedTree Ident Label)
  | [] => []
  | v :: vs => v.tree :: trees vs

/-- The items of a `dict`. -/
def treesItems : List (Obj × Obj) → List (SharedTree Ident Label)
  | [] => []
  | (k, v) :: items => k.tree :: v.tree :: treesItems items

end

end Obj

open Obj

/-- A call of a function: its name, the tuple of its arguments, and its keyword arguments, each with
the identity of its name. -/
structure ObjCall where
  funcNameId : ℕ
  funcName : PyStr
  argsId : ℕ
  args : List Obj
  kwargs : Dict PyStr (ℕ × Obj)

namespace ObjCall

/-- The objects of a call. -/
def objects (call : ObjCall) : List Obj :=
  .str call.funcNameId call.funcName :: .tuple call.argsId call.args ::
    call.kwargs.entries.flatMap fun item => [.str item.2.1 item.1, item.2.2]

/-- One identity is one object. -/
def Consistent (call : ObjCall) : Prop :=
  ∃ heap : Ident → SharedTree Ident Label, ∀ v ∈ call.objects, v.tree.InHeap heap

/-- The calls are equal: the function name, the arguments and the keyword arguments. -/
def Equal (call call' : ObjCall) : Prop :=
  call.funcName = call'.funcName ∧ eqItems call.args call'.args ∧
    call.kwargs.length = call'.kwargs.length ∧ ∀ name v, call.kwargs.get? name = some v →
      ∃ w, call'.kwargs.get? name = some w ∧ v.2.eq w.2

/-- The pairs of `kwargs`: new objects, numbered from `k` on. -/
def pairs : ℕ → List (PyStr × ℕ × Obj) → List (SharedTree Ident Label)
  | _, [] => []
  | k, (name, id, value) :: items =>
    tupleNode (.new k) [(Obj.str id name).tree, value.tree] :: pairs (k + 1) items

/-- `args`, or with `ignore_non_serializable` a new tuple of the same arguments. -/
def argsNode (call : ObjCall) (ignoreNonSerializable : Bool) : SharedTree Ident Label :=
  tupleNode (if ignoreNonSerializable then .new 2 else .given call.argsId) (trees call.args)

/-- `(func_name, args, sorted(kwargs.items()))`. -/
def payload (call : ObjCall) (ignoreNonSerializable : Bool) : SharedTree Ident Label :=
  tupleNode (.new 0) [(Obj.str call.funcNameId call.funcName).tree,
    call.argsNode ignoreNonSerializable,
    .node (some (.new 1)) .list (pairs 3 call.kwargs.sortedEntries)]

end ObjCall

variable {K : Type}

/-- `make_pickle_key`. Every argument here can be pickled, so that none is ignored. -/
def makePickleKey (hashBytes : SharedTree.Written Label → K) (call : ObjCall)
    (ignoreNonSerializable : Bool) : K :=
  hashBytes (SharedTree.save Label.early (call.payload ignoreNonSerializable) []).1

/-- What `make_key` raises. -/
inductive MakeKeyError
  | valueError (msg : String)
  | serializer (e : PyError)

/-- The message for an unknown strategy, of a text that is written as it is between quotes. -/
def unknownStrategyMsg (strategy : String) : String :=
  "Unknown strategy: '" ++ strategy ++ "'. Expected 'json' or 'pickle'."

/-- `make_key`, with a `make_json_key`. -/
def makeKey (makeJsonKey : ObjCall → Bool → Except PyError K)
    (hashBytes : SharedTree.Written Label → K) (call : ObjCall) (strategy : String)
    (ignoreNonSerializable : Bool) : Except MakeKeyError K :=
  if strategy = "json" then (makeJsonKey call ignoreNonSerializable).mapError .serializer
  else if strategy = "pickle" then .ok (makePickleKey hashBytes call ignoreNonSerializable)
  else .error (.valueError (unknownStrategyMsg strategy))

/-! ### One identity is one object -/

namespace Obj

open SharedTree

variable {heap heap' : Ident → SharedTree Ident Label} {items : List (SharedTree Ident Label)}
  {i id : Ident}

theorem mem_ids_tupleNode (h : i ∈ (tupleNode id items).ids) :
    i = id ∧ items ≠ [] ∨ i ∈ idsList items := by
  rw [tupleNode, ids, List.mem_append, Option.mem_toList] at h
  refine h.imp_left fun h => ?_
  cases items with
  | nil => cases h
  | cons c cs => exact ⟨(Option.some.inj h).symm, List.cons_ne_nil _ _⟩

theorem inHeap_tupleNode (h : items ≠ [] → heap id = tupleNode id items)
    (hitems : InHeapList heap items) : (tupleNode id items).InHeap heap := by
  cases items with
  | nil => exact ⟨by rintro _ ⟨⟩, hitems⟩
  | cons c cs =>
    refine ⟨?_, hitems⟩
    rintro _ ⟨⟩
    exact h (List.cons_ne_nil _ _)

mutual

/-- The objects of a call have identities of their own. -/
theorem exists_given : ∀ (v : Obj), ∀ i ∈ v.tree.ids, ∃ n, i = .given n
  | .none, i, h | .int _, i, h => by
    rw [tree, ids, idsList] at h
    cases h
  | .str n _, i, h => by
    rw [tree, ids, idsList] at h
    exact ⟨n, by simpa using h⟩
  | .list n items, i, h => by
    rw [tree, ids] at h
    rcases List.mem_append.mp h with h | h
    · exact ⟨n, by simpa using h⟩
    · exact exists_givenList items i h
  | .tuple n items, i, h => by
    rw [tree] at h
    rcases mem_ids_tupleNode h with ⟨h, -⟩ | h
    · exact ⟨n, h⟩
    · exact exists_givenList items i h
  | .dict n items, i, h => by
    rw [tree, ids] at h
    rcases List.mem_append.mp h with h | h
    · exact ⟨n, by simpa using h⟩
    · exact exists_givenItems items i h

theorem exists_givenList : ∀ (vs : List Obj), ∀ i ∈ idsList (trees vs), ∃ n, i = .given n
  | [], i, h => by rw [trees, idsList] at h; cases h
  | v :: vs, i, h => by
    rw [trees, idsList] at h
    rcases List.mem_append.mp h with h | h
    · exact exists_given v i h
    · exact exists_givenList vs i h

theorem exists_givenItems : ∀ (items : List (Obj × Obj)), ∀ i ∈ idsList (treesItems items),
    ∃ n, i = .given n
  | [], i, h => by rw [treesItems, idsList] at h; cases h
  | (k, v) :: items, i, h => by
    rw [treesItems, idsList, idsList] at h
    rcases List.mem_append.mp h with h | h
    · exact exists_given k i h
    · rcases List.mem_append.mp h with h | h
      · exact exists_given v i h
      · exact exists_givenItems items i h

end

end Obj

namespace ObjCall

open SharedTree

variable {call call' : ObjCall} {ignoreNonSerializable : Bool}

/-- A heap that has the new objects as well. -/
def withNew (heap : Ident → SharedTree Ident Label) (call : ObjCall)
    (ignoreNonSerializable : Bool) : Ident → SharedTree Ident Label
  | .given n => heap (.given n)
  | .new 0 => call.payload ignoreNonSerializable
  | .new 1 => .node (some (.new 1)) .list (pairs 3 call.kwargs.sortedEntries)
  | .new 2 => call.argsNode ignoreNonSerializable
  | .new (k + 3) =>
    (pairs 3 call.kwargs.sortedEntries)[k]?.getD (call.payload ignoreNonSerializable)

theorem inHeap_withNew {heap : Ident → SharedTree Ident Label} {v : Obj} (h : v.tree.InHeap heap) :
    v.tree.InHeap (withNew heap call ignoreNonSerializable) := by
  refine h.congr fun i hi => ?_
  obtain ⟨n, rfl⟩ := exists_given v i hi
  rfl

theorem inHeap_pairs {heap : Ident → SharedTree Ident Label} (items : List (PyStr × ℕ × Obj))
    (k : ℕ) (hitems : ∀ item ∈ items, (Obj.str item.2.1 item.1).tree.InHeap heap ∧
      item.2.2.tree.InHeap heap)
    (hheap : ∀ (j : ℕ) t, (pairs k items)[j]? = some t → heap (.new (k + j)) = t) :
    InHeapList heap (pairs k items) := by
  induction items generalizing k with
  | nil => rw [pairs, InHeapList]; trivial
  | cons item items ih =>
    obtain ⟨name, id, value⟩ := item
    obtain ⟨hname, hvalue⟩ := hitems (name, id, value) (by simp)
    rw [pairs] at hheap ⊢
    refine ⟨inHeap_tupleNode (fun _ => hheap 0 _ rfl) ⟨hname, hvalue, trivial⟩, ?_⟩
    refine ih (k + 1) (fun item hitem => hitems item (by simp [hitem])) ?_
    intro j t ht
    rw [Nat.add_assoc, Nat.add_comm 1 j]
    exact hheap (j + 1) t ht

/-- What is pickled of a call is made of objects. -/
theorem Consistent.payload (h : call.Consistent) (ignoreNonSerializable : Bool) :
    ∃ heap, (call.payload ignoreNonSerializable).InHeap heap := by
  obtain ⟨heap, hheap⟩ := h
  have hobject : ∀ v ∈ call.objects,
      v.tree.InHeap (withNew heap call ignoreNonSerializable) := fun v hv =>
    inHeap_withNew (hheap v hv)
  have hargs := hobject (.tuple call.argsId call.args) (by simp [objects])
  refine ⟨withNew heap call ignoreNonSerializable, ?_⟩
  refine inHeap_tupleNode (fun _ => rfl) ⟨hobject _ (by simp [objects]), ?_, ?_, trivial⟩
  · rw [tree] at hargs
    cases ignoreNonSerializable with
    | false => exact hargs
    | true =>
      rw [tupleNode, InHeap] at hargs
      exact inHeap_tupleNode (fun _ => rfl) hargs.2
  · refine ⟨?_, inHeap_pairs _ _ ?_ ?_⟩
    · rintro _ ⟨⟩
      rfl
    · intro item hitem
      have hmem := (Dict.perm_sortedEntries _).mem_iff.mp hitem
      have hsub : ∀ v ∈ [Obj.str item.2.1 item.1, item.2.2], v ∈ call.objects := fun v hv =>
        List.mem_cons_of_mem _ (List.mem_cons_of_mem _ (List.mem_flatMap.mpr ⟨item, hmem, hv⟩))
      exact ⟨hobject _ (hsub _ (by simp)), hobject _ (hsub _ (by simp))⟩
    · intro j t ht
      rw [Nat.add_comm 3 j, withNew, ht]
      rfl

/-- The calls hold the same objects, up to a renaming: the items of each `dict` came in the same
order, and the same places hold one object. -/
def Alike (ignoreNonSerializable : Bool) (call call' : ObjCall) : Prop :=
  ∃ f : Ident → Ident, Set.InjOn f {i | i ∈ (call.payload ignoreNonSerializable).ids} ∧
    (call.payload ignoreNonSerializable).map f = call'.payload ignoreNonSerializable

/-- **Two calls have one key** if and only if they hold the same objects. -/
theorem makePickleKey_eq_iff {hashBytes : Written Label → K} (hinj : Function.Injective hashBytes)
    (hcall : call.Consistent) (hcall' : call'.Consistent) :
    makePickleKey hashBytes call ignoreNonSerializable =
        makePickleKey hashBytes call' ignoreNonSerializable ↔
      Alike ignoreNonSerializable call call' := by
  obtain ⟨heap, hheap⟩ := hcall.payload ignoreNonSerializable
  obtain ⟨heap', hheap'⟩ := hcall'.payload ignoreNonSerializable
  rw [makePickleKey, makePickleKey, hinj.eq_iff, save_eq_iff hheap hheap', Alike]

end ObjCall

/-- **When equal calls have one key.** -/
theorem pickle_keys_by_value_iff (hashBytes : SharedTree.Written Label → K)
    (hinj : Function.Injective hashBytes) (makeJsonKey : ObjCall → Bool → Except PyError K)
    (ignoreNonSerializable : Bool) (call call' : ObjCall) (hcall : call.Consistent)
    (hcall' : call'.Consistent) :
    ((call.Equal call' →
        makePickleKey hashBytes call ignoreNonSerializable =
            makePickleKey hashBytes call' ignoreNonSerializable ∧
          makeKey makeJsonKey hashBytes call "pickle" ignoreNonSerializable =
            makeKey makeJsonKey hashBytes call' "pickle" ignoreNonSerializable) ↔
      (call.Equal call' → ObjCall.Alike ignoreNonSerializable call call')) := by
  have hkey : ∀ call : ObjCall, makeKey makeJsonKey hashBytes call "pickle" ignoreNonSerializable =
      .ok (makePickleKey hashBytes call ignoreNonSerializable) := fun _ => rfl
  refine forall_congr' fun _ => ?_
  rw [hkey, hkey, Except.ok.injEq, and_self]
  exact ObjCall.makePickleKey_eq_iff hinj hcall hcall'

/-! ### The order of a `dict` -/

section Order

open SharedTree

/-- `f(value)`; the objects have the numbers from `n` on. -/
def callOf (n : ℕ) (value : Obj) : ObjCall := ⟨n, ofString "f", n + 1, [value], ∅⟩

/-- `{"a": 1, "b": 2}`. -/
def dictAB (n : ℕ) : Obj :=
  .dict (n + 2) [(.str (n + 3) (ofString "a"), .int 1), (.str (n + 4) (ofString "b"), .int 2)]

/-- `{"b": 2, "a": 1}`. -/
def dictBA (n : ℕ) : Obj :=
  .dict (n + 2) [(.str (n + 3) (ofString "b"), .int 2), (.str (n + 4) (ofString "a"), .int 1)]

/-- The objects of `f({key: 1, key': 2})`, by how far their numbers are from the first one. -/
theorem consistent_callOf (n : ℕ) {key key' : PyStr} {m m' : ℤ} :
    (callOf n (.dict (n + 2) [(.str (n + 3) key, .int m), (.str (n + 4) key', .int m')])).Consistent
    := by
  set value : Obj := .dict (n + 2) [(.str (n + 3) key, .int m), (.str (n + 4) key', .int m')]
  refine ⟨fun
    | .given i =>
      match i - n with
      | 0 => (Obj.str n (ofString "f")).tree
      | 1 => (Obj.tuple (n + 1) [value]).tree
      | 2 => value.tree
      | 3 => (Obj.str (n + 3) key).tree
      | _ => (Obj.str (n + 4) key').tree
    | .new _ => value.tree, ?_⟩
  intro v hv
  have hsub : ∀ k, n + k - n = k := fun k => Nat.add_sub_cancel_left n k
  simp only [callOf, ObjCall.objects, Dict.entries_empty, List.flatMap_nil, List.mem_cons,
    List.not_mem_nil, or_false] at hv
  rcases hv with rfl | rfl
  · simp [tree, InHeap, InHeapList]
  · simp [tree, trees, tupleNode, InHeap, InHeapList, value, treesItems, hsub]

/-- **Insertion order.** The arguments of `f({"a": 1, "b": 2})` and `f({"b": 2, "a": 1})` are equal,
and their keys are not. -/
theorem pickle_keys_depend_on_order :
    (callOf 0 (dictAB 0)).Consistent ∧ (callOf 5 (dictBA 5)).Consistent ∧
      (callOf 0 (dictAB 0)).Equal (callOf 5 (dictBA 5)) ∧
      makePickleKey id (callOf 0 (dictAB 0)) false ≠
        makePickleKey id (callOf 5 (dictBA 5)) false := by
  refine ⟨consistent_callOf 0, consistent_callOf 5,
    ⟨rfl, by decide, rfl, by intro _ _ h; cases h⟩, ?_⟩
  intro h
  simp [makePickleKey, callOf] at h
  cases h

/-- `f({"a": 1, "b": 2})`, called twice with objects of its own. -/
theorem pickle_key_of_copies :
    makePickleKey id (callOf 0 (dictAB 0)) false =
      makePickleKey id (callOf 5 (dictAB 5)) false := by
  refine ((pickle_keys_by_value_iff id Function.injective_id (fun _ _ => .error .typeError) false
    (callOf 0 (dictAB 0)) (callOf 5 (dictAB 5)) (consistent_callOf 0) (consistent_callOf 5)).mpr ?_
    ⟨rfl, by decide, rfl, by intro _ _ h; cases h⟩).1
  refine fun _ => ⟨fun
    | .given i => .given (i + 5)
    | .new k => .new k, ?_, ?_⟩
  · intro i _ j _ hij
    cases i <;> cases j <;> simp_all
  · rfl

end Order

end Cache

end Persista
