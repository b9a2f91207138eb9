import Persista.Cache.Serializable
import Persista.Json.Dumps

/-!
# `make_json_key` and `make_pickle_key`

`cache/utils.py`: the key of a call, for values of any type. What the values are hashed by and what
`json.dumps` and `pickle.dumps` make of them are parameters (`Serializers`); the two key functions
are one, applied to its test and its serializer (`keyOf`). With `ignore_non_serializable` the
arguments that fail the test are left out, and the memo of the test goes from one argument to the
next.

## What ignoring merges

A positional argument that is left out also leaves its place. So `f(1, obj)` and `f(obj, 1)` have
one key, although they differ in a serializable argument; a keyword keeps its name, so nothing of
the kind happens to keyword arguments.

## Main results

* `fst_keyOf_eq_ok_iff` — what the key of a call with ignored arguments is made of
* `ignoring_merges_nothing_else_iff` — two calls with one key agree wherever one of them has a
  serializable argument if and only if the serializable positional arguments stand at the same
  places
-/

namespace Persista

namespace Cache

open Json

variable {V K A : Type}

/-- What is known of the values of a type: how they are hashed, and what the serializers make of
them. -/
structure Serializers (V : Type) extends Hashing V where
  jsonDumps : V → Except PyError String
  pickleDumps : V → Except PyError ByteArray
  /-- `json.dumps({"func": func_name, "args": args, "kwargs": kwargs}, sort_keys=True)`, of the
  items that `kwargs` has in the order of their names. -/
  jsonDumpsCall : PyStr → List V → List (PyStr × V) → Except PyError String
  /-- `pickle.dumps((func_name, args, items))`. -/
  pickleDumpsCall : PyStr → List V → List (PyStr × V) → Except PyError ByteArray

/-- `[item for item in items if test(value(item))]`. -/
def keep (test : Memo V → V → Except PyError Bool × Memo V) (value : A → V) (memo : Memo V) :
    List A → Except PyError (List A) × Memo V
  | [] => (.ok [], memo)
  | item :: items =>
    match test memo (value item) with
    | (.error e, memo) => (.error e, memo)
    | (.ok kept, memo) =>
      match keep test value memo items with
      | (.error e, memo) => (.error e, memo)
      | (.ok rest, memo) => (.ok (if kept then item :: rest else rest), memo)

/-- A key function: what is serialized, and hashed, of the arguments. -/
def keyOf (test : Memo V → V → Except PyError Bool × Memo V)
    (dumpsCall : List V → List (PyStr × V) → Except PyError ByteArray) (hashBytes : ByteArray → K)
    (memo : Memo V) (args : List V) (kwargs : Dict PyStr V) (ignoreNonSerializable : Bool) :
    Except PyError K × Memo V :=
  if ignoreNonSerializable then
    match keep test id memo args with
    | (.error e, memo) => (.error e, memo)
    | (.ok args, memo) =>
      match keep test Prod.snd memo kwargs.entries with
      | (.error e, memo) => (.error e, memo)
      | (.ok items, memo) =>
        ((dumpsCall args (Dict.ofList items).sortedEntries).map hashBytes, memo)
  else ((dumpsCall args kwargs.sortedEntries).map hashBytes, memo)

/-- The serialization strategies. -/
inductive Strategy
  | json
  | pickle

namespace Serializers

variable (s : Serializers V) (hashBytes : ByteArray → K) (funcName : PyStr)

/-- `make_json_key`. -/
def makeJsonKey (memo : Memo V) (args : List V) (kwargs : Dict PyStr V)
    (ignoreNonSerializable : Bool) : Except PyError K × Memo V :=
  keyOf (isJsonSerializable s.toHashing s.jsonDumps)
    (fun args items => (s.jsonDumpsCall funcName args items).map String.toUTF8) hashBytes memo args
    kwargs ignoreNonSerializable

/-- `make_pickle_key`. -/
def makePickleKey (memo : Memo V) (args : List V) (kwargs : Dict PyStr V)
    (ignoreNonSerializable : Bool) : Except PyError K × Memo V :=
  keyOf (isPicklable s.toHashing s.pickleDumps) (s.pickleDumpsCall funcName) hashBytes memo args
    kwargs ignoreNonSerializable

/-- The key function of a strategy. -/
def makeKey (strategy : Strategy) (memo : Memo V) (args : List V) (kwargs : Dict PyStr V)
    (ignoreNonSerializable : Bool) : Except PyError K × Memo V :=
  match strategy with
  | .json => s.makeJsonKey hashBytes funcName memo args kwargs ignoreNonSerializable
  | .pickle => s.makePickleKey hashBytes funcName memo args kwargs ignoreNonSerializable

/-- The plain test of a strategy. -/
def impl : Strategy → V → Except PyError Bool
  | .json => isJsonSerializableImpl s.jsonDumps
  | .pickle => isPicklableImpl s.pickleDumps

/-- What a strategy hashes. -/
def dumpsCall : Strategy → List V → List (PyStr × V) → Except PyError ByteArray
  | .json => fun args items => (s.jsonDumpsCall funcName args items).map String.toUTF8
  | .pickle => s.pickleDumpsCall funcName

theorem makeKey_eq (strategy : Strategy) (memo : Memo V) (args : List V) (kwargs : Dict PyStr V)
    (ignoreNonSerializable : Bool) :
    s.makeKey hashBytes funcName strategy memo args kwargs ignoreNonSerializable =
      keyOf (tested s.toHashing (s.impl strategy)) (s.dumpsCall funcName strategy) hashBytes memo
        args kwargs ignoreNonSerializable := by
  cases strategy <;> rfl

end Serializers

/-! ### What is kept -/

/-- The arguments of a call. -/
structure KeyCall (V : Type) where
  args : List V
  kwargs : Dict PyStr V

namespace KeyCall

/-- All of them. -/
def values (call : KeyCall V) : List V := call.args ++ call.kwargs.values

/-- The same arguments, whatever the order of the keywords. -/
def Same (call call' : KeyCall V) : Prop :=
  call.args = call'.args ∧ call.kwargs.Same call'.kwargs

end KeyCall

variable (py : Hashing V) (impl : V → Except PyError Bool)

/-- A value passes a test. -/
def passes (value : V) : Bool :=
  match impl value with
  | .ok passed => passed
  | .error _ => false

/-- The arguments that pass. -/
def KeyCall.kept (call : KeyCall V) : KeyCall V :=
  ⟨call.args.filter (passes impl), call.kwargs.filterEntries fun item => passes impl item.2⟩

/-- A test answers for each argument, and the serializer accepts those that pass. -/
def KeyCall.Accepted (dumpsCall : List V → List (PyStr × V) → Except PyError ByteArray)
    (call : KeyCall V) : Prop :=
  (∀ v ∈ call.values, (impl v).isOk) ∧
    (dumpsCall (call.kept impl).args (call.kept impl).kwargs.sortedEntries).isOk

/-- No argument is equal to a value that was tested before it and is tested differently. -/
def KeyCall.Undisturbed (history : List V) (call : KeyCall V) : Prop :=
  ∀ v ∈ call.values, Cache.Undisturbed py impl (history ++ call.values) v

variable {py impl} {value : A → V} {history history' : List V} {items : List A}

theorem Undisturbed.mono {v : V} (h : Undisturbed py impl history' v) (hsub : history ⊆ history') :
    Undisturbed py impl history v :=
  fun hv w hw => h hv w (hsub hw)

theorem tested_memoAfter {v : V} (h : Undisturbed py impl history v) :
    tested py impl (memoAfter py impl history) v =
      (impl v, memoAfter py impl (history ++ [v])) := by
  rw [memoAfter_concat]
  exact Prod.ext (tested_memoAfter_eq_impl h) rfl

variable (py impl value history) in
/-- No item is equal to a value that was tested before it and is tested differently. -/
def UndisturbedItems (items : List A) : Prop :=
  ∀ a ∈ items, Undisturbed py impl (history ++ items.map value) (value a)

theorem UndisturbedItems.head {a : A} (h : UndisturbedItems py impl value history (a :: items)) :
    Undisturbed py impl history (value a) :=
  (h a (by simp)).mono (by simp)

theorem UndisturbedItems.tail {a : A} (h : UndisturbedItems py impl value history (a :: items)) :
    UndisturbedItems py impl value (history ++ [value a]) items := by
  intro b hb
  simpa using h b (by simp [hb])

/-- The items that pass are kept, unless the test raises for one of the items. -/
theorem keep_cases (hu : UndisturbedItems py impl value history items) :
    ((∀ a ∈ items, (impl (value a)).isOk) ∧
      keep (tested py impl) value (memoAfter py impl history) items =
        (.ok (items.filter fun a => passes impl (value a)),
          memoAfter py impl (history ++ items.map value))) ∨
    ((∃ a ∈ items, ¬ (impl (value a)).isOk) ∧
      ∃ e memo, keep (tested py impl) value (memoAfter py impl history) items =
        (.error e, memo)) := by
  induction items generalizing history with
  | nil => exact .inl ⟨by simp, by simp [keep]⟩
  | cons a items ih =>
    rw [keep, tested_memoAfter hu.head]
    cases ha : impl (value a) with
    | error e =>
      refine .inr ⟨⟨a, by simp, ?_⟩, e, _, rfl⟩
      rw [ha]
      exact Bool.false_ne_true
    | ok passed =>
      dsimp only
      rcases ih hu.tail with ⟨hok, hk⟩ | ⟨⟨b, hb, hno⟩, e, memo, hk⟩
      · refine .inl ⟨?_, ?_⟩
        · intro b hb
          rcases List.mem_cons.mp hb with rfl | hb
          · rw [ha]; rfl
          · exact hok b hb
        · rw [hk]
          cases passed <;> simp [passes, ha]
      · rw [hk]
        exact .inr ⟨⟨b, by simp [hb], hno⟩, e, memo, rfl⟩

/-! ### Keys -/

variable {dumpsCall : List V → List (PyStr × V) → Except PyError ByteArray}
  {hashBytes : ByteArray → K} {call call' : KeyCall V} {key : K}

theorem KeyCall.Undisturbed.args (h : call.Undisturbed py impl history) :
    UndisturbedItems py impl id history call.args := by
  intro v hv
  refine (h v (List.mem_append_left _ hv)).mono ?_
  simp [KeyCall.values]

theorem KeyCall.Undisturbed.kwargs (h : call.Undisturbed py impl history) :
    UndisturbedItems py impl Prod.snd (history ++ call.args) call.kwargs.entries := by
  intro item hitem
  have hmem : item.2 ∈ call.values := List.mem_append_right _ (List.mem_map_of_mem hitem)
  refine (h item.2 hmem).mono ?_
  simp [KeyCall.values, Dict.values]

/-- **A key with ignored arguments** is a hash of the arguments that pass. -/
theorem fst_keyOf_eq_ok_iff (h : call.Undisturbed py impl history) :
    (keyOf (tested py impl) dumpsCall hashBytes (memoAfter py impl history) call.args call.kwargs
        true).1 = .ok key ↔
      (∀ v ∈ call.values, (impl v).isOk) ∧ ∃ raw,
        dumpsCall (call.kept impl).args (call.kept impl).kwargs.sortedEntries = .ok raw ∧
          hashBytes raw = key := by
  have hmap : ∀ out : Except PyError ByteArray,
      out.map hashBytes = .ok key ↔ ∃ raw, out = .ok raw ∧ hashBytes raw = key := by
    intro out
    cases out <;> simp [Except.map]
  rw [keyOf, if_pos rfl]
  rcases keep_cases h.args with ⟨hargs, hk⟩ | ⟨⟨v, hv, hno⟩, e, memo, hk⟩
  · rw [hk]
    dsimp only
    rw [List.map_id]
    rcases keep_cases h.kwargs with ⟨hkwargs, hk⟩ | ⟨⟨item, hitem, hno⟩, e, memo, hk⟩
    · rw [hk]
      dsimp only
      rw [Dict.ofList_filter, hmap]
      refine (and_iff_right ?_).symm
      intro v hv
      rcases List.mem_append.mp hv with hv | hv
      · exact hargs v hv
      · obtain ⟨item, hitem, rfl⟩ := List.mem_map.mp hv
        exact hkwargs item hitem
    · rw [hk]
      constructor
      · intro hkey
        cases hkey
      · rintro ⟨hok, -⟩
        have hmem : item.2 ∈ call.values := List.mem_append_right _ (List.mem_map_of_mem hitem)
        exact absurd (hok item.2 hmem) hno
  · rw [hk]
    constructor
    · intro hkey
      cases hkey
    · rintro ⟨hok, -⟩
      exact absurd (hok v (List.mem_append_left _ hv)) hno

theorem exists_of_isOk {E X : Type} {out : Except E X} (h : out.isOk) : ∃ x, out = .ok x := by
  cases out with
  | error e => cases h
  | ok x => exact ⟨x, rfl⟩

/-- **When a call with ignored arguments has a key.** -/
theorem exists_key_iff (h : call.Undisturbed py impl history) :
    (∃ key, (keyOf (tested py impl) dumpsCall hashBytes (memoAfter py impl history) call.args
        call.kwargs true).1 = .ok key) ↔ call.Accepted impl dumpsCall := by
  simp only [fst_keyOf_eq_ok_iff h]
  constructor
  · rintro ⟨key, hok, raw, hraw, -⟩
    refine ⟨hok, ?_⟩
    rw [hraw]
    rfl
  · rintro ⟨hok, hdumps⟩
    obtain ⟨raw, hraw⟩ := exists_of_isOk hdumps
    exact ⟨hashBytes raw, hok, raw, hraw, rfl⟩

/-! ### What ignoring merges -/

variable (impl) in
/-- Wherever one of the calls has a serializable argument, the other one has the same. -/
structure Agree (call call' : KeyCall V) : Prop where
  args : ∀ (i : ℕ) v, call.args[i]? = some v ∨ call'.args[i]? = some v → passes impl v →
    call.args[i]? = call'.args[i]?
  kwargs : ∀ k v, call.kwargs.get? k = some v ∨ call'.kwargs.get? k = some v → passes impl v →
    call.kwargs.get? k = call'.kwargs.get? k

variable (impl) in
/-- The serializable positional arguments stand at the same places. -/
def SamePlaces (args args' : List V) : Prop :=
  ∀ i : ℕ, args[i]?.any (passes impl) = args'[i]?.any (passes impl)

/-- Lists with the same serializable items at the same places agree at these. -/
theorem getElem?_eq_of_samePlaces {args args' : List V} (hplaces : SamePlaces impl args args')
    (hkept : args.filter (passes impl) = args'.filter (passes impl)) (i : ℕ)
    (hi : args[i]?.any (passes impl)) : args[i]? = args'[i]? := by
  induction args generalizing args' i with
  | nil => cases hi
  | cons a args ih =>
    cases args' with
    | nil =>
      have hnone := hplaces i
      rw [hi] at hnone
      cases hnone
    | cons a' args' =>
      have hhead : passes impl a = passes impl a' := by simpa using hplaces 0
      have htail : SamePlaces impl args args' := fun j => by simpa using hplaces (j + 1)
      cases ha : passes impl a with
      | false =>
        rw [List.filter_cons_of_neg (by simp [ha]),
          List.filter_cons_of_neg (by simp [← hhead, ha])] at hkept
        cases i with
        | zero => simp [ha] at hi
        | succ i => simpa using ih htail hkept i (by simpa using hi)
      | true =>
        rw [List.filter_cons_of_pos ha, List.filter_cons_of_pos (hhead ▸ ha)] at hkept
        obtain ⟨rfl, hrest⟩ := List.cons.inj hkept
        cases i with
        | zero => rfl
        | succ i => simpa using ih htail hrest i (by simpa using hi)

theorem any_of_getElem? {args : List V} {i : ℕ} {v : V} (h : args[i]? = some v)
    (hv : passes impl v) : args[i]?.any (passes impl) := by
  rw [h]
  exact hv

/-- Positional arguments of which the same are kept agree where one is serializable if and only if
these stand at the same places. -/
theorem agree_iff_samePlaces (hkept : (call.kept impl).Same (call'.kept impl)) :
    Agree impl call call' ↔ SamePlaces impl call.args call'.args := by
  constructor
  · intro h i
    rw [Bool.eq_iff_iff, Option.any_eq_true, Option.any_eq_true]
    constructor
    · rintro ⟨v, hv, hpass⟩
      exact ⟨v, by rw [← h.args i v (.inl hv) hpass, hv], hpass⟩
    · rintro ⟨v, hv, hpass⟩
      exact ⟨v, by rw [h.args i v (.inr hv) hpass, hv], hpass⟩
  · intro h
    refine ⟨?_, ?_⟩
    · rintro i v (hv | hv) hpass
      · exact getElem?_eq_of_samePlaces h hkept.1 i (any_of_getElem? hv hpass)
      · have hany := any_of_getElem? hv hpass
        exact getElem?_eq_of_samePlaces h hkept.1 i (by rw [h i]; exact hany)
    · -- a keyword that is kept is kept with its value
      have hkwargs := hkept.2
      rintro k v (hv | hv) hpass
      · have hmem : (call.kept impl).kwargs.get? k = some v :=
          Dict.get?_filterEntries_eq_some.mpr ⟨hv, hpass⟩
        rw [hkwargs k] at hmem
        rw [hv, (Dict.get?_filterEntries_eq_some.mp hmem).1]
      · have hmem : (call'.kept impl).kwargs.get? k = some v :=
          Dict.get?_filterEntries_eq_some.mpr ⟨hv, hpass⟩
        rw [← hkwargs k] at hmem
        rw [hv, (Dict.get?_filterEntries_eq_some.mp hmem).1]

/-- Two calls of a function, made after other calls, have one key. -/
def Serializers.SameKey (s : Serializers V) (hashBytes : ByteArray → K) (funcName : PyStr)
    (strategy : Strategy) (history history' : List V) (call call' : KeyCall V) : Prop :=
  ∃ key,
    (s.makeKey hashBytes funcName strategy
      (memoAfter s.toHashing (s.impl strategy) history) call.args call.kwargs true).1 = .ok key ∧
    (s.makeKey hashBytes funcName strategy
      (memoAfter s.toHashing (s.impl strategy) history') call'.args call'.kwargs true).1 = .ok key

variable (impl dumpsCall) in
/-- The serializer tells the kept arguments of two calls from each other. -/
def Distinguishes (call call' : KeyCall V) : Prop :=
  ∀ raw, dumpsCall (call.kept impl).args (call.kept impl).kwargs.sortedEntries = .ok raw →
    dumpsCall (call'.kept impl).args (call'.kept impl).kwargs.sortedEntries = .ok raw →
    (call.kept impl).Same (call'.kept impl)

/-- **When ignoring merges nothing else.** -/
theorem ignoring_merges_nothing_else_iff (s : Serializers V) (hashBytes : ByteArray → K)
    (hhash : Function.Injective hashBytes) (funcName : PyStr) (strategy : Strategy)
    (history history' : List V) (call call' : KeyCall V)
    (hu : call.Undisturbed s.toHashing (s.impl strategy) history)
    (hu' : call'.Undisturbed s.toHashing (s.impl strategy) history')
    (hinj : Distinguishes (s.impl strategy) (s.dumpsCall funcName strategy) call call') :
    (s.SameKey hashBytes funcName strategy history history' call call' →
        Agree (s.impl strategy) call call') ↔
      (call.Accepted (s.impl strategy) (s.dumpsCall funcName strategy) →
        call'.Accepted (s.impl strategy) (s.dumpsCall funcName strategy) →
        (call.kept (s.impl strategy)).Same (call'.kept (s.impl strategy)) →
        SamePlaces (s.impl strategy) call.args call'.args) := by
  constructor
  · intro h hacc hacc' hsame
    rw [← agree_iff_samePlaces hsame]
    refine h ?_
    obtain ⟨hok, hdumps⟩ := hacc
    obtain ⟨raw, hraw⟩ := exists_of_isOk hdumps
    have hraw' := hraw
    rw [hsame.1, Dict.sortedEntries_eq_iff.mpr hsame.2] at hraw'
    refine ⟨hashBytes raw, ?_, ?_⟩
    · rw [s.makeKey_eq, fst_keyOf_eq_ok_iff hu]
      exact ⟨hok, raw, hraw, rfl⟩
    · rw [s.makeKey_eq, fst_keyOf_eq_ok_iff hu']
      exact ⟨hacc'.1, raw, hraw', rfl⟩
  · rintro h ⟨key, hkey, hkey'⟩
    rw [s.makeKey_eq, fst_keyOf_eq_ok_iff hu] at hkey
    rw [s.makeKey_eq, fst_keyOf_eq_ok_iff hu'] at hkey'
    obtain ⟨hok, raw, hraw, rfl⟩ := hkey
    obtain ⟨hok', raw', hraw', heq⟩ := hkey'
    obtain rfl : raw' = raw := hhash heq
    have hsame := hinj _ hraw hraw'
    rw [agree_iff_samePlaces hsame]
    refine h ⟨hok, ?_⟩ ⟨hok', ?_⟩ hsame
    · rw [hraw]; rfl
    · rw [hraw']; rfl

/-! ### A lock among the arguments -/

/-- An integer of one byte, or a lock, which no serializer takes. -/
inductive Arg
  | int (n : UInt8)
  | lock (id : ℕ)
  deriving DecidableEq

namespace Arg

/-- What JSON says of an argument. -/
def reading : Arg → Except PyError Reading
  | .int n => .ok (.atom (.int n.toNat))
  | .lock _ => .error .typeError

/-- What JSON says of a keyword argument. -/
def readingItem (item : PyStr × Arg) : Except PyError (List CodeUnit × Reading) :=
  item.2.reading.map fun r => (units item.1, r)

/-- `json.dumps` of the arguments of a call. -/
def jsonDumpsCall (funcName : PyStr) (args : List Arg) (items : List (PyStr × Arg)) :
    Except PyError String := do
  let args ← args.mapM reading
  let items ← items.mapM readingItem
  return String.ofList (render (.obj [(units (ofString "args"), .arr args),
    (units (ofString "func"), .str (units funcName)), (units (ofString "kwargs"), .obj items)]))

/-- `BININT1`. -/
def pickled : Arg → Except PyError (List UInt8)
  | .int n => .ok [0x4b, n]
  | .lock _ => .error .typeError

/-- A short ASCII `str`: `SHORT_BINUNICODE` and `MEMOIZE`. -/
def pickledStr (s : PyStr) : List UInt8 :=
  [0x8c, UInt8.ofNat s.length] ++ s.map (fun c => UInt8.ofNat c.val) ++ [0x94]

/-- A `tuple`: up to three items have an opcode of their own, more are marked. -/
def pickledTuple (items : List (List UInt8)) : List UInt8 :=
  if items = [] then [0x29]
  else if items.length ≤ 3 then items.flatten ++ [UInt8.ofNat (0x84 + items.length), 0x94]
  else 0x28 :: items.flatten ++ [0x74, 0x94]

/-- A `list`: `APPEND` for one item, `APPENDS` for more. -/
def pickledList (items : List (List UInt8)) : List UInt8 :=
  [0x5d, 0x94] ++
    if items = [] then [] else if items.length = 1 then items.flatten ++ [0x61]
    else 0x28 :: items.flatten ++ [0x65]

/-- A keyword argument. -/
def pickledItem (item : PyStr × Arg) : Except PyError (List UInt8) :=
  item.2.pickled.map fun v => pickledTuple [pickledStr item.1, v]

/-- `pickle.dumps` of the arguments of a call, in a frame of fewer than 256 bytes. -/
def pickleDumpsCall (funcName : PyStr) (args : List Arg) (items : List (PyStr × Arg)) :
    Except PyError ByteArray := do
  let args ← args.mapM pickled
  let items ← items.mapM pickledItem
  let frame := pickledTuple [pickledStr funcName, pickledTuple args, pickledList items] ++ [0x2e]
  return ([0x80, 0x04, 0x95, UInt8.ofNat frame.length, 0, 0, 0, 0, 0, 0, 0] ++ frame).toByteArray

/-- Integers and locks. -/
def serializers : Serializers Arg where
  hashable _ := true
  same x y := decide (x = y)
  jsonDumps v := v.reading.map fun r => String.ofList (render r)
  pickleDumps v := v.pickled.map fun p => ([0x80, 0x04] ++ p ++ [0x2e]).toByteArray
  jsonDumpsCall := jsonDumpsCall
  pickleDumpsCall := pickleDumpsCall

theorem undisturbed (impl : Arg → Except PyError Bool) (history : List Arg) (call : KeyCall Arg) :
    call.Undisturbed serializers.toHashing impl history := by
  intro v _ _ w _ hsame
  obtain rfl : w = v := of_decide_eq_true hsame
  rfl

end Arg

/-- `f(1, lock)` and `f(1, lock')` have one key, and agree in their integer. -/
theorem locks_are_merged :
    Agree (Arg.serializers.impl .json) ⟨[.int 1, .lock 0], ∅⟩ ⟨[.int 1, .lock 1], ∅⟩ := by
  refine (ignoring_merges_nothing_else_iff Arg.serializers id Function.injective_id (ofString "f")
    .json [] [] ⟨[.int 1, .lock 0], ∅⟩ ⟨[.int 1, .lock 1], ∅⟩ (Arg.undisturbed _ _ _)
    (Arg.undisturbed _ _ _) ?_).mpr ?_ ⟨_, rfl, rfl⟩
  · intro raw _ _
    exact ⟨rfl, fun _ => rfl⟩
  · intro _ _ _ i
    match i with
    | 0 => rfl
    | 1 => rfl
    | i + 2 => rfl

/-- **A place is lost.** `f(1, lock)` and `f(lock, 1)` have one key, with both strategies. -/
theorem ignoring_merges_places :
    (Arg.serializers.SameKey id (ofString "f") .json [] [] ⟨[.int 1, .lock 0], ∅⟩
        ⟨[.lock 0, .int 1], ∅⟩ ∧
      ¬ Agree (Arg.serializers.impl .json) ⟨[.int 1, .lock 0], ∅⟩ ⟨[.lock 0, .int 1], ∅⟩) ∧
    (Arg.serializers.SameKey id (ofString "f") .pickle [] [] ⟨[.int 1, .lock 0], ∅⟩
        ⟨[.lock 0, .int 1], ∅⟩ ∧
      ¬ Agree (Arg.serializers.impl .pickle) ⟨[.int 1, .lock 0], ∅⟩ ⟨[.lock 0, .int 1], ∅⟩) := by
  refine ⟨⟨⟨_, rfl, rfl⟩, ?_⟩, ⟨_, rfl, rfl⟩, ?_⟩
  · intro h
    exact absurd (h.args 0 (.int 1) (.inl rfl) rfl) (by decide)
  · intro h
    exact absurd (h.args 0 (.int 1) (.inl rfl) rfl) (by decide)

end Cache

end Persista
