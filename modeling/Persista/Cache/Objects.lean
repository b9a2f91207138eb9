import Persista.Cache.Keys
import Persista.Json.Equality

/-!
# `make_json_key` on any values

Values that `json.dumps` may refuse, and `make_json_key` with `ignore_non_serializable` on them. An
argument is tested by writing it on its own, without `sort_keys`; what passes is written once more,
with `sort_keys`, as a part of the call.

## What the two writings refuse

Without `sort_keys` the parts of a value are written in their order, and the first one at fault
decides (`PyObj.faults`): `TypeError` for an object that is not supported or for a key that is no
JSON key, `ValueError` for a value that contains itself. The test takes only the `TypeError` for an
answer. With `sort_keys` the keys of each `dict` have to be comparable as well, and the test did not
ask.

## Main results

* `raised_reading` — what a value raises when it is written without `sort_keys`
* `isOk_reading_iff` — when a value that passed the test can be written with `sort_keys`
* `makeJsonKey_total_iff` — when a call has a key
-/

namespace Persista

namespace Cache

open Json

/-- A Python value. The keys of a `dict` are distinct and hashable. A list, tuple or `dict` can
contain itself: `enclosing level` is the one that many steps further out. -/
inductive PyObj
  | none
  | bool (b : Bool)
  | int (n : ℤ)
  | float (x : PyFloat)
  | str (s : PyStr)
  | list (items : List PyObj)
  | tuple (items : List PyObj)
  | dict (items : List (PyObj × PyObj))
  | object (id : ℕ) (hashable : Bool)
  | enclosing (level : ℕ)

namespace PyObj

/-! ### Hashing -/

mutual

/-- `hash(value)` does not raise. -/
def hashable : PyObj → Bool
  | .none | .bool _ | .int _ | .float _ | .str _ => true
  | .tuple items => hashableItems items
  | .object _ hashable => hashable
  | .list _ | .dict _ | .enclosing _ => false

/-- The items of a `tuple`. -/
def hashableItems : List PyObj → Bool
  | [] => true
  | v :: vs => v.hashable && hashableItems vs

end

section Same

variable {N : Type} [LinearOrder N] (num : Numbers N)

/-- The number that a value is, when it is one. -/
def number : PyObj → Option N
  | .bool b => some (num.ofInt b.toNat)
  | .int n => some (num.ofInt n)
  | .float x => floatNumber num x
  | _ => Option.none

mutual

/-- `==`, of hashable values. -/
def same : PyObj → PyObj → Bool
  | .none, .none => true
  | .str s, .str t => decide (s = t)
  | .tuple vs, .tuple ws => sameItems vs ws
  | .object i _, .object j _ => decide (i = j)
  | v, w => sameNumber (v.number num) (w.number num)

/-- The items of two tuples. -/
def sameItems : List PyObj → List PyObj → Bool
  | [], [] => true
  | v :: vs, w :: ws => same v w && sameItems vs ws
  | _, _ => false

end

/-! ### `json.dumps` -/

/-- The string that a key is written as; other keys raise `TypeError`. -/
def keyText : PyObj → Option (List CodeUnit)
  | .str s => some (units s)
  | .float x => some (asciiUnits x.text)
  | .bool b => some (asciiUnits (Atom.bool b).text)
  | .none => some (asciiUnits Atom.null.text)
  | .int n => some (asciiUnits (intText n))
  | _ => Option.none

/-- The value is a `str`. -/
def isStr : PyObj → Bool
  | .str _ => true
  | _ => false

/-- The value is a number. -/
def isNumber : PyObj → Bool
  | .bool _ | .int _ | .float _ => true
  | _ => false

/-- Keys that can be sorted, among those that JSON has. -/
def sortable (keys : List PyObj) : Bool :=
  keys.all isStr || keys.all isNumber || keys.length ≤ 1

/-- `not k' < k`, for keys that can be sorted. -/
def keyLe : PyObj → PyObj → Bool
  | .str s, .str s' => decide (s ≤ s')
  | k, k' =>
    match k.number num, k'.number num with
    | some x, some y => decide (x ≤ y)
    | _, _ => true

/-- `sorted(dct.items())`. -/
def sortItems (items : List (PyObj × Except PyError Reading)) :
    List (PyObj × Except PyError Reading) :=
  items.insertionSort fun a b => keyLe num a.1 b.1

/-- A member of an object: its key is looked at first. -/
def readingMember (item : PyObj × Except PyError Reading) :
    Except PyError (List CodeUnit × Reading) :=
  match item.1.keyText with
  | Option.none => .error .typeError
  | some text => item.2.map fun r => (text, r)

/-- The members of an object, in their order. -/
def readingMembers : List (PyObj × Except PyError Reading) →
    Except PyError (List (List CodeUnit × Reading))
  | [] => .ok []
  | item :: items =>
    match readingMember item with
    | .error e => .error e
    | .ok m => (readingMembers items).map (m :: ·)

/-- The object of a `dict`, whose values are written when their turn comes. -/
def readingDict (sortKeys : Bool) (items : List (PyObj × Except PyError Reading)) :
    Except PyError Reading :=
  if sortKeys then
    if sortable (items.map Prod.fst) then (readingMembers (sortItems num items)).map .obj
    else .error .typeError
  else (readingMembers items).map .obj

mutual

/-- What `json.dumps(value, sort_keys=sortKeys)` says. -/
def reading (sortKeys : Bool) : PyObj → Except PyError Reading
  | .none => .ok (.atom .null)
  | .bool b => .ok (.atom (.bool b))
  | .int n => .ok (.atom (.int n))
  | .float x => .ok (.atom (.float x))
  | .str s => .ok (.str (units s))
  | .list items => (readingList sortKeys items).map .arr
  | .tuple items => (readingList sortKeys items).map .arr
  | .dict items => readingDict num sortKeys (readingItems sortKeys items)
  | .object _ _ => .error .typeError
  | .enclosing _ => .error .valueError

/-- The items of a `list` or `tuple`. -/
def readingList (sortKeys : Bool) : List PyObj → Except PyError (List Reading)
  | [] => .ok []
  | v :: vs =>
    match reading sortKeys v with
    | .error e => .error e
    | .ok r => (readingList sortKeys vs).map (r :: ·)

/-- The items of a `dict`. -/
def readingItems (sortKeys : Bool) :
    List (PyObj × PyObj) → List (PyObj × Except PyError Reading)
  | [] => []
  | (k, v) :: items => (k, reading sortKeys v) :: readingItems sortKeys items

end

/-- `json.dumps(value, sort_keys=sortKeys)`. -/
def jsonDumps (sortKeys : Bool) (value : PyObj) : Except PyError String :=
  (reading num sortKeys value).map fun r => String.ofList (render r)

/-- `{"func": func_name, "args": args, "kwargs": kwargs}`. -/
def payload (funcName : PyStr) (args : List PyObj) (items : List (PyStr × PyObj)) : PyObj :=
  .dict [(.str (ofString "func"), .str funcName), (.str (ofString "args"), .tuple args),
    (.str (ofString "kwargs"), .dict (items.map fun item => (.str item.1, item.2)))]

/-- Python values; what `pickle` makes of them is left open. -/
def serializers (pickleDumps : PyObj → Except PyError ByteArray)
    (pickleDumpsCall : PyStr → List PyObj → List (PyStr × PyObj) → Except PyError ByteArray) :
    Serializers PyObj where
  hashable := hashable
  same := same num
  jsonDumps := jsonDumps num false
  pickleDumps := pickleDumps
  jsonDumpsCall funcName args items := jsonDumps num true (payload funcName args items)
  pickleDumpsCall := pickleDumpsCall

end Same

/-! ### Faults -/

/-- What keeps a value from being written. -/
inductive Fault
  | unsupported
  | circular
  deriving DecidableEq

/-- What it raises. -/
def Fault.raises : Fault → PyError
  | .unsupported => .typeError
  | .circular => .valueError

mutual

/-- The faults of a value, in the order of its text. -/
def faults : PyObj → List Fault
  | .none | .bool _ | .int _ | .float _ | .str _ => []
  | .list items => faultsList items
  | .tuple items => faultsList items
  | .dict items => faultsItems items
  | .object _ _ => [.unsupported]
  | .enclosing _ => [.circular]

/-- The faults of the items of a `list` or `tuple`. -/
def faultsList : List PyObj → List Fault
  | [] => []
  | v :: vs => v.faults ++ faultsList vs

/-- The faults of the items of a `dict`. -/
def faultsItems : List (PyObj × PyObj) → List Fault
  | [] => []
  | (k, v) :: items =>
    (if k.keyText.isSome then [] else [.unsupported]) ++ (v.faults ++ faultsItems items)

end

mutual

/-- Python can sort the keys of each `dict` of a value. -/
def keysSortable : PyObj → Bool
  | .list items => keysSortableList items
  | .tuple items => keysSortableList items
  | .dict items => sortable (items.map Prod.fst) && keysSortableItems items
  | _ => true

/-- The items of a `list` or `tuple`. -/
def keysSortableList : List PyObj → Bool
  | [] => true
  | v :: vs => v.keysSortable && keysSortableList vs

/-- The values of a `dict`. -/
def keysSortableItems : List (PyObj × PyObj) → Bool
  | [] => true
  | (_, v) :: items => v.keysSortable && keysSortableItems items

end

/-! ### What is refused -/

section Except

variable {E X Y : Type}

/-- What was raised. -/
def raised : Except E X → Option E
  | .error e => some e
  | .ok _ => Option.none

theorem raised_map (out : Except E X) (f : X → Y) : raised (out.map f) = raised out := by
  cases out <;> rfl

theorem isOk_map (out : Except E X) (f : X → Y) : (out.map f).isOk = out.isOk := by
  cases out <;> rfl

end Except

variable {N : Type} [LinearOrder N] (num : Numbers N)

mutual

/-- **Without `sort_keys`** the first fault of a value decides. -/
theorem raised_reading : ∀ v : PyObj,
    raised (reading num false v) = v.faults.head?.map Fault.raises
  | .none | .bool _ | .int _ | .float _ | .str _ => by rw [reading, faults]; rfl
  | .list items => by rw [reading, raised_map, raised_readingList items, faults]
  | .tuple items => by rw [reading, raised_map, raised_readingList items, faults]
  | .dict items => by
    rw [reading, readingDict, if_neg Bool.false_ne_true, raised_map, raised_readingItems items,
      faults]
  | .object _ _ => by rw [reading, faults]; rfl
  | .enclosing _ => by rw [reading, faults]; rfl

theorem raised_readingList : ∀ vs : List PyObj,
    raised (readingList num false vs) = (faultsList vs).head?.map Fault.raises
  | [] => by rw [readingList, faultsList]; rfl
  | v :: vs => by
    have hv := raised_reading v
    have hvs := raised_readingList vs
    rw [readingList, faultsList, List.head?_append, Option.map_or, ← hv, ← hvs]
    cases reading num false v with
    | error e => rfl
    | ok r => exact raised_map _ _

theorem raised_readingItems : ∀ items : List (PyObj × PyObj),
    raised (readingMembers (readingItems num false items)) =
      (faultsItems items).head?.map Fault.raises
  | [] => by rw [readingItems, readingMembers, faultsItems]; rfl
  | (k, v) :: items => by
    have hv := raised_reading v
    have hitems := raised_readingItems items
    rw [readingItems, readingMembers, readingMember, faultsItems]
    cases k.keyText with
    | none => rfl
    | some text =>
      rw [if_pos (show (some text).isSome from rfl), List.nil_append, List.head?_append,
        Option.map_or, ← hv, ← hitems]
      cases reading num false v with
      | error e => rfl
      | ok r => exact raised_map _ _

end

theorem isOk_readingMembers (items : List (PyObj × Except PyError Reading)) :
    (readingMembers items).isOk ↔ ∀ item ∈ items, (readingMember item).isOk := by
  induction items with
  | nil => simp [readingMembers, Except.isOk, Except.toBool]
  | cons item items ih =>
    rw [readingMembers, List.forall_mem_cons, ← ih]
    cases readingMember item with
    | error e => simp [Except.isOk, Except.toBool]
    | ok m =>
      dsimp only
      rw [isOk_map]
      simp [Except.isOk, Except.toBool]

theorem map_fst_readingItems (sortKeys : Bool) (items : List (PyObj × PyObj)) :
    (readingItems num sortKeys items).map Prod.fst = items.map Prod.fst := by
  induction items with
  | nil => rw [readingItems]; rfl
  | cons item items ih =>
    obtain ⟨k, v⟩ := item
    rw [readingItems, List.map_cons, ih]
    rfl

/-- Sorting decides on its own whether a `dict` can be written, or leaves it to its members. -/
theorem isOk_readingDict (items : List (PyObj × Except PyError Reading)) :
    (readingDict num true items).isOk ↔
      sortable (items.map Prod.fst) ∧ ∀ item ∈ items, (readingMember item).isOk := by
  rw [readingDict, if_pos rfl]
  split
  · next h =>
    rw [isOk_map, isOk_readingMembers, and_iff_right h]
    have hmem : ∀ item, item ∈ sortItems num items ↔ item ∈ items := fun item =>
      (List.perm_insertionSort _ items).mem_iff
    simp only [hmem]
  · next h => simp [h, Except.isOk, Except.toBool]

mutual

/-- **With `sort_keys`** a value without faults is written if and only if its keys can be
sorted. -/
theorem isOk_reading_iff : ∀ v : PyObj, v.faults = [] →
    ((reading num true v).isOk ↔ v.keysSortable)
  | .none, _ | .bool _, _ | .int _, _ | .float _, _ | .str _, _ => by
    rw [reading, keysSortable]
    · exact iff_of_true rfl rfl
    all_goals simp
  | .list items, h => by
    rw [faults] at h
    rw [reading, isOk_map, isOk_readingList_iff items h, keysSortable]
  | .tuple items, h => by
    rw [faults] at h
    rw [reading, isOk_map, isOk_readingList_iff items h, keysSortable]
  | .dict items, h => by
    rw [faults] at h
    rw [reading, isOk_readingDict, map_fst_readingItems, isOk_readingItems_iff items h,
      keysSortable, Bool.and_eq_true]
  | .object _ _, h => by rw [faults] at h; cases h
  | .enclosing _, h => by rw [faults] at h; cases h

theorem isOk_readingList_iff : ∀ vs : List PyObj, faultsList vs = [] →
    ((readingList num true vs).isOk ↔ keysSortableList vs)
  | [], _ => by rw [readingList, keysSortableList]; exact iff_of_true rfl rfl
  | v :: vs, h => by
    rw [faultsList, List.append_eq_nil_iff] at h
    have hv := isOk_reading_iff v h.1
    have hvs := isOk_readingList_iff vs h.2
    rw [readingList, keysSortableList, Bool.and_eq_true, ← hv, ← hvs]
    cases reading num true v with
    | error e => simp [Except.isOk, Except.toBool]
    | ok r =>
      dsimp only
      rw [isOk_map]
      simp [Except.isOk, Except.toBool]

theorem isOk_readingItems_iff : ∀ items : List (PyObj × PyObj), faultsItems items = [] →
    ((∀ item ∈ readingItems num true items, (readingMember item).isOk) ↔ keysSortableItems items)
  | [], _ => by simp [readingItems, keysSortableItems]
  | (k, v) :: items, h => by
    rw [faultsItems, List.append_eq_nil_iff, List.append_eq_nil_iff] at h
    have hv := isOk_reading_iff v h.2.1
    have hitems := isOk_readingItems_iff items h.2.2
    rw [readingItems, List.forall_mem_cons, hitems, keysSortableItems, Bool.and_eq_true, ← hv,
      readingMember]
    cases hk : k.keyText with
    | none =>
      rw [hk] at h
      exact absurd h.1 (List.cons_ne_nil _ _)
    | some text =>
      dsimp only
      rw [isOk_map]

end

/-! ### The test -/

/-- The plain test of a value, by its faults. -/
theorem isJsonSerializableImpl_eq (v : PyObj) :
    isJsonSerializableImpl (jsonDumps num false) v =
      match v.faults.head? with
      | Option.none => .ok true
      | some .unsupported => .ok false
      | some .circular => .error .valueError := by
  have hraised := raised_reading num v
  rw [isJsonSerializableImpl, jsonDumps]
  cases hr : reading num false v with
  | ok r =>
    rw [hr] at hraised
    cases hf : v.faults.head? with
    | none => rfl
    | some f => rw [hf] at hraised; cases hraised
  | error e =>
    rw [hr] at hraised
    cases hf : v.faults.head? with
    | none => rw [hf] at hraised; cases hraised
    | some f =>
      rw [hf] at hraised
      obtain rfl : e = f.raises := Option.some.inj hraised
      cases f <;> rfl

/-- Equal values have faults that the test answers alike: none of them is circular, and they have
none together. -/
def FaultsAlike (fs gs : List Fault) : Prop :=
  (∀ f ∈ fs ++ gs, f = .unsupported) ∧ (fs = [] ↔ gs = [])

theorem FaultsAlike.append {fs gs fs' gs' : List Fault} (h : FaultsAlike fs gs)
    (h' : FaultsAlike fs' gs') : FaultsAlike (fs ++ fs') (gs ++ gs') := by
  refine ⟨?_, ?_⟩
  · intro f hf
    have hor : f ∈ fs ++ gs ∨ f ∈ fs' ++ gs' := by
      simp only [List.mem_append] at hf ⊢
      tauto
    rcases hor with hf | hf
    · exact h.1 f hf
    · exact h'.1 f hf
  · rw [List.append_eq_nil_iff, List.append_eq_nil_iff, h.2, h'.2]

omit [LinearOrder N] in
theorem faults_of_number {v : PyObj} (h : (v.number num).isSome) : v.faults = [] := by
  cases v with
  | bool _ | int _ | float _ => rw [faults]
  | _ => simp [number] at h

/-- Equal hashable values are two tuples, or both have no fault, or both are objects. -/
theorem same_cases {v w : PyObj} (h : same num v w) :
    (∃ vs ws, v = .tuple vs ∧ w = .tuple ws ∧ sameItems num vs ws) ∨
      FaultsAlike v.faults w.faults := by
  have hnil : FaultsAlike [] [] := ⟨by simp, Iff.rfl⟩
  rw [same.eq_def] at h
  split at h
  · rw [faults]
    exact .inr hnil
  · rw [faults, faults]
    exact .inr hnil
  · next vs ws => exact .inl ⟨vs, ws, rfl, rfl, h⟩
  · rw [faults, faults]
    exact .inr ⟨by simp, by simp⟩
  · rw [sameNumber, Bool.and_eq_true, decide_eq_true_iff] at h
    rw [faults_of_number num h.1, faults_of_number num (h.2 ▸ h.1)]
    exact .inr hnil

mutual

theorem faultsAlike_of_same : ∀ v w : PyObj, same num v w → FaultsAlike v.faults w.faults
  | .tuple vs, w, h => by
    rcases same_cases num h with ⟨vs', ws, hv, rfl, hs⟩ | halike
    · cases hv
      rw [faults, faults]
      exact faultsAlike_of_sameItems vs ws hs
    · exact halike
  | .none, w, h | .bool _, w, h | .int _, w, h | .float _, w, h | .str _, w, h | .list _, w, h
  | .dict _, w, h | .object _ _, w, h | .enclosing _, w, h => by
    rcases same_cases num h with ⟨vs, ws, hv, -, -⟩ | halike
    · cases hv
    · exact halike

theorem faultsAlike_of_sameItems : ∀ vs ws : List PyObj, sameItems num vs ws →
    FaultsAlike (faultsList vs) (faultsList ws)
  | [], [], _ => ⟨by simp [faultsList], Iff.rfl⟩
  | v :: vs, w :: ws, h => by
    rw [sameItems, Bool.and_eq_true] at h
    rw [faultsList, faultsList]
    exact (faultsAlike_of_same v w h.1).append (faultsAlike_of_sameItems vs ws h.2)
  | [], _ :: _, h => by simp [sameItems] at h
  | _ :: _, [], h => by simp [sameItems] at h

end

/-- **Equal values are tested alike.** -/
theorem isJsonSerializableImpl_congr {v w : PyObj} (h : same num v w) :
    isJsonSerializableImpl (jsonDumps num false) v =
      isJsonSerializableImpl (jsonDumps num false) w := by
  obtain ⟨hunsupported, hnil⟩ := faultsAlike_of_same num v w h
  have hhead : ∀ fs : List Fault, (∀ f ∈ fs, f = .unsupported) → fs ≠ [] →
      fs.head? = some .unsupported := by
    intro fs hfs hne
    obtain ⟨f, fs, rfl⟩ := List.exists_cons_of_ne_nil hne
    rw [hfs f (by simp)]
    rfl
  rw [isJsonSerializableImpl_eq, isJsonSerializableImpl_eq]
  by_cases hv : v.faults = []
  · rw [hv, hnil.mp hv]
  · rw [hhead _ (fun f hf => hunsupported f (List.mem_append_left _ hf)) hv,
      hhead _ (fun f hf => hunsupported f (List.mem_append_right _ hf)) (hnil.not.mp hv)]

/-! ### Calls -/

variable {num} {pickleDumps : PyObj → Except PyError ByteArray}
  {pickleDumpsCall : PyStr → List PyObj → List (PyStr × PyObj) → Except PyError ByteArray}

theorem undisturbed (history : List PyObj) (call : KeyCall PyObj) :
    call.Undisturbed (serializers num pickleDumps pickleDumpsCall).toHashing
      (isJsonSerializableImpl (jsonDumps num false)) history := by
  intro v _ _ w _ hsame
  exact isJsonSerializableImpl_congr num hsame

/-- No fault of a value is circular before another one, and if it has none its keys can be
sorted. -/
def Keepable (v : PyObj) : Prop :=
  v.faults.head? ≠ some .circular ∧ (v.faults = [] → v.keysSortable)

theorem isOk_isJsonSerializableImpl_iff {v : PyObj} :
    (isJsonSerializableImpl (jsonDumps num false) v).isOk ↔ v.faults.head? ≠ some .circular := by
  rw [isJsonSerializableImpl_eq]
  cases v.faults.head? with
  | none => simp [Except.isOk, Except.toBool]
  | some f => cases f <;> simp [Except.isOk, Except.toBool]

variable (num) in
theorem passes_iff {v : PyObj} :
    passes (isJsonSerializableImpl (jsonDumps num false)) v ↔ v.faults = [] := by
  rw [passes, isJsonSerializableImpl_eq, ← List.head?_eq_none_iff]
  cases v.faults.head? with
  | none => simp
  | some f => cases f <;> simp

/-- The keys of a call can be sorted; its arguments decide whether it can be written. -/
theorem isOk_jsonDumps_payload_iff {funcName : PyStr} {args : List PyObj}
    {items : List (PyStr × PyObj)} (hargs : ∀ v ∈ args, v.faults = [])
    (hitems : ∀ item ∈ items, item.2.faults = []) :
    (jsonDumps num true (payload funcName args items)).isOk ↔
      (∀ v ∈ args, v.keysSortable) ∧ ∀ item ∈ items, item.2.keysSortable := by
  have hfaults : ∀ vs : List PyObj, (∀ v ∈ vs, v.faults = []) → faultsList vs = [] := by
    intro vs hvs
    induction vs with
    | nil => rw [faultsList]
    | cons v vs ih =>
      rw [faultsList, hvs v (by simp), ih fun w hw => hvs w (by simp [hw])]
      rfl
  have hfaultsItems : ∀ items : List (PyStr × PyObj), (∀ item ∈ items, item.2.faults = []) →
      faultsItems (items.map fun item => (.str item.1, item.2)) = [] := by
    intro items hitems
    induction items with
    | nil => rw [List.map_nil, faultsItems]
    | cons item items ih =>
      rw [List.map_cons, faultsItems, hitems item (by simp), ih fun w hw => hitems w (by simp [hw])]
      rfl
  have hsortable : ∀ vs : List PyObj, keysSortableList vs ↔ ∀ v ∈ vs, v.keysSortable := by
    intro vs
    induction vs with
    | nil => simp [keysSortableList]
    | cons v vs ih => rw [keysSortableList, Bool.and_eq_true, ih, List.forall_mem_cons]
  have hsortableItems : ∀ items : List (PyStr × PyObj),
      keysSortableItems (items.map fun item => (.str item.1, item.2)) ↔
        ∀ item ∈ items, item.2.keysSortable := by
    intro items
    induction items with
    | nil => simp [keysSortableItems]
    | cons item items ih =>
      rw [List.map_cons, keysSortableItems, Bool.and_eq_true, ih, List.forall_mem_cons]
  have hnone : (payload funcName args items).faults = [] := by
    simp [payload, faults, faultsItems, keyText, hfaults args hargs, hfaultsItems items hitems]
  rw [jsonDumps, isOk_map, isOk_reading_iff num _ hnone, ← hsortable, ← hsortableItems]
  simp [payload, keysSortable, keysSortableItems, sortable, isStr]

/-- **When a call has a key**, after any earlier calls of the test. Integers are those that
`int.__repr__` writes out: up to 4300 digits, unless the limit was changed. -/
theorem makeJsonKey_total_iff {K N : Type} [LinearOrder N] (num : Numbers N)
    (pickleDumps : PyObj → Except PyError ByteArray)
    (pickleDumpsCall : PyStr → List PyObj → List (PyStr × PyObj) → Except PyError ByteArray)
    (hashBytes : ByteArray → K) (history : List PyObj) (funcName : PyStr) (args : List PyObj)
    (kwargs : Dict PyStr PyObj) :
    (∃ key, ((serializers num pickleDumps pickleDumpsCall).makeJsonKey hashBytes funcName
        (memoAfter (serializers num pickleDumps pickleDumpsCall).toHashing
          (isJsonSerializableImpl (jsonDumps num false)) history) args kwargs true).1 = .ok key) ↔
      ∀ v ∈ args ++ kwargs.values, Keepable v := by
  set impl := isJsonSerializableImpl (jsonDumps num false)
  set call : KeyCall PyObj := ⟨args, kwargs⟩
  have hmem : ∀ item, item ∈ (call.kept impl).kwargs.sortedEntries ↔
      item ∈ kwargs.entries ∧ item.2.faults = [] := by
    intro item
    rw [(Dict.perm_sortedEntries _).mem_iff, ← passes_iff num]
    exact List.mem_filter
  have hargs : ∀ v, v ∈ (call.kept impl).args ↔ v ∈ args ∧ v.faults = [] := by
    intro v
    rw [← passes_iff num]
    exact List.mem_filter
  have hdumps : ((jsonDumps num true (payload funcName (call.kept impl).args
      (call.kept impl).kwargs.sortedEntries)).map String.toUTF8).isOk ↔
      (∀ v ∈ (call.kept impl).args, v.keysSortable) ∧
        ∀ item ∈ (call.kept impl).kwargs.sortedEntries, item.2.keysSortable := by
    rw [isOk_map]
    exact isOk_jsonDumps_payload_iff (fun v hv => ((hargs v).mp hv).2)
      fun item hitem => ((hmem item).mp hitem).2
  refine (exists_key_iff (undisturbed history call)).trans ((and_congr_right' hdumps).trans ?_)
  constructor
  · rintro ⟨hok, hsorted, hsortedItems⟩ v hv
    refine ⟨isOk_isJsonSerializableImpl_iff.mp (hok v hv), fun hnil => ?_⟩
    rcases List.mem_append.mp hv with hv | hv
    · exact hsorted v ((hargs v).mpr ⟨hv, hnil⟩)
    · obtain ⟨item, hitem, rfl⟩ := List.mem_map.mp hv
      exact hsortedItems item ((hmem item).mpr ⟨hitem, hnil⟩)
  · intro h
    refine ⟨fun v hv => isOk_isJsonSerializableImpl_iff.mpr (h v hv).1, ?_, ?_⟩
    · intro v hv
      obtain ⟨hv, hnil⟩ := (hargs v).mp hv
      exact (h v (List.mem_append_left _ hv)).2 hnil
    · intro item hitem
      obtain ⟨hitem, hnil⟩ := (hmem item).mp hitem
      exact (h item.2 (List.mem_append_right _ (List.mem_map_of_mem hitem))).2 hnil

/-- Integers as numbers; the floats of the values below do not matter. -/
def integers : Numbers ℤ := ⟨id, fun _ => 0⟩

/-- `{1: "x", "a": "y"}`. -/
def mixedKeys : PyObj :=
  .dict [(.int 1, .str (ofString "x")), (.str (ofString "a"), .str (ofString "y"))]

/-- A list whose item is the list. -/
def selfContaining : PyObj := .list [.enclosing 0]

/-- **Two arguments that are not dropped.** A `dict` with keys of two types passes the test and
cannot be written with sorted keys; for a list that contains itself the test itself raises. -/
theorem ignoring_raises :
    ((serializers integers (fun _ => .error .picklingError) fun _ _ _ => .error .picklingError
        ).makeJsonKey id (ofString "f") Lru.empty [mixedKeys] ∅ true).1 = .error .typeError ∧
    ((serializers integers (fun _ => .error .picklingError) fun _ _ _ => .error .picklingError
        ).makeJsonKey id (ofString "f") Lru.empty [selfContaining] ∅ true).1 =
      .error .valueError := by
  refine ⟨rfl, rfl⟩

end PyObj

end Cache

end Persista
