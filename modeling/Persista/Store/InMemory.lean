import Persista.Lib.Refinement
import Persista.Store.Contents

/-!
# `InMemoryStore`

`store/in_memory.py`: a `dict` and a closed flag. Values are deep-copied on the way in and out,
which is the identity on values; aliasing is not part of this model.

The store is generic in its values. `get_many` and `delete_many` loop over the single-key methods
and so check that the store is open once per key, not once per call, which is why they do not raise
on an empty list.

## Main results

* `InMemoryStore.refines` — on an open store every write call is the corresponding operation on
  the contents
-/

namespace Persista

variable {K V : Type}

/-- `_check_open`'s message. -/
def notOpenMsg (name : String) : String :=
  name ++ " is not open; call open()/aopen() or use it as a context manager."

/-- The state of an `InMemoryStore`: `_data` and `_closed`. -/
structure InMemoryStore (K V : Type) where
  data : Dict K V
  closed : Bool

namespace InMemoryStore

/-- `__init__`: the store starts closed. -/
def init : InMemoryStore K V := ⟨∅, true⟩

/-- `open`: a closed store starts over empty. -/
def «open» (s : InMemoryStore K V) : InMemoryStore K V := if s.closed then ⟨∅, false⟩ else s

/-- `close`: the values are discarded. -/
def close (_ : InMemoryStore K V) : InMemoryStore K V := ⟨∅, true⟩

/-- `_check_open`. -/
def checkOpen (s : InMemoryStore K V) : Except (StoreError K) Unit :=
  if s.closed then .error (.runtimeError (notOpenMsg "InMemoryStore")) else .ok ()

variable [LinearOrder K]

/-- `get`. -/
def get (s : InMemoryStore K V) (key : K) : Except (StoreError K) (Option V) := do
  s.checkOpen
  return s.data.get? key

/-- `get_many`: `[self.get(key) for key in keys]`. -/
def getMany (s : InMemoryStore K V) (keys : List K) : Except (StoreError K) (List (Option V)) :=
  keys.mapM s.get

/-- `contains`. -/
def contains (s : InMemoryStore K V) (key : K) : Except (StoreError K) Bool := do
  s.checkOpen
  return decide (key ∈ s.data.keys)

/-- `contains_many`. -/
def containsMany (s : InMemoryStore K V) (keys : List K) : Except (StoreError K) (List Bool) := do
  s.checkOpen
  return keys.map fun key => decide (key ∈ s.data.keys)

/-- `keys`. -/
def keys (s : InMemoryStore K V) : Except (StoreError K) (List K) := do
  s.checkOpen
  return s.data.keys

/-- `count`. -/
def count (s : InMemoryStore K V) : Except (StoreError K) ℕ := do
  s.checkOpen
  return s.data.length

/-- `set_many`. The conflict check passes `contains_many` and `_data.get`. -/
def setMany [ShallowMerge V] (s : InMemoryStore K V) (items : Dict K V)
    (onConflict : OnConflict) : Except (StoreError K) (InMemoryStore K V) := do
  s.checkOpen
  if onConflict = .overwrite then
    return { s with data := s.data.setAll items.entries }
  let toWrite ← resolveConflicts items onConflict
    (fun keys => keys.map fun key => decide (key ∈ s.data.keys)) s.data.get?
  return { s with data := s.data.setAll toWrite.entries }

/-- `set`. -/
def set [ShallowMerge V] (s : InMemoryStore K V) (key : K) (value : V)
    (onConflict : OnConflict) : Except (StoreError K) (InMemoryStore K V) :=
  s.setMany (Dict.ofList [(key, value)]) onConflict

/-- `delete`. -/
def delete (s : InMemoryStore K V) (key : K) : Except (StoreError K) (InMemoryStore K V) := do
  s.checkOpen
  return { s with data := s.data.erase key }

/-- `delete_many`: `delete` per key. -/
def deleteMany (s : InMemoryStore K V) (keys : List K) :
    Except (StoreError K) (InMemoryStore K V) :=
  keys.foldlM (fun s key => s.delete key) s

/-- `clear`. -/
def clear (s : InMemoryStore K V) : Except (StoreError K) (InMemoryStore K V) := do
  s.checkOpen
  return { s with data := ∅ }

/-- The write calls, dispatched. -/
def exec [ShallowMerge V] (s : InMemoryStore K V) :
    StoreOp K V → Except (StoreError K) (InMemoryStore K V)
  | .set key value onConflict => s.set key value onConflict
  | .setMany items onConflict => s.setMany items onConflict
  | .delete key => s.delete key
  | .deleteMany keys => s.deleteMany keys
  | .clear => s.clear

/-! ### An open store reads and writes its contents -/

/-- What the store holds. -/
def contents (s : InMemoryStore K V) : Contents K V := s.data.get?

/-- The store is open. -/
def Opened (s : InMemoryStore K V) : Prop := s.closed = false

variable {s s' : InMemoryStore K V}

omit [LinearOrder K] in
theorem opened_open_init : (init : InMemoryStore K V).open.Opened := rfl

omit [LinearOrder K] in
theorem checkOpen_of_opened (h : s.Opened) : s.checkOpen = .ok () := by
  simp [checkOpen, show s.closed = false from h]

theorem get_of_opened (h : s.Opened) (key : K) : s.get key = .ok (s.contents key) := by
  simp [get, checkOpen_of_opened h, contents]

theorem getMany_of_opened (h : s.Opened) (keys : List K) :
    s.getMany keys = .ok (keys.map s.contents) := by
  rw [getMany, show s.get = fun key => .ok (s.contents key) from funext (get_of_opened h)]
  exact List.mapM_pure

theorem decide_mem_keys (s : InMemoryStore K V) (key : K) :
    decide (key ∈ s.data.keys) = (s.contents key).isSome := by
  rw [Bool.eq_iff_iff, decide_eq_true_iff, ← Dict.isSome_get?_iff]
  rfl

theorem contains_of_opened (h : s.Opened) (key : K) :
    s.contains key = .ok (s.contents key).isSome := by
  simp [contains, checkOpen_of_opened h, decide_mem_keys]

theorem containsMany_of_opened (h : s.Opened) (keys : List K) :
    s.containsMany keys = .ok (s.contents.containsMany keys) := by
  simp [containsMany, checkOpen_of_opened h, decide_mem_keys, Contents.containsMany]

theorem contents_setAll (s : InMemoryStore K V) (d : Dict K V) (closed : Bool) :
    contents ⟨s.data.setAll d.entries, closed⟩ = s.contents.write d.entries := by
  funext k
  rw [Contents.write_entries]
  exact Dict.get?_setAll d.nodup k

theorem setMany_of_opened [ShallowMerge V] (h : s.Opened) (items : Dict K V)
    (onConflict : OnConflict) :
    (s.setMany items onConflict).map contents = s.contents.setMany items onConflict := by
  have hc : (fun keys : List K => keys.map fun key => decide (key ∈ s.data.keys)) =
      s.contents.containsMany := by
    funext keys
    simp only [decide_mem_keys, Contents.containsMany]
  simp only [setMany, checkOpen_of_opened h, Contents.setMany, hc]
  by_cases ho : onConflict = .overwrite
  · simp only [ho, if_true]
    exact congrArg Except.ok (s.contents_setAll items s.closed)
  · simp only [ho, if_false]
    change _ = (resolveConflicts items onConflict _ s.data.get? >>= _)
    cases resolveConflicts items onConflict s.contents.containsMany s.data.get? with
    | error e => rfl
    | ok toWrite => exact congrArg Except.ok (s.contents_setAll toWrite s.closed)

theorem setMany_opened [ShallowMerge V] {items : Dict K V} {onConflict : OnConflict}
    (hs : s.setMany items onConflict = .ok s') (h : s.Opened) : s'.Opened := by
  simp only [setMany, checkOpen_of_opened h] at hs
  by_cases ho : onConflict = .overwrite
  · simp only [ho, if_true] at hs
    cases hs
    exact h
  · simp only [ho, if_false] at hs
    cases hr : resolveConflicts items onConflict
        (fun keys => keys.map fun key => decide (key ∈ s.data.keys)) s.data.get? with
    | error e => rw [hr] at hs; cases hs
    | ok toWrite => rw [hr] at hs; cases hs; exact h

theorem delete_of_opened (h : s.Opened) (key : K) :
    s.delete key = .ok ⟨s.data.erase key, false⟩ := by
  simp [delete, checkOpen_of_opened h, show s.closed = false from h]

theorem deleteMany_eq (h : s.Opened) (keys : List K) :
    s.deleteMany keys = .ok ⟨keys.foldl Dict.erase s.data, false⟩ := by
  induction keys generalizing s with
  | nil =>
    rw [show s = ⟨s.data, false⟩ from congrArg (InMemoryStore.mk s.data) h]
    rfl
  | cons key keys ih =>
    rw [deleteMany, List.foldlM_cons, delete_of_opened h]
    exact ih (s := ⟨s.data.erase key, false⟩) rfl

theorem deleteMany_of_opened (h : s.Opened) (keys : List K) :
    ∃ s', s.deleteMany keys = .ok s' ∧ s'.Opened ∧ s'.contents = s.contents.delete keys := by
  refine ⟨_, deleteMany_eq h keys, rfl, ?_⟩
  funext k
  rw [contents, Dict.foldl_erase, Dict.get?_filterKeys, Contents.delete, contents]
  by_cases hk : k ∈ keys <;> simp [hk]

theorem contents_erase (s : InMemoryStore K V) (key : K) (closed : Bool) :
    contents ⟨s.data.erase key, closed⟩ = s.contents.delete [key] := by
  funext k
  simp [contents, Contents.delete]

/-- An `overwrite` on an open store. -/
theorem setMany_overwrite [ShallowMerge V] (h : s.Opened) (items : Dict K V) :
    ∃ s', s.setMany items .overwrite = .ok s' ∧ s'.Opened ∧
      ∀ k, s'.contents k = (items.get? k).or (s.contents k) := by
  refine ⟨{ s with data := s.data.setAll items.entries }, ?_, h, fun k => ?_⟩
  · simp [setMany, checkOpen_of_opened h]
  · exact Dict.get?_setAll items.nodup k

/-- **An open store is its contents.** -/
theorem refines [ShallowMerge V] :
    Refinement.Refines (exec (K := K) (V := V)) Contents.exec contents Opened where
  inv {s s' op} hs he := by
    cases op with
    | set key value onConflict => exact setMany_opened he hs
    | setMany items onConflict => exact setMany_opened he hs
    | delete key =>
      rw [exec, delete_of_opened hs] at he
      cases he
      rfl
    | deleteMany keys =>
      obtain ⟨t, ht, hop, -⟩ := deleteMany_of_opened hs keys
      rw [exec, ht] at he
      cases he
      exact hop
    | clear =>
      simp only [exec, clear, checkOpen_of_opened hs] at he
      cases he
      exact hs
  comm {s op} hs := by
    cases op with
    | set key value onConflict => exact setMany_of_opened hs _ onConflict
    | setMany items onConflict => exact setMany_of_opened hs items onConflict
    | delete key =>
      rw [exec, delete_of_opened hs]
      exact congrArg Except.ok (s.contents_erase key false)
    | deleteMany keys =>
      obtain ⟨t, ht, -, hcon⟩ := deleteMany_of_opened hs keys
      rw [exec, ht]
      exact congrArg Except.ok hcon
    | clear => simp only [exec, clear, checkOpen_of_opened hs]; rfl

end InMemoryStore

end Persista
