import Persista.Store.Validation

/-!
# What a store holds

The abstract view every backend is compared with: the contents of a store are a partial map from
keys to values, and each write call is one atomic function on it.

`Contents.setMany` is the sequential meaning of `set_many`: `resolve_conflicts` and the write, run
on one unchanging map. It is the definition the concurrent stores are compared with call by call,
so it is built from the same `resolveConflicts`. Its declarative reading, key by key and without the
loop, is `Contents.setMany_spec`.

## Main results

* `Contents.setMany_spec` — `set_many` fails exactly on a conflict under `raise`, and otherwise
  gives every key the value `conflictValue` of the new and the old one
* `Contents.setMany_frame` — a call writes the keys of its items only
-/

namespace Persista

/-- The write calls of `BaseStore`. -/
inductive StoreOp (K V : Type)
  | set (key : K) (value : V) (onConflict : OnConflict)
  | setMany (items : Dict K V) (onConflict : OnConflict)
  | delete (key : K)
  | deleteMany (keys : List K)
  | clear

/-- The contents of a store. -/
abbrev Contents (K V : Type) := K → Option V

namespace Contents

variable {K V : Type}

/-- `contains_many(keys)`. -/
def containsMany (m : Contents K V) (keys : List K) : List Bool := keys.map fun k => (m k).isSome

/-- The keys of a call that are already there. -/
def conflicts (m : Contents K V) (keys : List K) : List K := keys.filter fun k => (m k).isSome

theorem conflictsOf_containsMany (m : Contents K V) (keys : List K) :
    conflictsOf keys (m.containsMany keys) = m.conflicts keys :=
  conflictsOf_map keys _

theorem conflicts_congr {m m' : Contents K V} {keys : List K} (h : ∀ k ∈ keys, m k = m' k) :
    m.conflicts keys = m'.conflicts keys :=
  List.filter_congr fun k hk => by rw [h k hk]

variable [LinearOrder K]

/-! ### Writing and deleting rows -/

/-- Write the rows one by one. -/
def write (m : Contents K V) (rows : List (K × V)) : Contents K V :=
  rows.foldl (fun m row => Function.update m row.1 (some row.2)) m

@[simp] theorem write_nil (m : Contents K V) : m.write [] = m := rfl

@[simp] theorem write_cons (m : Contents K V) (row : K × V) (rows : List (K × V)) :
    m.write (row :: rows) = write (Function.update m row.1 (some row.2)) rows := rfl

/-- Rows with distinct keys are written independently of each other. -/
theorem write_apply {m : Contents K V} {rows : List (K × V)} (hnd : (rows.map Prod.fst).Nodup)
    (k : K) : m.write rows k = (rows.lookup k).or (m k) := by
  induction rows generalizing m with
  | nil => rfl
  | cons row rows ih =>
    obtain ⟨j, v⟩ := row
    simp only [List.map_cons, List.nodup_cons] at hnd
    rw [write_cons, ih hnd.2, Dict.lookup_cons_ite]
    by_cases h : k = j
    · subst h
      simp [Dict.lookup_eq_none_of_not_mem hnd.1]
    · simp [h]

theorem write_entries (m : Contents K V) (d : Dict K V) (k : K) :
    m.write d.entries k = (d.get? k).or (m k) :=
  write_apply d.nodup k

/-- Remove the keys. -/
def delete (m : Contents K V) (keys : List K) : Contents K V := fun k =>
  if k ∈ keys then none else m k

/-! ### `set_many`, atomically -/

variable [ShallowMerge V]

/-- `set_many(items, on_conflict)` executed without interruption. -/
def setMany (m : Contents K V) (items : Dict K V) (onConflict : OnConflict) :
    Except (StoreError K) (Contents K V) :=
  if onConflict = .overwrite then .ok (m.write items.entries)
  else do
    let toWrite ← resolveConflicts items onConflict m.containsMany m
    return m.write toWrite.entries

/-- A write call on the contents. -/
def exec (m : Contents K V) :
    StoreOp K V → Except (StoreError K) (Contents K V)
  | .set key value onConflict => m.setMany (Dict.ofList [(key, value)]) onConflict
  | .setMany items onConflict => m.setMany items onConflict
  | .delete key => .ok (m.delete [key])
  | .deleteMany keys => .ok (m.delete keys)
  | .clear => .ok fun _ => none

/-- What a conflict strategy makes of the new and the old value of one key. -/
def conflictValue (onConflict : OnConflict) (new old : Option V) : Option V :=
  match onConflict, new, old with
  | _, none, old => old
  | _, some new, none => some new
  | .skip, some _, some old => some old
  | .merge, some new, some old => some (ShallowMerge.merge (some old) new)
  | .overwrite, some new, some _ => some new
  | .raise, some new, some _ => some new

/-- What `resolve_conflicts` keeps of one key, when its lookups answer from the contents. -/
theorem get?_resolveConflicts {m : Contents K V} {items toWrite : Dict K V}
    {onConflict : OnConflict}
    (h : resolveConflicts items onConflict m.containsMany m = .ok toWrite) (k : K) :
    toWrite.get? k = (items.get? k).bind fun new =>
      match m k with
      | none => some new
      | some old =>
        if onConflict = .skip then none else some (ShallowMerge.merge (some old) new) := by
  rw [resolveConflicts, conflictsOf_containsMany] at h
  split at h
  · cases h
  · cases h
    rw [get?_resolveItems items.nodup, Dict.get?_empty, Option.or_none]
    change (items.get? k).bind _ = _
    cases hi : items.get? k with
    | none => rfl
    | some new =>
      have hk : k ∈ items.keys := Dict.isSome_get?_iff.mp (by simp [hi])
      cases hm : m k with
      | none => simp [resolved, conflicts, hm]
      | some old => simp [resolved, conflicts, hm, hk]

theorem setMany_of_conflict {m : Contents K V} {items : Dict K V}
    (h : m.conflicts items.keys ≠ []) :
    m.setMany items .raise = .error (.keyError (sorted (m.conflicts items.keys))) := by
  simp [setMany, resolveConflicts, conflictsOf_containsMany, h]

/-- The write half of a call that found no reason to raise. -/
theorem setMany_of_no_raise {m : Contents K V} {items : Dict K V} {onConflict : OnConflict}
    (ho : onConflict ≠ .overwrite) (h : m.conflicts items.keys = [] ∨ onConflict ≠ .raise) :
    m.setMany items onConflict =
      .ok (m.write
        (resolveItems (m.conflicts items.keys) onConflict m ∅ items.entries).entries) := by
  have hc : ¬ (m.conflicts items.keys ≠ [] ∧ onConflict = .raise) := by tauto
  simp only [setMany, if_neg ho, resolveConflicts, conflictsOf_containsMany, if_neg hc]
  rfl

/-- **`set_many`, key by key.** -/
theorem setMany_spec (m : Contents K V) (items : Dict K V) (onConflict : OnConflict) :
    (onConflict = .raise ∧ m.conflicts items.keys ≠ [] ∧
      m.setMany items onConflict = .error (.keyError (sorted (m.conflicts items.keys)))) ∨
    ((onConflict = .raise → m.conflicts items.keys = []) ∧
      m.setMany items onConflict =
        .ok fun k => conflictValue onConflict (items.get? k) (m k)) := by
  by_cases ho : onConflict = .overwrite
  · subst ho
    refine .inr ⟨by simp, ?_⟩
    simp only [setMany, if_true]
    congr 1
    funext k
    rw [write_entries]
    cases items.get? k <;> cases m k <;> rfl
  · by_cases hr : m.conflicts items.keys ≠ [] ∧ onConflict = .raise
    · obtain ⟨hc, rfl⟩ := hr
      exact .inl ⟨rfl, hc, setMany_of_conflict hc⟩
    · have hn : m.conflicts items.keys = [] ∨ onConflict ≠ .raise := by tauto
      refine .inr ⟨fun h => by tauto, ?_⟩
      rw [setMany_of_no_raise ho hn]
      congr 1
      funext k
      rw [write_entries, get?_resolveItems items.nodup, Dict.get?_empty, Option.or_none]
      change ((items.get? k).bind _).or (m k) = _
      cases hi : items.get? k with
      | none => rfl
      | some v =>
        have hk : k ∈ items.keys := Dict.isSome_get?_iff.mp (by simp [hi])
        cases hm : m k with
        | none =>
          have : k ∉ m.conflicts items.keys := by simp [conflicts, hm]
          simp [resolved, this, conflictValue]
        | some old =>
          have : k ∈ m.conflicts items.keys := by simp [conflicts, hm, hk]
          cases onConflict with
          | raise => rcases hn with h | h <;> simp_all
          | skip => simp [resolved, this, conflictValue]
          | overwrite => exact absurd rfl ho
          | merge => simp [resolved, this, conflictValue, hm]

/-- What a call that succeeds leaves under a key. -/
theorem setMany_apply {m m' : Contents K V} {items : Dict K V} {onConflict : OnConflict}
    (h : m.setMany items onConflict = .ok m') (ho : onConflict ≠ .overwrite) (k : K) :
    m' k = match items.get? k, m k with
      | none, old => old
      | some new, none => some new
      | some new, some old =>
        if onConflict = .skip then some old else some (ShallowMerge.merge (some old) new) := by
  rcases setMany_spec m items onConflict with ⟨-, -, herr⟩ | ⟨hn, hok⟩
  · rw [h] at herr
    cases herr
  · rw [h, Except.ok.injEq] at hok
    rw [hok]
    show conflictValue onConflict (items.get? k) (m k) = _
    cases hi : items.get? k with
    | none => cases onConflict <;> rfl
    | some new =>
      cases hold : m k with
      | none => cases onConflict <;> rfl
      | some old =>
        cases onConflict with
        | raise =>
          have hmem : k ∈ m.conflicts items.keys := by
            rw [conflicts, List.mem_filter, ← Dict.isSome_get?_iff, hi, hold]
            exact ⟨rfl, rfl⟩
          rw [hn rfl] at hmem
          cases hmem
        | skip => rfl
        | overwrite => exact absurd rfl ho
        | merge => rfl

/-- The call writes the keys of its items only. -/
theorem setMany_frame {m m' : Contents K V} {items : Dict K V} {onConflict : OnConflict}
    (h : m.setMany items onConflict = .ok m') {k : K} (hk : k ∉ items.keys) : m' k = m k := by
  rcases setMany_spec m items onConflict with ⟨-, -, hs⟩ | ⟨-, hs⟩
  · rw [hs] at h
    cases h
  · rw [hs, Except.ok.injEq] at h
    have hnone : items.get? k = none := Dict.get?_eq_none_iff.mpr hk
    subst h
    simp only [hnone]
    cases onConflict <;> rfl

end Contents

end Persista
