import Mathlib.Data.List.Basic

/-!
# Bounded memos of a function

A memo in front of a function that can fail keeps at most `maxsize` results, the most recently used
first. A call looks for an entry whose key is the same as the argument. A hit answers the result of
the entry and moves it to the front; a miss calls the function and puts the result in front, at the
cost of the oldest entry. Failures are not kept.

When two keys are the same is a parameter, and nothing is asked of it: it may be coarser than what
the function tells apart. A sound memo, every entry of which is a result of the function, answers as
the function does unless it recalls a key with another result (`Sound.fst_call_eq_iff`).
-/

/-- At most `maxsize` results with their keys, the most recently used first. -/
structure Lru (α β : Type*) (maxsize : ℕ) where
  entries : List (α × β)
  bounded : entries.length ≤ maxsize

namespace Lru

variable {α β ε : Type*} {maxsize : ℕ}

/-- No results. -/
def empty : Lru α β maxsize := ⟨[], Nat.zero_le maxsize⟩

/-- An entry in front of others, as many as there is room for. -/
def push (e : α × β) (rest : List (α × β)) : Lru α β maxsize :=
  ⟨(e :: rest).take maxsize, List.length_take_le maxsize _⟩

variable (same : α → α → Bool)

/-- The entry that a lookup finds. -/
def lookup (memo : Lru α β maxsize) (a : α) : Option (α × β) :=
  memo.entries.find? fun e => same e.1 a

/-- A call through the memo. -/
def call (f : α → Except ε β) (memo : Lru α β maxsize) (a : α) : Except ε β × Lru α β maxsize :=
  match memo.lookup same a with
  | some e => (.ok e.2, push e (memo.entries.eraseP fun e => same e.1 a))
  | none =>
    match f a with
    | .ok b => (.ok b, push (a, b) memo.entries)
    | .error err => (.error err, memo)

/-- Every entry is a result of the function. -/
def Sound (f : α → Except ε β) (memo : Lru α β maxsize) : Prop :=
  ∀ e ∈ memo.entries, f e.1 = .ok e.2

/-- The keys that have been called for and not been forgotten. -/
def keys (memo : Lru α β maxsize) : List α := memo.entries.map Prod.fst

variable {same} {f : α → Except ε β} {memo : Lru α β maxsize} {a : α} {e : α × β}

theorem mem_of_mem_push {rest : List (α × β)} {e' : α × β}
    (h : e' ∈ (push e rest : Lru α β maxsize).entries) : e' = e ∨ e' ∈ rest :=
  List.mem_cons.mp (List.mem_of_mem_take h)

theorem mem_of_lookup (h : memo.lookup same a = some e) : e ∈ memo.entries :=
  List.mem_of_find?_eq_some h

theorem same_of_lookup (h : memo.lookup same a = some e) : same e.1 a :=
  List.find?_some (p := fun e : α × β => same e.1 a) h

theorem call_of_lookup (h : memo.lookup same a = some e) :
    memo.call same f a = (.ok e.2, push e (memo.entries.eraseP fun e => same e.1 a)) := by
  rw [call, h]

theorem fst_call_of_not_lookup (h : memo.lookup same a = none) :
    (memo.call same f a).1 = f a := by
  rw [call, h]
  cases f a <;> rfl

theorem sound_empty : Sound f (empty : Lru α β maxsize) := by
  intro e h
  cases h

/-- What a call leaves in the memo was there, or is its own result. -/
theorem mem_snd_call {e' : α × β} (h : e' ∈ (memo.call same f a).2.entries) :
    e' ∈ memo.entries ∨ e'.1 = a ∧ f a = .ok e'.2 := by
  rw [call] at h
  cases hr : memo.lookup same a with
  | some e =>
    rw [hr] at h
    rcases mem_of_mem_push h with rfl | h
    · exact .inl (mem_of_lookup hr)
    · exact .inl (List.mem_of_mem_eraseP h)
  | none =>
    rw [hr] at h
    cases hf : f a with
    | error err =>
      rw [hf] at h
      exact .inl h
    | ok b =>
      rw [hf] at h
      rcases mem_of_mem_push h with rfl | h
      · exact .inr ⟨rfl, rfl⟩
      · exact .inl h

/-- A call keeps the memo sound. -/
theorem Sound.call (h : memo.Sound f) : (memo.call same f a).2.Sound f := by
  intro e he
  rcases mem_snd_call he with he | ⟨ha, hf⟩
  · exact h e he
  · rw [ha, hf]

/-- A call brings in no key but its own. -/
theorem keys_snd_call {k : α} (h : k ∈ (memo.call same f a).2.keys) : k = a ∨ k ∈ memo.keys := by
  obtain ⟨e, he, rfl⟩ := List.mem_map.mp h
  rcases mem_snd_call he with he | ⟨ha, -⟩
  · exact .inr (List.mem_map_of_mem he)
  · exact .inl ha

/-- **A memo answers as the function does** unless it recalls a key with another result. -/
theorem Sound.fst_call_eq_iff (h : memo.Sound f) :
    (memo.call same f a).1 = f a ↔ ∀ e, memo.lookup same a = some e → f e.1 = f a := by
  cases hr : memo.lookup same a with
  | none => simp [fst_call_of_not_lookup hr]
  | some e =>
    rw [call_of_lookup hr, ← h e (mem_of_lookup hr)]
    simp

end Lru
