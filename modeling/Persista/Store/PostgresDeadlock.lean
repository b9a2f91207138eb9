import Persista.Lib.LockOrder
import Persista.Store.PostgresSessions
import Mathlib.Data.String.Basic

/-!
# Deadlocks of the Postgres stores

`_lock_keys` takes one advisory lock per key, in the order of the keys, so that two calls on common
keys never wait for each other. The lock of a key is its hash. When two keys share a hash, a call
that holds the lock on account of one of them holds it on account of the other as well, and the
order of the keys is not an order of the locks.

It still is one when the keys that share a hash stand together: no key between two of them has
another hash. Otherwise two calls can deadlock.

## Main results

* `Postgres.HoldsBelow` — a session holds the locks of keys that stand before those it has left
* `Postgres.locks_deadlock_free_iff` — the calls on a set of keys never deadlock exactly when the
  keys of a hash stand together
-/

namespace Persista

namespace Postgres

open Interleaving LockOrder

variable {ι K V R H : Type}

/-- The advisory lock that a session asks for. -/
def request : Phase K V R → Option K
  | .locking (key :: _) => some key
  | _ => none

/-- The key whose lock a session waits for: another session holds it. -/
def World.awaited [DecidableEq ι] (hash : K → H) (s : World ι K V R H) (i : ι) : Option K :=
  (request (s.session i)).filter fun key => !decide (Available (s.advisory (hash key)) i)

/-- The lock a session waits for. -/
def World.waits [DecidableEq ι] (hash : K → H) (s : World ι K V R H) (i : ι) : Option H :=
  (s.awaited hash i).map hash

/-- Some sessions wait in a circle for advisory locks. -/
def World.Deadlocked [DecidableEq ι] (hash : K → H) (s : World ι K V R H) : Prop :=
  LockOrder.Deadlocked (s.waits hash) s.advisory

section Order

variable [LinearOrder K]

/-- No run of `raise`, `skip` and `merge` calls on these keys, in any number of sessions, reaches a
state where sessions wait in a circle. -/
def DeadlockFree [DecidableEq H] [ShallowMerge V] (layout : Layout V R) (hash : K → H)
    (keys : Set K) : Prop :=
  ∀ (ι : Type) [DecidableEq ι] (calls : ι → Call K V) (table : Contents K R)
    (s : World ι K V R H),
    (∀ i, (calls i).onConflict ≠ .overwrite ∧ ∀ k ∈ (calls i).items.keys, k ∈ keys) →
    Reaches (step layout hash calls) anyTurn (init table) s → ¬ s.Deadlocked hash

/-- The keys that share a hash stand together among the given ones. -/
def Together (hash : K → H) (keys : Set K) : Prop :=
  ∀ a ∈ keys, ∀ b ∈ keys, ∀ c ∈ keys, a < b → b < c → hash a = hash c → hash b = hash a

/-- What is true of a session and the advisory locks it holds. While it is locking, they are the
hashes of keys of its call that stand before all keys it has left. -/
def HoldsBelow (hash : K → H) (c : Call K V) (advisory : H → Option ι) (i : ι) :
    Phase K V R → Prop
  | .start => ∀ h, advisory h ≠ some i
  | .locking todo => todo.Pairwise (· < ·) ∧ (∀ y ∈ todo, y ∈ c.items.keys) ∧
      ∀ h, advisory h = some i → ∃ k ∈ c.items.keys, hash k = h ∧ ∀ y ∈ todo, k < y
  | _ => True

/-- A session that holds no more locks than before. -/
theorem HoldsBelow.mono {hash : K → H} {c : Call K V} {advisory advisory' : H → Option ι} {i : ι}
    {p : Phase K V R} (h : HoldsBelow hash c advisory i p)
    (ha : ∀ l, advisory' l = some i → advisory l = some i) : HoldsBelow hash c advisory' i p := by
  cases p with
  | start => exact fun l hl => h l (ha l hl)
  | locking todo => exact ⟨h.1, h.2.1, fun l hl => h.2.2 l (ha l hl)⟩
  | resolving _ _ _ => trivial
  | writing _ _ => trivial
  | upserting _ => trivial
  | done _ => trivial

/-- The keys of a call, sorted, are strictly increasing. -/
theorem pairwise_lt_sorted {l : List K} (h : l.Nodup) : (sorted l).Pairwise (· < ·) := by
  have hle : (sorted l).Pairwise (· ≤ ·) := List.pairwise_insertionSort (· ≤ ·) l
  have hne : (sorted l).Pairwise (· ≠ ·) :=
    (List.perm_insertionSort (· ≤ ·) l).nodup_iff.mpr h
  exact (hle.and hne).imp fun h => lt_of_le_of_ne h.1 h.2

end Order

variable [LinearOrder K] [DecidableEq H] [DecidableEq ι] [ShallowMerge V] {layout : Layout V R}
  {hash : K → H} {calls : ι → Call K V} {s s' : World ι K V R H} {i : ι}

/-! ### The invariant -/

/-- Every session keeps to the order of its keys. -/
def Ordered (hash : K → H) (calls : ι → Call K V) (s : World ι K V R H) : Prop :=
  ∀ i, HoldsBelow hash (calls i) s.advisory i (s.session i)

omit [DecidableEq H] [DecidableEq ι] [ShallowMerge V] in
theorem ordered_init (table : Contents K R) :
    Ordered hash calls (init (H := H) table : World ι K V R H) := by
  intro i h
  simp [init]

omit [LinearOrder K] [ShallowMerge V] [DecidableEq ι] in
/-- Who holds a lock after one lock was taken. -/
theorem holder_of_update {locks : H → Option ι} {x l : H} {j : ι}
    (h : Function.update locks x (some i) l = some j) : l = x ∧ j = i ∨ locks l = some j := by
  by_cases hl : l = x
  · subst hl
    rw [Function.update_self] at h
    exact .inl ⟨rfl, (Option.some.inj h).symm⟩
  · rw [Function.update_of_ne hl] at h
    exact .inr h

/-- Who holds a lock after a session released its own. -/
theorem holder_of_release {L : Type} {locks : L → Option ι} {l : L} {j : ι}
    (h : release locks i l = some j) : locks l = some j := by
  rw [release] at h
  split_ifs at h
  exact h

omit [DecidableEq H] [ShallowMerge V] in
/-- The obligations of a turn of session `i` to phase `p`: no other session gains a lock. -/
theorem Ordered.turn {p : Phase K V R} (h : Ordered hash calls s)
    (hsession : s'.session = Function.update s.session i p)
    (hadvisory : ∀ j, j ≠ i → ∀ l, s'.advisory l = some j → s.advisory l = some j)
    (hp : HoldsBelow hash (calls i) s'.advisory i p) : Ordered hash calls s' := by
  intro j
  rw [hsession]
  by_cases hj : j = i
  · subst hj
    simpa using hp
  · rw [Function.update_of_ne hj]
    exact (h j).mono (hadvisory j hj)

omit [DecidableEq H] [ShallowMerge V] in
/-- A transaction that ends releases its locks and nobody gains one. -/
theorem Ordered.endTransaction (h : Ordered hash calls s) {table : Contents K R}
    {o : Except (StoreError K) Unit} : Ordered hash calls (s.endTransaction i table o) :=
  h.turn rfl (fun _ _ _ hl => holder_of_release hl) trivial

omit [DecidableEq H] [ShallowMerge V] in
/-- An upsert in autocommit mode takes no advisory lock. -/
theorem Ordered.upsert (h : Ordered hash calls s) {todo : List (K × R)}
    (hs : s.upsert i todo = some s') : Ordered hash calls s' := by
  cases todo with
  | nil => cases hs
  | cons row todo =>
    rw [World.upsert] at hs
    split_ifs at hs <;> cases hs <;> exact h.turn rfl (fun _ _ _ hl => hl) trivial

/-- One lock of `_lock_keys`. -/
theorem Ordered.lock (h : Ordered hash calls s) {key : K} {todo : List K}
    (hp : s.session i = .locking (key :: todo)) (hs : step layout hash calls s i = some s') :
    Ordered hash calls s' := by
  have hi := h i
  rw [hp] at hi
  obtain ⟨hsorted, hkeys, hheld⟩ := hi
  rw [List.pairwise_cons] at hsorted
  simp only [step, hp] at hs
  split_ifs at hs with hfree
  cases hs
  refine h.turn rfl (fun j hj l hl => ?_) ⟨hsorted.2, fun y hy => hkeys y (by simp [hy]), ?_⟩
  · rcases holder_of_update hl with ⟨-, rfl⟩ | hl
    · exact absurd rfl hj
    · exact hl
  · intro l hl
    rcases holder_of_update hl with ⟨rfl, -⟩ | hl
    · exact ⟨key, hkeys key (by simp), rfl, hsorted.1⟩
    · obtain ⟨k, hk, hkl, hlt⟩ := hheld l hl
      exact ⟨k, hk, hkl, fun y hy => hlt y (by simp [hy])⟩

/-- The first turn of a call. -/
theorem Ordered.start (h : Ordered hash calls s) (hp : s.session i = .start)
    (hs : step layout hash calls s i = some s') : Ordered hash calls s' := by
  have hi := h i
  rw [hp] at hi
  simp only [step, hp] at hs
  split_ifs at hs with he ho
  · cases hs
    exact h.turn rfl (fun _ _ _ hl => hl) trivial
  · exact h.upsert hs
  · cases hs
    refine h.turn rfl (fun _ _ _ hl => hl) ⟨pairwise_lt_sorted (calls i).items.nodup, ?_, ?_⟩
    · exact fun y hy => mem_sorted.mp hy
    · exact fun l hl => absurd hl (hi l)

/-- Every turn keeps to the order. -/
theorem Ordered.step (h : Ordered hash calls s)
    (hs : Postgres.step layout hash calls s i = some s') : Ordered hash calls s' := by
  cases hp : s.session i with
  | start => exact h.start hp hs
  | locking todo =>
    cases todo with
    | cons key todo => exact h.lock hp hs
    | nil =>
      simp only [Postgres.step, hp] at hs
      split_ifs at hs <;> cases hs
      · exact h.endTransaction
      · exact h.turn rfl (fun _ _ _ hl => hl) trivial
  | resolving conflicts todo toWrite =>
    cases todo <;> simp only [Postgres.step, hp] at hs <;> cases hs <;>
      exact h.turn rfl (fun _ _ _ hl => hl) trivial
  | writing todo pending =>
    cases todo with
    | cons row todo =>
      simp only [Postgres.step, hp] at hs
      split_ifs at hs
      cases hs
      exact h.turn rfl (fun _ _ _ hl => hl) trivial
    | nil =>
      simp only [Postgres.step, hp] at hs
      cases hs
      exact h.endTransaction
  | upserting todo =>
    simp only [Postgres.step, hp] at hs
    exact h.upsert hs
  | done o => simp [Postgres.step, hp] at hs

omit [LinearOrder K] [DecidableEq H] [ShallowMerge V] in
theorem mem_awaited {key : K} :
    key ∈ s.awaited hash i ↔ (∃ todo, s.session i = .locking (key :: todo)) ∧
      ¬ Available (s.advisory (hash key)) i := by
  simp only [World.awaited, Option.mem_filter_iff, Bool.not_eq_true', decide_eq_false_iff_not]
  refine and_congr_left fun _ => ?_
  cases hp : s.session i with
  | locking todo => cases todo <;> simp [request]
  | _ => simp [request]

omit [DecidableEq H] [ShallowMerge V] in
/-- When the keys of a hash stand together, a session that waits for another waits for a smaller
key. -/
theorem Ordered.awaited_lt {keys : Set K} (h : Ordered hash calls s) (ht : Together hash keys)
    (hkeys : ∀ i, ∀ k ∈ (calls i).items.keys, k ∈ keys) {i j : ι}
    (hij : WaitsFor (s.waits hash) s.advisory i j) :
    ∀ x ∈ s.awaited hash i, ∀ z ∈ s.awaited hash j, x < z := by
  intro x hx z hz
  obtain ⟨l, hl, hheld⟩ := hij
  have hxl : hash x = l := by simpa [World.waits, Option.mem_def.mp hx] using hl
  obtain ⟨⟨todo, hi⟩, -⟩ := mem_awaited.mp hx
  obtain ⟨⟨todo', hj⟩, hbusy⟩ := mem_awaited.mp hz
  have hxmem := (hi ▸ h i : HoldsBelow hash (calls i) s.advisory i (.locking (x :: todo))).2.1 x
    (by simp)
  obtain ⟨-, hzmem, hbelow⟩ :=
    (hj ▸ h j : HoldsBelow hash (calls j) s.advisory j (.locking (z :: todo')))
  -- `j` holds the lock on account of its key `k`, and is at its key `z` now
  obtain ⟨k, hk, hkl, hlt⟩ := hbelow l hheld
  have hkz : k < z := hlt z (by simp)
  have hne : hash z ≠ l := by
    rintro rfl
    exact hbusy (.inr hheld)
  by_contra hxz
  rcases eq_or_lt_of_le (not_lt.mp hxz) with rfl | hzx
  · exact hne hxl
  · refine hne ?_
    rw [← hkl]
    exact ht k (hkeys j k hk) z (hkeys j z (hzmem z (by simp))) x (hkeys i x hxmem) hkz hzx
      (hkl.trans hxl.symm)

/-! ### The converse -/

/-- The state in which session `i` has taken the lock of a key. -/
def World.lock (hash : K → H) (s : World ι K V R H) (i : ι) (key : K) (todo : List K) :
    World ι K V R H :=
  { s with
    advisory := Function.update s.advisory (hash key) (some i)
    session := Function.update s.session i (.locking todo) }

theorem step_start (hp : s.session i = .start) (hne : (calls i).items.entries ≠ [])
    (ho : (calls i).onConflict ≠ .overwrite) :
    step layout hash calls s i = some (s.move i (.locking (sorted (calls i).items.keys))) := by
  simp only [step, hp]
  rw [if_neg hne, if_neg ho]

theorem step_lock {key : K} {todo : List K} (hp : s.session i = .locking (key :: todo))
    (hfree : Available (s.advisory (hash key)) i) :
    step layout hash calls s i = some (s.lock hash i key todo) := by
  simp only [step, hp]
  rw [if_pos hfree, World.lock]

section Circle

variable [Inhabited V] {a b c : K}

/-- Two keys in order. -/
def twoKeys (h : a < b) : Dict K V := ⟨[(a, default), (b, default)], by simp [h.ne]⟩

/-- A call on the first two keys and a call on the last two. -/
def circle (hab : a < b) (hbc : b < c) : Bool → Call K V
  | false => ⟨twoKeys hab, .merge⟩
  | true => ⟨twoKeys hbc, .merge⟩

omit [DecidableEq H] [DecidableEq ι] [ShallowMerge V] in
theorem sorted_twoKeys (h : a < b) : sorted (twoKeys (V := V) h).keys = [a, b] :=
  List.Pairwise.insertionSort_eq (by simp [twoKeys, Dict.keys, h.le])

/-- **Two calls wait in a circle.** Each took the lock of its first key. -/
theorem exists_deadlocked (layout : Layout V R) (hab : a < b) (hbc : b < c) (hac : hash a = hash c)
    (hne : hash b ≠ hash a) (table : Contents K R) :
    ∃ s : World Bool K V R H,
      Reaches (step layout hash (circle hab hbc)) anyTurn (init table) s ∧ s.Deadlocked hash := by
  let s₁ : World Bool K V R H := (init table).move false (.locking [a, b])
  let s₂ := s₁.move true (.locking [b, c])
  let s₃ := s₂.lock hash false a [b]
  let s₄ := s₃.lock hash true b [c]
  have h₁ : step layout hash (circle hab hbc) (init table) false = some s₁ := by
    rw [step_start rfl (by simp [circle, twoKeys]) (by simp [circle])]
    simp [s₁, circle, sorted_twoKeys]
  have h₂ : step layout hash (circle hab hbc) s₁ true = some s₂ := by
    rw [step_start rfl (by simp [circle, twoKeys]) (by simp [circle])]
    simp [s₂, circle, sorted_twoKeys]
  have h₃ : step layout hash (circle hab hbc) s₂ false = some s₃ := step_lock rfl (.inl rfl)
  have h₄ : step layout hash (circle hab hbc) s₃ true = some s₄ :=
    step_lock rfl (.inl (Function.update_of_ne hne _ _))
  have ha : s₄.advisory (hash a) = some false := by simp [s₄, s₃, World.lock, hne.symm]
  have hb : s₄.advisory (hash b) = some true := by simp [s₄, World.lock]
  refine ⟨s₄, .turn (.turn (.turn (.turn .refl trivial h₁) trivial h₂) trivial h₃) trivial h₄,
    deadlocked_of_two (i := false) (j := true) ⟨hash b, ?_, hb⟩ ⟨hash a, ?_, ha⟩⟩
  · have hf : s₄.session false = .locking [b] := rfl
    simp [World.waits, World.awaited, request, hf, Available, hb]
  · have ht : s₄.session true = .locking [c] := rfl
    simp [World.waits, World.awaited, request, ht, Available, ← hac, ha]

end Circle

/-! ### Freedom from deadlock -/

/-- **When locking is free of deadlocks.** -/
theorem locks_deadlock_free_iff [Inhabited V] (layout : Layout V R) (hash : K → H)
    (keys : Set K) : DeadlockFree layout hash keys ↔ Together hash keys := by
  constructor
  · intro h a ha b hb c hc hab hbc hac
    by_contra hne
    obtain ⟨s, hs, hd⟩ :=
      exists_deadlocked (V := V) layout hab hbc hac hne fun _ => none
    refine h Bool (circle hab hbc) (fun _ => none) s (fun i => ?_) hs hd
    cases i <;> simp [circle, twoKeys, Dict.keys, ha, hb, hc]
  · intro ht ι _ calls table s hcalls h
    have hord : Ordered hash calls s :=
      h.invariant (ordered_init table) fun _ _ _ hi _ hs => hi.step hs
    have hkeys : ∀ i, ∀ k ∈ (calls i).items.keys, k ∈ keys := fun i => (hcalls i).2
    refine not_deadlocked_of_lt (r := s.awaited hash) ?_ fun i j => hord.awaited_lt ht hkeys
    rintro i j ⟨l, hl, -⟩
    obtain ⟨key, hkey, -⟩ := Option.map_eq_some_iff.mp hl
    simp [hkey]

/-- Two hashes, one of them for the keys `a` and `c`. -/
def collide (key : String) : BitVec 64 := if key = "b" then 1 else 0

/-- Two `merge` calls on the middle key and one more key each. -/
def colliding : Bool → Call String (Dict String ℕ)
  | false => ⟨.ofList [("a", .ofList [("n", 1)]), ("b", .ofList [("n", 1)])], .merge⟩
  | true => ⟨.ofList [("c", .ofList [("n", 2)]), ("b", .ofList [("n", 2)])], .merge⟩

/-- **Two calls wait in a circle.** The first holds the lock of `a`, which is that of `c`, and waits
for the lock of `b`; the second holds that and waits for the lock of `c`. -/
theorem locks_deadlock :
    ∃ s, play (step ⟨id, id⟩ collide colliding) (init (R := Dict String ℕ) fun _ => none)
        [false, true, false, true] = some s ∧ s.Deadlocked collide := by
  obtain ⟨s, hs, ho⟩ := Option.map_eq_some_iff.mp
    (rfl : (play (step ⟨id, id⟩ collide colliding) (init (R := Dict String ℕ) fun _ => none)
      [false, true, false, true]).map (fun s => (s.awaited collide false, s.awaited collide true,
        s.advisory 0, s.advisory 1)) = some (some "b", some "c", some false, some true))
  have hf : s.awaited collide false = some "b" := congrArg (·.1) ho
  have ht : s.awaited collide true = some "c" := congrArg (·.2.1) ho
  have ha : s.advisory 0 = some false := congrArg (·.2.2.1) ho
  have hb : s.advisory 1 = some true := congrArg (·.2.2.2) ho
  refine ⟨s, hs, deadlocked_of_two (i := false) (j := true) ⟨1, ?_, hb⟩ ⟨0, ?_, ha⟩⟩
  · rw [World.waits, hf]
    rfl
  · rw [World.waits, ht]
    rfl

end Postgres

end Persista
