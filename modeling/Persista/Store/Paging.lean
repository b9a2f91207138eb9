import Persista.Json.Value
import Persista.Lib.Interleaving
import Persista.Store.Sqlite

/-!
# `iter_batches`, page by page

`BaseSQLiteStore.iter_batches` and `BaseDuckDBStore.iter_batches` are generators without a cursor.
Each batch is a query of its own, `ORDER BY key LIMIT batch_size OFFSET offset`, and the offset
advances by `batch_size`. Between two batches the store can be written to, and the rows before the
offset are then not the rows that have been yielded.

## Two uses

* On a table nobody writes to, the pages are the whole table in the order of its keys
  (`flatten_iterBatches`).
* While the table changes, the generator is right as long as every query finds its offset where it
  left it: no row it has yielded at or after the offset, and no row that was there from the start
  and is still to come before it (`pages_yield_once`). What the operations between two batches do
  to the table is a parameter.

## Main results

* `flatten_iterBatches` — the pages of an unchanging table
* `pages_yield_once` — the run law
-/

namespace Persista

variable {K V R : Type} [LinearOrder K]

namespace Table

/-- `ORDER BY key`. -/
def orderByKey (t : Table K R) : Table K R where
  entries := t.entries.insertionSort fun a b => a.1 ≤ b.1
  nodup := ((List.perm_insertionSort _ t.entries).map Prod.fst).nodup_iff.mpr t.nodup

/-- `LIMIT limit OFFSET offset`. -/
def limitOffset (t : Table K R) (limit offset : ℕ) : Table K R where
  entries := (t.entries.drop offset).take limit
  nodup := t.nodup.sublist (((List.take_sublist _ _).trans (List.drop_sublist _ _)).map Prod.fst)

theorem mem_keys_orderByKey {t : Table K R} {k : K} : k ∈ (orderByKey t).keys ↔ k ∈ t.keys :=
  ((List.perm_insertionSort _ t.entries).map Prod.fst).mem_iff

omit [LinearOrder K] in
theorem keys_limitOffset (t : Table K R) (limit offset : ℕ) :
    (t.limitOffset limit offset).keys = (t.keys.drop offset).take limit := by
  rw [Dict.keys, Dict.keys, limitOffset, List.map_take, List.map_drop]

end Table

namespace Paging

/-! ### The generator -/

/-- Where a generator stands: about to query at an offset, or returned. A generator whose last page
was short returns without another query. -/
inductive Gen
  | fetching (offset : ℕ)
  | returned
  deriving DecidableEq

/-- The number of rows a generator has passed; none are left to it when it has returned. -/
def Gen.offset : Gen → ℕ
  | .fetching offset => offset
  | .returned => 0

/-- The query of a page. -/
def page (t : Table K R) (batchSize offset : ℕ) : Table K R :=
  (Table.orderByKey t).limitOffset batchSize offset

/-- `next(generator)`: the page it yields, if it yields, and where it stands afterwards. -/
def Gen.next (batchSize : ℕ) (t : Table K R) : Gen → Option (Table K R) × Gen
  | .fetching offset =>
    let rows := page t batchSize offset
    if rows.entries = [] then (none, .returned)
    else if rows.length < batchSize then (some rows, .returned)
    else (some rows, .fetching (offset + batchSize))
  | .returned => (none, .returned)

/-! ### A table nobody writes to -/

/-- What a generator still yields, in at most `fuel` pages. -/
def drain (batchSize : ℕ) (t : Table K R) : ℕ → Gen → List (Table K R)
  | 0, _ => []
  | fuel + 1, g =>
    match g.next batchSize t with
    | (some rows, g') => rows :: drain batchSize t fuel g'
    | (none, _) => []

/-- `list(store.iter_batches(batch_size))`. There are at most as many pages as rows. -/
def iterBatches (batchSize : ℕ) (t : Table K R) : List (Table K R) :=
  drain batchSize t (t.length + 1) (.fetching 0)

theorem drain_returned (batchSize : ℕ) (t : Table K R) (fuel : ℕ) :
    drain batchSize t fuel .returned = [] := by
  cases fuel <;> rfl

theorem length_orderByKey (t : Table K R) : (Table.orderByKey t).entries.length = t.length :=
  (List.perm_insertionSort _ t.entries).length_eq

theorem entries_page (t : Table K R) (batchSize offset : ℕ) :
    (page t batchSize offset).entries =
      ((Table.orderByKey t).entries.drop offset).take batchSize := rfl

theorem flatten_drain {batchSize : ℕ} (hb : 1 ≤ batchSize) (t : Table K R) (fuel offset : ℕ)
    (hfuel : t.length < fuel + offset) :
    ((drain batchSize t fuel (.fetching offset)).map Dict.entries).flatten =
      (Table.orderByKey t).entries.drop offset := by
  induction fuel generalizing offset with
  | zero =>
    have hlen := length_orderByKey t
    rw [List.drop_of_length_le (by omega)]
    rfl
  | succ fuel ih =>
    have hlen := length_orderByKey t
    have hpage := entries_page t batchSize offset
    have hlong : (page t batchSize offset).length =
        min batchSize (t.length - offset) := by
      rw [Dict.length, hpage, List.length_take, List.length_drop, hlen]
    by_cases hnil : (page t batchSize offset).entries = []
    · have : ((Table.orderByKey t).entries.drop offset) = [] := by
        rw [hpage, List.take_eq_nil_iff] at hnil
        exact hnil.resolve_left (by omega)
      simp [drain, Gen.next, hnil, this]
    · by_cases hshort : (page t batchSize offset).length < batchSize
      · simp only [drain, Gen.next, if_neg hnil, if_pos hshort, drain_returned]
        rw [List.map_cons, List.map_nil, List.flatten_cons, List.flatten_nil, List.append_nil,
          hpage, List.take_of_length_le]
        rw [List.length_drop, hlen]
        omega
      · simp only [drain, Gen.next, if_neg hnil, if_neg hshort]
        rw [List.map_cons, List.flatten_cons, ih (offset + batchSize) (by omega), hpage,
          ← List.drop_drop, List.take_append_drop]

/-- **The pages of an unchanging table** are its rows in the order of their keys. -/
theorem flatten_iterBatches {batchSize : ℕ} (hb : 1 ≤ batchSize) (t : Table K R) :
    ((iterBatches batchSize t).map Dict.entries).flatten = (Table.orderByKey t).entries :=
  flatten_drain hb t _ 0 (by omega)

/-! ### A table that changes between the pages -/

section Run

open Interleaving Json

/-- What can happen next: the generator is asked for a batch, or some operation is called. -/
inductive Turn (Op : Type)
  | next
  | op (op : Op)

/-- An iteration on its way. -/
structure Iteration (K V R : Type) where
  table : Table K R
  gen : Gen
  /-- The batches yielded. -/
  batches : List (Dict K V)
  /-- The keys that have been there ever since the iteration started. -/
  present : List K

/-- The keys yielded, in their order. -/
def Iteration.yielded (s : Iteration K V R) : List K := s.batches.flatMap Dict.keys

/-- An iteration that starts. -/
def start (V : Type) (t : Table K R) : Iteration K V R := ⟨t, .fetching 0, [], t.keys⟩

variable {Op : Type} (layout : Layout V R) (exec : Table K R → Op → Table K R) (batchSize : ℕ)

/-- One turn. -/
def step (s : Iteration K V R) : Turn Op → Option (Iteration K V R)
  | .next =>
    match s.gen.next batchSize s.table with
    | (some rows, gen) =>
      some { s with gen, batches := s.batches ++ [rows.mapValues layout.rowToValue] }
    | (none, gen) => some { s with gen }
  | .op op =>
    let table := exec s.table op
    some { s with table, present := s.present.filter fun k => decide (k ∈ table.keys) }

/-- The offset is where the generator left it: no row before it is still to come, among those that
have been there from the start, and no row after it has been yielded. -/
def Separated (s : Iteration K V R) : Prop :=
  ∀ offset, s.gen = .fetching offset →
    (∀ k ∈ (Table.orderByKey s.table).keys.take offset, k ∈ s.present → k ∈ s.yielded) ∧
      ∀ k ∈ (Table.orderByKey s.table).keys.drop offset, k ∉ s.yielded

/-- Queries are made when the offset is where the generator left it. -/
def Undisturbed (s : Iteration K V R) : Turn Op → Prop
  | .next => Separated s
  | .op _ => True

/-- What holds all along. -/
structure Inv (s : Iteration K V R) : Prop where
  nodup : s.yielded.Nodup
  there : ∀ k ∈ s.present, k ∈ s.table.keys
  complete : s.gen = .returned → ∀ k ∈ s.present, k ∈ s.yielded

omit [LinearOrder K] in
theorem inv_start (t : Table K R) : Inv (start V t) where
  nodup := List.nodup_nil
  there _ hk := hk
  complete h := by cases h

theorem Inv.op {s s' : Iteration K V R} {op : Op} (h : Inv s)
    (hs : step layout exec batchSize s (.op op) = some s') : Inv s' := by
  obtain rfl := Option.some.inj hs
  refine ⟨h.nodup, fun k hk => ?_, fun hg k hk => ?_⟩
  · exact of_decide_eq_true (List.mem_filter.mp hk).2
  · exact h.complete hg k (List.mem_filter.mp hk).1

omit [LinearOrder K] in
theorem yielded_append (s : Iteration K V R) (rows : Table K R) (gen : Gen) :
    Iteration.yielded { s with gen, batches := s.batches ++ [rows.mapValues layout.rowToValue] } =
      s.yielded ++ rows.keys := by
  simp [Iteration.yielded]

theorem keys_page (t : Table K R) (offset : ℕ) :
    (page t batchSize offset).keys = ((Table.orderByKey t).keys.drop offset).take batchSize :=
  Table.keys_limitOffset _ _ _

/-- The query says nothing about the rows after a page that is not full. -/
theorem mem_page_of_short {t : Table K R} {offset : ℕ}
    (hshort : (page t batchSize offset).length < batchSize) {k : K}
    (hk : k ∈ (Table.orderByKey t).keys.drop offset) : k ∈ (page t batchSize offset).keys := by
  rw [← Dict.length_keys, keys_page, List.length_take] at hshort
  rw [keys_page, List.take_of_length_le (by omega)]
  exact hk

/-- What a request does. -/
theorem step_next_cases {s s' : Iteration K V R}
    (hs : step layout exec batchSize s .next = some s') :
    (s.gen = .returned ∧ s' = s) ∨
    ∃ offset, s.gen = .fetching offset ∧
      ((page s.table batchSize offset).entries = [] ∧ s' = { s with gen := .returned } ∨
        ∃ gen, (gen = .returned ∧ (page s.table batchSize offset).length < batchSize ∨
            gen = .fetching (offset + batchSize)) ∧
          s' = { s with gen, batches :=
            s.batches ++ [(page s.table batchSize offset).mapValues layout.rowToValue] }) := by
  cases hg : s.gen with
  | returned =>
    simp only [step, Gen.next, hg, Option.some.injEq] at hs
    exact .inl ⟨rfl, by rw [← hs, ← hg]⟩
  | fetching offset =>
    refine .inr ⟨offset, rfl, ?_⟩
    by_cases hnil : (page s.table batchSize offset).entries = []
    · simp only [step, Gen.next, hg, if_pos hnil, Option.some.injEq] at hs
      exact .inl ⟨hnil, hs.symm⟩
    · by_cases hshort : (page s.table batchSize offset).length < batchSize
      · simp only [step, Gen.next, hg, if_neg hnil, if_pos hshort, Option.some.injEq] at hs
        exact .inr ⟨.returned, .inl ⟨rfl, hshort⟩, hs.symm⟩
      · simp only [step, Gen.next, hg, if_neg hnil, if_neg hshort, Option.some.injEq] at hs
        exact .inr ⟨.fetching (offset + batchSize), .inr rfl, hs.symm⟩

variable {layout exec batchSize}

/-- A short page completes the iteration: what is not before the offset is in the page. -/
theorem complete_of_short {s : Iteration K V R} (h : Inv s) {offset : ℕ}
    (hbefore : ∀ k ∈ (Table.orderByKey s.table).keys.take offset, k ∈ s.present → k ∈ s.yielded)
    (hshort : (page s.table batchSize offset).length < batchSize) {k : K} (hk : k ∈ s.present) :
    k ∈ s.yielded ++ (page s.table batchSize offset).keys := by
  have hkey : k ∈ (Table.orderByKey s.table).keys := Table.mem_keys_orderByKey.mpr (h.there k hk)
  rw [← List.take_append_drop offset (Table.orderByKey s.table).keys, List.mem_append] at hkey
  rcases hkey with hkey | hkey
  · exact List.mem_append_left _ (hbefore k hkey hk)
  · exact List.mem_append_right _ (mem_page_of_short batchSize hshort hkey)

/-- A page has no key that has been yielded. -/
theorem nodup_yielded_page {s : Iteration K V R} (h : Inv s) {offset : ℕ}
    (hafter : ∀ k ∈ (Table.orderByKey s.table).keys.drop offset, k ∉ s.yielded) :
    (s.yielded ++ (page s.table batchSize offset).keys).Nodup := by
  rw [List.nodup_append]
  refine ⟨h.nodup, (page s.table batchSize offset).nodup, ?_⟩
  rintro k hk j hj rfl
  rw [keys_page] at hj
  exact hafter k (List.mem_of_mem_take hj) hk

theorem Inv.next (hb : 1 ≤ batchSize) {s s' : Iteration K V R} (h : Inv s) (hsep : Separated s)
    (hs : step layout exec batchSize s .next = some s') : Inv s' := by
  rcases step_next_cases layout exec batchSize hs with ⟨-, rfl⟩ | ⟨offset, hg, hpage⟩
  · exact h
  · obtain ⟨hbefore, hafter⟩ := hsep offset hg
    rcases hpage with ⟨hnil, rfl⟩ | ⟨gen, hgen, rfl⟩
    · refine ⟨h.nodup, h.there, fun _ k hk => ?_⟩
      have hshort : (page s.table batchSize offset).length < batchSize := by
        rw [Dict.length, hnil]
        exact hb
      have hmem := complete_of_short h hbefore hshort hk
      rwa [Dict.keys, hnil, List.map_nil, List.append_nil] at hmem
    · refine ⟨?_, h.there, fun hdone k hk => ?_⟩
      · rw [yielded_append]
        exact nodup_yielded_page h hafter
      · rcases hgen with ⟨-, hshort⟩ | rfl
        · rw [yielded_append]
          exact complete_of_short h hbefore hshort hk
        · cases hdone

/-- **Paged iteration under mutation.** As long as each query finds the offset where the generator
left it, no key is yielded twice, and a generator that has returned has yielded every key that was
there from the start. -/
theorem pages_yield_once (hb : 1 ≤ batchSize) {t : Table K R} {s : Iteration K V R}
    (h : Reaches (step layout exec batchSize) Undisturbed (start V t) s) :
    s.yielded.Nodup ∧ (s.gen = .returned → ∀ k ∈ s.present, k ∈ s.yielded) := by
  have hinv : Inv s := by
    refine h.invariant (inv_start t) fun s s' turn hs hG hstep => ?_
    cases turn with
    | next => exact hs.next hb hG hstep
    | op op => exact hs.op layout exec batchSize hstep
  exact ⟨hinv.nodup, hinv.complete⟩

/-- The offset is where the generator left it when the rows before it are those it has yielded. -/
theorem separated_of_take {s : Iteration K V R}
    (h : ∀ offset, s.gen = .fetching offset →
      (Table.orderByKey s.table).keys.take offset = s.yielded) : Separated s := by
  intro offset hg
  have htake := h offset hg
  have hnd := (Table.orderByKey s.table).nodup
  change (Table.orderByKey s.table).keys.Nodup at hnd
  rw [← List.take_append_drop offset (Table.orderByKey s.table).keys, List.nodup_append] at hnd
  refine ⟨fun k hk _ => htake ▸ hk, fun k hk hy => ?_⟩
  exact hnd.2.2 k (htake ▸ hy) k hk rfl

/-- Operations leave the rows before the offset as they are. -/
def PrefixKept (exec : Table K R → Op → Table K R) (s : Iteration K V R) : Turn Op → Prop
  | .next => True
  | .op op => (Table.orderByKey (exec s.table op)).keys.take s.gen.offset =
      (Table.orderByKey s.table).keys.take s.gen.offset

instance (exec : Table K R → Op → Table K R) (s : Iteration K V R) (turn : Turn Op) :
    Decidable (PrefixKept exec s turn) :=
  match turn with
  | .next => inferInstanceAs (Decidable True)
  | .op _ => inferInstanceAs (Decidable (_ = _))

theorem take_of_next {s s' : Iteration K V R}
    (h : ∀ offset, s.gen = .fetching offset →
      (Table.orderByKey s.table).keys.take offset = s.yielded)
    (hs : step layout exec batchSize s .next = some s') :
    ∀ offset, s'.gen = .fetching offset →
      (Table.orderByKey s'.table).keys.take offset = s'.yielded := by
  intro offset' hg'
  rcases step_next_cases layout exec batchSize hs with ⟨-, rfl⟩ | ⟨offset, hg, hpage⟩
  · exact h offset' hg'
  · rcases hpage with ⟨-, rfl⟩ | ⟨gen, ⟨rfl, -⟩ | rfl, rfl⟩
    · cases hg'
    · cases hg'
    · obtain rfl : offset + batchSize = offset' := Gen.fetching.inj hg'
      rw [yielded_append, ← h offset hg, keys_page, List.take_add]

/-- Writing behind the generator's back is harmless in front of it: operations that leave the rows
before the offset alone disturb no query. -/
theorem undisturbed_of_prefixKept {t : Table K R} {s : Iteration K V R}
    (h : Reaches (step layout exec batchSize) (PrefixKept exec) (start V t) s) :
    Reaches (step layout exec batchSize) Undisturbed (start V t) s ∧
      ∀ offset, s.gen = .fetching offset →
        (Table.orderByKey s.table).keys.take offset = s.yielded := by
  induction h with
  | refl =>
    refine ⟨.refl, fun offset hg => ?_⟩
    obtain rfl : 0 = offset := by simpa [start] using hg
    rfl
  | @turn s s' turn _ hG hs ih =>
    obtain ⟨hr, htake⟩ := ih
    match turn, hG, hs with
    | .next, _, hs =>
      have hsep : Undisturbed s (.next : Turn Op) := separated_of_take htake
      exact ⟨hr.turn hsep hs, take_of_next htake hs⟩
    | .op op, hG, hs =>
      have hop : Undisturbed s (.op op) := trivial
      refine ⟨hr.turn hop hs, ?_⟩
      obtain rfl := Option.some.inj hs
      intro offset hg
      have hkept : (Table.orderByKey (exec s.table op)).keys.take s.gen.offset =
        (Table.orderByKey s.table).keys.take s.gen.offset := hG
      rw [show s.gen = .fetching offset from hg] at hkept
      exact hkept.trans (htake offset hg)

/-! ### A row deleted before the offset -/

/-- A call on an open SQLite store, seen by its table. -/
def sqliteExec [ShallowMerge V] (layout : Layout V R) (maxSqlVariables : ℕ+) (t : Table K R)
    (op : StoreOp K V) : Table K R :=
  (Refinement.attempt ⟨t, false⟩
    (BaseSQLiteStore.exec layout maxSqlVariables ⟨t, false⟩ op)).1.table

/-- Four rows. -/
def abcd : Table PyStr (Dict PyStr ℕ) :=
  .ofList [(ofString "a", ∅), (ofString "b", ∅), (ofString "c", ∅), (ofString "d", ∅)]

/-- Values are their own rows. -/
def plain : Layout (Dict PyStr ℕ) (Dict PyStr ℕ) := ⟨id, id⟩

/-- `"c"` is written again and `"e"` is added after the first two rows have been yielded. -/
def writeAhead : List (Turn (StoreOp PyStr (Dict PyStr ℕ))) :=
  [.next, .op (.set (ofString "c") ∅ .overwrite), .op (.set (ofString "e") ∅ .overwrite), .next,
    .next]

/-- `"a"` is deleted after it has been yielded. -/
def deleteBehind : List (Turn (StoreOp PyStr (Dict PyStr ℕ))) :=
  [.next, .op (.delete (ofString "a")), .next, .next]

/-- **An undisturbed iteration.** The five rows are yielded once each. -/
theorem pages_yield_once_ahead : ∃ s, Reaches (step plain (sqliteExec plain 900) 2) Undisturbed
    (start (Dict PyStr ℕ) abcd) s ∧ s.gen = .returned ∧ s.yielded.Nodup ∧
      ∀ k ∈ abcd.keys, k ∈ s.yielded := by
  obtain ⟨s, hs⟩ := Option.isSome_iff_exists.mp (by decide :
    (play (guarded (step plain (sqliteExec plain 900) 2) (PrefixKept (sqliteExec plain 900)))
      (start (Dict PyStr ℕ) abcd) writeAhead).isSome = true)
  have hend := congrArg (Option.map fun s => (s.gen, s.present)) hs
  rw [show (play (guarded (step plain (sqliteExec plain 900) 2) (PrefixKept (sqliteExec plain 900)))
      (start (Dict PyStr ℕ) abcd) writeAhead).map (fun s => (s.gen, s.present)) =
        some (.returned, abcd.keys) by decide, Option.map_some, Option.some.injEq,
    Prod.mk.injEq] at hend
  have hr := (undisturbed_of_prefixKept (reaches_of_play_guarded hs)).1
  obtain ⟨hnd, hall⟩ := pages_yield_once (by decide) hr
  exact ⟨s, hr, hend.1.symm, hnd, fun k hk => hall hend.1.symm k (hend.2 ▸ hk)⟩

/-- **A row is skipped.** `"c"` is there from the start to the end and is not yielded: the row
deleted before the offset has moved it there. -/
theorem pages_skip_behind : ∃ s, Reaches (step plain (sqliteExec plain 900) 2) anyTurn
    (start (Dict PyStr ℕ) abcd) s ∧ s.gen = .returned ∧ ofString "c" ∈ s.present ∧
      ofString "c" ∉ s.yielded := by
  obtain ⟨s, hs⟩ := Option.isSome_iff_exists.mp (by decide :
    (play (step plain (sqliteExec plain 900) 2) (start (Dict PyStr ℕ) abcd) deleteBehind).isSome =
      true)
  have hend := congrArg (Option.map fun s => (s.gen, s.present, s.yielded)) hs
  rw [show (play (step plain (sqliteExec plain 900) 2) (start (Dict PyStr ℕ) abcd)
      deleteBehind).map (fun s => (s.gen, s.present, s.yielded)) =
        some (.returned, [ofString "b", ofString "c", ofString "d"],
          [ofString "a", ofString "b", ofString "d"]) by decide, Option.map_some,
    Option.some.injEq, Prod.mk.injEq, Prod.mk.injEq] at hend
  obtain ⟨hgen, hpresent, hyielded⟩ := hend
  refine ⟨s, reaches_of_play hs, hgen.symm, ?_, ?_⟩
  · rw [← hpresent]
    simp
  · rw [← hyielded]
    decide

end Run

end Paging

end Persista
