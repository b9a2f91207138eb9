import Mathlib.Data.List.Perm.Basic
import Mathlib.Data.List.Forall2
import Mathlib.Tactic.Common

/-!
# Conditions evaluated by an engine

An engine selects the rows on which all conditions of a query are true. On a row a condition is
true, or is not, or raises. The engine takes the conditions in an order of its own, which may differ
from row to row, and stops at the first that is not true; one that raises ends the query.

Whoever wrote the query has a test on values in mind and wants the values of the rows that pass it.
What is selected are those values exactly when the query is right on every row: a row that passes
has all conditions true, and on a row that does not, a condition is found false before any raises.
Values have no identity, so a value selected in place of another could make up for it; it cannot,
because two rows with one value pass the test together.

## Main results

* `Pushdown.conjunction_eq_true`, `Pushdown.conjunction_eq_false` — the two ways a row is decided
* `Pushdown.select_agrees_iff` — when the values selected are those that pass a test
-/

namespace Pushdown

variable {ρ κ α : Type*}

/-- The order in which an engine takes the conditions on a row. -/
structure EvalOrder (ρ κ : Type*) where
  on : ρ → List κ → List κ
  perm : ∀ r conds, (on r conds).Perm conds

/-- The order of the query, on every row. -/
def EvalOrder.written : EvalOrder ρ κ := ⟨fun _ conds => conds, fun _ _ => List.Perm.refl _⟩

/-- All conditions are true; `none` when one raises before one is false. -/
def conjunction (eval : κ → Option Bool) : List κ → Option Bool
  | [] => some true
  | c :: conds =>
    match eval c with
    | some true => conjunction eval conds
    | some false => some false
    | none => none

/-- The rows on which all conditions are true; `none` when the query raises. -/
def select (order : EvalOrder ρ κ) (eval : ρ → κ → Option Bool) (conds : List κ) :
    List ρ → Option (List ρ)
  | [] => some []
  | r :: rows =>
    (conjunction (eval r) (order.on r conds)).bind fun selected =>
      (select order eval conds rows).map fun rest => if selected then r :: rest else rest

/-! ### One row -/

section Row

variable {eval : κ → Option Bool} {conds : List κ}

theorem conjunction_eq_true :
    conjunction eval conds = some true ↔ ∀ c ∈ conds, eval c = some true := by
  induction conds with
  | nil => simp [conjunction]
  | cons c conds ih =>
    rw [conjunction, List.forall_mem_cons, ← ih]
    split
    · next h => simp [h]
    · next h => simp [h]
    · next h => simp [h]

/-- A condition is false, and those before it are true. -/
def Refuted (eval : κ → Option Bool) (conds : List κ) : Prop :=
  ∃ before c after, conds = before ++ c :: after ∧ (∀ b ∈ before, eval b = some true) ∧
    eval c = some false

theorem conjunction_eq_false : conjunction eval conds = some false ↔ Refuted eval conds := by
  constructor
  · intro h
    induction conds with
    | nil => cases h
    | cons c conds ih =>
      rw [conjunction] at h
      split at h
      · next hc =>
        obtain ⟨before, d, after, rfl, hbefore, hd⟩ := ih h
        exact ⟨c :: before, d, after, rfl, List.forall_mem_cons.mpr ⟨hc, hbefore⟩, hd⟩
      · next hc => exact ⟨[], c, conds, rfl, by simp, hc⟩
      · cases h
  · rintro ⟨before, c, after, rfl, hbefore, hc⟩
    induction before with
    | nil => simp [conjunction, hc]
    | cons b before ih =>
      rw [List.forall_mem_cons] at hbefore
      rw [List.cons_append, conjunction, hbefore.1]
      exact ih hbefore.2

/-- Conditions that never raise: one of them is false. -/
theorem refuted_iff_of_total (h : ∀ c ∈ conds, (eval c).isSome) :
    Refuted eval conds ↔ ∃ c ∈ conds, eval c = some false := by
  constructor
  · rintro ⟨before, c, after, rfl, -, hc⟩
    exact ⟨c, List.mem_append_right _ (List.mem_cons_self ..), hc⟩
  · rintro ⟨c, hc, hfalse⟩
    rw [← conjunction_eq_false]
    induction conds with
    | nil => cases hc
    | cons d conds ih =>
      rw [List.forall_mem_cons] at h
      rw [conjunction]
      split
      · next hd =>
        refine ih h.2 ((List.mem_cons.mp hc).resolve_left ?_)
        rintro rfl
        rw [hd] at hfalse
        cases hfalse
      · rfl
      · next hd =>
        rw [hd] at h
        exact absurd h.1 (by simp)

end Row

/-! ### All rows -/

section Rows

variable {order : EvalOrder ρ κ} {eval : ρ → κ → Option Bool} {conds : List κ} {rows : List ρ}

theorem select_eq_some_iff {found : List ρ} :
    select order eval conds rows = some found ↔
      (∀ r ∈ rows, (conjunction (eval r) (order.on r conds)).isSome) ∧
        found = rows.filter fun r => conjunction (eval r) (order.on r conds) = some true := by
  induction rows generalizing found with
  | nil =>
    rw [select, Option.some.injEq, eq_comm]
    simp
  | cons r rows ih =>
    rw [select, List.forall_mem_cons]
    cases hr : conjunction (eval r) (order.on r conds) with
    | none => simp
    | some selected =>
      cases hrest : select order eval conds rows with
      | none =>
        have hnone : ¬ ∀ r ∈ rows, (conjunction (eval r) (order.on r conds)).isSome := by
          intro h
          have := ih.mpr ⟨h, rfl⟩
          rw [hrest] at this
          cases this
        simp [hnone]
      | some rest =>
        obtain ⟨hsome, rfl⟩ := ih.mp hrest
        rw [and_iff_right ⟨rfl, hsome⟩, Option.bind_some, Option.map_some, Option.some.injEq,
          eq_comm, List.filter_cons, hr]
        cases selected with
        | true => simp
        | false => simp

/-- Selected by values that a test accepts: the same values exactly when the same rows. -/
theorem perm_map_filter_iff {value : ρ → α} {p : α → Bool} {q : ρ → Bool} :
    ((rows.filter q).map value).Perm ((rows.map value).filter p) ↔
      ∀ r ∈ rows, q r = p (value r) := by
  rw [List.filter_map]
  constructor
  · intro hperm
    have hle : ∀ r ∈ rows, q r → p (value r) := by
      intro r hr hq
      have hmem : value r ∈ (rows.filter q).map value :=
        List.mem_map_of_mem (List.mem_filter.mpr ⟨hr, hq⟩)
      obtain ⟨r', hr', heq⟩ := List.mem_map.mp (hperm.subset hmem)
      rw [← heq]
      exact (List.mem_filter.mp hr').2
    have hsub : (rows.filter q).Sublist (rows.filter (p ∘ value)) := by
      have hq : rows.filter q = (rows.filter (p ∘ value)).filter q := by
        rw [List.filter_filter]
        refine List.filter_congr fun r hr => ?_
        cases hqr : q r with
        | false => rfl
        | true => exact (hle r hr hqr).symm
      rw [hq]
      exact List.filter_sublist
    have hlen : (rows.filter q).length = (rows.filter (p ∘ value)).length := by
      simpa using hperm.length_eq
    intro r hr
    rw [Bool.eq_iff_iff]
    refine ⟨hle r hr, fun hp => ?_⟩
    have hmem : r ∈ rows.filter (p ∘ value) := List.mem_filter.mpr ⟨hr, hp⟩
    rw [← hsub.eq_of_length hlen] at hmem
    exact (List.mem_filter.mp hmem).2
  · intro h
    rw [List.filter_congr h]
    rfl

/-- **When the values selected are those that pass a test.** -/
theorem select_agrees_iff {value : ρ → α} {p : α → Bool} :
    (∃ found, select order eval conds rows = some found ∧
        (found.map value).Perm ((rows.map value).filter p)) ↔
      ∀ r ∈ rows, (p (value r) → ∀ c ∈ conds, eval r c = some true) ∧
        (¬ p (value r) → Refuted (eval r) (order.on r conds)) := by
  have hrow : ∀ r, ((p (value r) → ∀ c ∈ conds, eval r c = some true) ∧
      (¬ p (value r) → Refuted (eval r) (order.on r conds))) ↔
        conjunction (eval r) (order.on r conds) = some (p (value r)) := by
    intro r
    have hall : (∀ c ∈ conds, eval r c = some true) ↔
        ∀ c ∈ order.on r conds, eval r c = some true :=
      forall_congr' fun c => by rw [(order.perm r conds).mem_iff]
    rw [hall, ← conjunction_eq_true, ← conjunction_eq_false]
    cases p (value r) with
    | true => simp
    | false => simp
  rw [forall₂_congr fun r _ => hrow r]
  constructor
  · rintro ⟨found, hfound, hperm⟩ r hr
    obtain ⟨hsome, rfl⟩ := select_eq_some_iff.mp hfound
    have hr' := perm_map_filter_iff.mp hperm r hr
    obtain ⟨b, hb⟩ := Option.isSome_iff_exists.mp (hsome r hr)
    rw [hb, ← hr', hb]
    cases b with
    | true => rfl
    | false => rfl
  · intro h
    refine ⟨_, select_eq_some_iff.mpr ⟨fun r hr => ?_, rfl⟩, perm_map_filter_iff.mpr ?_⟩
    · rw [h r hr]
      rfl
    · intro r hr
      rw [h r hr]
      cases p (value r) with
      | true => rfl
      | false => rfl

end Rows

end Pushdown
