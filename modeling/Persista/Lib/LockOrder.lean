import Mathlib.Logic.Relation
import Mathlib.Order.Defs.PartialOrder

/-!
# Waiting for locks

Agents hold locks and wait for locks. `WaitsFor` is the wait-for graph: an edge from an agent to the
holder of the lock it waits for. A cycle in it is a deadlock.

The usual way to have none is an order on what is waited for, along which every edge between two
waiting agents goes up. It need not be an order on the locks: it can be one on the requests that ask
for them (`not_deadlocked_of_lt`).
-/

namespace LockOrder

variable {ι L α : Type*}

/-- Agent `i` waits for a lock that agent `j` holds. -/
def WaitsFor (waits : ι → Option L) (holder : L → Option ι) (i j : ι) : Prop :=
  ∃ l, waits i = some l ∧ holder l = some j

/-- Some agents wait for each other in a circle. -/
def Deadlocked (waits : ι → Option L) (holder : L → Option ι) : Prop :=
  ∃ i, Relation.TransGen (WaitsFor waits holder) i i

variable [Preorder α] {waits : ι → Option L} {holder : L → Option ι} {r : ι → Option α}

/-- Requests grow along a path of waiting agents. -/
theorem request_lt_of_transGen
    (hwaits : ∀ i j, WaitsFor waits holder i j → (r i).isSome)
    (hlt : ∀ i j, WaitsFor waits holder i j → ∀ x ∈ r i, ∀ y ∈ r j, x < y)
    {i j : ι} (h : Relation.TransGen (WaitsFor waits holder) i j) :
    ∀ x ∈ r i, ∀ y ∈ r j, x < y := by
  induction h with
  | single hij => exact hlt _ _ hij
  | tail _ hmj ih =>
    intro x hx y hy
    obtain ⟨z, hz⟩ := Option.isSome_iff_exists.mp (hwaits _ _ hmj)
    exact lt_trans (ih x hx z hz) (hlt _ _ hmj z hz y hy)

/-- **Ordered requests do not deadlock.** -/
theorem not_deadlocked_of_lt
    (hwaits : ∀ i j, WaitsFor waits holder i j → (r i).isSome)
    (hlt : ∀ i j, WaitsFor waits holder i j → ∀ x ∈ r i, ∀ y ∈ r j, x < y) :
    ¬ Deadlocked waits holder := by
  rintro ⟨i, h⟩
  obtain ⟨j, hij, -⟩ := Relation.TransGen.head'_iff.mp h
  obtain ⟨x, hx⟩ := Option.isSome_iff_exists.mp (hwaits _ _ hij)
  exact lt_irrefl x (request_lt_of_transGen hwaits hlt h x hx x hx)

/-- Two agents that wait for each other. -/
theorem deadlocked_of_two {i j : ι} (hij : WaitsFor waits holder i j)
    (hji : WaitsFor waits holder j i) : Deadlocked waits holder :=
  ⟨i, .tail (.single hij) hji⟩

end LockOrder
