import Persista.Lib.Refinement

/-!
# Implementations that answer alike

Two implementations of the same operations, each with states of its own. An operation that raises
leaves the state as it was. When the operations answer alike on related states and leave related
states, no run tells the two apart.

## Main results

* `Indistinguishable.answers_eq` — the answers of a run
* `Indistinguishable.related_run` — the states after a run
-/

namespace Indistinguishable

variable {σ τ Op X E : Type*}

/-- The same error, or the same answer and related states. -/
inductive Alike (R : σ → τ → Prop) : Except E (σ × X) → Except E (τ × X) → Prop
  | ok {s : σ} {t : τ} (x : X) (h : R s t) : Alike R (.ok (s, x)) (.ok (t, x))
  | error (e : E) : Alike R (.error e) (.error e)

/-- The state after an operation. -/
def after (s : σ) : Except E (σ × X) → σ
  | .ok (s', _) => s'
  | .error _ => s

/-- The state after a run. -/
def run (exec : σ → Op → Except E (σ × X)) (s : σ) (ops : List Op) : σ :=
  ops.foldl (fun s op => after s (exec s op)) s

/-- The answers of a run. -/
def answers (exec : σ → Op → Except E (σ × X)) (s : σ) : List Op → List (Except E X)
  | [] => []
  | op :: ops => (exec s op).map Prod.snd :: answers exec (after s (exec s op)) ops

theorem run_concat (exec : σ → Op → Except E (σ × X)) (s : σ) (ops : List Op) (op : Op) :
    run exec s (ops ++ [op]) = after (run exec s ops) (exec (run exec s ops) op) :=
  List.foldl_append

variable {R : σ → τ → Prop} {s : σ} {t : τ} {outcome : Except E (σ × X)}
  {outcome' : Except E (τ × X)}

theorem Alike.map_snd (h : Alike R outcome outcome') :
    outcome.map Prod.snd = outcome'.map Prod.snd := by
  cases h with
  | ok x hR => rfl
  | error e => rfl

theorem Alike.after (h : Alike R outcome outcome') (hR : R s t) :
    R (after s outcome) (Indistinguishable.after t outcome') := by
  cases h with
  | ok x hR' => exact hR'
  | error e => exact hR

/-- The answer is turned into another one. -/
theorem Alike.map {Y : Type*} (f : X → Y) (h : Alike R outcome outcome') :
    Alike R (outcome.map fun p => (p.1, f p.2)) (outcome'.map fun p => (p.1, f p.2)) := by
  cases h with
  | ok x hR => exact .ok (f x) hR
  | error e => exact .error e

variable {exec : σ → Op → Except E (σ × X)} {exec' : τ → Op → Except E (τ × X)}

/-- **The states after a run** are related. -/
theorem related_run (h : ∀ s t op, R s t → Alike R (exec s op) (exec' t op)) (hR : R s t)
    (ops : List Op) : R (run exec s ops) (run exec' t ops) := by
  induction ops generalizing s t with
  | nil => exact hR
  | cons op ops ih => exact ih ((h s t op hR).after hR)

/-- **The answers of a run** are the same. -/
theorem answers_eq (h : ∀ s t op, R s t → Alike R (exec s op) (exec' t op)) (hR : R s t)
    (ops : List Op) : answers exec s ops = answers exec' t ops := by
  induction ops generalizing s t with
  | nil => rfl
  | cons op ops ih =>
    rw [answers, answers, (h s t op hR).map_snd, ih ((h s t op hR).after hR)]

end Indistinguishable
