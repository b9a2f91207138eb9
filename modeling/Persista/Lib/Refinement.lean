import Mathlib.Tactic.Common

/-!
# Runs of operations that can fail, and their refinement

An operation either produces a new state or raises; an operation that raises leaves the state as it
was, and the run goes on. `runOps exec s ops` is the state after a list of operations together with
what each of them raised.

`Refines` is the forward simulation between two such systems along an abstraction of states. It has
one obligation per operation (`exec` commutes with the abstraction, errors included), and
`Refines.run` lifts it to runs of any length. Two systems that refine the same third one therefore
raise the same errors on every run, which is how two backends are compared.
-/

namespace Refinement

/-! ### Computing with `Except` -/

section Except

universe u v

variable {E : Type u} {X Y : Type v}

@[simp] theorem ok_bind (x : X) (f : X → Except E Y) : (Except.ok x >>= f) = f x := rfl

@[simp] theorem error_bind (e : E) (f : X → Except E Y) :
    ((Except.error e : Except E X) >>= f) = .error e := rfl

@[simp] theorem pure_ok (x : X) : (pure x : Except E X) = .ok x := rfl

@[simp] theorem map_ok (f : X → Y) (x : X) : Except.map f (.ok x : Except E X) = .ok (f x) := rfl

@[simp] theorem map_error (f : X → Y) (e : E) :
    Except.map f (.error e : Except E X) = .error e := rfl

end Except

/-! ### Runs -/

variable {S A Op E : Type*}

/-- The effect of an attempted operation: the new state, or the old one and the error. -/
def attempt (s : S) : Except E S → S × Except E Unit
  | .ok s' => (s', .ok ())
  | .error e => (s, .error e)

/-- Execute a list of operations, collecting what each one raised. -/
def runOps (exec : S → Op → Except E S) (s : S) : List Op → S × List (Except E Unit)
  | [] => (s, [])
  | op :: ops =>
    let (s', r) := attempt s (exec s op)
    let (s'', rs) := runOps exec s' ops
    (s'', r :: rs)

/-- **Loops that do not fail.** The invariant says how many items have been taken, and every turn
that it holds at succeeds and keeps it. -/
theorem exists_foldlM {S X : Type*} (step : S → X → Option S) (Inv : ℕ → S → Prop)
    (items : List X) {s : S} (hs : Inv 0 s)
    (hstep : ∀ k (hk : k < items.length) s, Inv k s → ∃ s', step s items[k] = some s' ∧
      Inv (k + 1) s') :
    ∃ s', items.foldlM step s = some s' ∧ Inv items.length s' := by
  induction items generalizing s Inv with
  | nil => exact ⟨s, rfl, hs⟩
  | cons x items ih =>
    obtain ⟨s', hx, hs'⟩ := hstep 0 (Nat.zero_lt_succ _) s hs
    obtain ⟨s'', hfold, hs''⟩ := ih (fun k => Inv (k + 1)) hs' fun k hk t ht =>
      hstep (k + 1) (Nat.succ_lt_succ hk) t ht
    refine ⟨s'', ?_, hs''⟩
    rw [List.foldlM_cons]
    rw [List.getElem_cons_zero] at hx
    rw [hx]
    exact hfold

/-- A loop with steps that fail by their items alone. -/
theorem isSome_foldlM {S X : Type*} {step : S → X → Option S} {P : X → Prop}
    (h : ∀ s x, (step s x).isSome ↔ P x) (s : S) (items : List X) :
    (items.foldlM step s).isSome ↔ ∀ x ∈ items, P x := by
  induction items generalizing s with
  | nil => simp
  | cons x items ih =>
    rw [List.foldlM_cons, List.forall_mem_cons, ← h s x]
    cases hstep : step s x with
    | none => simp
    | some s' => simpa using ih s'

section Throughout

variable {S Op : Type*} (step : S → Op → S)

/-- Every operation of the run satisfies `P`, which speaks about the state before it. -/
def Throughout (P : S → Op → Prop) : S → List Op → Prop
  | _, [] => True
  | s, op :: ops => P s op ∧ Throughout P (step s op) ops

variable {step} {P Q : S → Op → Prop} {Inv : S → Prop}

/-- **Conditions on runs.** Two conditions that are the same under an invariant which one of them
keeps are the same for runs. -/
theorem throughout_iff (hiff : ∀ s op, Inv s → (P s op ↔ Q s op))
    (hinv : ∀ s op, Inv s → Q s op → Inv (step s op)) {s : S} (hs : Inv s) (ops : List Op) :
    Throughout step P s ops ↔ Throughout step Q s ops := by
  induction ops generalizing s with
  | nil => exact Iff.rfl
  | cons op ops ih =>
    rw [Throughout, Throughout, hiff s op hs]
    exact and_congr_right fun hq => ih (hinv s op hs hq)

end Throughout

/-- `exec` refines `aexec` along `abs` on the states that satisfy `Inv`: every operation keeps the
invariant and commutes with the abstraction, errors included. -/
structure Refines (exec : S → Op → Except E S) (aexec : A → Op → Except E A) (abs : S → A)
    (Inv : S → Prop) : Prop where
  /-- A successful operation keeps the invariant. -/
  inv : ∀ {s s' op}, Inv s → exec s op = .ok s' → Inv s'
  /-- The abstraction commutes with the operation. -/
  comm : ∀ {s op}, Inv s → (exec s op).map abs = aexec (abs s) op

variable {exec : S → Op → Except E S} {aexec : A → Op → Except E A} {abs : S → A} {Inv : S → Prop}

theorem Refines.attempt (h : Refines exec aexec abs Inv) {s : S} (hs : Inv s) (op : Op) :
    Inv (attempt s (exec s op)).1 ∧
      Refinement.attempt (abs s) (aexec (abs s) op) =
        (abs (Refinement.attempt s (exec s op)).1, (Refinement.attempt s (exec s op)).2) := by
  have hc : (exec s op).map abs = aexec (abs s) op := h.comm hs
  cases he : exec s op with
  | ok s' =>
    rw [he] at hc
    exact ⟨h.inv hs he, by rw [← hc]; rfl⟩
  | error e =>
    rw [he] at hc
    exact ⟨hs, by rw [← hc]; rfl⟩

/-- **Refinement of runs.** The invariant holds at the end, the abstraction of the end is the end
of the abstract run, and both runs raise the same errors at the same places. -/
theorem Refines.run (h : Refines exec aexec abs Inv) {s : S} (hs : Inv s) (ops : List Op) :
    Inv (runOps exec s ops).1 ∧
      runOps aexec (abs s) ops = (abs (runOps exec s ops).1, (runOps exec s ops).2) := by
  induction ops generalizing s with
  | nil => exact ⟨hs, rfl⟩
  | cons op ops ih =>
    obtain ⟨hi, ha⟩ := h.attempt hs op
    obtain ⟨hinv, hrun⟩ := ih hi
    refine ⟨hinv, ?_⟩
    simp only [runOps, ha, hrun]

end Refinement
