import Mathlib.Data.List.Nodup
import Mathlib.Logic.Function.Basic
import Mathlib.Tactic.Common

/-!
# Interleaved runs and serial executions

Agents take turns on a shared state. `step s i` is the state after agent `i` took its next turn, or
`none` when it has none (it is blocked or finished). A run is any sequence of turns; no fairness and
no scheduler is assumed.

## Two notions

* `Reaches step G s₀ s` — `s` is reached from `s₀` by turns that all satisfy the guard `G`. The
  guard speaks about the state before the turn, so a claim about *every* run takes the trivial
  guard, and a claim about the runs that avoid something states what they avoid.
* `Serializable call s₀ outcome s` — the outcomes of the completed calls and the state are those of
  executing the completed calls atomically, one after another, in some order.

A concurrency proof maintains `Serializable` as part of its invariant. A turn that completes no call
keeps it (`Serializable.stay`); the turn at which a call takes effect extends the order by that call
(`Serializable.take`). Nothing else is ever needed.
-/

namespace Interleaving

variable {σ ι : Type*}

/-! ### Runs -/

/-- `s` is reached from `s₀` by turns that satisfy the guard. -/
inductive Reaches (step : σ → ι → Option σ) (G : σ → ι → Prop) (s₀ : σ) : σ → Prop
  | refl : Reaches step G s₀ s₀
  | turn {s s' : σ} {i : ι} (h : Reaches step G s₀ s) (hG : G s i) (hs : step s i = some s') :
      Reaches step G s₀ s'

/-- The guard of a run on which nothing is assumed. -/
abbrev anyTurn (_ : σ) (_ : ι) : Prop := True

variable {step : σ → ι → Option σ} {G : σ → ι → Prop} {s₀ s : σ}

/-- **The invariant rule.** What holds at the start and is kept by every turn holds in every state
reached. -/
theorem Reaches.invariant {P : σ → Prop} (h : Reaches step G s₀ s) (h₀ : P s₀)
    (hstep : ∀ s s' i, P s → G s i → step s i = some s' → P s') : P s := by
  induction h with
  | refl => exact h₀
  | turn _ hG hs ih => exact hstep _ _ _ ih hG hs

/-- A run is still a run under a weaker guard. -/
theorem Reaches.mono {G' : σ → ι → Prop} (h : Reaches step G s₀ s)
    (hG : ∀ s i, G s i → G' s i) : Reaches step G' s₀ s := by
  induction h with
  | refl => exact .refl
  | turn _ hg hs ih => exact ih.turn (hG _ _ hg) hs

/-- A guard that follows from another one and an invariant. -/
theorem Reaches.mono_of_invariant {G' : σ → ι → Prop} {P : σ → Prop} (h : Reaches step G s₀ s)
    (h₀ : P s₀) (hP : ∀ s i s', P s → step s i = some s' → P s')
    (hG : ∀ s i, P s → G s i → G' s i) : Reaches step G' s₀ s := by
  have hall : Reaches step G' s₀ s ∧ P s := by
    induction h with
    | refl => exact ⟨.refl, h₀⟩
    | turn _ hg hs ih => exact ⟨ih.1.turn (hG _ _ ih.2 hg) hs, hP _ _ _ ih.2 hs⟩
  exact hall.1

/-- **A part of a system.** A run of the whole is, to those who see a part of it, a run of that
part, when each turn is a turn of the part or leaves the part alone. -/
theorem Reaches.project {τ κ : Type*} {part : σ → τ} {stepPart : τ → κ → Option τ} {P : σ → Prop}
    (h : Reaches step G s₀ s) (h₀ : P s₀)
    (hP : ∀ s s' i, P s → G s i → step s i = some s' → P s' ∧
      (part s' = part s ∨ ∃ j, stepPart (part s) j = some (part s'))) :
    P s ∧ Reaches stepPart anyTurn (part s₀) (part s) := by
  induction h with
  | refl => exact ⟨h₀, .refl⟩
  | turn _ hG hs ih =>
    obtain ⟨hinv, hpart⟩ := hP _ _ _ ih.1 hG hs
    refine ⟨hinv, ?_⟩
    rcases hpart with hsame | ⟨j, hj⟩
    · exact hsame ▸ ih.2
    · exact ih.2.turn trivial hj

/-- Play the turns of a schedule; `none` when some agent has no turn to take. -/
def play (step : σ → ι → Option σ) (s : σ) (schedule : List ι) : Option σ := schedule.foldlM step s

theorem Reaches.play (h : Reaches step anyTurn s₀ s) {schedule : List ι} {s' : σ}
    (hp : Interleaving.play step s schedule = some s') : Reaches step anyTurn s₀ s' := by
  induction schedule generalizing s with
  | nil => cases hp; exact h
  | cons i is ih =>
    rw [Interleaving.play, List.foldlM_cons] at hp
    obtain ⟨t, ht, hp⟩ := Option.bind_eq_some_iff.mp hp
    exact ih (h.turn trivial ht) hp

theorem reaches_of_play {schedule : List ι} (hp : play step s₀ schedule = some s) :
    Reaches step anyTurn s₀ s :=
  Reaches.refl.play hp

/-- A schedule of turns that are all allowed. -/
theorem Reaches.play_of_forall {P : ι → Prop} (h : Reaches step (fun _ => P) s₀ s)
    {schedule : List ι} (hall : ∀ i ∈ schedule, P i) {s' : σ}
    (hp : Interleaving.play step s schedule = some s') : Reaches step (fun _ => P) s₀ s' := by
  induction schedule generalizing s with
  | nil =>
    cases hp
    exact h
  | cons i is ih =>
    rw [Interleaving.play, List.foldlM_cons] at hp
    obtain ⟨t, ht, hp⟩ := Option.bind_eq_some_iff.mp hp
    exact ih (h.turn (hall i List.mem_cons_self) ht)
      (fun j hj => hall j (List.mem_cons_of_mem i hj)) hp

/-- The turns that satisfy a decidable guard. -/
def guarded (step : σ → ι → Option σ) (G : σ → ι → Prop) [∀ s i, Decidable (G s i)] (s : σ)
    (i : ι) : Option σ :=
  if G s i then step s i else none

theorem reaches_of_play_guarded [∀ s i, Decidable (G s i)] {schedule : List ι}
    (hp : play (guarded step G) s₀ schedule = some s) : Reaches step G s₀ s := by
  have aux : ∀ s, Reaches (guarded step G) anyTurn s₀ s → Reaches step G s₀ s := by
    intro s h
    induction h with
    | refl => exact .refl
    | turn _ _ hs ih =>
      rw [guarded] at hs
      split at hs
      · next hG => exact ih.turn hG hs
      · cases hs
  exact aux s (reaches_of_play hp)

/-! ### Serial executions -/

variable {S O : Type*} {call : ι → S → O × S}

/-- Execute the calls of a list atomically, one after another. -/
def serial (call : ι → S → O × S) (s : S) : List ι → List O × S
  | [] => ([], s)
  | i :: is =>
    let (o, s') := call i s
    let (os, s'') := serial call s' is
    (o :: os, s'')

theorem serial_append (s : S) (is : List ι) (i : ι) :
    serial call s (is ++ [i]) =
      ((serial call s is).1 ++ [(call i (serial call s is).2).1],
        (call i (serial call s is).2).2) := by
  induction is generalizing s with
  | nil => rfl
  | cons j is ih => simp only [List.cons_append, serial, ih]

/-- The completed calls (those with an outcome) and the state `s` are explained by executing the
completed calls atomically in some order. -/
def Serializable (call : ι → S → O × S) (s₀ : S) (outcome : ι → Option O) (s : S) : Prop :=
  ∃ order : List ι, order.Nodup ∧ (∀ i, i ∈ order ↔ (outcome i).isSome) ∧
    (serial call s₀ order).1.map some = order.map outcome ∧ (serial call s₀ order).2 = s

variable {s t : S} {outcome outcome' : ι → Option O} {s₀ : S}

theorem Serializable.start (h : ∀ i, outcome i = none) : Serializable call s₀ outcome s₀ :=
  ⟨[], List.nodup_nil, by simp [h], rfl, rfl⟩

theorem Serializable.congr (h : Serializable call s₀ outcome s) (ho : ∀ i, outcome' i = outcome i) :
    Serializable call s₀ outcome' s := by
  rwa [show outcome' = outcome from funext ho]

/-- **A call takes effect.** Executing one more call atomically on the present state extends the
serial order by that call. -/
theorem Serializable.complete (h : Serializable call s₀ outcome s) {i : ι} {o : O}
    (hi : outcome i = none) (hcall : call i s = (o, t)) (hi' : outcome' i = some o)
    (hne : ∀ j, j ≠ i → outcome' j = outcome j) : Serializable call s₀ outcome' t := by
  obtain ⟨order, hnd, hmem, hout, rfl⟩ := h
  have hni : i ∉ order := by simp [hmem, hi]
  have hji : ∀ j ∈ order, j ≠ i := fun j hj hji => hni (hji ▸ hj)
  refine ⟨order ++ [i], ?_, fun j => ?_, ?_, ?_⟩
  · rw [List.nodup_append]
    refine ⟨hnd, List.nodup_singleton i, ?_⟩
    rintro a ha b hb rfl
    exact hni (List.mem_singleton.mp hb ▸ ha)
  · by_cases hj : j = i
    · subst hj; simp [hi']
    · simp [hj, hmem, hne j hj]
  · rw [serial_append, hcall, List.map_append, List.map_append, hout]
    congr 1
    · exact List.map_congr_left fun j hj => (hne j (hji j hj)).symm
    · simp [hi']
  · rw [serial_append, hcall]

/-! ### A turn of one agent

A turn gives one agent a new phase and leaves the others theirs. What is known of all agents before
the turn has to be said again of all agents after it; only the agent in turn is any work. -/

section Turn

variable {P B : Type*} [DecidableEq ι] {phase : ι → P} {i : ι} {p : P}

/-- The agent in turn shows what it showed before. -/
theorem shown_update {f : P → B} (h : f p = f (phase i)) (j : ι) :
    f (Function.update phase i p j) = f (phase j) := by
  rcases eq_or_ne j i with rfl | hj
  · rw [Function.update_self, h]
  · rw [Function.update_of_ne hj]

theorem forall_of_update {Q : ι → Prop} {f : P → Bool}
    (h : ∀ j, f (Function.update phase i p j) → Q j) (hi : f (phase i) → Q i) :
    ∀ j, f (phase j) → Q j := by
  intro j hj
  rcases eq_or_ne j i with rfl | hji
  · exact hi hj
  · refine h j ?_
    rwa [Function.update_of_ne hji]

/-- The agents that satisfy `f` are pairwise in a symmetric relation, and stay so. -/
theorem pairwise_update {R : ι → ι → Prop} {f : P → Bool} (hR : ∀ j j', R j j' → R j' j)
    (h : ∀ j j', j ≠ j' → f (phase j) → f (phase j') → R j j')
    (hp : f p → ∀ j, j ≠ i → f (phase j) → R i j) :
    ∀ j j', j ≠ j' → f (Function.update phase i p j) → f (Function.update phase i p j') →
      R j j' := by
  intro j j' hne hj hj'
  rcases eq_or_ne j i with rfl | hji
  · rw [Function.update_self] at hj
    rw [Function.update_of_ne hne.symm] at hj'
    exact hp hj j' hne.symm hj'
  · rw [Function.update_of_ne hji] at hj
    rcases eq_or_ne j' i with rfl | hji'
    · rw [Function.update_self] at hj'
      exact hR _ _ (hp hj' j hji hj)
    · rw [Function.update_of_ne hji'] at hj'
      exact h j j' hne hj hj'

variable {f : P → Option O}

/-- A turn that completes no call. -/
theorem Serializable.stay (h : Serializable call s₀ (fun j => f (phase j)) s)
    (hp : f p = f (phase i)) :
    Serializable call s₀ (fun j => f (Function.update phase i p j)) s :=
  h.congr (shown_update hp)

/-- A turn at which the call takes effect. -/
theorem Serializable.take (h : Serializable call s₀ (fun j => f (phase j)) s) {o : O}
    (hi : f (phase i) = none) (hcall : call i s = (o, t)) (hp : f p = some o) :
    Serializable call s₀ (fun j => f (Function.update phase i p j)) t := by
  refine h.complete hi hcall ?_ fun j hj => ?_
  · rw [Function.update_self, hp]
  · rw [Function.update_of_ne hj]

end Turn

/-- Two calls, both completed: the order is one of the two. This is how a run of two calls is shown
not to be serializable. -/
theorem Serializable.two {call : Bool → S → O × S} {outcome : Bool → Option O} {o o' : O}
    (h : Serializable call s₀ outcome s) (hf : outcome false = some o)
    (ht : outcome true = some o') :
    ((call false s₀).1 = o ∧ call true (call false s₀).2 = (o', s)) ∨
      ((call true s₀).1 = o' ∧ call false (call true s₀).2 = (o, s)) := by
  obtain ⟨order, hnd, hmem, hout, rfl⟩ := h
  have hperm : order.Perm [false, true] :=
    (List.perm_ext_iff_of_nodup hnd (by simp)).mpr fun b => by cases b <;> simp [hmem, hf, ht]
  have hcases : order = [false, true] ∨ order = [true, false] := by
    obtain ⟨a, b, rfl⟩ := List.length_eq_two.mp hperm.length_eq
    cases a <;> cases b <;> simp at hnd ⊢
  rcases hcases with rfl | rfl
  · left
    simp only [serial, List.map_cons, List.map_nil, hf, ht, List.cons.injEq, Option.some.injEq,
      and_true] at hout
    exact ⟨hout.1, Prod.ext hout.2 rfl⟩
  · right
    simp only [serial, List.map_cons, List.map_nil, hf, ht, List.cons.injEq, Option.some.injEq,
      and_true] at hout
    exact ⟨hout.1, Prod.ext hout.2 rfl⟩

end Interleaving
