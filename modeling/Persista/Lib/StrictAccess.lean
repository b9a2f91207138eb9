import Persista.Lib.Interleaving

/-!
# Agents that read and write single cells

Agents run on a shared map of cells. A turn reads one cell, writes one cell, or does neither
(`Next`); what an agent does next depends on its phase alone. A call is many turns long, and between
two of them other agents take theirs.

## Strict runs

A turn is strict when it leaves alone what is not settled: it reads no cell that another agent has
written in a call that is not over, and it writes none that another agent has read or written in
such a call. In a strict run every call could have run on its own: what it has read is what it would
have read, had the calls that are over been the only ones (`Alone`), and what it has written stands
where it put it until the call is over. So the calls that are over are serializable, in the order in
which they came to their end (`Inv.serializable`).

What the agents have read and written is part of the state, for the sake of the guard only.

## Main results

* `Alone.invariant` — the invariant rule of an agent that runs on its own
* `Inv.turn` — a strict turn keeps the invariant
* `Inv.serializable` — in a state in which no call is between its first write and its end, the
  calls that are over are serializable
-/

namespace StrictAccess

open Interleaving

variable {ι P K R O : Type*}

/-- What an agent does next. -/
inductive Next (P K R : Type*)
  | stop
  | move (p : P)
  | read (k : K) (f : Option R → P)
  | write (k : K) (r : Option R) (p : P)

/-- The cells and the agents, with what each of them has read and written. -/
structure Shared (ι P K R : Type*) where
  cells : K → Option R
  phase : ι → P
  reads : ι → K → Bool
  writes : ι → K → Option (Option R)

/-- What is in the cells when some of them have been written. -/
def overlay (m : K → Option R) (w : K → Option (Option R)) : K → Option R := fun k =>
  (w k).getD (m k)

theorem overlay_none (m : K → Option R) : overlay m (fun _ => none) = m := rfl

theorem overlay_of_none {m : K → Option R} {w : K → Option (Option R)} {k : K} (h : w k = none) :
    overlay m w k = m k := by
  rw [overlay, h]
  rfl

theorem overlay_congr {m m' : K → Option R} {w : K → Option (Option R)} {k : K}
    (h : w k = none → m k = m' k) : overlay m w k = overlay m' w k := by
  rw [overlay, overlay]
  cases hw : w k with
  | none => exact h hw
  | some r => rfl

variable [DecidableEq ι] [DecidableEq K]

omit [DecidableEq ι] in
theorem overlay_update (m : K → Option R) (w : K → Option (Option R)) (k : K) (r : Option R) :
    overlay m (Function.update w k (some r)) = Function.update (overlay m w) k r := by
  funext j
  rcases eq_or_ne j k with rfl | hj
  · simp [overlay]
  · simp [overlay, hj]

/-- An agent takes its next turn. -/
def perform (s : Shared ι P K R) (i : ι) : Next P K R → Option (Shared ι P K R)
  | .stop => none
  | .move p => some { s with phase := Function.update s.phase i p }
  | .read k f => some { s with
      phase := Function.update s.phase i (f (s.cells k))
      reads := Function.update s.reads i (Function.update (s.reads i) k true) }
  | .write k r p => some { s with
      cells := Function.update s.cells k r
      phase := Function.update s.phase i p
      writes := Function.update s.writes i (Function.update (s.writes i) k (some r)) }

/-- Nothing has been read or written. -/
def init (m : K → Option R) (start : ι → P) : Shared ι P K R :=
  ⟨m, start, fun _ _ => false, fun _ _ => none⟩

/-- What an agent does next leaves alone what another agent has done. -/
def Clear (s : Shared ι P K R) (j : ι) : Next P K R → Prop
  | .read k _ => s.writes j k = none
  | .write k _ _ => s.writes j k = none ∧ s.reads j k = false
  | _ => True

instance (s : Shared ι P K R) (j : ι) (n : Next P K R) : Decidable (Clear s j n) := by
  cases n <;> unfold Clear <;> infer_instance

/-- What an agent does next leaves alone what has been done in calls of others that are not over. -/
def Strict (outcome : P → Option O) (s : Shared ι P K R) (i : ι) (n : Next P K R) : Prop :=
  ∀ j, j ≠ i → outcome (s.phase j) = none → Clear s j n

/-! ### A call on its own -/

/-- An agent that runs on its own on the cells `m` comes to a phase, having read and written
these. -/
inductive Alone (next : P → Next P K R) (start : P) (m : K → Option R) :
    P → (K → Bool) → (K → Option (Option R)) → Prop
  | start : Alone next start m start (fun _ => false) fun _ => none
  | move {p p' rs ws} (h : Alone next start m p rs ws) (hn : next p = .move p') :
      Alone next start m p' rs ws
  | read {p k f rs ws} (h : Alone next start m p rs ws) (hn : next p = .read k f) :
      Alone next start m (f (overlay m ws k)) (Function.update rs k true) ws
  | write {p k r p' rs ws} (h : Alone next start m p rs ws) (hn : next p = .write k r p') :
      Alone next start m p' rs (Function.update ws k (some r))

/-- `I` is true after the next turn of an agent that runs on its own on the cells `m`. -/
def AfterNext (I : P → (K → Bool) → (K → Option (Option R)) → Prop) (m : K → Option R)
    (rs : K → Bool) (ws : K → Option (Option R)) : Next P K R → Prop
  | .stop => True
  | .move p => I p rs ws
  | .read k f => I (f (overlay m ws k)) (Function.update rs k true) ws
  | .write k r p => I p rs (Function.update ws k (some r))

section AfterNext

variable {I : P → (K → Bool) → (K → Option (Option R)) → Prop} {m : K → Option R} {rs : K → Bool}
  {ws : K → Option (Option R)} {p : P} {k : K}

omit [DecidableEq ι]

theorem afterNext_move : AfterNext I m rs ws (.move p) ↔ I p rs ws := Iff.rfl

theorem afterNext_read {f : Option R → P} :
    AfterNext I m rs ws (.read k f) ↔ I (f (overlay m ws k)) (Function.update rs k true) ws :=
  Iff.rfl

theorem afterNext_write {r : Option R} :
    AfterNext I m rs ws (.write k r p) ↔ I p rs (Function.update ws k (some r)) := Iff.rfl

end AfterNext

omit [DecidableEq ι] in
/-- **The invariant rule** of an agent that runs on its own. -/
theorem Alone.invariant {next : P → Next P K R} {start p : P} {m : K → Option R} {rs : K → Bool}
    {ws : K → Option (Option R)} {I : P → (K → Bool) → (K → Option (Option R)) → Prop}
    (h : Alone next start m p rs ws) (h₀ : I start (fun _ => false) fun _ => none)
    (hstep : ∀ p rs ws, I p rs ws → AfterNext I m rs ws (next p)) : I p rs ws := by
  induction h with
  | start => exact h₀
  | move _ hn ih =>
    have hafter := hstep _ _ _ ih
    rwa [hn] at hafter
  | read _ hn ih =>
    have hafter := hstep _ _ _ ih
    rwa [hn] at hafter
  | write _ hn ih =>
    have hafter := hstep _ _ _ ih
    rwa [hn] at hafter

omit [DecidableEq ι] in
/-- Cells that it has not read do not matter. -/
theorem Alone.congr {next : P → Next P K R} {start p : P} {m m' : K → Option R} {rs : K → Bool}
    {ws : K → Option (Option R)} (h : Alone next start m p rs ws)
    (hm : ∀ k, rs k = true → m k = m' k) : Alone next start m' p rs ws := by
  induction h with
  | start => exact .start
  | move _ hn ih => exact (ih hm).move hn
  | @read p k f rs ws _ hn ih =>
    have hsub : ∀ j, rs j = true → m j = m' j := by
      intro j hj
      refine hm j ?_
      rcases eq_or_ne j k with rfl | hjk
      · rw [Function.update_self]
      · rw [Function.update_of_ne hjk, hj]
    rw [overlay_congr fun _ => hm k (Function.update_self ..)]
    exact (ih hsub).read hn
  | write _ hn ih => exact (ih hm).write hn

/-! ### The invariant -/

variable {next : ι → P → Next P K R} {start : ι → P} {outcome : P → Option O}
  {call : ι → (K → Option R) → O × (K → Option R)} {m₀ m : K → Option R} {s s' : Shared ι P K R}
  {i : ι}

/-- The calls that are over have left the cells `m`; each of the others could have run on these. -/
structure Inv (next : ι → P → Next P K R) (start : ι → P) (outcome : P → Option O)
    (call : ι → (K → Option R) → O × (K → Option R)) (m₀ m : K → Option R)
    (s : Shared ι P K R) : Prop where
  serial : Serializable call m₀ (fun j => outcome (s.phase j)) m
  alone : ∀ j, outcome (s.phase j) = none →
    Alone (next j) (start j) m (s.phase j) (s.reads j) (s.writes j)
  apart : ∀ j j', j ≠ j' → outcome (s.phase j) = none → outcome (s.phase j') = none →
    ∀ k, s.writes j k ≠ none → s.writes j' k = none ∧ s.reads j' k = false
  own : ∀ j, outcome (s.phase j) = none → ∀ k, s.writes j k ≠ none →
    s.cells k = overlay m (s.writes j) k
  rest : ∀ k, (∀ j, outcome (s.phase j) = none → s.writes j k = none) → s.cells k = m k

omit [DecidableEq ι] in
theorem inv_init (h : ∀ i, outcome (start i) = none) :
    Inv next start outcome call m₀ m₀ (init m₀ start) where
  serial := Serializable.start h
  alone _ _ := .start
  apart _ _ _ _ _ _ hk := absurd rfl hk
  own _ _ _ hk := absurd rfl hk
  rest _ _ := rfl

/-- What a turn of agent `i` does, seen from its call. -/
structure Turn (next : ι → P → Next P K R) (start : ι → P) (outcome : P → Option O)
    (m : K → Option R) (s : Shared ι P K R) (i : ι) (p : P) (rs : K → Bool)
    (ws : K → Option (Option R)) (cells : K → Option R) : Prop where
  alone : Alone (next i) (start i) m p rs ws
  keeps : ∀ k, s.writes i k ≠ none → ws k ≠ none
  written : ∀ k, ws k ≠ none → cells k = overlay m ws k
  frame : ∀ k, ws k = none → cells k = s.cells k
  apart : ∀ j, j ≠ i → outcome (s.phase j) = none → ∀ k,
    (ws k ≠ none → s.writes j k = none ∧ s.reads j k = false) ∧
      (s.writes j k ≠ none → rs k = false)

/-- The state after a turn of agent `i`. -/
def Shared.after (s : Shared ι P K R) (i : ι) (p : P) (rs : K → Bool)
    (ws : K → Option (Option R)) (cells : K → Option R) : Shared ι P K R where
  cells := cells
  phase := Function.update s.phase i p
  reads := Function.update s.reads i rs
  writes := Function.update s.writes i ws

variable {p : P} {rs : K → Bool} {ws : K → Option (Option R)} {cells : K → Option R}

omit [DecidableEq ι] in
/-- What another call has written, the call in turn has not. -/
theorem Turn.unwritten (h : Turn next start outcome m s i p rs ws cells) {j : ι} (hji : j ≠ i)
    (hj : outcome (s.phase j) = none) {k : K} (hk : s.writes j k ≠ none) : ws k = none := by
  by_contra hws
  exact hk ((h.apart j hji hj k).1 hws).1

omit [DecidableEq ι] in
/-- A cell that no call has written after the turn is as the calls that are over left it. -/
theorem Inv.cells_of_unwritten (h : Inv next start outcome call m₀ m s)
    (hturn : Turn next start outcome m s i p rs ws cells) {k : K} (hws : ws k = none)
    (hk : ∀ j, j ≠ i → outcome (s.phase j) = none → s.writes j k = none) : cells k = m k := by
  rw [hturn.frame k hws]
  refine h.rest k fun j hj => ?_
  rcases eq_or_ne j i with rfl | hji
  · by_contra hold
    exact hturn.keeps k hold hws
  · exact hk j hji hj

omit [DecidableEq K] in
/-- The other agents, after the turn. -/
theorem Shared.after_of_ne {j : ι} (hji : j ≠ i) :
    (s.after i p rs ws cells).phase j = s.phase j ∧
      (s.after i p rs ws cells).reads j = s.reads j ∧
      (s.after i p rs ws cells).writes j = s.writes j := by
  simp [Shared.after, hji]

/-- A turn after which the call is not over. -/
theorem Inv.stay (h : Inv next start outcome call m₀ m s) (hi : outcome (s.phase i) = none)
    (hturn : Turn next start outcome m s i p rs ws cells) (hp : outcome p = none) :
    Inv next start outcome call m₀ m (s.after i p rs ws cells) where
  serial := h.serial.stay (hp.trans hi.symm)
  alone j hj := by
    rcases eq_or_ne j i with rfl | hji
    · simpa [Shared.after] using hturn.alone
    · obtain ⟨hph, hrs, hws⟩ := Shared.after_of_ne (s := s) hji
      rw [hph] at hj ⊢
      rw [hrs, hws]
      exact h.alone j hj
  apart j j' hne hj hj' k hk := by
    rcases eq_or_ne j i with rfl | hji
    · simp only [Shared.after, Function.update_self, Function.update_of_ne hne.symm] at hj' hk ⊢
      exact (hturn.apart j' hne.symm hj' k).1 hk
    · simp only [Shared.after, Function.update_of_ne hji] at hj hk
      rcases eq_or_ne j' i with rfl | hji'
      · simp only [Shared.after, Function.update_self]
        exact ⟨hturn.unwritten hji hj hk, (hturn.apart j hji hj k).2 hk⟩
      · simp only [Shared.after, Function.update_of_ne hji'] at hj' ⊢
        exact h.apart j j' hne hj hj' k hk
  own j hj k hk := by
    rcases eq_or_ne j i with rfl | hji
    · simp only [Shared.after, Function.update_self] at hk ⊢
      exact hturn.written k hk
    · simp only [Shared.after, Function.update_of_ne hji] at hj hk ⊢
      rw [hturn.frame k (hturn.unwritten hji hj hk)]
      exact h.own j hj k hk
  rest k hk := by
    refine h.cells_of_unwritten hturn ?_ fun j hji hj => ?_
    · have hws := hk i (by simpa [Shared.after] using hp)
      simpa [Shared.after] using hws
    · obtain ⟨hph, -, hws⟩ := Shared.after_of_ne (s := s) hji
      rw [← hws]
      exact hk j (by rw [hph, hj])

/-- The turn with which a call is over: what it has written is now there for all. -/
theorem Inv.retire (h : Inv next start outcome call m₀ m s) (hi : outcome (s.phase i) = none)
    (hturn : Turn next start outcome m s i p rs ws cells) {o : O} (hp : outcome p = some o)
    (hcall : call i m = (o, overlay m ws)) :
    Inv next start outcome call m₀ (overlay m ws) (s.after i p rs ws cells) := by
  -- the calls that are not over, after the turn
  have hother : ∀ j, outcome ((s.after i p rs ws cells).phase j) = none →
      j ≠ i ∧ outcome (s.phase j) = none := by
    intro j hj
    rcases eq_or_ne j i with rfl | hji
    · simp [Shared.after, hp] at hj
    · rw [(Shared.after_of_ne hji).1] at hj
      exact ⟨hji, hj⟩
  refine ⟨h.serial.take hi hcall hp, ?_, ?_, ?_, ?_⟩
  · intro j hj
    obtain ⟨hji, hj⟩ := hother j hj
    obtain ⟨hph, hrs, hws⟩ := Shared.after_of_ne (s := s) hji
    rw [hph, hrs, hws]
    refine (h.alone j hj).congr fun k hk => ?_
    have hunread : ws k = none := by
      by_contra hwk
      rw [((hturn.apart j hji hj k).1 hwk).2] at hk
      cases hk
    rw [overlay_of_none hunread]
  · intro j j' hne hj hj' k hk
    obtain ⟨hji, hj⟩ := hother j hj
    obtain ⟨hji', hj'⟩ := hother j' hj'
    obtain ⟨-, -, hws⟩ := Shared.after_of_ne (s := s) hji
    obtain ⟨-, hrs', hws'⟩ := Shared.after_of_ne (s := s) hji'
    rw [hws] at hk
    rw [hws', hrs']
    exact h.apart j j' hne hj hj' k hk
  · intro j hj k hk
    obtain ⟨hji, hj⟩ := hother j hj
    obtain ⟨-, -, hws⟩ := Shared.after_of_ne (s := s) hji
    rw [hws] at hk ⊢
    change cells k = _
    rw [hturn.frame k (hturn.unwritten hji hj hk), h.own j hj k hk]
    exact overlay_congr fun hold => absurd hold hk
  · intro k hk
    change cells k = _
    by_cases hws : ws k = none
    · rw [overlay_of_none hws]
      refine h.cells_of_unwritten hturn hws fun j hji hj => ?_
      obtain ⟨hph, -, hwj⟩ := Shared.after_of_ne (s := s) hji
      rw [← hwj]
      exact hk j (by rw [hph, hj])
    · exact hturn.written k hws

/-- Running on its own to its end, an agent executes its call. -/
def Executes (next : ι → P → Next P K R) (start : ι → P) (outcome : P → Option O)
    (call : ι → (K → Option R) → O × (K → Option R)) : Prop :=
  ∀ i m p rs ws o, Alone (next i) (start i) m p rs ws → outcome p = some o →
    call i m = (o, overlay m ws)

section OneTurn

variable {k : K} {p' : P} (h : Inv next start outcome call m₀ m s)
  (hi : outcome (s.phase i) = none)

include h hi

omit [DecidableEq ι]

/-- A turn that accesses no cell. -/
theorem Inv.turn_move (hn : next i (s.phase i) = .move p') :
    Turn next start outcome m s i p' (s.reads i) (s.writes i) s.cells where
  alone := (h.alone i hi).move hn
  keeps _ hk := hk
  written k hk := h.own i hi k hk
  frame _ _ := rfl
  apart j hji hj k := ⟨h.apart i j hji.symm hi hj k, fun hk => (h.apart j i hji hj hi k hk).2⟩

/-- A cell that no other call has written is as it is for the call on its own. -/
theorem Inv.cells_eq_overlay (hk : ∀ j, j ≠ i → outcome (s.phase j) = none → s.writes j k = none) :
    s.cells k = overlay m (s.writes i) k := by
  cases hw : s.writes i k with
  | some r => exact h.own i hi k (by simp [hw])
  | none =>
    rw [overlay_of_none hw]
    refine h.rest k fun j hj => ?_
    rcases eq_or_ne j i with rfl | hji
    · exact hw
    · exact hk j hji hj

/-- A strict turn that reads. -/
theorem Inv.turn_read {f : Option R → P} (hn : next i (s.phase i) = .read k f)
    (hstrict : Strict outcome s i (.read k f)) :
    Turn next start outcome m s i (f (s.cells k)) (Function.update (s.reads i) k true)
      (s.writes i) s.cells where
  alone := by
    rw [h.cells_eq_overlay hi hstrict]
    exact (h.alone i hi).read hn
  keeps _ hk := hk
  written k hk := h.own i hi k hk
  frame _ _ := rfl
  apart j hji hj k' := by
    refine ⟨h.apart i j hji.symm hi hj k', fun hk' => ?_⟩
    rcases eq_or_ne k' k with rfl | hkk
    · exact absurd (hstrict j hji hj) hk'
    · rw [Function.update_of_ne hkk]
      exact (h.apart j i hji hj hi k' hk').2

/-- A strict turn that writes. -/
theorem Inv.turn_write {r : Option R} (hn : next i (s.phase i) = .write k r p')
    (hstrict : Strict outcome s i (.write k r p')) :
    Turn next start outcome m s i p' (s.reads i) (Function.update (s.writes i) k (some r))
      (Function.update s.cells k r) where
  alone := (h.alone i hi).write hn
  keeps k' hk' := by
    rcases eq_or_ne k' k with rfl | hkk
    · simp
    · rwa [Function.update_of_ne hkk]
  written k' hk' := by
    rw [overlay_update]
    rcases eq_or_ne k' k with rfl | hkk
    · simp
    · rw [Function.update_of_ne hkk] at hk' ⊢
      rw [Function.update_of_ne hkk]
      exact h.own i hi k' hk'
  frame k' hk' := by
    rcases eq_or_ne k' k with rfl | hkk
    · simp at hk'
    · exact Function.update_of_ne hkk _ _
  apart j hji hj k' := by
    refine ⟨fun hk' => ?_, fun hk' => (h.apart j i hji hj hi k' hk').2⟩
    rcases eq_or_ne k' k with rfl | hkk
    · exact hstrict j hji hj
    · rw [Function.update_of_ne hkk] at hk'
      exact h.apart i j hji.symm hi hj k' hk'

end OneTurn

/-- **A strict turn keeps the invariant.** -/
theorem Inv.turn (h : Inv next start outcome call m₀ m s)
    (hexec : Executes next start outcome call) (hi : outcome (s.phase i) = none)
    (hstrict : Strict outcome s i (next i (s.phase i)))
    (hs : perform s i (next i (s.phase i)) = some s') :
    ∃ m', Inv next start outcome call m₀ m' s' := by
  have hmain : ∀ p rs ws cells, s' = s.after i p rs ws cells →
      Turn next start outcome m s i p rs ws cells → ∃ m', Inv next start outcome call m₀ m' s' := by
    rintro p rs ws cells rfl hturn
    cases hp : outcome p with
    | none => exact ⟨m, h.stay hi hturn hp⟩
    | some o => exact ⟨_, h.retire hi hturn hp (hexec i m p rs ws o hturn.alone hp)⟩
  cases hn : next i (s.phase i) with
  | stop =>
    rw [hn] at hs
    cases hs
  | move p =>
    rw [hn] at hs
    cases hs
    exact hmain p _ _ _ (by simp [Shared.after]) (h.turn_move hi hn)
  | read k f =>
    rw [hn] at hs hstrict
    cases hs
    exact hmain _ _ _ _ (by simp [Shared.after]) (h.turn_read hi hn hstrict)
  | write k r p =>
    rw [hn] at hs hstrict
    cases hs
    exact hmain p _ _ _ (by simp [Shared.after]) (h.turn_write hi hn hstrict)

omit [DecidableEq ι] in
/-- **The calls that are over are serializable** when no other call has written. -/
theorem Inv.serializable (h : Inv next start outcome call m₀ m s)
    (hquiet : ∀ j, outcome (s.phase j) = none → ∀ k, s.writes j k = none) :
    Serializable call m₀ (fun j => outcome (s.phase j)) s.cells := by
  have hcells : s.cells = m := funext fun k => h.rest k fun j hj => hquiet j hj k
  rw [hcells]
  exact h.serial

end StrictAccess
