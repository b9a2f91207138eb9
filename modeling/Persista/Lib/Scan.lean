import Persista.Lib.Interleaving
import Mathlib.Data.List.Nodup

/-!
# Scanning a listing

A scan lists the elements of a store once, and then takes them one by one: it checks whether the
element is still there, and at a later turn it visits it. Anybody may change the store between any
two of its turns, so an element that was there when it was checked may be gone when it is visited,
and then the visit may fail.

## Main definitions

* `Scanner` — a store as a scan sees it, and `Scanner.Right` when it can be trusted
* `Progress`, `step` — a scan and a store that changes under it
* `Law` — what is promised of every run

## Main results

* `Inv.step` — what one turn preserves
* `law` — the promises are kept by a scanner that can be trusted
-/

namespace Scan

open Interleaving

variable {σ Op P Y : Type}

/-- A store as a scan sees it. -/
structure Scanner (σ P Y : Type) where
  /-- The elements, in an order of the store's own. -/
  list : σ → List P
  /-- The element is there. -/
  present : σ → P → Bool
  /-- What is done to an element; `none` when it fails. -/
  visit : σ → P → Option (σ × Y)

/-- Elements of its own are listed, once each, and those that are there among them; to visit an
element that is there succeeds. -/
structure Scanner.Right (scanner : Scanner σ P Y) (Own : P → Prop) (Good : σ → Prop) : Prop where
  nodup : ∀ s, Good s → (scanner.list s).Nodup
  own : ∀ s, Good s → ∀ p ∈ scanner.list s, Own p
  mem_list : ∀ s p, Good s → Own p → scanner.present s p → p ∈ scanner.list s
  visits : ∀ s p, Good s → scanner.present s p → (scanner.visit s p).isSome
  good : ∀ s p s' y, Good s → Own p → scanner.visit s p = some (s', y) → Good s'

/-- Where a scan stands. -/
inductive Stage (P : Type)
  | created
  | checking (todo : List P)
  | visiting (p : P) (todo : List P)
  | failed

/-- The elements that are still to be visited. -/
def Stage.ahead : Stage P → List P
  | .checking todo => todo
  | .visiting p todo => p :: todo
  | .created | .failed => []

/-- What happens next: the scan takes a turn, or somebody calls an operation. -/
inductive Turn (Op : Type)
  | next
  | op (op : Op)

/-- A scan on its way. -/
structure Progress (σ P Y : Type) where
  store : σ
  stage : Stage P
  /-- The elements that were visited, with what came of it. -/
  visited : List (P × Y)

/-- A scan that has not begun. -/
def start (s : σ) : Progress σ P Y := ⟨s, .created, []⟩

/-- All elements were taken. -/
def Progress.Done (it : Progress σ P Y) : Prop := it.stage = .checking []

/-- One turn. A scan that is over stays as it is. -/
def step (exec : σ → Op → Option σ) (scanner : Scanner σ P Y) (it : Progress σ P Y) :
    Turn Op → Option (Progress σ P Y)
  | .op op => (exec it.store op).map fun store => { it with store }
  | .next =>
    match it.stage with
    | .created => some { it with stage := .checking (scanner.list it.store) }
    | .checking [] | .failed => some it
    | .checking (p :: todo) =>
      if scanner.present it.store p then some { it with stage := .visiting p todo }
      else some { it with stage := .checking todo }
    | .visiting p todo =>
      match scanner.visit it.store p with
      | none => some { it with stage := .failed }
      | some (store, y) => some ⟨store, .checking todo, it.visited ++ [(p, y)]⟩

/-! ### The promises -/

section Law

variable (exec : σ → Op → Option σ) (scanner : Scanner σ P Y)

/-- The element is there until it is visited. -/
def Awaits (p : P) (it : Progress σ P Y) (_ : Turn Op) : Prop :=
  p ∉ it.visited.map Prod.fst → scanner.present it.store p

/-- An operation does not take away an element that is about to be visited. -/
def Undisturbed (it : Progress σ P Y) : Turn Op → Prop
  | .next => True
  | .op op => ∀ p todo store, it.stage = .visiting p todo → exec it.store op = some store →
      scanner.present it.store p → scanner.present store p

/-- What is promised of every scan that starts on `s₀`. -/
structure Law (Own : P → Prop) (s₀ : σ) : Prop where
  /-- Only elements of its own are visited. -/
  own : ∀ it, Reaches (step exec scanner) anyTurn (start s₀) it →
    ∀ p ∈ it.visited.map Prod.fst, Own p
  /-- No element is visited twice. -/
  distinct : ∀ it, Reaches (step exec scanner) anyTurn (start s₀) it →
    (it.visited.map Prod.fst).Nodup
  /-- A turn visits the store as it is then. -/
  current : ∀ it it', step exec scanner it .next = some it' →
    it'.visited = it.visited ∧ it'.store = it.store ∨
      ∃ p y, it'.visited = it.visited ++ [(p, y)] ∧
        scanner.visit it.store p = some (it'.store, y)
  /-- An element of its own that is there until it is visited is visited. -/
  complete : ∀ it it' p, Own p → Reaches (step exec scanner) anyTurn (start s₀) it →
    it.stage = .created → Reaches (step exec scanner) (Awaits scanner p) it it' → it'.Done →
    p ∈ it'.visited.map Prod.fst
  /-- A scan fails only when an element is taken away between its check and its visit. -/
  unfailing : ∀ it it', Reaches (step exec scanner) anyTurn (start s₀) it →
    it.stage = .created → Reaches (step exec scanner) (Undisturbed exec scanner) it it' →
    it'.stage ≠ .failed
  /-- A scan that takes enough turns is over. -/
  ends : ∀ it, ∃ n it', play (step exec scanner) it (List.replicate n .next) = some it' ∧
    (it'.Done ∨ it'.stage = .failed)

end Law

/-! ### One turn -/

variable {exec : σ → Op → Option σ} {scanner : Scanner σ P Y} {Own : P → Prop} {Good : σ → Prop}
  {it it' : Progress σ P Y} {turn : Turn Op} {p : P}

variable (exec scanner) in
/-- What one turn does. -/
inductive Does (it : Progress σ P Y) : Turn Op → Progress σ P Y → Prop
  | op {op store} (hexec : exec it.store op = some store) : Does it (.op op) { it with store }
  | lists (hstage : it.stage = .created) :
      Does it .next { it with stage := .checking (scanner.list it.store) }
  | rests (hover : it.Done ∨ it.stage = .failed) : Does it .next it
  | finds {p todo} (hstage : it.stage = .checking (p :: todo))
      (hpresent : scanner.present it.store p) : Does it .next { it with stage := .visiting p todo }
  | skips {p todo} (hstage : it.stage = .checking (p :: todo))
      (habsent : ¬ scanner.present it.store p) : Does it .next { it with stage := .checking todo }
  | fails {p todo} (hstage : it.stage = .visiting p todo)
      (hvisit : scanner.visit it.store p = none) : Does it .next { it with stage := .failed }
  | visits {p todo store y} (hstage : it.stage = .visiting p todo)
      (hvisit : scanner.visit it.store p = some (store, y)) :
      Does it .next ⟨store, .checking todo, it.visited ++ [(p, y)]⟩

theorem does_of_step (h : step exec scanner it turn = some it') :
    Does exec scanner it turn it' := by
  cases turn with
  | op op =>
    obtain ⟨store, hexec, rfl⟩ := Option.map_eq_some_iff.mp h
    exact .op hexec
  | next =>
    rw [step] at h
    split at h
    · next hstage => exact Option.some.inj h ▸ .lists hstage
    · next hstage => exact Option.some.inj h ▸ .rests (.inl hstage)
    · next hstage => exact Option.some.inj h ▸ .rests (.inr hstage)
    · next hstage =>
      split at h
      · next hpresent => exact Option.some.inj h ▸ .finds hstage hpresent
      · next habsent => exact Option.some.inj h ▸ .skips hstage habsent
    · next hstage =>
      split at h
      · next hvisit => exact Option.some.inj h ▸ .fails hstage hvisit
      · next hvisit => exact Option.some.inj h ▸ .visits hstage hvisit

/-! ### What holds all along -/

/-- The store is good, and the elements that were visited and those ahead are apart. -/
structure Inv (Own : P → Prop) (Good : σ → Prop) (it : Progress σ P Y) : Prop where
  good : Good it.store
  own : ∀ p ∈ it.visited.map Prod.fst ++ it.stage.ahead, Own p
  fresh : it.stage = .created → it.visited = []
  apart : (it.visited.map Prod.fst ++ it.stage.ahead).Nodup

theorem inv_start {s : σ} (h : Good s) : Inv Own Good (start s : Progress σ P Y) :=
  ⟨h, fun _ hp => absurd hp List.not_mem_nil, fun _ => rfl, List.nodup_nil⟩

/-- Fewer elements are ahead. -/
theorem Inv.drop (h : Inv Own Good it) {stage : Stage P} (hne : stage ≠ .created)
    (hsub : stage.ahead.Sublist it.stage.ahead) : Inv Own Good { it with stage } where
  good := h.good
  own p hp := h.own p ((List.Sublist.append (List.Sublist.refl _) hsub).subset hp)
  fresh hc := absurd hc hne
  apart := h.apart.sublist (List.Sublist.append (List.Sublist.refl _) hsub)

theorem Inv.step (hexec : ∀ s op s', Good s → exec s op = some s' → Good s')
    (hright : scanner.Right Own Good) (h : Inv Own Good it)
    (hs : Scan.step exec scanner it turn = some it') : Inv Own Good it' := by
  cases does_of_step hs with
  | @op op store hstore => exact ⟨hexec _ op _ h.good hstore, h.own, h.fresh, h.apart⟩
  | lists hstage =>
    refine ⟨h.good, ?_, nofun, ?_⟩
    · rw [h.fresh hstage]
      exact hright.own _ h.good
    · rw [h.fresh hstage]
      exact hright.nodup _ h.good
  | rests _ => exact h
  | finds hstage _ => exact h.drop nofun (hstage ▸ List.Sublist.refl _)
  | skips hstage _ => exact h.drop nofun (hstage ▸ List.sublist_cons_self _ _)
  | fails _ _ => exact h.drop nofun (List.nil_sublist _)
  | @visits p todo store y hstage hvisit =>
    have hown := h.own
    have hapart := h.apart
    rw [hstage] at hown hapart
    have hp : Own p := hown p (List.mem_append_right _ List.mem_cons_self)
    have hsame : (it.visited ++ [(p, y)]).map Prod.fst ++ todo =
        it.visited.map Prod.fst ++ p :: todo := by
      rw [List.map_append, List.append_assoc]
      rfl
    refine ⟨hright.good _ _ _ _ h.good hp hvisit, ?_, nofun, ?_⟩
    · exact hsame ▸ hown
    · exact hsame ▸ hapart

/-- An element that is there until it is visited is on the list, unless the scan has failed. -/
def Pending (p : P) (it : Progress σ P Y) : Prop :=
  it.stage = .created ∨ it.stage = .failed ∨ p ∈ it.visited.map Prod.fst ++ it.stage.ahead

theorem Pending.step (hright : scanner.Right Own Good) (hinv : Inv Own Good it) (hp : Own p)
    (h : Pending p it)
    (hG : Awaits scanner p it turn) (hs : Scan.step exec scanner it turn = some it') :
    Pending p it' := by
  have hmem {stage : Stage P} (hstage : it.stage = stage) (hne : stage ≠ .created)
      (hok : stage ≠ .failed) : p ∈ it.visited.map Prod.fst ++ stage.ahead := by
    subst hstage
    exact (h.resolve_left hne).resolve_left hok
  cases does_of_step hs with
  | op _ => exact h
  | lists hstage =>
    have hpresent := hG (by rw [hinv.fresh hstage]; exact List.not_mem_nil)
    exact .inr (.inr (List.mem_append_right _ (hright.mem_list _ p hinv.good hp hpresent)))
  | rests _ => exact h
  | finds hstage _ =>
    have hlisted := hmem hstage nofun nofun
    exact .inr (.inr hlisted)
  | skips hstage habsent =>
    refine .inr (.inr ?_)
    rcases List.mem_append.mp (hmem hstage nofun nofun) with hvisited | hahead
    · exact List.mem_append_left _ hvisited
    · rcases List.mem_cons.mp hahead with rfl | htodo
      · by_contra hnone
        exact habsent (hG fun hvisited => hnone (List.mem_append_left _ hvisited))
      · exact List.mem_append_right _ htodo
  | fails _ _ => exact .inr (.inl rfl)
  | @visits q todo store y hstage hvisit =>
    refine .inr (.inr ?_)
    rw [List.map_append, List.append_assoc]
    exact hmem hstage nofun nofun

/-- What a scan is about to visit is there. -/
def Sure (scanner : Scanner σ P Y) (it : Progress σ P Y) : Prop :=
  it.stage ≠ .failed ∧ ∀ p todo, it.stage = .visiting p todo → scanner.present it.store p

theorem Sure.step (hright : scanner.Right Own Good) (hgood : Good it.store) (h : Sure scanner it)
    (hG : Undisturbed exec scanner it turn) (hs : Scan.step exec scanner it turn = some it') :
    Sure scanner it' := by
  cases does_of_step hs with
  | op hstore => exact ⟨h.1, fun p todo hstage => hG p todo _ hstage hstore (h.2 p todo hstage)⟩
  | lists _ => exact ⟨nofun, nofun⟩
  | rests _ => exact h
  | finds _ hpresent =>
    refine ⟨nofun, fun p todo hstage => ?_⟩
    obtain ⟨rfl, rfl⟩ := Stage.visiting.inj hstage
    exact hpresent
  | skips _ _ => exact ⟨nofun, nofun⟩
  | @fails p todo hstage hvisit =>
    have hsome := hright.visits _ p hgood (h.2 p todo hstage)
    rw [hvisit] at hsome
    cases hsome
  | visits _ _ => exact ⟨nofun, nofun⟩

/-! ### The end -/

variable (exec scanner) in
/-- The scan is over after some turns of its own. -/
def Ends (it : Progress σ P Y) : Prop :=
  ∃ n it', play (step exec scanner) it (List.replicate n .next) = some it' ∧
    (it'.Done ∨ it'.stage = .failed)

theorem ends_of_over (h : it.Done ∨ it.stage = .failed) : Ends exec scanner it :=
  ⟨0, it, rfl, h⟩

theorem Ends.cons (hs : step exec scanner it .next = some it') (h : Ends exec scanner it') :
    Ends exec scanner it := by
  obtain ⟨n, it'', hplay, hover⟩ := h
  refine ⟨n + 1, it'', ?_, hover⟩
  rw [List.replicate_succ, play, List.foldlM_cons, hs]
  exact hplay

theorem ends_visiting {todo : List P} (hstage : it.stage = .visiting p todo)
    (h : ∀ it' : Progress σ P Y, it'.stage = .checking todo → Ends exec scanner it') :
    Ends exec scanner it := by
  cases hvisit : scanner.visit it.store p with
  | none =>
    have hfails : step exec scanner it .next = some { it with stage := .failed } := by
      simp only [step, hstage, hvisit]
    exact Ends.cons hfails (ends_of_over (.inr rfl))
  | some r =>
    have hvisits : step exec scanner it .next =
        some ⟨r.1, .checking todo, it.visited ++ [(p, r.2)]⟩ := by
      simp only [step, hstage, hvisit]
    exact Ends.cons hvisits (h _ rfl)

theorem ends_checking (todo : List P) (it : Progress σ P Y) (hstage : it.stage = .checking todo) :
    Ends exec scanner it := by
  induction todo generalizing it with
  | nil => exact ends_of_over (.inl hstage)
  | cons p todo ih =>
    by_cases hpresent : scanner.present it.store p
    · have hfinds : step exec scanner it .next = some { it with stage := .visiting p todo } := by
        rw [step, hstage]
        exact if_pos hpresent
      exact Ends.cons hfinds (ends_visiting rfl ih)
    · have hskips : step exec scanner it .next = some { it with stage := .checking todo } := by
        rw [step, hstage]
        exact if_neg hpresent
      exact Ends.cons hskips (ih _ rfl)

theorem ends (it : Progress σ P Y) : Ends exec scanner it := by
  cases hstage : it.stage with
  | created =>
    have hlists : step exec scanner it .next =
        some { it with stage := .checking (scanner.list it.store) } := by
      rw [step, hstage]
    exact Ends.cons hlists (ends_checking _ _ rfl)
  | checking todo => exact ends_checking todo it hstage
  | visiting p todo => exact ends_visiting hstage (ends_checking todo)
  | failed => exact ends_of_over (.inr hstage)

/-- What a turn of the scan visits. -/
theorem visit_of_next (h : step exec scanner it .next = some it') :
    it'.visited = it.visited ∧ it'.store = it.store ∨
      ∃ p y, it'.visited = it.visited ++ [(p, y)] ∧
        scanner.visit it.store p = some (it'.store, y) := by
  cases does_of_step h with
  | lists _ | rests _ | finds _ _ | skips _ _ | fails _ _ => exact .inl ⟨rfl, rfl⟩
  | visits _ hvisit => exact .inr ⟨_, _, rfl, hvisit⟩

/-- **Scanning a listing.** The promises are kept when every operation leaves a store that can be
trusted. -/
theorem law (hexec : ∀ s op s', Good s → exec s op = some s' → Good s')
    (hright : scanner.Right Own Good) {s₀ : σ} (h₀ : Good s₀) : Law exec scanner Own s₀ := by
  have hinv (it : Progress σ P Y) (hr : Reaches (step exec scanner) anyTurn (start s₀) it) :
      Inv Own Good it :=
    hr.invariant (inv_start h₀) fun _ _ _ hi _ hs => hi.step hexec hright hs
  refine ⟨fun it hr p hp => (hinv it hr).own p (List.mem_append_left _ hp),
    fun it hr => (List.nodup_append.mp (hinv it hr).apart).1, fun _ _ => visit_of_next,
    fun it it' p hp hr hc hawaits hdone => ?_, fun it it' hr hc hsafe => ?_, ends⟩
  · have hpending : Inv Own Good it' ∧ Pending p it' :=
      hawaits.invariant (P := fun it => Inv Own Good it ∧ Pending p it) ⟨hinv it hr, .inl hc⟩
        fun _ _ _ hi hG hs => ⟨hi.1.step hexec hright hs, hi.2.step hright hi.1 hp hG hs⟩
    have hmem : p ∈ it'.visited.map Prod.fst ++ it'.stage.ahead := by
      rcases hpending.2 with hcreated | hfailed | hmem
      · cases hcreated.symm.trans hdone
      · cases hfailed.symm.trans hdone
      · exact hmem
    rwa [show it'.stage = .checking [] from hdone, Stage.ahead, List.append_nil] at hmem
  · have hsure : Sure scanner it := by
      rw [Sure, hc]
      exact ⟨nofun, nofun⟩
    have hend : Inv Own Good it' ∧ Sure scanner it' :=
      hsafe.invariant (P := fun it => Inv Own Good it ∧ Sure scanner it) ⟨hinv it hr, hsure⟩
        fun _ _ _ hi hG hs => ⟨hi.1.step hexec hright hs, hi.2.step hright hi.1.good hG hs⟩
    exact hend.2.1

end Scan
