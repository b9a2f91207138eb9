import Persista.Store.PostgresSessions
import Mathlib.Data.String.Basic

/-!
# When `PostgresStore.set_many` is serializable

The advisory locks serialize the `raise`, `skip` and `merge` calls on a common key with each other,
but an `overwrite` does not take them. `sessions_not_serializable` is a run in which an `overwrite`
runs between the reads and the commit of a `merge`, which then writes the fields of the old value
back: no order of the two calls explains the contents.

Runs in which an `overwrite` does not overlap with another call on a common key (`NoOverlap`) are
serializable, whatever the strategies, the keys and the collisions of the hash.

## Main results

* `Postgres.Inv.step` — a turn that satisfies `NoOverlap` keeps the invariant
* `Postgres.sessions_serializable` — the runs without overlap are serializable
* `Postgres.sessions_not_serializable` — a run with overlap that is not
-/

namespace Persista

namespace Postgres

open Interleaving Contents

variable {ι K V R H : Type} [LinearOrder K] {layout : Layout V R} {hash : K → H}
  {calls : ι → Call K V} {table₀ : Contents K R} {s s' : World ι K V R H} {i : ι}
  {p : Phase K V R} {k : K}

/-! ### Calls on a common key -/

omit [LinearOrder K] in
theorem SharesKey.symm {c c' : Call K V} (h : SharesKey c c') : SharesKey c' c := by
  obtain ⟨k, hk, hk'⟩ := h
  exact ⟨k, hk', hk⟩

omit [LinearOrder K] in
/-- A call that no `overwrite` overlaps reads settled rows. -/
theorem settled_of_apart (hov : (s.session i).overwriting = false)
    (h : ∀ j, j ≠ i → (s.session j).overwriting → ¬ SharesKey (calls i) (calls j))
    (hk : k ∈ (calls i).items.keys) : Settled calls s k := by
  intro j hj hkj
  have hji : j ≠ i := by
    rintro rfl
    simp [hov] at hj
  exact h j hji hj ⟨k, hk, hkj⟩

omit [LinearOrder K] in
theorem Phase.inside_of_overwriting {p : Phase K V R} (h : p.overwriting) : p.inside := by
  cases p <;> first | rfl | cases h

/-! ### The obligations of a turn -/

variable [ShallowMerge V]

theorem inv_init : Inv (H := H) layout hash calls table₀ (init table₀) where
  session _ := trivial
  apart _ _ _ hi := by simp [init, Phase.inside] at hi
  serial := ⟨table₀, Serializable.start fun _ => rfl, fun _ _ => rfl⟩

/-- The invariant of a session is about the rows of its keys and the locks it holds. -/
theorem SessionInv.congr {c : Call K V} {table table' : Contents K R}
    {advisory advisory' : H → Option ι} (h : SessionInv layout hash c table advisory i p)
    (ht : p.inside → ∀ k ∈ c.items.keys, table' k = table k)
    (ha : ∀ x, advisory x = some i → advisory' x = some i) :
    SessionInv layout hash c table' advisory' i p := by
  cases p with
  | start => trivial
  | locking todo => exact ⟨h.1, fun k hk => (h.2 k hk).imp id (ha _)⟩
  | resolving conflicts todo toWrite =>
    exact ⟨h.1, fun k hk => ha _ (h.2.1 k hk), h.2.2.congr (ht rfl)⟩
  | writing todo pending =>
    obtain ⟨conflicts, toWrite, hres, hrows⟩ := h.2.2
    exact ⟨h.1, fun k hk => ha _ (h.2.1 k hk), conflicts, toWrite, hres.congr (ht rfl), hrows⟩
  | upserting todo =>
    refine ⟨h.1, h.2.1, fun row hrow => (h.2.2 row hrow).imp id fun hw => ?_⟩
    rw [ht rfl _ (fst_mem_keys_of_mem_rows hrow), hw]
  | done o => trivial

variable [DecidableEq ι]

omit [ShallowMerge V] [LinearOrder K] in
theorem release_of_ne {L : Type} {locks : L → Option ι} {l : L} {j : ι} (hji : j ≠ i)
    (h : locks l = some j) : release locks i l = some j := by
  simp [release, h, hji]

/-- The obligations of a turn of session `i` to phase `p`. -/
theorem Inv.turn (h : Inv layout hash calls table₀ s)
    (hsession : s'.session = Function.update s.session i p)
    (htable : ∀ j, j ≠ i → (s.session j).inside →
      ∀ k ∈ (calls j).items.keys, s'.table k = s.table k)
    (hadvisory : ∀ j, j ≠ i → ∀ x, s.advisory x = some j → s'.advisory x = some j)
    (hp : SessionInv layout hash (calls i) s'.table s'.advisory i p)
    (hapart : p.inside → ∀ j, j ≠ i → (s.session j).inside → ¬ SharesKey (calls i) (calls j))
    (hserial : ∃ m, Serializable (fun i => (calls i).atomic layout) table₀
      (fun i => (s'.session i).outcome) m ∧ ∀ k, Settled calls s' k → s'.table k = m k) :
    Inv layout hash calls table₀ s' where
  session j := by
    rw [hsession]
    by_cases hj : j = i
    · subst hj
      simpa using hp
    · rw [Function.update_of_ne hj]
      exact (h.session j).congr (htable j hj) (hadvisory j hj)
  apart := by
    rw [hsession]
    exact pairwise_update (fun _ _ hR hs => hR hs.symm) h.apart hapart
  serial := hserial

omit [LinearOrder K] [ShallowMerge V] in
theorem Settled.of_update (h : Settled calls s' k)
    (hsession : s'.session = Function.update s.session i p)
    (hi : (s.session i).overwriting → k ∉ (calls i).items.keys) : Settled calls s k := by
  rw [Settled, hsession] at h
  exact forall_of_update h hi

/-- A turn that neither writes a row nor ends a call. -/
theorem Inv.move (h : Inv layout hash calls table₀ s)
    (hsession : s'.session = Function.update s.session i p) (htable : s'.table = s.table)
    (hadvisory : ∀ j, j ≠ i → ∀ x, s.advisory x = some j → s'.advisory x = some j)
    (hi : (s.session i).outcome = none) (hp : p.outcome = none)
    (hov : (s.session i).overwriting = false)
    (hinv : SessionInv layout hash (calls i) s'.table s'.advisory i p)
    (hapart : p.inside → ∀ j, j ≠ i → (s.session j).inside → ¬ SharesKey (calls i) (calls j)) :
    Inv layout hash calls table₀ s' := by
  refine h.turn hsession (fun _ _ _ _ _ => by rw [htable]) hadvisory hinv hapart ?_
  obtain ⟨m, hser, hm⟩ := h.serial
  refine ⟨m, ?_, fun k hk => ?_⟩
  · rw [hsession]
    exact hser.stay (hp.trans hi.symm)
  · rw [htable]
    exact hm k (hk.of_update hsession (by simp [hov]))

/-- A turn that ends a call: the contents the serial order explains go from `m` to `m'`. -/
theorem Inv.ends (h : Inv layout hash calls table₀ s) {o : Except (StoreError K) Unit}
    (hsession : s'.session = Function.update s.session i (.done o))
    (hi : (s.session i).outcome = none)
    (hcall : ∀ m, (∀ k, Settled calls s k → s.table k = m k) → ∃ m',
      (calls i).atomic layout m = (o, m') ∧ ∀ k, Settled calls s' k → s'.table k = m' k) :
    ∃ m, Serializable (fun i => (calls i).atomic layout) table₀
      (fun i => (s'.session i).outcome) m ∧ ∀ k, Settled calls s' k → s'.table k = m k := by
  obtain ⟨m, hser, hm⟩ := h.serial
  obtain ⟨m', hatomic, hm'⟩ := hcall m hm
  refine ⟨m', ?_, hm'⟩
  rw [hsession]
  exact hser.take hi hatomic rfl

/-! ### Every turn keeps the invariant -/

/-- One upsert of an `overwrite`. -/
theorem Inv.upsert (h : Inv layout hash calls table₀ s) {todo : List (K × R)}
    (hi : (s.session i).outcome = none) (ho : (calls i).onConflict = .overwrite)
    (htodo : ∀ row ∈ todo, row ∈ rows layout (calls i).items)
    (hdone : ∀ row ∈ rows layout (calls i).items, row ∈ todo ∨ s.table row.1 = some row.2)
    (hapart : ∀ j, j ≠ i → (s.session j).inside → ¬ SharesKey (calls i) (calls j))
    (hs : s.upsert i todo = some s') : Inv layout hash calls table₀ s' := by
  cases todo with
  | nil => cases hs
  | cons row todo =>
    have hrow : row ∈ rows layout (calls i).items := htodo row List.mem_cons_self
    have hkey : row.1 ∈ (calls i).items.keys := fst_mem_keys_of_mem_rows hrow
    have hframe : ∀ k, k ∉ (calls i).items.keys →
        Function.update s.table row.1 (some row.2) k = s.table k := fun k hk =>
      Function.update_of_ne (fun he : k = row.1 => hk (he ▸ hkey)) _ _
    have hothers : ∀ j, j ≠ i → (s.session j).inside → ∀ k ∈ (calls j).items.keys,
        Function.update s.table row.1 (some row.2) k = s.table k := fun j hj hin k hk =>
      hframe k fun hki => hapart j hj hin ⟨k, hki, hk⟩
    -- the rows upserted so far, this one included
    have hdone' : ∀ row' ∈ rows layout (calls i).items,
        row' ∈ todo ∨ Function.update s.table row.1 (some row.2) row'.1 = some row'.2 := by
      intro row' hrow'
      by_cases hk : row'.1 = row.1
      · right
        rw [hk, Function.update_self, snd_eq_of_mem_rows hrow' hrow hk]
      · rw [Function.update_of_ne hk]
        rcases hdone row' hrow' with hmem | hw
        · rcases List.mem_cons.mp hmem with rfl | hmem
          · exact absurd rfl hk
          · exact .inl hmem
        · exact .inr hw
    simp only [World.upsert] at hs
    split_ifs at hs with _ ht <;> cases hs
    · -- the last row: the call takes effect
      subst ht
      refine h.turn rfl hothers (fun j _ x hx => hx) trivial (fun _ => hapart) ?_
      refine h.ends rfl hi fun m hm => ?_
      refine ⟨m.writeRows layout (calls i).items, ?_, fun k hk => ?_⟩
      · rw [Call.atomic, ho]
        exact Contents.atomicSetMany_overwrite
      · by_cases hki : k ∈ (calls i).items.keys
        · refine writeRows_eq_of_rows hki fun r hr => ?_
          exact (hdone' r hr).resolve_left (by simp)
        · rw [Contents.writeRows_of_not_mem hki]
          exact (hframe k hki).trans (hm k (hk.of_update rfl fun _ => hki))
    · refine h.turn rfl hothers (fun j _ x hx => hx)
        ⟨ho, fun r hr => htodo r (List.mem_cons_of_mem _ hr), hdone'⟩ (fun _ => hapart) ?_
      obtain ⟨m, hser, hm⟩ := h.serial
      refine ⟨m, hser.stay hi.symm, fun k hk => ?_⟩
      have hki : k ∉ (calls i).items.keys := hk i (by simp [Phase.overwriting])
      exact (hframe k hki).trans (hm k (hk.of_update rfl fun _ => hki))

omit [DecidableEq ι] in
/-- The existence query: the advisory locks keep the other calls away, `NoOverlap` the
`overwrite`s. -/
theorem Inv.apart_of_locks (h : Inv layout hash calls table₀ s)
    (hp : s.session i = .locking [])
    (hov : ∀ j, j ≠ i → (s.session j).overwriting → ¬ SharesKey (calls i) (calls j)) :
    ∀ j, j ≠ i → (s.session j).inside → ¬ SharesKey (calls i) (calls j) := by
  intro j hj hin ⟨k, hk, hkj⟩
  have hi := h.session i
  rw [hp] at hi
  have hlock : s.advisory (hash k) = some i := (hi.2 k hk).resolve_left (by simp)
  have hother : s.advisory (hash k) = some j → False := by
    rw [hlock, Option.some.injEq]
    exact fun he => hj he.symm
  have hsj := h.session j
  cases hpj : s.session j with
  | resolving conflicts todo toWrite =>
    rw [hpj] at hsj
    exact hother (hsj.2.1 k hkj)
  | writing todo pending =>
    rw [hpj] at hsj
    exact hother (hsj.2.1 k hkj)
  | upserting todo => exact hov j hj (by simp [hpj, Phase.overwriting]) ⟨k, hk, hkj⟩
  | start => simp [hpj, Phase.inside] at hin
  | locking todo => simp [hpj, Phase.inside] at hin
  | done o => simp [hpj, Phase.inside] at hin

/-- The commit of a transaction. -/
theorem Inv.commit (h : Inv layout hash calls table₀ s) {pending : List (K × R)}
    (hp : s.session i = .writing [] pending) :
    Inv layout hash calls table₀ (s.endTransaction i (s.table.write pending) (.ok ())) := by
  have hi := h.session i
  rw [hp] at hi
  obtain ⟨ho, -, conflicts, toWrite, hres, hrows⟩ := hi
  obtain rfl : pending = rows layout toWrite := by simpa using hrows
  have hin : (s.session i).inside := by simp [hp, Phase.inside]
  have happart : ∀ j, j ≠ i → (s.session j).inside → ¬ SharesKey (calls i) (calls j) :=
    fun j hj => h.apart i j hj.symm hin
  refine h.turn rfl (fun j hj hjin k hk => ?_) (fun j hj x hx => release_of_ne hj hx) trivial
    (fun _ => happart) ?_
  · refine Contents.writeRows_of_not_mem fun hkw => ?_
    exact happart j hj hjin ⟨k, hres.keys_sub k hkw, hk⟩
  · refine h.ends rfl (by rw [hp]; rfl) fun m hm => ?_
    have hread : ∀ k ∈ (calls i).items.keys, m k = s.table k := fun k hk =>
      (hm k (settled_of_apart (by simp [hp, Phase.overwriting])
        (fun j hj hjo => happart j hj (Phase.inside_of_overwriting hjo)) hk)).symm
    refine ⟨m.writeRows layout toWrite, (hres.congr hread).finish ho, fun k hk => ?_⟩
    have hsame : s.table k = m k :=
      hm k (hk.of_update rfl (by simp [hp, Phase.overwriting]))
    change s.table.writeRows layout toWrite k = m.writeRows layout toWrite k
    rw [Contents.writeRows_apply, Contents.writeRows_apply, hsame]

section Step

variable [DecidableEq H]

/-- The first turn of a call. -/
theorem Inv.start (h : Inv layout hash calls table₀ s) (hp : s.session i = .start)
    (hG : NoOverlap calls s i) (hs : Postgres.step layout hash calls s i = some s') :
    Inv layout hash calls table₀ s' := by
  have hout : (s.session i).outcome = none := by rw [hp]; rfl
  simp only [Postgres.step, hp] at hs
  simp only [NoOverlap, hp] at hG
  split_ifs at hs with he ho
  · cases hs
    have hempty : (calls i).items = ∅ := Dict.ext he
    refine h.turn rfl (fun _ _ _ _ _ => rfl) (fun _ _ _ hx => hx) trivial (by simp [Phase.inside])
      (h.ends rfl hout fun m hm => ⟨m, ?_, fun k hk => ?_⟩)
    · rw [Call.atomic, hempty]
      exact Contents.atomicSetMany_empty
    · exact hm k (hk.of_update rfl (by simp [hp, Phase.overwriting]))
  · exact h.upsert hout ho (fun row hrow => hrow) (fun row hrow => .inl hrow) (hG ho) hs
  · cases hs
    refine h.move rfl rfl (fun _ _ _ hx => hx) hout rfl (by rw [hp]; rfl)
      ⟨ho, fun k hk => .inl ?_⟩ (by simp [Phase.inside])
    exact mem_sorted.mpr hk

/-- One lock of `_lock_keys`. -/
theorem Inv.lock (h : Inv layout hash calls table₀ s) {key : K} {todo : List K}
    (hp : s.session i = .locking (key :: todo))
    (hs : Postgres.step layout hash calls s i = some s') : Inv layout hash calls table₀ s' := by
  have hi := h.session i
  rw [hp] at hi
  simp only [Postgres.step, hp] at hs
  split_ifs at hs with hfree
  cases hs
  refine h.move rfl rfl (fun j hj x hx => ?_) (by rw [hp]; rfl) rfl (by rw [hp]; rfl)
    ⟨hi.1, fun k hk => ?_⟩ (by simp [Phase.inside])
  · -- a lock of another session is not available
    by_cases hx' : x = hash key
    · subst hx'
      rcases hfree with hfree | hfree <;> rw [hx] at hfree
      · cases hfree
      · exact absurd (Option.some.inj hfree) hj
    · exact (Function.update_of_ne hx' _ _).trans hx
  · by_cases hk' : hash k = hash key
    · right
      simp [hk']
    · refine (hi.2 k hk).imp (fun hmem => ?_) fun hl => (Function.update_of_ne hk' _ _).trans hl
      rcases List.mem_cons.mp hmem with rfl | hmem
      · exact absurd rfl hk'
      · exact hmem

/-- The existence query. -/
theorem Inv.query (h : Inv layout hash calls table₀ s) (hp : s.session i = .locking [])
    (hG : NoOverlap calls s i) (hs : Postgres.step layout hash calls s i = some s') :
    Inv layout hash calls table₀ s' := by
  have hout : (s.session i).outcome = none := by rw [hp]; rfl
  have hov : (s.session i).overwriting = false := by rw [hp]; rfl
  have hi := h.session i
  rw [hp] at hi
  simp only [Postgres.step, hp, Contents.conflictsOf_containsMany] at hs
  simp only [NoOverlap, hp] at hG
  split_ifs at hs with hc <;> cases hs
  · obtain ⟨hc, hr⟩ := hc
    refine h.turn rfl (fun _ _ _ _ _ => rfl) (fun j hj x hx => release_of_ne hj hx) trivial
      (by simp [Phase.inside]) (h.ends rfl hout fun m hm => ⟨m, ?_, fun k hk => ?_⟩)
    · have hread : ∀ k ∈ (calls i).items.keys, s.table k = m k := fun k hk =>
        hm k (settled_of_apart hov hG hk)
      rw [Call.atomic, hr, Contents.conflicts_congr hread]
      rw [Contents.conflicts_congr hread] at hc
      exact Contents.atomicSetMany_of_conflict hc
    · exact hm k (hk.of_update rfl (by simp [hov]))
  · exact h.move rfl rfl (fun _ _ _ hx => hx) hout rfl hov
      ⟨hi.1, fun k hk => (hi.2 k hk).resolve_left (by simp), Contents.Resolving.start (by tauto)⟩
      (fun _ => h.apart_of_locks hp hG)

/-- The loop over the items. -/
theorem Inv.resolve (h : Inv layout hash calls table₀ s) {conflicts : List K}
    {todo : List (K × V)} {toWrite : Dict K V}
    (hp : s.session i = .resolving conflicts todo toWrite)
    (hs : Postgres.step layout hash calls s i = some s') : Inv layout hash calls table₀ s' := by
  have hout : (s.session i).outcome = none := by rw [hp]; rfl
  have hov : (s.session i).overwriting = false := by rw [hp]; rfl
  have happart : ∀ j, j ≠ i → (s.session j).inside → ¬ SharesKey (calls i) (calls j) :=
    fun j hj => h.apart i j hj.symm (by rw [hp]; rfl)
  have hi := h.session i
  rw [hp] at hi
  cases todo with
  | cons item todo =>
    simp only [Postgres.step, hp] at hs
    cases hs
    exact h.move rfl rfl (fun _ _ _ hx => hx) hout rfl hov ⟨hi.1, hi.2.1, hi.2.2.get⟩
      (fun _ => happart)
  | nil =>
    simp only [Postgres.step, hp] at hs
    cases hs
    exact h.move rfl rfl (fun _ _ _ hx => hx) hout rfl hov
      ⟨hi.1, hi.2.1, conflicts, toWrite, hi.2.2, rfl⟩ (fun _ => happart)

/-- **A turn without overlap keeps the invariant.** -/
theorem Inv.step (h : Inv layout hash calls table₀ s) (hG : NoOverlap calls s i)
    (hs : Postgres.step layout hash calls s i = some s') : Inv layout hash calls table₀ s' := by
  cases hp : s.session i with
  | start => exact h.start hp hG hs
  | locking todo =>
    cases todo with
    | cons key todo => exact h.lock hp hs
    | nil => exact h.query hp hG hs
  | resolving conflicts todo toWrite => exact h.resolve hp hs
  | writing todo pending =>
    cases todo with
    | nil =>
      simp only [Postgres.step, hp] at hs
      cases hs
      exact h.commit hp
    | cons row todo =>
      have hi := h.session i
      rw [hp] at hi
      obtain ⟨ho, hlocks, conflicts, toWrite, hres, hrows⟩ := hi
      simp only [Postgres.step, hp] at hs
      split_ifs at hs
      cases hs
      exact h.move rfl rfl (fun _ _ _ hx => hx) (by rw [hp]; rfl) rfl (by rw [hp]; rfl)
        ⟨ho, hlocks, conflicts, toWrite, hres, by simpa using hrows⟩
        (fun _ j hj => h.apart i j hj.symm (by rw [hp]; rfl))
  | upserting todo =>
    have hi := h.session i
    rw [hp] at hi
    simp only [Postgres.step, hp] at hs
    exact h.upsert (by rw [hp]; rfl) hi.1 hi.2.1 hi.2.2
      (fun j hj => h.apart i j hj.symm (by rw [hp]; rfl)) hs
  | done o =>
    simp only [Postgres.step, hp] at hs
    cases hs

end Step

/-- **Without overlap the sessions are serializable.** In every state of a run whose turns satisfy
`NoOverlap`, the calls that are over, executed atomically in some order, give the outcomes they had
and the rows there are, except where an `overwrite` is half done; when all calls are over they give
the table. -/
theorem sessions_serializable [DecidableEq H]
    (h : Reaches (Postgres.step layout hash calls) (NoOverlap calls) (init table₀) s) :
    (∃ m, Serializable (fun i => (calls i).atomic layout) table₀
      (fun i => (s.session i).outcome) m ∧ ∀ k, Settled calls s k → s.table k = m k) ∧
    ((∀ i, (s.session i).outcome.isSome) →
      Serializable (fun i => (calls i).atomic layout) table₀ (fun i => (s.session i).outcome)
        s.table) := by
  have hinv : Inv layout hash calls table₀ s :=
    h.invariant inv_init fun _ _ _ hi hG hs => hi.step hG hs
  refine ⟨hinv.serial, fun hover => ?_⟩
  obtain ⟨m, hser, hm⟩ := hinv.serial
  have hsettled : ∀ k, Settled calls s k := by
    intro k j hj
    have hj' := hover j
    cases hp : s.session j <;> simp [hp, Phase.overwriting, Phase.outcome] at hj hj'
  rwa [show s.table = m from funext fun k => hm k (hsettled k)]

/-! ### A `merge` and an `overwrite` of one key -/

/-- The two calls. -/
def mergeOverwrite : Bool → Call String (Dict String ℕ)
  | false => ⟨.ofList [("k", .ofList [("b", 2)])], .merge⟩
  | true => ⟨.ofList [("k", .ofList [("c", 3)])], .overwrite⟩

/-- The table they run on. -/
def oneRow : Contents String (Dict String ℕ) := fun k =>
  if k = "k" then some (.ofList [("a", 1)]) else none

/-- The outcomes and the row. -/
def observed (s : World Bool String (Dict String ℕ) (Dict String ℕ) String) :
    Option (Except (StoreError String) Unit) × Option (Except (StoreError String) Unit) ×
      Option (Dict String ℕ) :=
  ((s.session false).outcome, (s.session true).outcome, s.table "k")

/-- One call after the other. -/
theorem sessions_serializable_in_turn :
    ∃ s, play (guarded (Postgres.step ⟨id, id⟩ id mergeOverwrite) (NoOverlap mergeOverwrite))
        (init oneRow) [false, false, false, false, false, false, false, true] = some s ∧
      observed s = (some (.ok ()), some (.ok ()), some (.ofList [("c", 3)])) ∧
      Serializable (fun i => (mergeOverwrite i).atomic ⟨id, id⟩) oneRow
        (fun i => (s.session i).outcome) s.table := by
  obtain ⟨s, hs, ho⟩ := Option.map_eq_some_iff.mp
    (rfl : (play (guarded (Postgres.step ⟨id, id⟩ id mergeOverwrite) (NoOverlap mergeOverwrite))
      (init oneRow) [false, false, false, false, false, false, false, true]).map observed =
        some (some (.ok ()), some (.ok ()), some (.ofList [("c", 3)])))
  refine ⟨s, hs, ho, (sessions_serializable (reaches_of_play_guarded hs)).2 fun i => ?_⟩
  have hf : (s.session false).outcome = some (.ok ()) := congrArg Prod.fst ho
  have ht : (s.session true).outcome = some (.ok ()) := congrArg (·.2.1) ho
  cases i <;> simp [hf, ht]

/-- **The lost overwrite.** The `merge` reads, the `overwrite` runs, the `merge` commits: the field
`c` of the `overwrite` is gone and the field `a` it removed is back. -/
theorem sessions_not_serializable :
    ∃ s, play (Postgres.step ⟨id, id⟩ id mergeOverwrite) (init oneRow)
        [false, false, false, false, true, false, false, false] = some s ∧
      observed s = (some (.ok ()), some (.ok ()), some (.ofList [("a", 1), ("b", 2)])) ∧
      ¬ Serializable (fun i => (mergeOverwrite i).atomic ⟨id, id⟩) oneRow
        (fun i => (s.session i).outcome) s.table := by
  obtain ⟨s, hs, ho⟩ := Option.map_eq_some_iff.mp
    (rfl : (play (Postgres.step ⟨id, id⟩ id mergeOverwrite) (init oneRow)
      [false, false, false, false, true, false, false, false]).map observed =
        some (some (.ok ()), some (.ok ()), some (.ofList [("a", 1), ("b", 2)])))
  refine ⟨s, hs, ho, fun hser => ?_⟩
  have hk : s.table "k" = some (.ofList [("a", 1), ("b", 2)]) := congrArg (·.2.2) ho
  rcases hser.two (congrArg Prod.fst ho) (congrArg (·.2.1) ho) with ⟨-, h⟩ | ⟨-, h⟩
  · exact absurd ((congrArg (·.2 "k") h).trans hk) (by decide)
  · exact absurd ((congrArg (·.2 "k") h).trans hk) (by decide)

end Postgres

end Persista
