import Mathlib.Algebra.Order.Group.Nat
import Mathlib.Data.List.Nodup
import Mathlib.Data.List.Perm.Subperm
import Mathlib.Logic.Function.Basic
import Mathlib.Logic.Relation
import Mathlib.Tactic.Common

/-!
# Pointer forests

Elements that each point at a parent, where a root points at itself. `Climbs up n x r` says that the
root `r` is `n` steps above `x`, with no root before it. In a `Forest` every element climbs to a
root, so the only cycles are the loops at the roots.

## Two ways to rewrite a parent

`Climbs.shortened` points an element at its grandparent: every element keeps its root and none gets
further away from it. `Climbs.link` points a root at another root: the elements of the first climb
to the second, one step more, and the others are as they were. The step count is carried along
because it is the measure of a loop that climbs and halves on its way.

## Main results

* `PointerForest.Forest.eq_of_cycle` — the only cycles are the loops at the roots
* `PointerForest.Climbs.shortened` — halving keeps the roots, and shortens the way of the element
* `PointerForest.same_link_iff` — linking the roots of two elements joins their classes
* `PointerForest.Climbs.lt` — the way to a root is shorter than the number of elements
-/

namespace PointerForest

variable {α : Type*} {up : α → α} {m n : ℕ} {x y r s : α}

/-- The root `r` is `n` steps above `x`. -/
inductive Climbs (up : α → α) : ℕ → α → α → Prop
  | root {r : α} : up r = r → Climbs up 0 r r
  | step {n : ℕ} {x r : α} : up x ≠ x → Climbs up n (up x) r → Climbs up (n + 1) x r

theorem Climbs.isRoot (h : Climbs up n x r) : up r = r := by
  induction h with
  | root hr => exact hr
  | step _ _ ih => exact ih

/-- There is one root above an element, at one height. -/
theorem Climbs.unique (hm : Climbs up m x r) (hn : Climbs up n x s) : m = n ∧ r = s := by
  induction hm generalizing n with
  | root hr =>
    cases hn with
    | root _ => exact ⟨rfl, rfl⟩
    | step hne _ => exact absurd hr hne
  | step hne _ ih =>
    cases hn with
    | root hr => exact absurd hr hne
    | step _ hn =>
      obtain ⟨rfl, rfl⟩ := ih hn
      exact ⟨rfl, rfl⟩

theorem Climbs.eq_of_isRoot (h : Climbs up n x r) (hx : up x = x) : n = 0 ∧ x = r := by
  obtain ⟨rfl, rfl⟩ := h.unique (.root hx)
  exact ⟨rfl, rfl⟩

theorem Climbs.pred (h : Climbs up n x r) (hx : up x ≠ x) :
    ∃ k, n = k + 1 ∧ Climbs up k (up x) r := by
  cases h with
  | root hr => exact absurd hr hx
  | step _ h => exact ⟨_, rfl, h⟩

/-- Each step up is one step closer to the root, and the root is not left. -/
theorem Climbs.iterate (h : Climbs up n x r) (k : ℕ) : Climbs up (n - k) (up^[k] x) r := by
  induction k generalizing n x with
  | zero => exact h
  | succ k ih =>
    rw [Function.iterate_succ_apply]
    by_cases hx : up x = x
    · rw [hx]
      obtain ⟨rfl, rfl⟩ := h.eq_of_isRoot hx
      rw [Nat.zero_sub]
      exact Nat.zero_sub k ▸ ih h
    · obtain ⟨n, rfl, hn⟩ := h.pred hx
      rw [Nat.add_sub_add_right]
      exact ih hn

/-- An element of a cycle is a root. -/
theorem Climbs.eq_of_cycle (h : Climbs up n x r) {k : ℕ} (hcycle : up^[k + 1] x = x) :
    up x = x := by
  have hback := h.iterate (k + 1)
  rw [hcycle] at hback
  obtain ⟨hheight, -⟩ := h.unique hback
  obtain rfl : n = 0 := by omega
  cases h with
  | root hr => exact hr

/-- Every element climbs to a root. -/
def Forest (up : α → α) : Prop := ∀ x, ∃ n r, Climbs up n x r

/-- The only cycles are the loops at the roots. -/
theorem Forest.eq_of_cycle (h : Forest up) {k : ℕ} (hcycle : up^[k + 1] x = x) : up x = x := by
  obtain ⟨n, r, hx⟩ := h x
  exact hx.eq_of_cycle hcycle

/-- Two elements climb to the same root. -/
def Same (up : α → α) (x y : α) : Prop := ∃ r, (∃ n, Climbs up n x r) ∧ ∃ n, Climbs up n y r

theorem Climbs.same_iff (hx : Climbs up m x r) (hy : Climbs up n y s) : Same up x y ↔ r = s := by
  constructor
  · rintro ⟨t, ⟨_, ht⟩, _, ht'⟩
    exact (hx.unique ht).2.trans (ht'.unique hy).2
  · rintro rfl
    exact ⟨r, ⟨m, hx⟩, ⟨n, hy⟩⟩

theorem Forest.same_equivalence (h : Forest up) : Equivalence (Same up) where
  refl x := by
    obtain ⟨n, r, hr⟩ := h x
    exact ⟨r, ⟨n, hr⟩, ⟨n, hr⟩⟩
  symm := by
    rintro x y ⟨r, hx, hy⟩
    exact ⟨r, hy, hx⟩
  trans := by
    rintro x y z ⟨r, hx, _, hy⟩ ⟨s, ⟨_, hy'⟩, hz⟩
    obtain ⟨-, rfl⟩ := hy.unique hy'
    exact ⟨r, hx, hz⟩

/-- The way to a root passes one element more than it has steps, and none twice. -/
theorem Climbs.exists_path {P : α → Prop} (hP : ∀ y, P y → P (up y)) (h : Climbs up n x r)
    (hx : P x) :
    ∃ path : List α, path.length = n + 1 ∧ path.Nodup ∧
      ∀ y ∈ path, P y ∧ ∃ k ≤ n, Climbs up k y r := by
  induction h with
  | @root r hr =>
    refine ⟨[r], rfl, List.nodup_singleton r, fun y hy => ?_⟩
    obtain rfl := List.mem_singleton.mp hy
    exact ⟨hx, 0, le_refl 0, .root hr⟩
  | @step n x r hne h ih =>
    obtain ⟨path, hlen, hnodup, hpath⟩ := ih (hP x hx)
    refine ⟨x :: path, by rw [List.length_cons, hlen], List.nodup_cons.mpr ⟨?_, hnodup⟩, ?_⟩
    · -- the others are closer to the root
      intro hmem
      obtain ⟨-, k, hk, hclimb⟩ := hpath x hmem
      obtain ⟨rfl, -⟩ := hclimb.unique (.step hne h)
      omega
    · intro y hy
      rcases List.mem_cons.mp hy with rfl | hy
      · exact ⟨hx, n + 1, le_refl _, .step hne h⟩
      · obtain ⟨hy, k, hk, hclimb⟩ := hpath y hy
        exact ⟨hy, k, by omega, hclimb⟩

/-- The way to a root is shorter than the number of elements. -/
theorem Climbs.lt {size : ℕ} {up : ℕ → ℕ} {n x r : ℕ} (h : Climbs up n x r)
    (hup : ∀ y < size, up y < size) (hx : x < size) : n < size := by
  obtain ⟨path, hlen, hnodup, hpath⟩ := h.exists_path (P := (· < size)) hup hx
  have hsub : path ⊆ List.range size := fun y hy => List.mem_range.mpr (hpath y hy).1
  have hle := (hnodup.subperm hsub).length_le
  rw [List.length_range, hlen] at hle
  omega

/-! ### Halving -/

/-- Every element keeps its root, and is not further away from it. -/
def Shortens (up up' : α → α) : Prop :=
  ∀ n x r, Climbs up n x r → ∃ n' ≤ n, Climbs up' n' x r

theorem Shortens.refl (up : α → α) : Shortens up up := fun n _ _ h => ⟨n, le_refl n, h⟩

theorem Shortens.trans {up up' up'' : α → α} (h : Shortens up up') (h' : Shortens up' up'') :
    Shortens up up'' := by
  intro n x r hx
  obtain ⟨n', hn', hx'⟩ := h n x r hx
  obtain ⟨n'', hn'', hx''⟩ := h' n' x r hx'
  exact ⟨n'', hn''.trans hn', hx''⟩

theorem Shortens.forest {up up' : α → α} (h : Shortens up up') (hup : Forest up) : Forest up' := by
  intro x
  obtain ⟨n, r, hx⟩ := hup x
  obtain ⟨n', -, hx'⟩ := h n x r hx
  exact ⟨n', r, hx'⟩

/-- The roots are the same. -/
theorem Shortens.exists_climbs_iff {up up' : α → α} (h : Shortens up up') (hup : Forest up)
    {x r : α} : (∃ n, Climbs up' n x r) ↔ ∃ n, Climbs up n x r := by
  constructor
  · rintro ⟨n, hx⟩
    obtain ⟨k, s, hs⟩ := hup x
    obtain ⟨k', -, hs'⟩ := h k x s hs
    obtain ⟨-, rfl⟩ := hx.unique hs'
    exact ⟨k, hs⟩
  · rintro ⟨n, hx⟩
    obtain ⟨n', -, hx'⟩ := h n x r hx
    exact ⟨n', hx'⟩

theorem Shortens.same_iff {up up' : α → α} (h : Shortens up up') (hup : Forest up) {x y : α} :
    Same up' x y ↔ Same up x y := by
  simp only [Same, h.exists_climbs_iff hup]

section Rewrite

variable [DecidableEq α]

/-- Pointing an element at its grandparent. -/
def halve (up : α → α) (i : α) : α → α := Function.update up i (up (up i))

@[simp] theorem halve_self (up : α → α) (i : α) : halve up i i = up (up i) :=
  Function.update_self ..

theorem halve_of_ne {up : α → α} {i x : α} (h : x ≠ i) : halve up i x = up x :=
  Function.update_of_ne h ..

/-- A root stays a root. -/
theorem halve_isRoot {i : α} (hr : up r = r) : halve up i r = r := by
  by_cases h : r = i
  · rw [← h, halve_self, hr, hr]
  · rw [halve_of_ne h, hr]

/-- The grandparent of an element that is no root is not that element. -/
theorem Climbs.grandparent_ne (h : Climbs up n x r) (hx : up x ≠ x) : up (up x) ≠ x := by
  obtain ⟨k, rfl, hk⟩ := h.pred hx
  intro heq
  by_cases hroot : up (up x) = up x
  · exact hx (hroot.symm.trans heq)
  · obtain ⟨j, rfl, hj⟩ := hk.pred hroot
    rw [heq] at hj
    have := (h.unique hj).1
    omega

theorem Climbs.shortened (h : Climbs up n x r) (i : α) :
    ∃ n' ≤ n, Climbs (halve up i) n' x r := by
  induction n using Nat.strong_induction_on generalizing x with
  | _ n ih =>
    by_cases hx : up x = x
    · obtain ⟨rfl, rfl⟩ := h.eq_of_isRoot hx
      exact ⟨0, le_refl 0, .root (halve_isRoot hx)⟩
    obtain ⟨k, rfl, hk⟩ := h.pred hx
    by_cases hi : x = i
    · subst hi
      have hne : halve up x x ≠ x := by
        rw [halve_self]
        exact h.grandparent_ne hx
      by_cases hroot : up (up x) = up x
      · -- the parent is the root
        obtain ⟨rfl, rfl⟩ := hk.eq_of_isRoot hroot
        refine ⟨1, le_refl 1, .step hne ?_⟩
        rw [halve_self, hroot]
        exact .root (halve_isRoot hroot)
      · obtain ⟨j, rfl, hj⟩ := hk.pred hroot
        obtain ⟨j', hj', hclimb⟩ := ih j (by omega) hj
        refine ⟨j' + 1, by omega, .step hne ?_⟩
        rw [halve_self]
        exact hclimb
    · obtain ⟨k', hk', hclimb⟩ := ih k (by omega) hk
      refine ⟨k' + 1, by omega, .step ?_ ?_⟩
      · rw [halve_of_ne hi]
        exact hx
      · rw [halve_of_ne hi]
        exact hclimb

theorem shortens_halve (up : α → α) (i : α) : Shortens up (halve up i) :=
  fun _ _ _ h => h.shortened i

/-- The grandparent is closer to the root. -/
theorem Climbs.grandparent (h : Climbs up n x r) (hx : up x ≠ x) :
    ∃ n' < n, Climbs up n' (up (up x)) r := by
  obtain ⟨k, rfl, hk⟩ := h.pred hx
  by_cases hroot : up (up x) = up x
  · rw [hroot]
    exact ⟨k, by omega, hk⟩
  · obtain ⟨j, rfl, hj⟩ := hk.pred hroot
    exact ⟨j, by omega, hj⟩

/-! ### Linking -/

/-- Pointing the root `r` at the root `s`. -/
def link (up : α → α) (r s : α) : α → α := Function.update up r s

@[simp] theorem link_self (up : α → α) (r s : α) : link up r s r = s := Function.update_self ..

theorem link_of_ne {up : α → α} {r s x : α} (h : x ≠ r) : link up r s x = up x :=
  Function.update_of_ne h ..

variable {t : α}

/-- The elements below `r` climb to `s`. -/
theorem Climbs.link_below (h : Climbs up n x r) (hs : up s = s) (hne : s ≠ r) :
    Climbs (link up r s) (n + 1) x s := by
  induction h with
  | root hr =>
    refine .step ?_ ?_ <;> rw [link_self]
    · exact hne
    · exact .root (by rw [link_of_ne hne, hs])
  | @step n x r hx h ih =>
    have hxr : x ≠ r := fun heq => hx (heq ▸ h.isRoot)
    refine .step ?_ ?_ <;> rw [link_of_ne hxr]
    · exact hx
    · exact ih hne

/-- The other elements climb as they did. -/
theorem Climbs.link_other (h : Climbs up n x t) (hr : up r = r) (ht : t ≠ r) (s : α) :
    Climbs (link up r s) n x t := by
  induction h with
  | root hroot => exact .root (by rw [link_of_ne ht, hroot])
  | @step n x t hx h ih =>
    have hxr : x ≠ r := fun heq => hx (heq ▸ hr)
    refine .step ?_ ?_ <;> rw [link_of_ne hxr]
    · exact hx
    · exact ih ht

/-- The root of an element after linking. -/
theorem Climbs.link (h : Climbs up n x t) (hr : up r = r) (hs : up s = s) (hne : s ≠ r) :
    ∃ n', Climbs (link up r s) n' x (if t = r then s else t) := by
  split
  · next ht =>
    subst ht
    exact ⟨n + 1, h.link_below hs hne⟩
  · next ht => exact ⟨n, h.link_other hr ht s⟩

theorem forest_link (hup : Forest up) (hr : up r = r) (hs : up s = s) (hne : s ≠ r) :
    Forest (link up r s) := by
  intro x
  obtain ⟨n, t, hx⟩ := hup x
  obtain ⟨n', hx'⟩ := hx.link hr hs hne
  exact ⟨n', _, hx'⟩

/-- Linking joins two classes and leaves the others as they were. -/
theorem same_link_iff (hup : Forest up) {i j : α} {ni nj : ℕ} (hi : Climbs up ni i s)
    (hj : Climbs up nj j r) (hne : s ≠ r) :
    Same (link up r s) x y ↔
      Same up x y ∨ Same up x i ∧ Same up y j ∨ Same up x j ∧ Same up y i := by
  obtain ⟨n, u, hx⟩ := hup x
  obtain ⟨k, v, hy⟩ := hup y
  obtain ⟨_, hx'⟩ := hx.link hj.isRoot hi.isRoot hne
  obtain ⟨_, hy'⟩ := hy.link hj.isRoot hi.isRoot hne
  rw [hx'.same_iff hy', hx.same_iff hy, hx.same_iff hi, hx.same_iff hj, hy.same_iff hi,
    hy.same_iff hj]
  -- the roots of `x` and `y`, each of them `r` or not
  grind

end Rewrite

/-! ### Joining classes -/

/-- Two sets of pairs generate the same equivalence when each is in the one of the other. -/
theorem eqvGen_congr {E F : α → α → Prop} (hE : ∀ a b, E a b → Relation.EqvGen F a b)
    (hF : ∀ a b, F a b → Relation.EqvGen E a b) : Relation.EqvGen E x y ↔ Relation.EqvGen F x y :=
  ⟨Relation.EqvGen.eqvGen_le hE x y, Relation.EqvGen.eqvGen_le hF x y⟩

theorem eqvGen_map {β : Type*} {E : α → α → Prop} {F : β → β → Prop} {f : α → β}
    (h : ∀ a b, E a b → F (f a) (f b)) (hxy : Relation.EqvGen E x y) :
    Relation.EqvGen F (f x) (f y) := by
  induction hxy with
  | rel a b hab => exact .rel _ _ (h a b hab)
  | refl a => exact .refl (f a)
  | symm a b _ ih => exact ih.symm
  | trans a b c _ _ hab hbc => exact hab.trans _ _ _ hbc

/-- The class that two classes are joined to. -/
theorem joined_iff {S : α → α → Prop} (hS : Equivalence S) {i j : α} (hx : S x i ∨ S x j) :
    (S x y ∨ S x i ∧ S y j ∨ S x j ∧ S y i) ↔ S y i ∨ S y j := by
  constructor
  · rintro (hxy | ⟨-, hy⟩ | ⟨-, hy⟩)
    · exact hx.imp (hS.trans (hS.symm hxy)) (hS.trans (hS.symm hxy))
    · exact .inr hy
    · exact .inl hy
  · rcases hx with hx | hx
    · exact fun hy => hy.elim (fun hy => .inl (hS.trans hx (hS.symm hy)))
        fun hy => .inr (.inl ⟨hx, hy⟩)
    · exact fun hy => hy.elim (fun hy => .inr (.inr ⟨hx, hy⟩))
        fun hy => .inl (hS.trans hx (hS.symm hy))

/-- The other classes stay. -/
theorem joined_iff_of_not {S : α → α → Prop} {i j : α} (hx : ¬ (S x i ∨ S x j)) :
    (S x y ∨ S x i ∧ S y j ∨ S x j ∧ S y i) ↔ S x y := by
  rw [not_or] at hx
  exact or_iff_left fun h => h.elim (fun h => hx.1 h.1) fun h => hx.2 h.1

/-- Joining the classes of two elements of the equivalence that some pairs generate: the pair of the
two is one more. -/
theorem join_iff_eqvGen {E S : α → α → Prop} (h : ∀ x y, S x y ↔ Relation.EqvGen E x y) (i j : α) :
    (S x y ∨ S x i ∧ S y j ∨ S x j ∧ S y i) ↔
      Relation.EqvGen (fun a b => E a b ∨ a = i ∧ b = j) x y := by
  have hS : Equivalence S := by
    have heq : S = Relation.EqvGen E := funext fun x => funext fun y => propext (h x y)
    rw [heq]
    exact Relation.EqvGen.is_equivalence E
  have hmono : ∀ {a b}, S a b → Relation.EqvGen (fun a b => E a b ∨ a = i ∧ b = j) a b :=
    fun hab => Relation.EqvGen.mono (fun _ _ => Or.inl) _ _ ((h _ _).mp hab)
  have hpair : Relation.EqvGen (fun a b => E a b ∨ a = i ∧ b = j) i j := .rel _ _ (.inr ⟨rfl, rfl⟩)
  constructor
  · rintro (hxy | ⟨hx, hy⟩ | ⟨hx, hy⟩)
    · exact hmono hxy
    · exact ((hmono hx).trans _ _ _ hpair).trans _ _ _ (hmono hy).symm
    · exact ((hmono hx).trans _ _ _ hpair.symm).trans _ _ _ (hmono hy).symm
  · intro hxy
    induction hxy with
    | rel a b hab =>
      rcases hab with hab | ⟨rfl, rfl⟩
      · exact .inl ((h _ _).mpr (.rel _ _ hab))
      · exact .inr (.inl ⟨hS.refl _, hS.refl _⟩)
    | refl a => exact .inl (hS.refl a)
    | symm a b _ ih =>
      rcases ih with hab | ⟨ha, hb⟩ | ⟨ha, hb⟩
      · exact .inl (hS.symm hab)
      · exact .inr (.inr ⟨hb, ha⟩)
      · exact .inr (.inl ⟨hb, ha⟩)
    | trans a b c _ _ hab hbc =>
      have hsymm := @hS.symm
      have htrans := @hS.trans
      grind

end PointerForest
