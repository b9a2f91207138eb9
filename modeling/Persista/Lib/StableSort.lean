import Mathlib.Data.List.Sort
import Mathlib.Data.Prod.Lex

/-!
# Stable sorting by a key

`sortBy f` sorts a list by the values of `f`, and elements with the same value keep their order. It
is determined by that: a list that is sorted and has every class of elements in the old order is the
sorted list.

## Main results

* `StableSort.eq_sortBy_iff` — what determines the sorted list
* `StableSort.filter_sortBy` — sorting and filtering
* `StableSort.sortBy_sortBy` — two sorts, one after the other
* `StableSort.reverse_sortBy_toDual` — sorting downwards
* `StableSort.split_of_sorted` — the elements in a range are a block
-/

namespace StableSort

variable {α L M : Type*} [LinearOrder L] [LinearOrder M] (f : α → L) (g : α → M)

/-- The stable sort by `f`. -/
def sortBy (l : List α) : List α := l.insertionSort fun a b => f a ≤ f b

variable {f g} {l l' : List α}

theorem perm_sortBy (f : α → L) (l : List α) : (sortBy f l).Perm l := List.perm_insertionSort _ l

theorem pairwise_sortBy (f : α → L) (l : List α) :
    (sortBy f l).Pairwise fun a b => f a ≤ f b :=
  haveI : Std.Total fun a b : α => f a ≤ f b := ⟨fun a b => le_total (f a) (f b)⟩
  haveI : IsTrans α fun a b => f a ≤ f b := ⟨fun _ _ _ => le_trans⟩
  List.pairwise_insertionSort _ l

theorem sortBy_eq_self (h : l.Pairwise fun a b => f a ≤ f b) : sortBy f l = l :=
  h.insertionSort_eq

theorem orderedInsert_congr {r r' : α → α → Prop} [DecidableRel r] [DecidableRel r'] {a : α}
    (h : ∀ b ∈ l, r a b ↔ r' a b) : l.orderedInsert r a = l.orderedInsert r' a := by
  induction l with
  | nil => rfl
  | cons b l ih =>
    have hrest := ih fun c hc => h c (List.mem_cons_of_mem b hc)
    rw [List.orderedInsert_cons, List.orderedInsert_cons, hrest]
    exact if_congr (h b List.mem_cons_self) rfl rfl

/-- A relation that compares the elements of a list as `f` does. -/
theorem insertionSort_eq_sortBy {r : α → α → Prop} [DecidableRel r]
    (h : ∀ a ∈ l, ∀ b ∈ l, r a b ↔ f a ≤ f b) : l.insertionSort r = sortBy f l := by
  induction l with
  | nil => rfl
  | cons a l ih =>
    have hrest := ih fun b hb c hc =>
      h b (List.mem_cons_of_mem a hb) c (List.mem_cons_of_mem a hc)
    rw [List.insertionSort_cons, hrest]
    refine orderedInsert_congr fun b hb => h a List.mem_cons_self b (List.mem_cons_of_mem a ?_)
    exact (perm_sortBy f l).mem_iff.mp hb

/-! ### Filtering -/

theorem filter_orderedInsert_of_pos {p : α → Bool} {a : α} (ha : p a)
    (h : l.Pairwise fun a b => f a ≤ f b) :
    (l.orderedInsert (fun a b => f a ≤ f b) a).filter p =
      (l.filter p).orderedInsert (fun a b => f a ≤ f b) a := by
  induction l with
  | nil => simp [ha]
  | cons b l ih =>
    obtain ⟨hb, hl⟩ := List.pairwise_cons.mp h
    by_cases hab : f a ≤ f b
    · -- everything behind `b` is above `a` too
      have hall : ∀ c ∈ (b :: l).filter p, f a ≤ f c := fun c hc => by
        rcases List.mem_cons.mp (List.mem_filter.mp hc).1 with rfl | hc
        · exact hab
        · exact hab.trans (hb c hc)
      rw [List.orderedInsert_cons, if_pos hab, List.filter_cons_of_pos ha]
      cases hfilter : (b :: l).filter p with
      | nil => rfl
      | cons c l' =>
        rw [List.orderedInsert_cons, if_pos (hall c (hfilter ▸ List.mem_cons_self))]
    · rw [List.orderedInsert_cons, if_neg hab]
      by_cases hpb : p b
      · rw [List.filter_cons_of_pos hpb, List.filter_cons_of_pos hpb, ih hl,
          List.orderedInsert_cons, if_neg hab]
      · rw [List.filter_cons_of_neg hpb, List.filter_cons_of_neg hpb, ih hl]

theorem filter_orderedInsert_of_neg {p : α → Bool} {a : α} (ha : ¬ p a) (l : List α) :
    (l.orderedInsert (fun a b => f a ≤ f b) a).filter p = l.filter p := by
  rw [List.orderedInsert_eq_take_drop, List.filter_append, List.filter_cons_of_neg ha,
    ← List.filter_append, List.takeWhile_append_dropWhile]

/-- **Sorting and filtering** commute. -/
theorem filter_sortBy (f : α → L) (p : α → Bool) (l : List α) :
    (sortBy f l).filter p = sortBy f (l.filter p) := by
  induction l with
  | nil => rfl
  | cons a l ih =>
    have hcons : sortBy f (a :: l) = (sortBy f l).orderedInsert (fun a b => f a ≤ f b) a := rfl
    rw [hcons]
    by_cases ha : p a
    · rw [filter_orderedInsert_of_pos ha (pairwise_sortBy f l), ih, List.filter_cons_of_pos ha]
      rfl
    · rw [filter_orderedInsert_of_neg ha, ih, List.filter_cons_of_neg ha]

/-! ### What determines it -/

/-- The elements with one value keep their order. -/
theorem filter_class_sortBy (f : α → L) (x : L) (l : List α) :
    (sortBy f l).filter (fun a => decide (f a = x)) = l.filter fun a => decide (f a = x) := by
  rw [filter_sortBy]
  refine sortBy_eq_self (List.pairwise_of_forall_mem_list fun a ha b hb => ?_)
  rw [of_decide_eq_true (List.mem_filter.mp ha).2, of_decide_eq_true (List.mem_filter.mp hb).2]

/-- Two sorted lists with the same classes. -/
theorem eq_of_classes (h : l.Pairwise fun a b => f a ≤ f b)
    (h' : l'.Pairwise fun a b => f a ≤ f b)
    (hclass : ∀ x, l.filter (fun a => decide (f a = x)) =
      l'.filter fun a => decide (f a = x)) : l = l' := by
  have hmem : ∀ a, a ∈ l ↔ a ∈ l' := fun a => by
    have ha := congrArg (a ∈ ·) (hclass (f a))
    simpa using ha
  induction l generalizing l' with
  | nil =>
    refine (List.eq_nil_iff_forall_not_mem.mpr fun a ha => ?_).symm
    exact List.not_mem_nil ((hmem a).mpr ha)
  | cons a l ih =>
    cases l' with
    | nil => exact absurd ((hmem a).mp List.mem_cons_self) List.not_mem_nil
    | cons b l' =>
      rw [List.pairwise_cons] at h h'
      -- each of the two heads is in the other list
      have hab : f a = f b := by
        refine le_antisymm ?_ ?_
        · rcases List.mem_cons.mp ((hmem b).mpr List.mem_cons_self) with rfl | hb
          · exact le_rfl
          · exact h.1 b hb
        · rcases List.mem_cons.mp ((hmem a).mp List.mem_cons_self) with rfl | ha
          · exact le_rfl
          · exact h'.1 a ha
      have hhead := hclass (f a)
      rw [List.filter_cons_of_pos (by simp), List.filter_cons_of_pos (by simp [hab]),
        List.cons.injEq] at hhead
      obtain ⟨rfl, hsame⟩ := hhead
      have htail : ∀ x, l.filter (fun a => decide (f a = x)) =
          l'.filter fun a => decide (f a = x) := fun x => by
        by_cases hx : f a = x
        · rw [← hx]
          exact hsame
        · have hclass := hclass x
          rwa [List.filter_cons_of_neg (by simp [hx]), List.filter_cons_of_neg (by simp [hx])]
            at hclass
      refine congrArg (a :: ·) (ih h.2 h'.2 htail fun c => ?_)
      have hc := congrArg (c ∈ ·) (htail (f c))
      simpa using hc

/-- **What determines the sorted list.** -/
theorem eq_sortBy_iff :
    l' = sortBy f l ↔ (l'.Pairwise fun a b => f a ≤ f b) ∧
      ∀ x, l'.filter (fun a => decide (f a = x)) = l.filter fun a => decide (f a = x) := by
  constructor
  · rintro rfl
    exact ⟨pairwise_sortBy f l, fun x => filter_class_sortBy f x l⟩
  · rintro ⟨hsorted, hclass⟩
    exact eq_of_classes hsorted (pairwise_sortBy f l) fun x =>
      (hclass x).trans (filter_class_sortBy f x l).symm

/-! ### Two sorts, and sorting downwards -/

/-- What holds in every class holds of elements with the same value. -/
theorem pairwise_of_classes {R : α → α → Prop}
    (h : ∀ x, (l.filter fun a => decide (f a = x)).Pairwise R) :
    l.Pairwise fun a b => f a = f b → R a b := by
  induction l with
  | nil => exact List.Pairwise.nil
  | cons a l ih =>
    refine List.pairwise_cons.mpr ⟨fun b hb hab => ?_, ih fun x => ?_⟩
    · have hclass := h (f a)
      rw [List.filter_cons_of_pos (by simp), List.pairwise_cons] at hclass
      exact hclass.1 b (List.mem_filter.mpr ⟨hb, by simp [hab]⟩)
    · exact (h x).sublist ((List.sublist_cons_self a l).filter _)

/-- The class of a pair of values. -/
theorem filter_toLex (x : L ×ₗ M) (l : List α) :
    l.filter (fun a => decide (toLex (f a, g a) = x)) =
      (l.filter fun a => decide (f a = (ofLex x).1)).filter
        fun a => decide (g a = (ofLex x).2) := by
  rw [List.filter_filter]
  refine List.filter_congr fun a _ => ?_
  rw [← Bool.decide_and, decide_eq_decide, and_comm]
  exact Prod.ext_iff

/-- **Two sorts**, one after the other: by `f`, and by `g` where `f` does not tell. -/
theorem sortBy_sortBy (f : α → L) (g : α → M) (l : List α) :
    sortBy f (sortBy g l) = sortBy (fun a => toLex (f a, g a)) l := by
  refine eq_sortBy_iff.mpr ⟨?_, fun x => ?_⟩
  · have hclasses : ∀ x, ((sortBy f (sortBy g l)).filter fun a => decide (f a = x)).Pairwise
        fun a b => g a ≤ g b := fun x => by
      rw [filter_class_sortBy]
      exact (pairwise_sortBy g l).sublist List.filter_sublist
    refine (pairwise_sortBy f (sortBy g l)).imp₂ (fun a b hab hg => ?_)
      (pairwise_of_classes hclasses)
    rcases hab.lt_or_eq with hlt | heq
    · exact Prod.Lex.toLex_le_toLex.mpr (.inl hlt)
    · exact Prod.Lex.toLex_le_toLex.mpr (.inr ⟨heq, hg heq⟩)
  · rw [filter_toLex, filter_toLex, filter_class_sortBy, List.filter_comm, filter_class_sortBy,
      List.filter_comm]

/-- **Sorting downwards**, on the reversed list, and reversing it again. -/
theorem reverse_sortBy_toDual (f : α → L) (l : List α) :
    (sortBy (fun a => OrderDual.toDual (f a)) l.reverse).reverse = sortBy f l := by
  refine eq_sortBy_iff.mpr ⟨?_, fun x => ?_⟩
  · rw [List.pairwise_reverse]
    exact pairwise_sortBy (fun a => OrderDual.toDual (f a)) l.reverse
  · have hclass :=
      filter_class_sortBy (fun a => OrderDual.toDual (f a)) (OrderDual.toDual x) l.reverse
    rw [List.filter_reverse] at hclass
    have hreverse := congrArg List.reverse hclass
    rw [List.reverse_reverse, ← List.filter_reverse] at hreverse
    exact hreverse

/-! ### Ranges -/

/-- A sorted list is what is below a range, what is in it, and what is above it. -/
theorem split_of_sorted {p q : α → Bool} (hp : ∀ a ∈ l, ∀ b ∈ l, f a ≤ f b → p b → p a)
    (hq : ∀ a ∈ l, ∀ b ∈ l, f a ≤ f b → q a → q b) (hpq : ∀ a, p a → ¬ q a)
    (h : l.Pairwise fun a b => f a ≤ f b) :
    l = l.filter p ++ (l.filter (fun a => !p a && !q a) ++ l.filter q) := by
  induction l with
  | nil => rfl
  | cons a l ih =>
    obtain ⟨ha, hl⟩ := List.pairwise_cons.mp h
    rw [List.forall_mem_cons] at hp hq
    have ih := ih (fun b hb c hc => hp.2 b hb c (List.mem_cons_of_mem a hc))
      (fun b hb c hc => hq.2 b hb c (List.mem_cons_of_mem a hc)) hl
    by_cases hpa : p a
    · have hqa := hpq _ hpa
      rw [List.filter_cons_of_pos hpa, List.filter_cons_of_neg (by simp [hpa]),
        List.filter_cons_of_neg hqa, List.cons_append, ← ih]
    · -- nothing behind `a` is below the range
      have hnone : l.filter p = [] := List.filter_eq_nil_iff.mpr fun b hb hpb =>
        hpa (hp.1 b (List.mem_cons_of_mem a hb) (ha b hb) hpb)
      rw [hnone, List.nil_append] at ih
      by_cases hqa : q a
      · have hall : ∀ b ∈ l, q b := fun b hb =>
          hq.1 b (List.mem_cons_of_mem a hb) (ha b hb) hqa
        have hmid : l.filter (fun b => !p b && !q b) = [] :=
          List.filter_eq_nil_iff.mpr fun b hb => by simp [hall b hb]
        rw [List.filter_cons_of_neg hpa, List.filter_cons_of_neg (by simp [hqa]),
          List.filter_cons_of_pos hqa, hnone, hmid, List.filter_eq_self.mpr hall]
        rfl
      · rw [List.filter_cons_of_neg hpa, List.filter_cons_of_pos (by simp [hpa, hqa]),
          List.filter_cons_of_neg hqa, hnone, List.nil_append, List.cons_append, ← ih]

end StableSort
