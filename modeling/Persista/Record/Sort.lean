import Mathlib
import Persista.Lib.StableSort
import Persista.Record.RecordStore

/-!
# `sort_by_metadata` and the filters

`record/sort.py` and `record/filter.py`. Values are compared with `<`, a parameter; where it raises
or is no order (a `str` and an `int`, a NaN) nothing is said. Where the values of the key and the
bounds can be compared with each other they have ranks.

Sorting is stable in both directions, and records without the key come last in both. So it is the
stable sort by the place of a record, which is the rank of its value or the place after all ranks,
and it goes well with everything that looks at records one at a time.

## Main results

* `Records.sortByMetadata_eq_sortBy` — the stable sort by the place
* `Records.sort_by_metadata_law` — what determines the sorted records, filtered or not
* `Records.sort_twice_law` — two sorts, one after the other
* `Records.range_block_law` — `filter_by_metadata_range` on sorted records
-/

namespace Persista

namespace Records

open Json StableSort

variable {K L M : Type} [LinearOrder L] [LinearOrder M] (lt : PyVal → PyVal → Bool)

/-! ### The functions -/

/-- `records.sort(key=lambda r: r.metadata[metadata_key], reverse=reverse)`, which keeps the order
of what is equal; with `reverse`, too. -/
def sortPresent (metadataKey : PyStr) (reverse : Bool) (records : List (Record K)) :
    List (Record K) :=
  let value (r : Record K) := (r.metadata.get? metadataKey).getD .none
  if reverse then
    (records.reverse.insertionSort fun a b => lt (value b) (value a) = false).reverse
  else records.insertionSort fun a b => lt (value b) (value a) = false

/-- `sort_by_metadata(records, metadata_key, keep_missing, reverse)`. -/
def sortByMetadata (records : List (Record K)) (metadataKey : PyStr) (keepMissing reverse : Bool) :
    List (Record K) :=
  let present := sortPresent lt metadataKey reverse
    (records.filter fun r => (r.metadata.get? metadataKey).isSome)
  if keepMissing then
    present ++ records.filter fun r => (r.metadata.get? metadataKey).isNone
  else present

/-- `lower is not None and value < lower`. -/
def below (lower value : PyVal) : Bool :=
  match lower with
  | .none => false
  | lower => lt value lower

/-- `upper is not None and value > upper`. -/
def above (upper value : PyVal) : Bool :=
  match upper with
  | .none => false
  | upper => lt upper value

/-- `filter_by_metadata_range(records, metadata_key, lower, upper)`. -/
def filterByMetadataRange (records : List (Record K)) (metadataKey : PyStr) (lower upper : PyVal) :
    List (Record K) :=
  records.filter fun r =>
    match r.metadata.get? metadataKey with
    | none => false
    | some value => !below lt lower value && !above lt upper value

/-! ### Ranks and places -/

/-- The values that records have for a key. -/
def ValueOf (records : List (Record K)) (metadataKey : PyStr) (v : PyVal) : Prop :=
  ∃ r ∈ records, r.metadata.get? metadataKey = some v

/-- These values can be compared with each other, and compare as their ranks do: upwards, or
downwards. -/
def Ranked (reverse : Bool) (rank : PyVal → L) (values : PyVal → Prop) : Prop :=
  ∀ v w, values v → values w → ((if reverse then lt w v else lt v w) ↔ rank v < rank w)

/-- Where a record goes: to the rank of its value, or behind all ranks. -/
def place (rank : PyVal → L) (metadataKey : PyStr) (r : Record K) : WithTop L :=
  match r.metadata.get? metadataKey with
  | some v => (rank v : WithTop L)
  | none => ⊤

variable {lt} {rank : PyVal → L} {metadataKey : PyStr} {records : List (Record K)} {reverse : Bool}

omit [LinearOrder L] in
theorem place_eq_top_iff {r : Record K} :
    place rank metadataKey r = ⊤ ↔ (r.metadata.get? metadataKey).isNone := by
  rw [place]
  cases r.metadata.get? metadataKey with
  | none => simp
  | some v => simp

/-- One comparison. -/
theorem Ranked.lt_eq_false_iff (h : Ranked lt reverse rank (ValueOf records metadataKey))
    (hpresent : ∀ r ∈ records, (r.metadata.get? metadataKey).isSome) {a b : Record K}
    (ha : a ∈ records) (hb : b ∈ records) :
    (if reverse then
        lt ((a.metadata.get? metadataKey).getD .none)
          ((b.metadata.get? metadataKey).getD .none) = false
      else
        lt ((b.metadata.get? metadataKey).getD .none)
          ((a.metadata.get? metadataKey).getD .none) = false) ↔
      place rank metadataKey a ≤ place rank metadataKey b := by
  obtain ⟨v, hv⟩ := Option.isSome_iff_exists.mp (hpresent a ha)
  obtain ⟨w, hw⟩ := Option.isSome_iff_exists.mp (hpresent b hb)
  have hwv := h w v ⟨b, hb, hw⟩ ⟨a, ha, hv⟩
  rw [place, place, hv, hw, Option.getD_some, Option.getD_some, WithTop.coe_le_coe, ← not_lt, ← hwv]
  cases reverse with
  | false => simp
  | true => simp

/-- The records that have the key, sorted. -/
theorem sortPresent_eq (h : Ranked lt reverse rank (ValueOf records metadataKey))
    (hpresent : ∀ r ∈ records, (r.metadata.get? metadataKey).isSome) :
    sortPresent lt metadataKey reverse records = sortBy (place rank metadataKey) records := by
  have hle := fun (a : Record K) ha (b : Record K) hb => h.lt_eq_false_iff hpresent
    (a := a) (b := b) ha hb
  cases reverse with
  | false => exact insertionSort_eq_sortBy hle
  | true =>
    rw [← reverse_sortBy_toDual]
    refine congrArg List.reverse (insertionSort_eq_sortBy fun a ha b hb => ?_)
    exact hle b (List.mem_reverse.mp hb) a (List.mem_reverse.mp ha)

theorem Ranked.mono {values values' : PyVal → Prop} (h : Ranked lt reverse rank values)
    (hsub : ∀ v, values' v → values v) : Ranked lt reverse rank values' :=
  fun v w hv hw => h v w (hsub v hv) (hsub w hw)

/-- Of sorted records those without the key come last. -/
theorem present_append_missing
    (h : records.Pairwise fun a b => place rank metadataKey a ≤ place rank metadataKey b) :
    records = records.filter (fun r => (r.metadata.get? metadataKey).isSome) ++
      records.filter fun r => (r.metadata.get? metadataKey).isNone := by
  have hlast : ∀ a ∈ records, ∀ b ∈ records,
      place rank metadataKey a ≤ place rank metadataKey b →
      (a.metadata.get? metadataKey).isNone → (b.metadata.get? metadataKey).isNone := by
    intro a _ b _ hab ha
    rw [← place_eq_top_iff] at ha ⊢
    rwa [ha, top_le_iff] at hab
  have hsplit := split_of_sorted (p := fun r => (r.metadata.get? metadataKey).isSome)
    (q := fun r => (r.metadata.get? metadataKey).isNone)
    (fun a ha b hb hab hpresent => by
      by_contra hnone
      have hnone := hlast a ha b hb hab (by simpa using hnone)
      simp only [Option.isNone_iff_eq_none] at hnone
      simp [hnone] at hpresent)
    hlast (fun a ha hnone => by simp_all) h
  have hmid : records.filter (fun r => !(r.metadata.get? metadataKey).isSome &&
      !(r.metadata.get? metadataKey).isNone) = [] :=
    List.filter_eq_nil_iff.mpr fun r _ => by
      cases r.metadata.get? metadataKey <;> simp
  rw [hmid, List.nil_append] at hsplit
  exact hsplit

/-- Those without the key keep their order. -/
theorem filter_sortBy_missing (rank : PyVal → L) (metadataKey : PyStr) (records : List (Record K)) :
    (sortBy (place rank metadataKey) records).filter
        (fun r => (r.metadata.get? metadataKey).isNone) =
      records.filter fun r => (r.metadata.get? metadataKey).isNone := by
  have hmissing : (fun r : Record K => (r.metadata.get? metadataKey).isNone) =
      fun r => decide (place rank metadataKey r = ⊤) := by
    funext r
    rw [Bool.eq_iff_iff, decide_eq_true_iff, place_eq_top_iff]
  rw [hmissing]
  exact filter_class_sortBy (place rank metadataKey) ⊤ records

/-- **The stable sort by the place.** -/
theorem sortByMetadata_eq_sortBy (h : Ranked lt reverse rank (ValueOf records metadataKey)) :
    sortByMetadata lt records metadataKey true reverse =
      sortBy (place rank metadataKey) records := by
  have hsub : Ranked lt reverse rank (ValueOf
      (records.filter fun r => (r.metadata.get? metadataKey).isSome) metadataKey) :=
    h.mono fun _ ⟨r, hr, hv⟩ => ⟨r, (List.mem_filter.mp hr).1, hv⟩
  rw [sortByMetadata]
  simp only [if_true]
  rw [sortPresent_eq hsub fun r hr => (List.mem_filter.mp hr).2, ← filter_sortBy,
    ← filter_sortBy_missing rank metadataKey records]
  exact (present_append_missing (pairwise_sortBy (place rank metadataKey) records)).symm

/-- Without the missing ones. -/
theorem sortByMetadata_false (h : Ranked lt reverse rank (ValueOf records metadataKey)) :
    sortByMetadata lt records metadataKey false reverse =
      sortBy (place rank metadataKey)
        (records.filter fun r => (r.metadata.get? metadataKey).isSome) :=
  sortPresent_eq (h.mono fun _ ⟨r, hr, hv⟩ => ⟨r, (List.mem_filter.mp hr).1, hv⟩)
    fun _ hr => (List.mem_filter.mp hr).2

/-! ### The laws -/

/-- The values of records that are among others. -/
theorem valueOf_mono {records' : List (Record K)} (hsub : ∀ r ∈ records', r ∈ records) (v : PyVal)
    (h : ValueOf records' metadataKey v) : ValueOf records metadataKey v := by
  obtain ⟨r, hr, hv⟩ := h
  exact ⟨r, hsub r hr, hv⟩

/-- Filtering first or last. -/
theorem sortByMetadata_filter (h : Ranked lt reverse rank (ValueOf records metadataKey))
    (keepMissing : Bool) (p : Record K → Bool) :
    sortByMetadata lt (records.filter p) metadataKey keepMissing reverse =
      (sortByMetadata lt records metadataKey keepMissing reverse).filter p := by
  have hsub := h.mono (valueOf_mono fun r hr => (List.mem_filter (p := p).mp hr).1)
  cases keepMissing with
  | true => rw [sortByMetadata_eq_sortBy h, sortByMetadata_eq_sortBy hsub, filter_sortBy]
  | false =>
    rw [sortByMetadata_false h, sortByMetadata_false hsub, filter_sortBy, List.filter_comm]

/-- **What determines the sorted records.** When the values can be compared, the result of
`sort_by_metadata` is the one list in which each record is at its place or after, those without the
key at the end, and in which the records of one place are in the order they had; without the missing
ones it is the first part of that list. It makes no difference whether records are filtered first or
last. -/
theorem sort_by_metadata_law (h : Ranked lt reverse rank (ValueOf records metadataKey)) :
    (∀ result, sortByMetadata lt records metadataKey true reverse = result ↔
      (result.Pairwise fun a b => place rank metadataKey a ≤ place rank metadataKey b) ∧
        ∀ x, (result.filter fun r => decide (place rank metadataKey r = x)) =
          records.filter fun r => decide (place rank metadataKey r = x)) ∧
      sortByMetadata lt records metadataKey true reverse =
        sortByMetadata lt records metadataKey false reverse ++
          records.filter (fun r => (r.metadata.get? metadataKey).isNone) ∧
      ∀ keepMissing (p : Record K → Bool),
        sortByMetadata lt (records.filter p) metadataKey keepMissing reverse =
          (sortByMetadata lt records metadataKey keepMissing reverse).filter p := by
  refine ⟨fun result => ?_, rfl, sortByMetadata_filter h⟩
  rw [sortByMetadata_eq_sortBy h, eq_comm]
  exact eq_sortBy_iff

/-- **Sorting twice**, by a second key and then by the first, each in its own direction: the one
list that is sorted by the first key, by the second one where the first does not tell, and has the
records that neither tells apart in the order they had. -/
theorem sort_twice_law {metadataKey' : PyStr} {reverse' : Bool} {rank' : PyVal → M}
    (h : Ranked lt reverse rank (ValueOf records metadataKey))
    (h' : Ranked lt reverse' rank' (ValueOf records metadataKey')) (result : List (Record K)) :
    sortByMetadata lt (sortByMetadata lt records metadataKey' true reverse') metadataKey true
        reverse = result ↔
      (result.Pairwise fun a b => place rank metadataKey a < place rank metadataKey b ∨
        place rank metadataKey a = place rank metadataKey b ∧
          place rank' metadataKey' a ≤ place rank' metadataKey' b) ∧
      ∀ x : WithTop L ×ₗ WithTop M,
        (result.filter fun r =>
          decide (toLex (place rank metadataKey r, place rank' metadataKey' r) = x)) =
        records.filter fun r =>
          decide (toLex (place rank metadataKey r, place rank' metadataKey' r) = x) := by
  have hsub := h.mono (valueOf_mono fun r hr =>
    (perm_sortBy (place rank' metadataKey') records).mem_iff.mp hr)
  rw [sortByMetadata_eq_sortBy h', sortByMetadata_eq_sortBy hsub, sortBy_sortBy, eq_comm,
    eq_sortBy_iff]
  simp only [Prod.Lex.toLex_le_toLex]

/-- `lower` and `upper` where they are not `None`. -/
def IsBound (lower upper v : PyVal) : Prop := v ≠ .none ∧ (v = lower ∨ v = upper)

/-- The record has a value that is too low. -/
def isBelow (lt : PyVal → PyVal → Bool) (metadataKey : PyStr) (lower : PyVal) (r : Record K) :
    Bool :=
  match r.metadata.get? metadataKey with
  | some v => below lt lower v
  | none => false

/-- The record has no value, or one that is too high and not too low. -/
def isBehind (lt : PyVal → PyVal → Bool) (metadataKey : PyStr) (lower upper : PyVal)
    (r : Record K) : Bool :=
  match r.metadata.get? metadataKey with
  | some v => above lt upper v && !below lt lower v
  | none => true

section Range

variable {lower upper : PyVal} {values : PyVal → Prop}

theorem below_iff (h : Ranked lt false rank values) (hbound : ∀ v, IsBound lower upper v → values v)
    {v : PyVal} (hv : values v) : below lt lower v ↔ lower ≠ .none ∧ rank v < rank lower := by
  by_cases hlower : lower = .none
  · subst hlower
    simp [below]
  · have hlt := h v lower hv (hbound lower ⟨hlower, .inl rfl⟩)
    cases lower <;> simp_all [below]

theorem above_iff (h : Ranked lt false rank values) (hbound : ∀ v, IsBound lower upper v → values v)
    {v : PyVal} (hv : values v) : above lt upper v ↔ upper ≠ .none ∧ rank upper < rank v := by
  by_cases hupper : upper = .none
  · subst hupper
    simp [above]
  · have hlt := h upper v (hbound upper ⟨hupper, .inr rfl⟩) hv
    cases upper <;> simp_all [above]

/-- What is below a range, by places. -/
theorem isBelow_iff (h : Ranked lt false rank values)
    (hbound : ∀ v, IsBound lower upper v → values v)
    {r : Record K} (hr : ∀ v, r.metadata.get? metadataKey = some v → values v) :
    isBelow lt metadataKey lower r ↔
      lower ≠ .none ∧ place rank metadataKey r < (rank lower : WithTop L) := by
  rw [isBelow, place]
  cases hv : r.metadata.get? metadataKey with
  | none => simp
  | some v => simpa using below_iff h hbound (hr v hv)

/-- What is above a range, by places. -/
theorem isBehind_iff (h : Ranked lt false rank values)
    (hbound : ∀ v, IsBound lower upper v → values v) {r : Record K}
    (hr : ∀ v, r.metadata.get? metadataKey = some v → values v) :
    isBehind lt metadataKey lower upper r ↔
      (place rank metadataKey r = ⊤ ∨
        upper ≠ .none ∧ (rank upper : WithTop L) < place rank metadataKey r) ∧
      ¬ isBelow lt metadataKey lower r := by
  rw [isBehind, isBelow, place]
  cases hv : r.metadata.get? metadataKey with
  | none => simp
  | some v => simpa using fun _ => above_iff h hbound (hr v hv)

/-- **A range of sorted records** is a block of them: first come the records that are below it, then
`filter_by_metadata_range`, then those that are above it and those without the key. -/
theorem range_block_law
    (h : Ranked lt false rank fun v => ValueOf records metadataKey v ∨ IsBound lower upper v) :
    sortByMetadata lt records metadataKey true false =
      (sortByMetadata lt records metadataKey true false).filter
          (isBelow lt metadataKey lower) ++
        (filterByMetadataRange lt (sortByMetadata lt records metadataKey true false) metadataKey
            lower upper ++
          (sortByMetadata lt records metadataKey true false).filter
            (isBehind lt metadataKey lower upper)) := by
  have hranked : Ranked lt false rank (ValueOf records metadataKey) := h.mono fun _ => .inl
  have hvalue : ∀ r ∈ sortBy (place rank metadataKey) records, ∀ v,
      r.metadata.get? metadataKey = some v →
        ValueOf records metadataKey v ∨ IsBound lower upper v := fun r hr v hv =>
    .inl ⟨r, (perm_sortBy (place rank metadataKey) records).mem_iff.mp hr, hv⟩
  rw [sortByMetadata_eq_sortBy hranked]
  have hsplit := split_of_sorted (p := isBelow lt metadataKey lower)
    (q := isBehind lt metadataKey lower upper) ?_ ?_ ?_
    (pairwise_sortBy (place rank metadataKey) records)
  · refine hsplit.trans (congrArg (_ ++ ·) (congrArg (· ++ _) (List.filter_congr fun r _ => ?_)))
    rw [isBelow, isBehind]
    cases r.metadata.get? metadataKey with
    | none => rfl
    | some v =>
      show (!below lt lower v && !(above lt upper v && !below lt lower v)) =
        (!below lt lower v && !above lt upper v)
      cases below lt lower v <;> cases above lt upper v <;> rfl
  · intro a ha b hb hab hbelow
    rw [isBelow_iff h (fun _ => .inr) (hvalue b hb)] at hbelow
    exact (isBelow_iff h (fun _ => .inr) (hvalue a ha)).mpr ⟨hbelow.1, hab.trans_lt hbelow.2⟩
  · intro a ha b hb hab hbehind
    rw [isBehind_iff h (fun _ => .inr) (hvalue a ha)] at hbehind
    refine (isBehind_iff h (fun _ => .inr) (hvalue b hb)).mpr ⟨?_, fun hbelow => hbehind.2 ?_⟩
    · rcases hbehind.1 with htop | ⟨hupper, hlt⟩
      · exact .inl (top_le_iff.mp (htop ▸ hab))
      · exact .inr ⟨hupper, hlt.trans_le hab⟩
    · rw [isBelow_iff h (fun _ => .inr) (hvalue b hb)] at hbelow
      exact (isBelow_iff h (fun _ => .inr) (hvalue a ha)).mpr ⟨hbelow.1, hab.trans_lt hbelow.2⟩
  · intro r hbelow hbehind
    rw [isBelow] at hbelow
    rw [isBehind] at hbehind
    cases hv : r.metadata.get? metadataKey with
    | none => simp [hv] at hbelow
    | some v => simp_all

end Range

/-! ### Pages of two books -/

section Pages

/-- `<` on integers. -/
def intLt : PyVal → PyVal → Bool
  | .int v, .int w => decide (v < w)
  | _, _ => false

def intRank : PyVal → ℤ
  | .int n => n
  | _ => 0

theorem ranked_intLt {values : PyVal → Prop} (h : ∀ v, values v → ∃ n, v = .int n) :
    Ranked intLt false intRank values ∧ Ranked intLt true (fun v => -intRank v) values := by
  refine ⟨fun v w hv hw => ?_, fun v w hv hw => ?_⟩
  · obtain ⟨n, rfl⟩ := h v hv
    obtain ⟨m, rfl⟩ := h w hw
    simp [intLt, intRank]
  · obtain ⟨n, rfl⟩ := h v hv
    obtain ⟨m, rfl⟩ := h w hw
    simp [intLt, intRank]

/-- A record with a page, and one without. -/
def bookPage (id : ℕ) (book n : ℤ) : Record ℕ :=
  ⟨id, .ofList [(ofString "book", .int book), (ofString "page", .int n)]⟩

def wholeBook (id : ℕ) (book : ℤ) : Record ℕ := ⟨id, .ofList [(ofString "book", .int book)]⟩

def bookPages : List (Record ℕ) :=
  [bookPage 1 2 5, wholeBook 2 1, bookPage 3 1 5, bookPage 4 1 3, bookPage 5 2 3]

theorem valueOf_bookPages {key : PyStr} (hkey : key = ofString "book" ∨ key = ofString "page")
    (v : PyVal) (h : ValueOf bookPages key v) : ∃ n, v = .int n := by
  obtain ⟨r, hr, hv⟩ := h
  simp only [bookPages, List.mem_cons, List.not_mem_nil, or_false] at hr
  rcases hkey with rfl | rfl
  all_goals
    rcases hr with rfl | rfl | rfl | rfl | rfl
    all_goals first
      | exact ⟨_, (Option.some.inj hv).symm⟩
      | cases hv

/-- Downwards, with a record filtered out. -/
theorem sort_by_metadata_law_pages :
    sortByMetadata intLt (bookPages.filter fun r => r.id ≠ 4) (ofString "page") true true =
      (sortByMetadata intLt bookPages (ofString "page") true true).filter fun r => r.id ≠ 4 :=
  (sort_by_metadata_law (ranked_intLt (valueOf_bookPages (.inr rfl))).2).2.2 true _

/-- By book, and the pages of a book downwards. -/
theorem sort_twice_law_pages :
    (sortByMetadata intLt (sortByMetadata intLt bookPages (ofString "page") true true)
      (ofString "book") true false).Pairwise fun a b =>
        place intRank (ofString "book") a < place intRank (ofString "book") b ∨
          place intRank (ofString "book") a = place intRank (ofString "book") b ∧
            place (fun v => -intRank v) (ofString "page") a ≤
              place (fun v => -intRank v) (ofString "page") b :=
  ((sort_twice_law (ranked_intLt (valueOf_bookPages (.inl rfl))).1
    (ranked_intLt (valueOf_bookPages (.inr rfl))).2 _).mp rfl).1

/-- From page 4 on. -/
theorem range_block_law_pages :
    sortByMetadata intLt bookPages (ofString "page") true false =
      (sortByMetadata intLt bookPages (ofString "page") true false).filter
          (isBelow intLt (ofString "page") (.int 4)) ++
        (filterByMetadataRange intLt
            (sortByMetadata intLt bookPages (ofString "page") true false) (ofString "page")
            (.int 4) .none ++
          (sortByMetadata intLt bookPages (ofString "page") true false).filter
            (isBehind intLt (ofString "page") (.int 4) .none)) := by
  refine range_block_law (ranked_intLt fun v hv => ?_).1
  rcases hv with hv | ⟨hne, hv⟩
  · exact valueOf_bookPages (.inr rfl) v hv
  · rcases hv with rfl | rfl
    · exact ⟨4, rfl⟩
    · exact absurd rfl hne

end Pages

end Records

end Persista
