import Persista.Lib.Refinement
import Persista.Record.Dedup
import Persista.Record.UnionFind
import Mathlib.Data.List.Lex
import Mathlib.Order.Bounds.Basic
import Mathlib.Order.Fin.Basic

/-!
# Near-duplicate records

`record/analysis/near_dedup.py`. The metadata of a record is a set of `"key=value"` tokens. Its
MinHash signature has the least hash of the tokens for each seed, and -1 everywhere when there are
none. The signatures are cut into bands, and records with the same band, unless it starts with -1,
are joined.

The hash and the text of a value are parameters; the values are those that a text can be formatted
with. A hash is not negative, so -1 in a signature says that the metadata is empty.

`isLeast_minhashSignature` says what a signature is: at each seed, the least element of the set of
the hashes of the tokens.

## Bands and components

A band is walked once. Its buckets remember the first record with a piece of signature, and the
others are joined to that one: fewer pairs than those that agree on the band, with the same
components. `UnionFind.Classes` says that of the union-find: its classes are the components of a
relation.

## Main results

* `Analysis.unionBand_spec` — a band adds the pairs that agree on it
* `Analysis.near_duplicates_are_components` — the groups are the components with two records or more
-/

namespace Persista

namespace Analysis

open Json Grouping PointerForest Refinement

/-- What `find_near_duplicate_record_ids` raises. -/
inductive NearDedupError
  | zeroDivisionError
  | valueError (msg : String)
  | indexError

section Signature

variable {V : Type} (format : V → PyStr) (baseHash : PyStr → ℕ → ℕ)

/-- The tokens of the metadata, sorted by their keys. -/
def tokens (metadata : Dict PyStr V) : List PyStr :=
  metadata.sortedEntries.map fun item => item.1 ++ ofString "=" ++ format item.2

/-- `_minhash_signature(metadata, num_hashes)`. -/
def minhashSignature (metadata : Dict PyStr V) (numHashes : ℕ) : List ℤ :=
  match tokens format metadata with
  | [] => List.replicate numHashes (-1)
  | item :: items => (List.range numHashes).map fun seed =>
      ((items.foldl (fun least item => min least (baseHash item seed)) (baseHash item seed) : ℕ) :
        ℤ)

/-- The signatures of the records. -/
def signatures (records : List (Record V)) (numHashes : ℕ) : List (List ℤ) :=
  records.map fun record => minhashSignature format baseHash record.metadata numHashes

end Signature

/-! ### The bands -/

/-- One turn of the loop of `_union_band`, with the buckets and the parents of the union-find. -/
def unionBandStep (start stop : ℕ) (state : Dict (List ℤ) ℕ × List ℕ) (entry : List ℤ × ℕ) :
    Option (Dict (List ℤ) ℕ × List ℕ) := do
  if (← entry.1[start]?) = -1 then return state
  let bandKey := (entry.1.take stop).drop start
  match state.1.get? bandKey with
  | some j => return (state.1, ← UnionFind.union state.2 entry.2 j)
  | none => return (state.1.set bandKey entry.2, state.2)

/-- `_union_band(signatures, start, end, union_find)`. -/
def unionBand (signatures : List (List ℤ)) (start stop : ℕ) (parent : List ℕ) :
    Option (List ℕ) := do
  let state ← signatures.zipIdx.foldlM (unionBandStep start stop) (∅, parent)
  return state.2

/-! ### The groups -/

/-- `groups.setdefault(union_find.find(i), []).append(record_id)`. -/
def groupStep (state : Dict ℕ (List PyStr) × List ℕ) (entry : PyStr × ℕ) :
    Option (Dict ℕ (List PyStr) × List ℕ) := do
  let (parent, root) ← UnionFind.find state.2 entry.2
  return (push state.1 root entry.1, parent)

/-- The bands one after the other, and the groups of the ids. -/
def groupIds (ids : List PyStr) (signatures : List (List ℤ)) (numBands rowsPerBand : ℕ) :
    Option (List (List PyStr)) := do
  let parent ← (List.range numBands).foldlM
    (fun parent band => unionBand signatures (band * rowsPerBand) (band * rowsPerBand + rowsPerBand)
      parent) (UnionFind.init ids.length)
  let state ← ids.zipIdx.foldlM groupStep (∅, parent)
  return state.1.values.filter fun group => decide (1 < group.length)

/-- `find_near_duplicate_record_ids(records, num_hashes=..., num_bands=...)`. -/
def findNearDuplicateRecordIds {V : Type} (format : V → PyStr) (baseHash : PyStr → ℕ → ℕ)
    (records : List (Record V)) (numHashes numBands : ℕ) :
    Except NearDedupError (List (List PyStr)) :=
  if numBands = 0 then .error .zeroDivisionError
  else if numHashes % numBands ≠ 0 then
    .error (.valueError
      s!"num_hashes ({numHashes}) must be evenly divisible by num_bands ({numBands})")
  else
    match groupIds (records.map Record.id) (signatures format baseHash records numHashes) numBands
        (numHashes / numBands) with
    | some groups => .ok groups
    | none => .error .indexError

/-! ### What a band joins -/

section Band

variable (signatures : List (List ℤ)) (start stop : ℕ)

/-- The piece of a signature that a band looks at; `none` when the record is passed over. -/
def bandKey (i : ℕ) : Option (List ℤ) :=
  signatures[i]?.bind fun signature =>
    if signature[start]? = some (-1) then none else some ((signature.take stop).drop start)

/-- Two records have the same piece. -/
def Agree (i j : ℕ) : Prop :=
  ∃ key, bandKey signatures start stop i = some key ∧ bandKey signatures start stop j = some key

/-- After `k` turns: the pairs that agree are joined up to `k`, and a bucket has a record with its
key when there is one. -/
structure BandInv (n : ℕ) (E : ℕ → ℕ → Prop) (k : ℕ) (state : Dict (List ℤ) ℕ × List ℕ) : Prop where
  classes : UnionFind.Classes state.2 n fun a b =>
    E a b ∨ a < k ∧ b < k ∧ Agree signatures start stop a b
  bucket : ∀ key j, state.1.get? key = some j → j < k ∧ bandKey signatures start stop j = some key
  found : ∀ i < k, ∀ key, bandKey signatures start stop i = some key →
    ∃ j, state.1.get? key = some j

variable {signatures start stop} {n k : ℕ} {E : ℕ → ℕ → Prop}
  {state : Dict (List ℤ) ℕ × List ℕ}

theorem Agree.lt {i j : ℕ} (h : Agree signatures start stop i j) :
    i < signatures.length ∧ j < signatures.length := by
  have hlt : ∀ {i key}, bandKey signatures start stop i = some key → i < signatures.length := by
    intro i key hkey
    obtain ⟨signature, hget, -⟩ := Option.bind_eq_some_iff.mp hkey
    exact (List.getElem?_eq_some_iff.mp hget).1
  obtain ⟨key, hi, hj⟩ := h
  exact ⟨hlt hi, hlt hj⟩

/-- What was joined stays so in the next turn. -/
theorem eqvGen_succ {a b : ℕ} (h : E a b ∨ a < k ∧ b < k ∧ Agree signatures start stop a b) :
    Relation.EqvGen (fun a b => E a b ∨ a < k + 1 ∧ b < k + 1 ∧ Agree signatures start stop a b)
      a b := by
  rcases h with h | ⟨ha, hb, hagree⟩
  · exact .rel _ _ (.inl h)
  · exact .rel _ _ (.inr ⟨by omega, by omega, hagree⟩)

/-- A record that is passed over agrees with nothing. -/
theorem BandInv.skip (h : BandInv signatures start stop n E k state)
    (hkey : bandKey signatures start stop k = none) :
    BandInv signatures start stop n E (k + 1) state where
  classes := by
    refine h.classes.of_iff fun a b => or_congr_right ⟨?_, ?_⟩
    · rintro ⟨ha, hb, hagree⟩
      exact ⟨by omega, by omega, hagree⟩
    · rintro ⟨ha, hb, key, hka, hkb⟩
      have hne : ∀ {i}, bandKey signatures start stop i = some key → i ≠ k := by
        rintro i hi rfl
        exact absurd (hi.symm.trans hkey) (Option.some_ne_none key)
      have hak := hne hka
      have hbk := hne hkb
      exact ⟨by omega, by omega, key, hka, hkb⟩
  bucket key j hj := by
    obtain ⟨hlt, hkj⟩ := h.bucket key j hj
    exact ⟨by omega, hkj⟩
  found i hi key hik := by
    have hne : i ≠ k := by
      rintro rfl
      exact absurd (hik.symm.trans hkey) (Option.some_ne_none key)
    exact h.found i (by omega) key hik

/-- The first record with its key has its own bucket. -/
theorem BandInv.insert (h : BandInv signatures start stop n E k state) {key : List ℤ}
    (hkey : bandKey signatures start stop k = some key) (hnone : state.1.get? key = none) :
    BandInv signatures start stop n E (k + 1) (state.1.set key k, state.2) where
  classes := by
    have hfirst : ∀ i < k, bandKey signatures start stop i ≠ some key := by
      intro i hi hik
      obtain ⟨j, hj⟩ := h.found i hi key hik
      exact absurd (hj.symm.trans hnone) (Option.some_ne_none j)
    refine h.classes.congr (fun a b => eqvGen_succ) fun a b hab => ?_
    rcases hab with hab | ⟨ha, hb, key', hka, hkb⟩
    · exact .rel _ _ (.inl hab)
    · by_cases hak : a = k
      · subst hak
        obtain rfl := Option.some.inj (hka.symm.trans hkey)
        have hba : ¬ b < a := fun hlt => hfirst b hlt hkb
        obtain rfl : b = a := by omega
        exact .refl b
      · by_cases hbk : b = k
        · subst hbk
          obtain rfl := Option.some.inj (hkb.symm.trans hkey)
          exact absurd hka (hfirst a (by omega))
        · exact .rel _ _ (.inr ⟨by omega, by omega, key', hka, hkb⟩)
  bucket key' j hj := by
    rw [Dict.get?_set] at hj
    split at hj
    · next heq =>
      obtain rfl := Option.some.inj hj
      exact ⟨Nat.lt_succ_self _, heq ▸ hkey⟩
    · obtain ⟨hlt, hkj⟩ := h.bucket key' j hj
      exact ⟨by omega, hkj⟩
  found i hi key' hik := by
    rw [Dict.get?_set]
    split
    · exact ⟨k, rfl⟩
    · next hne =>
      have hik' : i ≠ k := by
        rintro rfl
        exact hne (Option.some.inj (hik.symm.trans hkey))
      exact h.found i (by omega) key' hik

/-- A later one is joined to the record of the bucket, and with it to all that agree with that. -/
theorem BandInv.join (h : BandInv signatures start stop n E k state) (hk : k < n) {key : List ℤ}
    (hkey : bandKey signatures start stop k = some key) {j : ℕ} (hj : state.1.get? key = some j) :
    ∃ parent', UnionFind.union state.2 k j = some parent' ∧
      BandInv signatures start stop n E (k + 1) (state.1, parent') := by
  obtain ⟨hjk, hkj⟩ := h.bucket key j hj
  obtain ⟨parent', hunion, hclasses⟩ := h.classes.union hk (hjk.trans hk)
  refine ⟨parent', hunion, hclasses.congr (fun a b hab => ?_) fun a b hab => ?_, ?_, ?_⟩
  · rcases hab with hab | ⟨rfl, rfl⟩
    · exact eqvGen_succ hab
    · exact .rel _ _ (.inr ⟨by omega, by omega, key, hkey, hkj⟩)
  · rcases hab with hab | ⟨ha, hb, key', hka, hkb⟩
    · exact .rel _ _ (.inl (.inl hab))
    · -- each of the two is an earlier record, or the new one, which is joined to `j`
      have hnew : ∀ {i}, i < k + 1 → bandKey signatures start stop i = some key →
          Relation.EqvGen (fun a b => (E a b ∨ a < k ∧ b < k ∧ Agree signatures start stop a b) ∨
            a = k ∧ b = j) i j := by
        intro i hi hik
        by_cases hik' : i = k
        · exact .rel _ _ (.inr ⟨hik', rfl⟩)
        · exact .rel _ _ (.inl (.inr ⟨by omega, hjk, key, hik, hkj⟩))
      by_cases hkk : key' = key
      · subst hkk
        exact (hnew ha hka).trans _ _ _ (hnew hb hkb).symm
      · have hne : ∀ {i}, bandKey signatures start stop i = some key' → i ≠ k := by
          rintro i hi rfl
          exact hkk (Option.some.inj (hi.symm.trans hkey))
        have hak := hne hka
        have hbk := hne hkb
        exact .rel _ _ (.inl (.inr ⟨by omega, by omega, key', hka, hkb⟩))
  · intro key' i hi
    obtain ⟨hlt, hki⟩ := h.bucket key' i hi
    exact ⟨by omega, hki⟩
  · intro i hi key' hik
    by_cases hik' : i = k
    · subst hik'
      obtain rfl := Option.some.inj (hik.symm.trans hkey)
      exact ⟨j, hj⟩
    · exact h.found i (by omega) key' hik

theorem unionBandStep_skip {entry : List ℤ × ℕ} (h : entry.1[start]? = some (-1)) :
    unionBandStep start stop state entry = some state := by
  simp [unionBandStep, h]

theorem unionBandStep_insert {entry : List ℤ × ℕ} {first : ℤ} (h : entry.1[start]? = some first)
    (hne : first ≠ -1) (hget : state.1.get? ((entry.1.take stop).drop start) = none) :
    unionBandStep start stop state entry =
      some (state.1.set ((entry.1.take stop).drop start) entry.2, state.2) := by
  simp [unionBandStep, h, hne, hget]

theorem unionBandStep_join {entry : List ℤ × ℕ} {first : ℤ} (h : entry.1[start]? = some first)
    (hne : first ≠ -1) {j : ℕ} (hget : state.1.get? ((entry.1.take stop).drop start) = some j) :
    unionBandStep start stop state entry =
      (UnionFind.union state.2 entry.2 j).map fun parent => (state.1, parent) := by
  simp only [unionBandStep, h, hget]
  cases UnionFind.union state.2 entry.2 j <;> simp [hne]

variable (start stop) in
/-- A band adds the pairs that agree on it. -/
theorem unionBand_spec {parent : List ℕ} (h : UnionFind.Classes parent signatures.length E)
    (hstart : ∀ signature ∈ signatures, start < signature.length) :
    ∃ parent', unionBand signatures start stop parent = some parent' ∧
      UnionFind.Classes parent' signatures.length fun a b =>
        E a b ∨ Agree signatures start stop a b := by
  have hzero : BandInv signatures start stop signatures.length E 0 (∅, parent) := by
    refine ⟨h.of_iff fun a b => ?_, ?_, ?_⟩
    · exact (or_iff_left fun hlt => Nat.not_lt_zero a hlt.1).symm
    · intro key j hj
      exact absurd hj.symm (Option.some_ne_none j)
    · intro i hi
      exact absurd hi (Nat.not_lt_zero i)
  obtain ⟨state, hfold, hinv⟩ := exists_foldlM (unionBandStep start stop)
    (BandInv signatures start stop signatures.length E) signatures.zipIdx hzero
    fun k hk state hinv => by
      rw [List.length_zipIdx] at hk
      rw [List.getElem_zipIdx, Nat.zero_add]
      have hlt := hstart signatures[k] (List.getElem_mem hk)
      have hfirst := List.getElem?_eq_getElem hlt
      have hkey : bandKey signatures start stop k = if signatures[k][start] = -1 then none else
          some ((signatures[k].take stop).drop start) := by
        rw [bandKey, List.getElem?_eq_getElem hk]
        simp [hfirst]
      by_cases hskip : signatures[k][start] = -1
      · rw [if_pos hskip] at hkey
        exact ⟨state, unionBandStep_skip (by rw [hfirst, hskip]), hinv.skip hkey⟩
      · rw [if_neg hskip] at hkey
        cases hget : state.1.get? ((signatures[k].take stop).drop start) with
        | none => exact ⟨_, unionBandStep_insert hfirst hskip hget, hinv.insert hkey hget⟩
        | some j =>
          obtain ⟨parent', hunion, hinv'⟩ := hinv.join hk hkey hget
          refine ⟨_, ?_, hinv'⟩
          rw [unionBandStep_join hfirst hskip hget, hunion]
          rfl
  refine ⟨state.2, ?_, hinv.classes.of_iff fun a b => or_congr_right ⟨?_, fun hagree => ?_⟩⟩
  · rw [unionBand, hfold]
    rfl
  · rintro ⟨-, -, hagree⟩
    exact hagree
  · obtain ⟨ha, hb⟩ := hagree.lt
    rw [List.length_zipIdx]
    exact ⟨ha, hb, hagree⟩

end Band

/-- All bands: the components of the pairs that agree on some band. -/
theorem bands_spec {signatures : List (List ℤ)} {numBands r : ℕ} (hr : 0 < r)
    (hlen : ∀ signature ∈ signatures, signature.length = numBands * r) :
    ∃ parent, (List.range numBands).foldlM
        (fun parent band => unionBand signatures (band * r) (band * r + r) parent)
        (UnionFind.init signatures.length) = some parent ∧
      UnionFind.Classes parent signatures.length fun a b =>
        ∃ band < numBands, Agree signatures (band * r) (band * r + r) a b := by
  obtain ⟨parent, hfold, hclasses⟩ := exists_foldlM
    (fun parent band => unionBand signatures (band * r) (band * r + r) parent)
    (fun k parent => UnionFind.Classes parent signatures.length fun a b =>
      ∃ band < k, Agree signatures (band * r) (band * r + r) a b)
    (List.range numBands)
    ((UnionFind.classes_init signatures.length).congr (fun _ _ hf => hf.elim) fun a b hab => by
      obtain ⟨band, hlt, -⟩ := hab
      exact absurd hlt (Nat.not_lt_zero band))
    fun k hk parent hclasses => by
      rw [List.length_range] at hk
      rw [List.getElem_range]
      have hstart : ∀ signature ∈ signatures, k * r < signature.length := by
        intro signature hmem
        rw [hlen signature hmem]
        exact Nat.mul_lt_mul_of_pos_right hk hr
      obtain ⟨parent', hband, hclasses'⟩ := unionBand_spec (k * r) (k * r + r) hclasses hstart
      refine ⟨parent', hband, hclasses'.of_iff fun a b => ⟨?_, ?_⟩⟩
      · rintro (⟨band, hlt, hagree⟩ | hagree)
        · exact ⟨band, by omega, hagree⟩
        · exact ⟨k, Nat.lt_succ_self k, hagree⟩
      · rintro ⟨band, hlt, hagree⟩
        by_cases hbk : band = k
        · exact .inr (hbk ▸ hagree)
        · exact .inl ⟨band, by omega, hagree⟩
  rw [List.length_range] at hclasses
  exact ⟨parent, hfold, hclasses⟩

/-! ### The groups of the ids -/

/-- The groups are those of the components: `root` is what `find` returns. -/
theorem groups_spec {ids : List PyStr} {parent : List ℕ} {E : ℕ → ℕ → Prop}
    (h : UnionFind.Classes parent ids.length E) :
    ∃ (state : Dict ℕ (List PyStr) × List ℕ) (root : ℕ → ℕ),
      ids.zipIdx.foldlM groupStep (∅, parent) = some state ∧
      (∀ i j, root i = root j ↔ Relation.EqvGen E i j) ∧
      state.1 = groupAll (ids.zipIdx.map fun entry => (root entry.2, entry.1)) := by
  choose height root hclimb using h.wellFormed.forest
  obtain ⟨state, hfold, hinv⟩ := exists_foldlM groupStep
    (fun k (state : Dict ℕ (List PyStr) × List ℕ) =>
      state.1 = groupAll ((ids.zipIdx.take k).map fun entry => (root entry.2, entry.1)) ∧
        UnionFind.WellFormed state.2 ∧ state.2.length = ids.length ∧
        Shortens (UnionFind.up parent) (UnionFind.up state.2))
    ids.zipIdx (s := (∅, parent)) ⟨rfl, h.wellFormed, h.length_eq, .refl _⟩
    fun k hk state ⟨hgroups, hwf, hlen, hshort⟩ => by
      have hk' : k < ids.length := by rw [List.length_zipIdx] at hk; exact hk
      obtain ⟨parent', r, n, hfind, hclimb', hwf', hlen', hshort'⟩ :=
        UnionFind.find_spec hwf (hlen ▸ hk')
      obtain ⟨n', -, hclimb''⟩ := hshort _ _ _ (hclimb k)
      obtain ⟨-, rfl⟩ := hclimb'.unique hclimb''
      refine ⟨(push state.1 (root k) ids[k], parent'), ?_, ?_, hwf', hlen'.trans hlen,
        hshort.trans hshort'⟩
      · rw [List.getElem_zipIdx, Nat.zero_add, groupStep, hfind]
        rfl
      · rw [List.take_succ_eq_append_getElem hk, List.map_append, List.map_singleton,
          groupAll_append_singleton, ← hgroups, List.getElem_zipIdx, Nat.zero_add]
  rw [List.take_length] at hinv
  refine ⟨state, root, hfold, fun i j => ?_, hinv.1⟩
  rw [← h.same_iff, (hclimb i).same_iff (hclimb j)]

/-! ### Signatures -/

section Records

variable {V : Type} (format : V → PyStr) (baseHash : PyStr → ℕ → ℕ)

theorem length_minhashSignature (metadata : Dict PyStr V) (numHashes : ℕ) :
    (minhashSignature format baseHash metadata numHashes).length = numHashes := by
  rw [minhashSignature]
  split
  · exact List.length_replicate
  · rw [List.length_map, List.length_range]

theorem tokens_eq_nil_iff {metadata : Dict PyStr V} :
    tokens format metadata = [] ↔ metadata.entries = [] := by
  rw [tokens, List.map_eq_nil_iff]
  constructor
  · intro h
    exact List.nil_perm.mp (h ▸ Dict.perm_sortedEntries metadata)
  · intro h
    exact List.perm_nil.mp (h ▸ Dict.perm_sortedEntries metadata)

/-- The least value of a function on a list, found item by item. -/
theorem isLeast_foldl_min {α : Type} (f : α → ℕ) (a : α) (l : List α) :
    IsLeast {n | ∃ x ∈ a :: l, f x = n} (l.foldl (fun least x => min least (f x)) (f a)) := by
  induction l generalizing a with
  | nil =>
    refine ⟨⟨a, List.mem_singleton.mpr rfl, rfl⟩, ?_⟩
    rintro n ⟨x, hx, rfl⟩
    rw [List.mem_singleton.mp hx]
    exact le_refl (f a)
  | cons b l ih =>
    rw [List.foldl_cons]
    rcases le_total (f a) (f b) with hab | hba
    · rw [min_eq_left hab]
      obtain ⟨⟨x, hx, hfx⟩, hleast⟩ := ih a
      refine ⟨⟨x, ?_, hfx⟩, ?_⟩
      · rcases List.mem_cons.mp hx with rfl | hx
        · exact List.mem_cons_self
        · exact List.mem_cons_of_mem _ (List.mem_cons_of_mem _ hx)
      · rintro n ⟨y, hy, rfl⟩
        rcases List.mem_cons.mp hy with rfl | hy
        · exact hleast ⟨y, List.mem_cons_self, rfl⟩
        · rcases List.mem_cons.mp hy with rfl | hy
          · exact (hleast ⟨a, List.mem_cons_self, rfl⟩).trans hab
          · exact hleast ⟨y, List.mem_cons_of_mem _ hy, rfl⟩
    · rw [min_eq_right hba]
      obtain ⟨⟨x, hx, hfx⟩, hleast⟩ := ih b
      refine ⟨⟨x, List.mem_cons_of_mem _ hx, hfx⟩, ?_⟩
      rintro n ⟨y, hy, rfl⟩
      rcases List.mem_cons.mp hy with rfl | hy
      · exact (hleast ⟨b, List.mem_cons_self, rfl⟩).trans hba
      · exact hleast ⟨y, hy, rfl⟩

/-- The hashes of the tokens of some metadata, for a seed. -/
def hashes (metadata : Dict PyStr V) (seed : ℕ) : Set ℕ :=
  {h | ∃ item ∈ metadata.entries, baseHash (item.1 ++ ofString "=" ++ format item.2) seed = h}

theorem hashes_eq (metadata : Dict PyStr V) (seed : ℕ) :
    hashes format baseHash metadata seed =
      {h | ∃ token ∈ tokens format metadata, baseHash token seed = h} := by
  ext h
  constructor
  · rintro ⟨item, hitem, rfl⟩
    exact ⟨_, List.mem_map_of_mem ((Dict.perm_sortedEntries metadata).mem_iff.mpr hitem), rfl⟩
  · rintro ⟨token, htoken, rfl⟩
    obtain ⟨item, hitem, rfl⟩ := List.mem_map.mp htoken
    exact ⟨item, (Dict.perm_sortedEntries metadata).mem_iff.mp hitem, rfl⟩

/-- **A signature is a minimum** at each of its positions: the least hash of the tokens for that
seed. -/
theorem isLeast_minhashSignature {metadata : Dict PyStr V} (hne : metadata.entries ≠ [])
    {numHashes seed : ℕ} (hseed : seed < numHashes) :
    ∃ least : ℕ, IsLeast (hashes format baseHash metadata seed) least ∧
      (minhashSignature format baseHash metadata numHashes)[seed]? = some (least : ℤ) := by
  rw [hashes_eq, minhashSignature]
  split
  · next h => exact absurd ((tokens_eq_nil_iff format).mp h) hne
  · next item items h =>
    rw [h, List.getElem?_map, List.getElem?_range hseed]
    exact ⟨_, isLeast_foldl_min (baseHash · seed) item items, rfl⟩

/-- A signature has -1 somewhere when the metadata is empty, and then everywhere. -/
theorem getElem?_signature_eq_neg_one_iff {metadata : Dict PyStr V} {numHashes k : ℕ}
    (hk : k < numHashes) :
    (minhashSignature format baseHash metadata numHashes)[k]? = some (-1) ↔
      metadata.entries = [] := by
  by_cases hne : metadata.entries = []
  · rw [minhashSignature, (tokens_eq_nil_iff format).mpr hne]
    simp [hne, hk]
  · obtain ⟨least, -, hget⟩ := isLeast_minhashSignature format baseHash hne hk
    rw [hget, Option.some.injEq]
    exact iff_of_false (by omega) hne

/-- Two signatures agree at a position when the two least hashes are the same. -/
theorem getElem?_signature_eq_iff {metadata metadata' : Dict PyStr V} {numHashes k : ℕ}
    (hne : metadata.entries ≠ []) (hne' : metadata'.entries ≠ []) (hk : k < numHashes) :
    (minhashSignature format baseHash metadata numHashes)[k]? =
        (minhashSignature format baseHash metadata' numHashes)[k]? ↔
      ∃ least, IsLeast (hashes format baseHash metadata k) least ∧
        IsLeast (hashes format baseHash metadata' k) least := by
  obtain ⟨least, hleast, hget⟩ := isLeast_minhashSignature format baseHash hne hk
  obtain ⟨least', hleast', hget'⟩ := isLeast_minhashSignature format baseHash hne' hk
  rw [hget, hget', Option.some.injEq, Int.natCast_inj]
  constructor
  · rintro rfl
    exact ⟨least, hleast, hleast'⟩
  · rintro ⟨n, hn, hn'⟩
    exact (hleast.unique hn).trans (hleast'.unique hn').symm

/-- Both records have metadata, and their signatures agree on all positions of some band: the least
hash for the seed of the position is the same. -/
def Near (records : List (Record V)) (numBands r i j : ℕ) : Prop :=
  ∃ a b, records[i]? = some a ∧ records[j]? = some b ∧
    a.metadata.entries ≠ [] ∧ b.metadata.entries ≠ [] ∧
    ∃ band < numBands, ∀ k < r, ∃ least,
      IsLeast (hashes format baseHash a.metadata (band * r + k)) least ∧
        IsLeast (hashes format baseHash b.metadata (band * r + k)) least

/-- A piece of a list, by its positions. -/
theorem piece_eq_iff {X : Type} {l l' : List X} {start r : ℕ} :
    (l.take (start + r)).drop start = (l'.take (start + r)).drop start ↔
      ∀ k < r, l[start + k]? = l'[start + k]? := by
  have hget : ∀ (l : List X) (k : ℕ), ((l.take (start + r)).drop start)[k]? =
      if k < r then l[start + k]? else none := by
    intro l k
    rw [List.getElem?_drop, List.getElem?_take]
    split <;> split <;> first | rfl | omega
  constructor
  · intro h k hk
    have hk' := congrArg (·[k]?) h
    simp only [hget, if_pos hk] at hk'
    exact hk'
  · intro h
    refine List.ext_getElem? fun k => ?_
    rw [hget, hget]
    split
    · next hk => exact h k hk
    · rfl

variable {format baseHash}

theorem bandKey_eq_some_iff {records : List (Record V)} {numHashes start stop i : ℕ}
    (hstart : start < numHashes) {key : List ℤ} :
    bandKey (signatures format baseHash records numHashes) start stop i = some key ↔
      ∃ a, records[i]? = some a ∧ a.metadata.entries ≠ [] ∧
        ((minhashSignature format baseHash a.metadata numHashes).take stop).drop start = key := by
  rw [bandKey, signatures, List.getElem?_map, Option.bind_eq_some_iff]
  simp only [Option.map_eq_some_iff, exists_exists_and_eq_and,
    getElem?_signature_eq_neg_one_iff format baseHash hstart]
  refine exists_congr fun a => and_congr_right fun _ => ?_
  by_cases h : a.metadata.entries = [] <;> simp [h]

variable (format baseHash) in
/-- What the bands join are near-duplicates. -/
theorem agree_iff_near {records : List (Record V)} {numBands r i j : ℕ} (hr : 0 < r) :
    (∃ band < numBands,
      Agree (signatures format baseHash records (numBands * r)) (band * r) (band * r + r) i j) ↔
      Near format baseHash records numBands r i j := by
  have hstart : ∀ band < numBands, band * r < numBands * r := fun band hband =>
    Nat.mul_lt_mul_of_pos_right hband hr
  have hpiece : ∀ a b : Record V, a.metadata.entries ≠ [] → b.metadata.entries ≠ [] →
      ∀ band < numBands,
      (((minhashSignature format baseHash a.metadata (numBands * r)).take (band * r + r)).drop
          (band * r) =
        ((minhashSignature format baseHash b.metadata (numBands * r)).take (band * r + r)).drop
          (band * r) ↔
        ∀ k < r, ∃ least, IsLeast (hashes format baseHash a.metadata (band * r + k)) least ∧
          IsLeast (hashes format baseHash b.metadata (band * r + k)) least) := by
    intro a b hane hbne band hband
    rw [piece_eq_iff]
    refine forall₂_congr fun k hk => getElem?_signature_eq_iff format baseHash hane hbne ?_
    calc band * r + k < band * r + r := Nat.add_lt_add_left hk _
      _ = (band + 1) * r := (Nat.succ_mul band r).symm
      _ ≤ numBands * r := Nat.mul_le_mul_right r hband
  constructor
  · rintro ⟨band, hband, key, hi, hj⟩
    obtain ⟨a, ha, hane, hakey⟩ := (bandKey_eq_some_iff (hstart band hband)).mp hi
    obtain ⟨b, hb, hbne, hbkey⟩ := (bandKey_eq_some_iff (hstart band hband)).mp hj
    exact ⟨a, b, ha, hb, hane, hbne, band, hband,
      (hpiece a b hane hbne band hband).mp (hakey.trans hbkey.symm)⟩
  · rintro ⟨a, b, ha, hb, hane, hbne, band, hband, heq⟩
    exact ⟨band, hband, _,
      (bandKey_eq_some_iff (hstart band hband)).mpr
        ⟨a, ha, hane, (hpiece a b hane hbne band hband).mpr heq⟩,
      (bandKey_eq_some_iff (hstart band hband)).mpr ⟨b, hb, hbne, rfl⟩⟩

variable (format baseHash) in
/-- The function returns the components of the near-duplicates. -/
theorem findNearDuplicateRecordIds_spec (records : List (Record V)) {numBands r : ℕ}
    (hb : 1 ≤ numBands) (hr : 1 ≤ r) :
    ∃ (ids : List (List PyStr)) (groups : List (List ℕ)),
      findNearDuplicateRecordIds format baseHash records (numBands * r) numBands = .ok ids ∧
      ids.map (List.map some) = groups.map (idsAt records) ∧
      IsGrouping records.length
        (Relation.EqvGen (Near format baseHash records numBands r)) groups := by
  have hlen : ∀ signature ∈ signatures format baseHash records (numBands * r),
      signature.length = numBands * r := by
    intro signature hmem
    obtain ⟨record, -, rfl⟩ := List.mem_map.mp hmem
    exact length_minhashSignature format baseHash record.metadata (numBands * r)
  obtain ⟨parent, hbands, hclasses⟩ := bands_spec hr hlen
  have hn : (signatures format baseHash records (numBands * r)).length =
      (records.map Record.id).length := by
    rw [signatures, List.length_map, List.length_map]
  rw [hn] at hbands hclasses
  obtain ⟨state, root, hfold, hroot, hstate⟩ := groups_spec hclasses
  have hitem : ∀ i : ℕ,
      ((records.map Record.id).zipIdx.map fun entry => (root entry.2, entry.1))[i]? =
      records[i]?.map fun record => (root i, record.id) := by
    intro i
    rw [List.getElem?_map, List.getElem?_zipIdx, List.getElem?_map, Nat.zero_add, Option.map_map,
      Option.map_map]
    rfl
  have hgroups := filter_values_groupAll
    ((records.map Record.id).zipIdx.map fun entry => (root entry.2, entry.1))
  rw [← hstate] at hgroups
  simp only [hitem, Option.map_map, Function.comp_def, List.length_map, List.length_zipIdx]
    at hgroups
  refine ⟨state.1.values.filter fun group => decide (1 < group.length),
    groupsOf (fun i => records[i]?.map fun _ => root i) records.length, ?_, hgroups,
    isGrouping_groupsOf fun i hi j hj => ?_⟩
  · have hdiv : numBands * r / numBands = r := Nat.mul_div_cancel_left r hb
    have hmod : numBands * r % numBands = 0 := Nat.mul_mod_right numBands r
    have hne : numBands ≠ 0 := by omega
    have hids : groupIds (records.map Record.id) (signatures format baseHash records (numBands * r))
        numBands r = some (state.1.values.filter fun group => decide (1 < group.length)) := by
      rw [groupIds, hbands]
      show ((records.map Record.id).zipIdx.foldlM groupStep (∅, parent)).bind _ = _
      rw [hfold]
      rfl
    rw [findNearDuplicateRecordIds, if_neg hne, if_neg (not_not.mpr hmod), hdiv, hids]
  · rw [List.getElem?_eq_getElem hi, List.getElem?_eq_getElem hj, Option.map_some, Option.map_some,
      Option.some.injEq, hroot]
    simp only [agree_iff_near format baseHash hr]

/-- Records that change places stay near-duplicates of the same ones. -/
theorem connected_transport {records records' : List (Record V)} {numBands r : ℕ} (σ : Equiv.Perm ℕ)
    (hσ : ∀ i, records'[σ i]? = records[i]?) (i j : ℕ) :
    Relation.EqvGen (Near format baseHash records' numBands r) (σ i) (σ j) ↔
      Relation.EqvGen (Near format baseHash records numBands r) i j := by
  have hnear : ∀ a b, Near format baseHash records' numBands r (σ a) (σ b) ↔
      Near format baseHash records numBands r a b := by
    intro a b
    simp only [Near, hσ]
  constructor
  · intro h
    have hback := eqvGen_map (f := σ.symm) (F := Near format baseHash records numBands r)
      (fun a b hab => (hnear _ _).mp (by simpa using hab)) h
    simpa using hback
  · exact eqvGen_map fun a b hab => (hnear a b).mpr hab

/-- The groups are the components of the near-duplicates with two records or more, in the order of
their first records, and so they are after the records have changed places. -/
theorem near_duplicates_are_components (format : V → PyStr) (baseHash : PyStr → ℕ → ℕ)
    (records : List (Record V)) {numBands r : ℕ} (hb : 1 ≤ numBands) (hr : 1 ≤ r) :
    ∃ (ids : List (List PyStr)) (groups : List (List ℕ)),
      findNearDuplicateRecordIds format baseHash records (numBands * r) numBands = .ok ids ∧
      ids.map (List.map some) = groups.map (idsAt records) ∧
      IsGrouping records.length
        (Relation.EqvGen (Near format baseHash records numBands r)) groups ∧
      ∀ (σ : Equiv.Perm ℕ) (records' : List (Record V)), (∀ i, records'[σ i]? = records[i]?) →
        ∃ (ids' : List (List PyStr)) (groups' : List (List ℕ)),
          findNearDuplicateRecordIds format baseHash records' (numBands * r) numBands = .ok ids' ∧
          ids'.map (List.map some) = groups'.map (idsAt records') ∧
          (∀ g ∈ groups, ∃ g' ∈ groups', ∀ i, i ∈ g ↔ σ i ∈ g') ∧
          ∀ g' ∈ groups', ∃ g ∈ groups, ∀ i, i ∈ g ↔ σ i ∈ g' := by
  obtain ⟨ids, groups, hok, hids, hgrouping⟩ :=
    findNearDuplicateRecordIds_spec format baseHash records hb hr
  refine ⟨ids, groups, hok, hids, hgrouping, fun σ records' hσ => ?_⟩
  obtain ⟨ids', groups', hok', hids', hgrouping'⟩ :=
    findNearDuplicateRecordIds_spec format baseHash records' hb hr
  have hn : ∀ i, σ i < records'.length ↔ i < records.length := by
    intro i
    rw [← not_le, ← not_le, ← List.getElem?_eq_none_iff, ← List.getElem?_eq_none_iff, hσ]
  refine ⟨ids', groups', hok', hids', fun g hg => ?_, fun g' hg' => ?_⟩
  · exact hgrouping.transport hgrouping' σ hn (connected_transport σ hσ) hg
  · have hσ' : ∀ i, records[σ.symm i]? = records'[i]? := fun i => by
      rw [← hσ, Equiv.apply_symm_apply]
    obtain ⟨g, hg, hmem⟩ := hgrouping'.transport hgrouping σ.symm
      (fun i => by rw [← hn, Equiv.apply_symm_apply]) (connected_transport σ.symm hσ') hg'
    refine ⟨g, hg, fun i => ?_⟩
    rw [hmem, Equiv.symm_apply_apply]

end Records

/-! ### Three records of one group -/

/-- A hash of texts. -/
def rollingHash (item : PyStr) (seed : ℕ) : ℕ :=
  item.foldl (fun h c => (14 * h + c.val) % 101) seed

/-- A page of a source. -/
def pageRecord (id page source : String) : Record PyStr :=
  ⟨ofString id, Dict.ofList [(ofString "page", ofString page),
    (ofString "source", ofString source)]⟩

/-- The first and the second have their source in common, the second and the third their page. The
fourth has nothing in common with them, and the last has no metadata. -/
def fiveRecords : List (Record PyStr) :=
  [pageRecord "a" "1" "x", pageRecord "b" "2" "x", pageRecord "c" "2" "y", pageRecord "d" "3" "z",
    ⟨ofString "e", ∅⟩]

/-- Two bands of two hashes. The first record and the third agree on none of them, and they are in
one group through the second. -/
theorem near_duplicates_are_components_three :
    findNearDuplicateRecordIds id rollingHash fiveRecords (2 * 2) 2 =
        .ok [[ofString "a", ofString "b", ofString "c"]] ∧
      ¬ Near id rollingHash fiveRecords 2 2 0 2 ∧
      ∃ groups : List (List ℕ),
        [[some (ofString "a"), some (ofString "b"), some (ofString "c")]] =
          groups.map (idsAt fiveRecords) ∧
        IsGrouping fiveRecords.length
          (Relation.EqvGen (Near id rollingHash fiveRecords 2 2)) groups := by
  obtain ⟨ids, groups, hok, hids, hgrouping, -⟩ := near_duplicates_are_components id rollingHash
    fiveRecords (by decide : 1 ≤ 2) (by decide : 1 ≤ 2)
  have hrun : (findNearDuplicateRecordIds id rollingHash fiveRecords (2 * 2) 2).toOption =
      some [[ofString "a", ofString "b", ofString "c"]] := by decide
  rw [hok] at hrun
  obtain rfl := Option.some.inj hrun
  refine ⟨hok, ?_, groups, hids, hgrouping⟩
  rintro ⟨a, c, ha, hc, hane, hcne, band, hband, hnear⟩
  obtain rfl := Option.some.inj ha
  obtain rfl := Option.some.inj hc
  have hagree := (getElem?_signature_eq_iff id rollingHash hane hcne
    (show band * 2 + 0 < 4 by omega)).mpr (hnear 0 (by decide))
  obtain rfl | rfl : band = 0 ∨ band = 1 := by omega
  · revert hagree
    decide
  · revert hagree
    decide

end Analysis

end Persista
