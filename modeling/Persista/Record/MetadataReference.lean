import Persista.Record.MetadataStats
import Mathlib.Data.List.TakeWhile

/-!
# `MetadataStats` against its reference

What `MetadataStats` should report of a stream is said of the values of each key: how many there
are, of what types, how many of them are `None` or empty, the first distinct ones, and whether one
was left out of these.

## The sample

The sample has the first distinct values before the first that cannot be hashed. It has stopped when
a value has no `__hash__` or when there are more candidates than it may have, and from then on no
value changes it. A value that has a `__hash__` and cannot be hashed is tolerated there, and raises
before. `Tolerated` is that condition, on the values alone.

The report sorts the sample by `str`, and is made when each value of the sample has one
(`Sortable`). A sample only grows, so that is a condition on the sample of the whole stream.

## Main results

* `Analysis.MetadataStats.add_ofValues` — one value, against the reference of its key
* `Analysis.MetadataStats.updateAll_spec` — a stream, and when it raises
* `Analysis.MetadataStats.update_matches_reference_iff` — when the report after each prefix is the
  one of the reference
-/

namespace Persista

namespace Analysis

open Json

namespace MetadataStats

variable {V Ty : Type} (py : Objects V Ty)

/-! ### The reference of one key -/

/-- As many values as the sample may have. -/
def takeSample (nSampleValues : Option ℕ) (values : List V) : List V :=
  match nSampleValues with
  | none => values
  | some n => values.take n

/-- The distinct values before the first that cannot be hashed. -/
def candidates (values : List V) : List V := Tally.distinct py.same (values.takeWhile py.hashes)

/-- There are more of these values than the sample may have. -/
def overflows (nSampleValues : Option ℕ) (values : List V) : Bool :=
  match nSampleValues with
  | none => false
  | some n => decide (n < values.length)

/-- The sampling has stopped: a value has no `__hash__`, or there are more values than the sample
may have. -/
def stopped (nSampleValues : Option ℕ) (values : List V) : Bool :=
  values.any (fun v => !py.isHashable v) || overflows nSampleValues (candidates py values)

/-- Each value that has a `__hash__` and cannot be hashed comes when the sampling has stopped. -/
def Tolerated (nSampleValues : Option ℕ) (values : List V) : Prop :=
  ∀ before v after, values = before ++ v :: after → py.isHashable v = true → py.hashes v = false →
    stopped py nSampleValues before = true

/-- What the statistics of a key should be. -/
def KeyStats.ofValues (nSampleValues : Option ℕ) (values : List V) : KeyStats V where
  present := values.length
  types := Tally.distinct (fun name name' => decide (name = name'))
    (values.map fun v => py.typeName (py.typeOf v))
  nones := values.countP fun v => py.isNone v || py.isEmptyStr v
  sample := takeSample nSampleValues (candidates py values)
  truncated := stopped py nSampleValues values

variable {py} {nSampleValues : Option ℕ} {values : List V}

/-- A value is a candidate when no value before it is in the way. -/
theorem candidates_append_of_hashes (h : ∀ w ∈ values, py.hashes w = true) {v : V}
    (hv : py.hashes v = true) :
    candidates py (values ++ [v]) = Tally.addNew py.same (candidates py values) v := by
  have hall : values.takeWhile py.hashes = values := List.takeWhile_eq_self_iff.mpr h
  have hone : [v].takeWhile py.hashes = [v] := by simp [hv]
  rw [candidates, candidates, List.takeWhile_append, hall, if_pos rfl, hone,
    Tally.distinct_append_singleton]

theorem candidates_append_of_not {v : V}
    (h : (∃ w ∈ values, py.hashes w = false) ∨ py.hashes v = false) :
    candidates py (values ++ [v]) = candidates py values := by
  rw [candidates, candidates, List.takeWhile_append]
  split
  · next hlen =>
    have hall : values.takeWhile py.hashes = values :=
      (List.takeWhile_sublist py.hashes).eq_of_length hlen
    have hv : py.hashes v = false := by
      refine h.resolve_left ?_
      rintro ⟨w, hw, hfalse⟩
      have htrue := List.takeWhile_eq_self_iff.mp hall w hw
      exact Bool.false_ne_true (hfalse.symm.trans htrue)
    rw [hall, show [v].takeWhile py.hashes = [] by simp [hv], List.append_nil]
  · rfl

variable (py) in
theorem exists_candidates_append (values : List V) (v : V) :
    ∃ more, candidates py (values ++ [v]) = candidates py values ++ more := by
  by_cases h : (∃ w ∈ values, py.hashes w = false) ∨ py.hashes v = false
  · exact ⟨[], by rw [candidates_append_of_not h, List.append_nil]⟩
  · simp only [not_or, not_exists, not_and, Bool.not_eq_false] at h
    rw [candidates_append_of_hashes h.1 h.2]
    exact Tally.exists_addNew _ _ v

theorem overflows_append {values : List V} (h : overflows nSampleValues values = true)
    (more : List V) : overflows nSampleValues (values ++ more) = true ∧
      takeSample nSampleValues (values ++ more) = takeSample nSampleValues values := by
  cases nSampleValues with
  | none => exact absurd h Bool.false_ne_true
  | some n =>
    have hlt : n < values.length := of_decide_eq_true h
    refine ⟨decide_eq_true ?_, ?_⟩
    · rw [List.length_append]
      omega
    · rw [takeSample, takeSample, List.take_append_of_le_length (by omega)]

/-- Once the sampling has stopped it stays so, and so does the sample. -/
theorem stopped_append (h : stopped py nSampleValues values = true) (v : V) :
    stopped py nSampleValues (values ++ [v]) = true ∧
      takeSample nSampleValues (candidates py (values ++ [v])) =
        takeSample nSampleValues (candidates py values) := by
  rw [stopped, List.any_append]
  rcases (Bool.or_eq_true _ _).mp h with hany | hover
  · refine ⟨by rw [hany]; rfl, ?_⟩
    obtain ⟨w, hw, hnot⟩ := List.any_eq_true.mp hany
    have hfalse : py.hashes w = false := by
      by_contra htrue
      rw [Bool.not_eq_false] at htrue
      rw [py.isHashable_of_hashes w htrue] at hnot
      exact Bool.false_ne_true hnot
    rw [candidates_append_of_not (.inl ⟨w, hw, hfalse⟩)]
  · obtain ⟨more, hmore⟩ := exists_candidates_append py values v
    obtain ⟨hover', htake⟩ := overflows_append hover more
    rw [hmore, hover', Bool.or_true]
    exact ⟨rfl, htake⟩

theorem stopped_append_list (h : stopped py nSampleValues values = true) (more : List V) :
    stopped py nSampleValues (values ++ more) = true := by
  induction more using List.reverseRecOn with
  | nil => rwa [List.append_nil]
  | append_singleton more v ih =>
    rw [← List.append_assoc]
    exact (stopped_append ih v).1

theorem tolerated_append_iff {v : V} :
    Tolerated py nSampleValues (values ++ [v]) ↔ Tolerated py nSampleValues values ∧
      (py.isHashable v = true → py.hashes v = false → stopped py nSampleValues values = true) := by
  constructor
  · intro h
    refine ⟨fun before w after hsplit => ?_, fun hv => h values v [] rfl hv⟩
    exact h before w (after ++ [v]) (by rw [hsplit, List.append_assoc, List.cons_append])
  · rintro ⟨h, hv⟩ before w after hsplit
    rcases List.eq_nil_or_concat after with rfl | ⟨after, x, rfl⟩
    · obtain ⟨rfl, hw⟩ := List.append_inj' hsplit rfl
      rw [← List.singleton_injective hw]
      exact hv
    · have hsplit' : values ++ [v] = (before ++ w :: after) ++ [x] := by
        rw [hsplit]
        simp
      exact h before w after (List.append_inj' hsplit' rfl).1

/-- As long as the sampling goes on, every value can be hashed. -/
theorem hashes_of_not_stopped (h : Tolerated py nSampleValues values)
    (hgo : stopped py nSampleValues values = false) : ∀ v ∈ values, py.hashes v = true := by
  intro v hv
  obtain ⟨before, after, rfl⟩ := List.append_of_mem hv
  by_contra hfalse
  rw [Bool.not_eq_true] at hfalse
  have hnot : stopped py nSampleValues (before ++ v :: after) = true := by
    cases hhash : py.isHashable v with
    | true => exact stopped_append_list (h before v after rfl hhash hfalse) _
    | false =>
      rw [stopped, List.any_append, List.any_cons, hhash]
      simp
  exact Bool.false_ne_true (hgo.symm.trans hnot)

theorem takeSample_nil (nSampleValues : Option ℕ) :
    takeSample nSampleValues ([] : List V) = [] := by
  cases nSampleValues with
  | none => rfl
  | some n => exact List.take_nil

/-- As long as the sampling goes on, the sample has every candidate. -/
theorem takeSample_of_not_overflows {values : List V} (h : overflows nSampleValues values = false) :
    takeSample nSampleValues values = values := by
  cases nSampleValues with
  | none => rfl
  | some n =>
    have hle : ¬ n < values.length := of_decide_eq_false h
    exact List.take_of_length_le (by omega)

/-- The counters of a key. -/
theorem countValue_ofValues (v : V) :
    (KeyStats.ofValues py nSampleValues values).countValue py v =
      { KeyStats.ofValues py nSampleValues (values ++ [v]) with
        sample := takeSample nSampleValues (candidates py values)
        truncated := stopped py nSampleValues values } := by
  have hpresent : (values ++ [v]).length = values.length + 1 := List.length_append
  have hnones : (values ++ [v]).countP (fun v => py.isNone v || py.isEmptyStr v) =
      if py.isNone v || py.isEmptyStr v then
        values.countP (fun v => py.isNone v || py.isEmptyStr v) + 1
      else values.countP (fun v => py.isNone v || py.isEmptyStr v) := by
    rw [List.countP_append, List.countP_singleton]
    split <;> rfl
  have htypes : Tally.distinct (fun name name' => decide (name = name'))
      ((values ++ [v]).map fun v => py.typeName (py.typeOf v)) =
      Tally.addNew (fun name name' => decide (name = name'))
        (Tally.distinct (fun name name' => decide (name = name'))
          (values.map fun v => py.typeName (py.typeOf v))) (py.typeName (py.typeOf v)) := by
    rw [List.map_append, List.map_singleton, Tally.distinct_append_singleton]
  rw [KeyStats.countValue, KeyStats.ofValues, KeyStats.ofValues, hpresent, hnones, htypes]

theorem ofValues_eq {sample : List V} {truncated : Bool}
    (hs : sample = takeSample nSampleValues (candidates py values))
    (ht : truncated = stopped py nSampleValues values) :
    ({ KeyStats.ofValues py nSampleValues values with sample := sample, truncated := truncated } :
      KeyStats V) = KeyStats.ofValues py nSampleValues values := by
  rw [hs, ht]
  rfl

variable (nSampleValues) in
/-- A value that cannot be hashed raises wherever it is looked for. -/
theorem isNewAndFull_or_addTo_raises (sample : List V) {v : V} (hv : py.hashes v = false) :
    isNewAndFull py nSampleValues sample v = .error .unhashable ∨
      isNewAndFull py nSampleValues sample v = .ok false ∧
        addTo py sample v = .error .unhashable := by
  have hadd : addTo py sample v = .error .unhashable := by rw [addTo, hv]; rfl
  cases nSampleValues with
  | none => exact .inr ⟨rfl, hadd⟩
  | some n =>
    rw [isNewAndFull, contains, hv]
    by_cases hn : n ≤ sample.length
    · exact .inl (if_pos hn)
    · exact .inr ⟨if_neg hn, hadd⟩

/-- A value that can be hashed is left out of a full sample when it is new. -/
theorem isNewAndFull_of_hashes (sample : List V) {v : V} (hv : py.hashes v = true) :
    isNewAndFull py nSampleValues sample v =
      .ok (!sample.any (py.same · v) && overflows nSampleValues (sample ++ [v])) := by
  cases nSampleValues with
  | none => rw [isNewAndFull, overflows, Bool.and_false]
  | some n =>
    rw [isNewAndFull, overflows, contains, hv, List.length_append, List.length_singleton]
    by_cases hn : n ≤ sample.length
    · rw [if_pos hn, decide_eq_true (by omega), Bool.and_true]
      rfl
    · rw [if_neg hn, decide_eq_false (by omega), Bool.and_false]

/-- The sampling goes on with a value that can be hashed. -/
theorem sampleValue_of_hashes (h : Tolerated py nSampleValues values)
    (hgo : stopped py nSampleValues values = false) {v : V} (hv : py.hashes v = true)
    {ks : KeyStats V} (hks : ks.sample = candidates py values) (htr : ks.truncated = false) :
    ks.sampleValue py nSampleValues v =
      ({ ks with
        sample := takeSample nSampleValues (candidates py (values ++ [v]))
        truncated := stopped py nSampleValues (values ++ [v]) }, .ok ()) := by
  obtain ⟨present, types, nones, sample, truncated⟩ := ks
  obtain rfl : sample = candidates py values := hks
  obtain rfl : truncated = false := htr
  obtain ⟨hhashable, hover⟩ := Bool.or_eq_false_iff.mp hgo
  have hcand := candidates_append_of_hashes (hashes_of_not_stopped h hgo) hv
  have hstop : stopped py nSampleValues (values ++ [v]) =
      overflows nSampleValues (Tally.addNew py.same (candidates py values) v) := by
    rw [stopped, List.any_append, hhashable, hcand, List.any_cons, py.isHashable_of_hashes v hv]
    rfl
  rw [KeyStats.sampleValue, py.isHashable_of_hashes v hv, isNewAndFull_of_hashes _ hv, hstop,
    hcand, Tally.addNew]
  simp only [Bool.not_true, Bool.false_eq_true, if_false]
  cases hold : (candidates py values).any (py.same · v) with
  | true =>
    -- the value is in the sample
    have hadd : addTo py (candidates py values) v = .ok (candidates py values) := by
      rw [addTo, if_pos hv, Tally.addNew, if_pos hold]
    rw [hadd, Bool.not_true, Bool.false_and, if_pos rfl, takeSample_of_not_overflows hover, hover]
  | false =>
    have hadd : addTo py (candidates py values) v = .ok (candidates py values ++ [v]) := by
      rw [addTo, if_pos hv, Tally.addNew, hold]
      rfl
    rw [hadd, Bool.not_false, Bool.true_and, if_neg Bool.false_ne_true]
    cases hnew : overflows nSampleValues (candidates py values ++ [v]) with
    | true =>
      -- the sample is full
      have htake : takeSample nSampleValues (candidates py values ++ [v]) =
          candidates py values := by
        cases nSampleValues with
        | none => exact absurd hnew Bool.false_ne_true
        | some n =>
          have hlt : n < (candidates py values ++ [v]).length := of_decide_eq_true hnew
          have hle : ¬ n < (candidates py values).length := of_decide_eq_false hover
          rw [List.length_append, List.length_singleton] at hlt
          exact List.take_left' (by omega)
      rw [htake]
    | false => rw [takeSample_of_not_overflows hnew]

/-- **One value of a key.** It raises when it is not tolerated, and otherwise the statistics go on
to be those of the values. -/
theorem add_ofValues (h : Tolerated py nSampleValues values) (v : V) :
    (((KeyStats.ofValues py nSampleValues values).add py nSampleValues v).2 = .ok () ↔
      Tolerated py nSampleValues (values ++ [v])) ∧
    (((KeyStats.ofValues py nSampleValues values).add py nSampleValues v).2 = .ok () →
      ((KeyStats.ofValues py nSampleValues values).add py nSampleValues v).1 =
        KeyStats.ofValues py nSampleValues (values ++ [v])) := by
  rw [tolerated_append_iff, and_iff_right h, KeyStats.add, countValue_ofValues]
  simp only []
  cases hgo : stopped py nSampleValues values with
  | true =>
    obtain ⟨hstop, htake⟩ := stopped_append hgo v
    refine ⟨iff_of_true rfl fun _ _ => rfl, fun _ => ?_⟩
    exact ofValues_eq htake.symm hstop.symm
  | false =>
    rw [if_neg Bool.false_ne_true]
    have hsample := takeSample_of_not_overflows (Bool.or_eq_false_iff.mp hgo).2
    rw [hsample]
    cases hv : py.hashes v with
    | true =>
      rw [sampleValue_of_hashes h hgo hv rfl rfl]
      refine ⟨iff_of_true rfl fun _ hfalse => absurd hfalse.symm Bool.false_ne_true, fun _ => ?_⟩
      exact ofValues_eq rfl rfl
    | false =>
      rw [KeyStats.sampleValue]
      cases hhash : py.isHashable v with
      | false =>
        refine ⟨iff_of_true rfl fun hfalse => absurd hfalse Bool.false_ne_true, fun _ => ?_⟩
        refine ofValues_eq ?_ ?_
        · rw [candidates_append_of_not (.inr hv), hsample]
        · rw [stopped, List.any_append, List.any_cons, hhash]
          simp
      | true =>
        simp only [Bool.not_true, Bool.false_eq_true, if_false]
        rcases isNewAndFull_or_addTo_raises nSampleValues (candidates py values) hv with
          hraise | ⟨hold, hraise⟩
        · rw [hraise]
          exact ⟨iff_of_false error_ne_ok (by simp), fun hok => absurd hok error_ne_ok⟩
        · rw [hold, hraise]
          exact ⟨iff_of_false error_ne_ok (by simp), fun hok => absurd hok error_ne_ok⟩

/-! ### What is left out of the sample -/

/-- The sampling has stopped when a value was left out of the sample. -/
theorem stopped_iff (h : Tolerated py nSampleValues values) :
    stopped py nSampleValues values = true ↔ ∃ v ∈ values, ¬ (py.hashes v = true ∧
      ∃ w ∈ takeSample nSampleValues (candidates py values), py.same w v = true) := by
  constructor
  · intro hstop
    rcases (Bool.or_eq_true _ _).mp hstop with hany | hover
    · obtain ⟨v, hv, hnot⟩ := List.any_eq_true.mp hany
      refine ⟨v, hv, fun hhash => ?_⟩
      rw [py.isHashable_of_hashes v hhash.1] at hnot
      exact Bool.false_ne_true hnot
    · cases nSampleValues with
      | none => exact absurd hover Bool.false_ne_true
      | some n =>
        -- the candidate after those of the sample
        have hlt : n < (candidates py values).length := of_decide_eq_true hover
        have hmem : (candidates py values)[n] ∈ values :=
          (List.takeWhile_sublist py.hashes).subset
            ((Tally.distinct_covers py.equivalence _).2 _ (List.getElem_mem hlt))
        refine ⟨_, hmem, fun hin => ?_⟩
        obtain ⟨w, hw, hsame⟩ := hin.2
        obtain ⟨i, hi, rfl⟩ := List.mem_take_iff_getElem.mp hw
        have hpair : (candidates py values).Pairwise fun v w => py.same v w = false :=
          Tally.pairwise_distinct _ _
        have hne := List.pairwise_iff_getElem.mp hpair i n (by omega) hlt (by omega)
        exact Bool.false_ne_true (hne.symm.trans hsame)
  · rintro ⟨v, hv, hout⟩
    by_contra hgo
    rw [Bool.not_eq_true] at hgo
    have hall := hashes_of_not_stopped h hgo
    refine hout ⟨hall v hv, ?_⟩
    rw [takeSample_of_not_overflows (Bool.or_eq_false_iff.mp hgo).2, candidates,
      List.takeWhile_eq_self_iff.mpr hall]
    exact (Tally.distinct_covers py.equivalence values).1 v hv

/-! ### The reference of a stream -/

/-- The least of some numbers. -/
def IsMin (ns : List ℕ) : Option ℕ → Prop
  | none => ns = []
  | some m => m ∈ ns ∧ ∀ n ∈ ns, m ≤ n

/-- The greatest of some numbers. -/
def IsMax (ns : List ℕ) : Option ℕ → Prop
  | none => ns = []
  | some m => m ∈ ns ∧ ∀ n ∈ ns, n ≤ m

variable (py nSampleValues)

/-- What the report says of a key with these values. -/
structure IsKeyReport (count : ℕ) (values : List V) (report : KeyReport V) : Prop where
  present : report.presentInRecords = values.length
  missing : report.presentInRecords + report.missingInRecords = count
  types : ∃ names : List PyStr, names.Nodup ∧
    (∀ name, name ∈ names ↔ ∃ v ∈ values, py.typeName (py.typeOf v) = name) ∧
    report.valueTypes = sortedBy id names
  nones : report.noneOrEmptyCount = values.countP fun v => py.isNone v || py.isEmptyStr v
  sample : ∃ sample : List V, sample.Perm (takeSample nSampleValues (candidates py values)) ∧
    report.uniqueValuesSample = sortedBy py.text sample
  truncated : report.uniqueValuesSampleTruncated = true ↔
    ∃ v ∈ values, ¬ (py.hashes v = true ∧ ∃ w ∈ report.uniqueValuesSample, py.same w v = true)

/-- What the report says of these records. -/
structure IsReport (records : List (Record V)) (report : Report V) : Prop where
  count : report.count = records.length
  missing : report.missingMetadataCount =
    records.countP fun record => decide (record.metadata.entries = [])
  avgKeys : report.avgKeys = if records.length ≠ 0 then
    ((records.flatMap fun record => record.metadata.entries).length : ℚ) / records.length else 0
  minKeys : IsMin (records.map fun record => record.metadata.length) report.minKeys
  maxKeys : IsMax (records.map fun record => record.metadata.length) report.maxKeys
  keys : ∃ keys : List PyStr, keys.Nodup ∧ (∀ key, key ∈ keys ↔ valuesOf records key ≠ []) ∧
    report.perKey.keys = sortedBy id keys ∧ report.distinctKeysSeen = keys.length
  perKey : ∀ key keyReport, report.perKey.get? key = some keyReport →
    IsKeyReport py nSampleValues records.length (valuesOf records key) keyReport

/-- The statistics are those of the records. -/
structure Reads (records : List (Record V)) (s : MetadataStats V) : Prop where
  cap : s.nSampleValues = nSampleValues
  count : s.count = records.length
  missing : s.missingMetadataCount =
    records.countP fun record => decide (record.metadata.entries = [])
  totalKeys : s.totalKeys = (records.flatMap fun record => record.metadata.entries).length
  minKeys : IsMin (records.map fun record => record.metadata.length) s.minKeys
  maxKeys : IsMax (records.map fun record => record.metadata.length) s.maxKeys
  counted : Counted s
  view : ∀ key, view s key = KeyStats.ofValues py nSampleValues (valuesOf records key)

variable {py nSampleValues}

/-- The extreme of some numbers and the next one is the old extreme or the next one. -/
theorem extreme_append {r : ℕ → ℕ → Prop} (hrefl : ∀ n, r n n)
    (htrans : ∀ a b c, r a b → r b c → r a c) {ns : List ℕ} {m : ℕ}
    (h : m ∈ ns ∧ ∀ k ∈ ns, r m k) (n : ℕ) :
    (r n m → n ∈ ns ++ [n] ∧ ∀ k ∈ ns ++ [n], r n k) ∧
      (r m n → m ∈ ns ++ [n] ∧ ∀ k ∈ ns ++ [n], r m k) := by
  obtain ⟨hmem, hall⟩ := h
  constructor
  · intro hnm
    refine ⟨List.mem_append_right _ List.mem_cons_self, fun k hk => ?_⟩
    rcases List.mem_append.mp hk with hk | hk
    · exact htrans n m k hnm (hall k hk)
    · exact List.mem_singleton.mp hk ▸ hrefl n
  · intro hmn
    refine ⟨List.mem_append_left _ hmem, fun k hk => ?_⟩
    rcases List.mem_append.mp hk with hk | hk
    · exact hall k hk
    · exact List.mem_singleton.mp hk ▸ hmn

theorem isMin_append {ns : List ℕ} {least : Option ℕ} (h : IsMin ns least) (n : ℕ) :
    IsMin (ns ++ [n]) (lower least n) := by
  cases least with
  | none =>
    obtain rfl : ns = [] := h
    exact ⟨List.mem_cons_self, fun m hm => (List.mem_singleton.mp hm).ge⟩
  | some m =>
    obtain ⟨hnext, hold⟩ := extreme_append (r := (· ≤ ·)) le_refl (fun _ _ _ => le_trans) h n
    rw [lower]
    split
    · next hlt => exact hnext hlt.le
    · next hlt => exact hold (not_lt.mp hlt)

theorem isMax_append {ns : List ℕ} {greatest : Option ℕ} (h : IsMax ns greatest) (n : ℕ) :
    IsMax (ns ++ [n]) (raise greatest n) := by
  cases greatest with
  | none =>
    obtain rfl : ns = [] := h
    exact ⟨List.mem_cons_self, fun m hm => (List.mem_singleton.mp hm).le⟩
  | some m =>
    obtain ⟨hnext, hold⟩ := extreme_append (r := (· ≥ ·)) le_refl (fun _ _ _ => ge_trans) h n
    rw [raise]
    split
    · next hlt => exact hnext hlt.le
    · next hlt => exact hold (not_lt.mp hlt)

theorem valuesOf_append (records : List (Record V)) (record : Record V) (key : PyStr) :
    valuesOf (records ++ [record]) key =
      match record.metadata.get? key with
      | some v => valuesOf records key ++ [v]
      | none => valuesOf records key := by
  rw [valuesOf, valuesOf, List.filterMap_append]
  cases h : record.metadata.get? key with
  | none => simp [h]
  | some v => simp [h]

theorem reads_init : Reads py nSampleValues [] (init nSampleValues) where
  cap := rfl
  count := rfl
  missing := rfl
  totalKeys := rfl
  minKeys := rfl
  maxKeys := rfl
  counted key n hn := absurd hn.symm (Option.some_ne_none n)
  view key := by
    have hgo : stopped py nSampleValues ([] : List V) = false := by
      cases nSampleValues <;> rfl
    exact ofValues_eq (takeSample_nil nSampleValues).symm hgo.symm

/-- **One record.** It raises when it has a value that is not tolerated, and otherwise the
statistics go on to be those of the records. -/
theorem Reads.update {records : List (Record V)} {s : MetadataStats V}
    (h : Reads py nSampleValues records s)
    (htolerated : ∀ key, Tolerated py nSampleValues (valuesOf records key)) (record : Record V) :
    ((update py s record).2 = .ok () ↔
      ∀ key, Tolerated py nSampleValues (valuesOf (records ++ [record]) key)) ∧
    ((update py s record).2 = .ok () →
      Reads py nSampleValues (records ++ [record]) (update py s record).1) := by
  obtain ⟨hiff, hrest⟩ := update_spec py s record
  constructor
  · rw [hiff]
    refine forall_congr' fun key => ?_
    rw [valuesOf_append, h.view key, h.cap]
    cases record.metadata.get? key with
    | none =>
      exact iff_of_true (fun v hv => absurd hv.symm (Option.some_ne_none v)) (htolerated key)
    | some v =>
      simp only [Option.some.injEq, forall_eq']
      exact (add_ofValues (htolerated key) v).1
  · intro hok
    obtain ⟨hsame, hcounted, hin, hout⟩ := hrest hok
    refine ⟨hsame.nSampleValues.trans h.cap, ?_, ?_, ?_, ?_, ?_, hcounted h.counted, ?_⟩
    · rw [hsame.count, countRecord, h.count, List.length_append]
      rfl
    · rw [hsame.missingMetadataCount, countRecord, h.missing, List.countP_append,
        List.countP_singleton]
      split <;> simp_all
    · rw [hsame.totalKeys, countRecord, h.totalKeys, List.flatMap_append, List.length_append]
      simp [Dict.length]
    · rw [hsame.minKeys, List.map_append]
      exact isMin_append h.minKeys record.metadata.length
    · rw [hsame.maxKeys, List.map_append]
      exact isMax_append h.maxKeys record.metadata.length
    · intro key
      rw [valuesOf_append]
      cases hget : record.metadata.get? key with
      | none => exact (hout key hget).trans (h.view key)
      | some v =>
        have hadd := hiff.mp hok key v hget
        rw [h.view key, h.cap] at hadd
        rw [hin key v hget, h.view key, h.cap]
        exact (add_ofValues (htolerated key) v).2 hadd

theorem updateAll_append_singleton (s : MetadataStats V) (records : List (Record V))
    (record : Record V) :
    updateAll py s (records ++ [record]) =
      match updateAll py s records with
      | (s', .ok ()) => update py s' record
      | (s', .error e) => (s', .error e) := by
  induction records generalizing s with
  | nil =>
    show updateAll py s [record] = update py s record
    rw [updateAll]
    rcases update py s record with ⟨s', e | u⟩ <;> rfl
  | cons r records ih =>
    rw [List.cons_append, updateAll, updateAll]
    rcases update py s r with ⟨s', e | u⟩
    · rfl
    · exact ih s'

variable (py nSampleValues) in
/-- **A stream.** It raises when it has a value that is not tolerated, and otherwise the statistics
are those of its records. -/
theorem updateAll_spec (records : List (Record V)) :
    ((updateAll py (init nSampleValues) records).2 = .ok () ↔
      ∀ key, Tolerated py nSampleValues (valuesOf records key)) ∧
    ((updateAll py (init nSampleValues) records).2 = .ok () →
      Reads py nSampleValues records (updateAll py (init nSampleValues) records).1) := by
  induction records using List.reverseRecOn with
  | nil =>
    refine ⟨iff_of_true rfl fun key before v after hsplit => ?_, fun _ => reads_init⟩
    exact absurd hsplit (by simp [valuesOf])
  | append_singleton records record ih =>
    obtain ⟨hiff, hreads⟩ := ih
    rw [updateAll_append_singleton]
    rcases hrun : updateAll py (init nSampleValues) records with ⟨s, e | u⟩
    · rw [hrun] at hiff
      refine ⟨iff_of_false error_ne_ok fun h => ?_, fun h => absurd h error_ne_ok⟩
      refine error_ne_ok (hiff.mpr fun key => ?_)
      have hkey := h key
      rw [valuesOf_append] at hkey
      cases hget : record.metadata.get? key with
      | none => rwa [hget] at hkey
      | some v =>
        rw [hget] at hkey
        exact (tolerated_append_iff.mp hkey).1
    · rw [hrun] at hiff hreads
      exact (hreads rfl).update (hiff.mp rfl) record

/-! ### The report -/

theorem perm_sortedBy {W K : Type} [LinearOrder K] (f : W → K) (values : List W) :
    (sortedBy f values).Perm values :=
  List.perm_insertionSort _ _

theorem counted_iff {s : MetadataStats V} (h : Counted s) (key : PyStr) :
    key ∈ s.keyCounts.keys ↔ (view s key).present ≠ 0 := by
  rw [← Dict.isSome_get?_iff, view]
  cases hget : s.keyCounts.get? key with
  | none => simp
  | some n => simpa using h key n hget

/-- The report of a key. -/
theorem isKeyReport {s : MetadataStats V} {records : List (Record V)}
    (h : Reads py nSampleValues records s)
    (htolerated : ∀ key, Tolerated py nSampleValues (valuesOf records key)) {key : PyStr}
    {report : KeyReport V} (hreport : keyReport py s key = some report) :
    IsKeyReport py nSampleValues records.length (valuesOf records key) report := by
  obtain rfl := keyReport_eq_some py hreport
  have hview := h.view key
  have hpresent : (s.keyCounts.get? key).getD 0 = (valuesOf records key).length :=
    congrArg KeyStats.present hview
  have hsample : (s.keyValues.get? key).getD [] =
      takeSample nSampleValues (candidates py (valuesOf records key)) :=
    congrArg KeyStats.sample hview
  have htruncated : (s.keyValuesTruncated.get? key).getD false =
      stopped py nSampleValues (valuesOf records key) := congrArg KeyStats.truncated hview
  have hmem : ∀ w, w ∈ sortedBy py.text (py.iter ((s.keyValues.get? key).getD [])) ↔
      w ∈ takeSample nSampleValues (candidates py (valuesOf records key)) := by
    intro w
    rw [(perm_sortedBy _ _).mem_iff, (py.iter_perm _).mem_iff, hsample]
  have htypes := congrArg KeyStats.types hview
  refine ⟨hpresent, ?_, ⟨(s.keyTypes.get? key).getD [], ?_, fun name => ?_, rfl⟩,
    congrArg KeyStats.nones hview, ⟨_, hsample ▸ py.iter_perm _, rfl⟩, ?_⟩
  · have hle : (valuesOf records key).length ≤ records.length := List.length_filterMap_le _ _
    show (s.keyCounts.get? key).getD 0 + (s.count - (s.keyCounts.get? key).getD 0) = _
    rw [hpresent, h.count]
    omega
  · rw [show (s.keyTypes.get? key).getD [] = _ from htypes]
    exact Tally.nodup_distinct _
  · rw [show (s.keyTypes.get? key).getD [] = _ from htypes, KeyStats.ofValues,
      Tally.mem_distinct_iff, List.mem_map]
  · simp only [hmem, ← stopped_iff (htolerated key)]
    rw [htruncated]

theorem isReport {s : MetadataStats V} {records : List (Record V)}
    (h : Reads py nSampleValues records s)
    (htolerated : ∀ key, Tolerated py nSampleValues (valuesOf records key)) {report : Report V}
    (hreport : toDict py s = some report) : IsReport py nSampleValues records report := by
  obtain ⟨perKey, hperKey, rfl⟩ := toDict_eq_some py hreport
  have hnodup : perKey.map Prod.fst = sortedBy id s.keyCounts.keys :=
    (map_fst_of_mapM hperKey).trans (List.map_id' _)
  have hsorted : (sortedBy id s.keyCounts.keys).Nodup :=
    (perm_sortedBy id s.keyCounts.keys).nodup_iff.mpr s.keyCounts.nodup
  have hentries := Dict.entries_ofList (hnodup ▸ hsorted)
  refine ⟨h.count, h.missing, ?_, h.minKeys, h.maxKeys, ⟨s.keyCounts.keys, s.keyCounts.nodup,
    fun key => ?_, ?_, (Dict.length_keys _).symm⟩, fun key report hkey => ?_⟩
  · show (if s.count ≠ 0 then (s.totalKeys : ℚ) / s.count else 0) = _
    rw [h.count, h.totalKeys]
  · rw [counted_iff h.counted, h.view key]
    exact List.length_eq_zero_iff.not
  · show (Dict.ofList perKey).keys = _
    rw [Dict.keys, hentries, hnodup]
  · have hmem := Dict.get?_eq_some_iff.mp hkey
    rw [hentries] at hmem
    obtain ⟨key', -, hsome⟩ := (mem_mapM_iff hperKey).mp hmem
    obtain ⟨report', hreport', heq⟩ := Option.map_eq_some_iff.mp hsome
    obtain ⟨rfl, rfl⟩ := Prod.mk.inj heq
    exact isKeyReport h htolerated hreport'

end MetadataStats

end Analysis

end Persista
