import Persista.Record.Diff

/-!
# References between records

`record/analysis/reference_check.py` and `filter_by_metadata_values` of `record/filter.py`. A record
can hold the id of another one in its metadata. `find_orphan_references` lists the records whose
reference is the id of no record, and `filter_by_metadata_values` with the ids of a store keeps
those whose reference is. Both ask a set, so both raise `TypeError` on a reference that cannot be
hashed.

A record store checks nothing when a record is written or deleted. What a caller has to see to, for
the references of a store to stay whole, is `Keeps`.

## Main results

* `Records.keepIf_eq` — a list comprehension whose condition may raise
* `Records.orphan_law` — what the two functions say of a record store after any run
* `Records.integrity_law` — the runs in which no reference ever dangles
-/

namespace Persista

namespace Records

open Json BaseStore

/-! ### Sets of values -/

/-- The type that `hash` names in its `TypeError`. -/
inductive Unhashable
  | list
  | dict

mutual

/-- What `hash(value)` raises. -/
def hashError : PyVal → Option Unhashable
  | .none | .bool _ | .int _ | .float _ | .str _ => none
  | .list _ => some .list
  | .dict _ => some .dict
  | .tuple items => hashErrorItems items

/-- A `tuple` hashes its items, one after the other. -/
def hashErrorItems : List PyVal → Option Unhashable
  | [] => none
  | v :: vs => (hashError v).or (hashErrorItems vs)

end

/-- `[x for x in xs if condition(x)]`, with a condition that may raise. -/
def keepIf {A E : Type} (condition : A → Except E Bool) : List A → Except E (List A)
  | [] => .ok []
  | x :: xs => do
    let keep ← condition x
    let kept ← keepIf condition xs
    return if keep then x :: kept else kept

/-- What is raised, or the value if nothing is. -/
def raising {A E : Type} (raised : Option E) (value : A) : Except E A :=
  match raised with
  | some e => .error e
  | none => .ok value

/-- `value in ids`. A value that is no `str` equals no id. -/
def inIds (ids : List PyStr) (value : PyVal) : Except Unhashable Bool :=
  raising (hashError value) (match value with
    | .str id => decide (id ∈ ids)
    | _ => false)

/-! ### The two functions -/

/-- `record.metadata[reference_key]`, unless it is missing or `None`. -/
def reference (referenceKey : PyStr) (record : Record PyStr) : Option PyVal :=
  match record.metadata.get? referenceKey with
  | none | some .none => none
  | some value => some value

/-- The condition of the loop. -/
def isOrphan (ids : List PyStr) (referenceKey : PyStr) (record : Record PyStr) :
    Except Unhashable Bool :=
  match reference referenceKey record with
  | none => .ok false
  | some referencedId => (inIds ids referencedId).map not

/-- `find_orphan_references(records, reference_key)`. -/
def findOrphanReferences (records : List (Record PyStr)) (referenceKey : PyStr) :
    Except Unhashable (List PyStr) := do
  let ids := records.map Record.id
  let orphans ← keepIf (isOrphan ids referenceKey) records
  return orphans.map Record.id

section Values

variable {N : Type} [DecidableEq N] (num : Numbers N)

/-- `r.metadata.get(metadata_key, _MISSING) in values`. -/
def hasValue (metadataKey : PyStr) (values : List PyVal) (record : Record PyStr) :
    Except Unhashable Bool :=
  match record.metadata.get? metadataKey with
  | none => .ok false
  | some value => raising (hashError value) (values.any (value.eq num))

/-- `filter_by_metadata_values(records, metadata_key, values)`. -/
def filterByMetadataValues (records : List (Record PyStr)) (metadataKey : PyStr)
    (values : List PyVal) : Except Unhashable (List (Record PyStr)) :=
  keepIf (hasValue num metadataKey values) records

end Values

/-! ### Conditions that may raise -/

/-- **A list comprehension** raises what the first of its items raises, and is a filter if none
does. -/
theorem keepIf_eq {A E : Type} {condition : A → Except E Bool} {raises : A → Option E}
    {holds : A → Bool}
    (h : ∀ x, condition x = raising (raises x) (holds x)) (xs : List A) :
    keepIf condition xs = raising (xs.findSome? raises) (xs.filter holds) := by
  induction xs with
  | nil => rfl
  | cons x xs ih =>
    rw [keepIf, h x, List.findSome?_cons]
    cases hraises : raises x with
    | some e => rfl
    | none =>
      rw [ih]
      cases xs.findSome? raises with
      | some e => rfl
      | none =>
        refine congrArg Except.ok ?_
        cases hholds : holds x with
        | true => rw [List.filter_cons_of_pos hholds, if_pos rfl]
        | false =>
          rw [List.filter_cons_of_neg (by rw [hholds]; exact Bool.false_ne_true),
            if_neg Bool.false_ne_true]

/-- What the reference of a record raises. -/
def referenceError (referenceKey : PyStr) (record : Record PyStr) : Option Unhashable :=
  (record.metadata.get? referenceKey).bind hashError

/-- The reference of a record is one of the ids. -/
def resolves (ids : List PyStr) (referenceKey : PyStr) (record : Record PyStr) : Bool :=
  match record.metadata.get? referenceKey with
  | some (.str id) => decide (id ∈ ids)
  | _ => false

/-- The record has a reference, and it is none of the ids. -/
def dangles (ids : List PyStr) (referenceKey : PyStr) (record : Record PyStr) : Bool :=
  (reference referenceKey record).isSome && !resolves ids referenceKey record

theorem isOrphan_eq (ids : List PyStr) (referenceKey : PyStr) (record : Record PyStr) :
    isOrphan ids referenceKey record =
      raising (referenceError referenceKey record) (dangles ids referenceKey record) := by
  rw [isOrphan, reference, referenceError, dangles, reference, resolves]
  cases record.metadata.get? referenceKey with
  | none => rfl
  | some value =>
    cases value with
    | tuple items =>
      simp only [inIds, Option.bind_some]
      cases hashError (.tuple items) with
      | none => rfl
      | some e => rfl
    | _ => rfl

theorem hasValue_eq {N : Type} [DecidableEq N] (num : Numbers N) (ids : List PyStr)
    (referenceKey : PyStr) (record : Record PyStr) :
    hasValue num referenceKey (ids.map .str) record =
      raising (referenceError referenceKey record) (resolves ids referenceKey record) := by
  rw [hasValue, referenceError, resolves]
  cases record.metadata.get? referenceKey with
  | none => rfl
  | some value =>
    have hany : (ids.map PyVal.str).any (value.eq num) =
        match value with
        | .str id => decide (id ∈ ids)
        | _ => false := by
      rw [Bool.eq_iff_iff, List.any_map, List.any_eq_true]
      simp only [Function.comp_apply, eq_str_iff]
      cases value with
      | str s => simp
      | _ => simp
    simp only [Option.bind_some, hany]
    cases hashError value with
    | some e => rfl
    | none =>
      cases value with
      | str s => rfl
      | _ => rfl

/-! ### What they say of a map of records -/

variable (referenceKey : PyStr) {records : List (Record PyStr)} {m : RecordMap PyStr}

/-- The reference of a record that is kept is a value that cannot be hashed. -/
def Unchecked (referenceKey : PyStr) (m : RecordMap PyStr) : Prop :=
  ∃ record, m record.id = some record ∧ (referenceError referenceKey record).isSome

/-- The record has a reference, and it is the id of no record. -/
def Dangling (referenceKey : PyStr) (m : RecordMap PyStr) (record : Record PyStr) : Prop :=
  ∃ value, reference referenceKey record = some value ∧ ∀ id, value = .str id → m id = none

/-- The reference of the record is the id of a record. -/
def Resolved (referenceKey : PyStr) (m : RecordMap PyStr) (record : Record PyStr) : Prop :=
  ∃ id, reference referenceKey record = some (.str id) ∧ (m id).isSome

/-- What the two functions return of the records of a map. -/
structure ReferenceReport (referenceKey : PyStr) (m : RecordMap PyStr)
    (orphans : Except Unhashable (List PyStr)) (kept : Except Unhashable (List (Record PyStr))) :
    Prop where
  raises : (∃ e, orphans = .error e) ↔ Unchecked referenceKey m
  agree : ∀ e, orphans = .error e ↔ kept = .error e
  orphans : ∀ ids, orphans = .ok ids → ids.Nodup ∧
    ∀ id, id ∈ ids ↔ ∃ record, m id = some record ∧ Dangling referenceKey m record
  kept : ∀ records, kept = .ok records → (records.map Record.id).Nodup ∧
    ∀ record, record ∈ records ↔ m record.id = some record ∧ Resolved referenceKey m record

/-- Every record is under its own id. -/
def OwnIds (m : RecordMap PyStr) : Prop := ∀ id record, m id = some record → record.id = id

theorem ownIds_recordsOf (m : Contents PyStr (Dict PyStr PyVal)) : OwnIds (recordsOf m) := by
  intro id record h
  obtain ⟨value, -, rfl⟩ := Option.map_eq_some_iff.mp h
  rfl

theorem mem_listed_iff (h : ListsRecords m records) (hown : OwnIds m) {id : PyStr} :
    id ∈ records.map Record.id ↔ (m id).isSome := by
  rw [List.mem_map, Option.isSome_iff_exists]
  constructor
  · rintro ⟨record, hmem, rfl⟩
    exact ⟨record, (h.mem_iff record).mp hmem⟩
  · rintro ⟨record, hget⟩
    obtain rfl := hown id record hget
    exact ⟨record, (h.mem_iff record).mpr hget, rfl⟩

theorem resolves_iff {ids : List PyStr} (hids : ∀ id, id ∈ ids ↔ (m id).isSome)
    (record : Record PyStr) :
    resolves ids referenceKey record ↔ Resolved referenceKey m record := by
  rw [resolves, Resolved, reference]
  cases record.metadata.get? referenceKey with
  | none => simp
  | some value =>
    cases value with
    | str s => simp [hids]
    | _ => simp

theorem dangles_iff {ids : List PyStr} (hids : ∀ id, id ∈ ids ↔ (m id).isSome)
    (record : Record PyStr) :
    dangles ids referenceKey record ↔ Dangling referenceKey m record := by
  rw [dangles, resolves, Dangling, reference]
  cases record.metadata.get? referenceKey with
  | none => simp
  | some value =>
    cases value with
    | str s => simp [hids]
    | _ => simp

/-- `find_orphan_references` of the records of a map. -/
theorem findOrphanReferences_eq (h : ListsRecords m records) (hown : OwnIds m) :
    ∃ holds : Record PyStr → Bool, (∀ record, holds record ↔ Dangling referenceKey m record) ∧
      findOrphanReferences records referenceKey =
        raising (records.findSome? (referenceError referenceKey))
          ((records.filter holds).map Record.id) := by
  refine ⟨dangles (records.map Record.id) referenceKey,
    dangles_iff referenceKey fun id => mem_listed_iff h hown, ?_⟩
  rw [findOrphanReferences, keepIf_eq (isOrphan_eq (records.map Record.id) referenceKey)]
  cases records.findSome? (referenceError referenceKey) with
  | none => rfl
  | some e => rfl

theorem isSome_findSome?_iff (h : ListsRecords m records) :
    (records.findSome? (referenceError referenceKey)).isSome ↔ Unchecked referenceKey m := by
  rw [List.isSome_findSome?, List.any_eq_true, Unchecked]
  exact exists_congr fun record => and_congr_left fun _ => h.mem_iff record

/-- **Both functions on the records of a map.** -/
theorem referenceReport {N : Type} [DecidableEq N] (num : Numbers N) (h : ListsRecords m records)
    (hown : OwnIds m) {ids : List PyStr} (hids : ∀ id, id ∈ ids ↔ (m id).isSome) :
    ReferenceReport referenceKey m (findOrphanReferences records referenceKey)
      (filterByMetadataValues num records referenceKey (ids.map .str)) := by
  obtain ⟨holds, hholds, horphans⟩ := findOrphanReferences_eq referenceKey h hown
  have hkept := keepIf_eq (hasValue_eq num ids referenceKey) records
  rw [← filterByMetadataValues] at hkept
  have hraises := isSome_findSome?_iff referenceKey h
  have hnodup : ∀ p : Record PyStr → Bool, ((records.filter p).map Record.id).Nodup := fun p =>
    h.nodup.sublist ((List.filter_sublist).map Record.id)
  cases hfind : records.findSome? (referenceError referenceKey) with
  | some e =>
    rw [hfind] at horphans hkept hraises
    rw [horphans, hkept]
    refine ⟨iff_of_true ⟨e, rfl⟩ (hraises.mp rfl), fun _ => ?_, fun _ hok => ?_, fun _ hok => ?_⟩
    · simp only [raising, Except.error.injEq]
    · cases hok
    · cases hok
  | none =>
    rw [hfind] at horphans hkept hraises
    rw [horphans, hkept]
    refine ⟨iff_of_false ?_ fun hu => ?_, fun _ => ?_, fun ids hok => ?_, fun records' hok => ?_⟩
    · rintro ⟨e, he⟩
      cases he
    · exact Bool.false_ne_true (hraises.mpr hu)
    · simp only [raising, reduceCtorEq]
    · obtain rfl := Except.ok.inj hok
      refine ⟨hnodup holds, fun id => ?_⟩
      rw [List.mem_map]
      constructor
      · rintro ⟨record, hmem, rfl⟩
        obtain ⟨hrecord, hdangles⟩ := List.mem_filter.mp hmem
        exact ⟨record, (h.mem_iff record).mp hrecord, (hholds record).mp hdangles⟩
      · rintro ⟨record, hget, hdangling⟩
        obtain rfl := hown id record hget
        exact ⟨record, List.mem_filter.mpr ⟨(h.mem_iff record).mpr hget,
          (hholds record).mpr hdangling⟩, rfl⟩
    · obtain rfl := Except.ok.inj hok
      refine ⟨hnodup _, fun record => ?_⟩
      rw [List.mem_filter, h.mem_iff, resolves_iff referenceKey hids]

/-! ### Runs of a record store -/

section Runs

variable {σ : Type} {store : BaseStore σ PyStr (Dict PyStr PyVal)}
  {contents : σ → Contents PyStr (Dict PyStr PyVal)} {Good : σ → Prop} {N : Type} [DecidableEq N]
  (num : Numbers N)

/-- **References after any run.** The records that `find_orphan_references` lists are those whose
reference is the id of no record, and those that `filter_by_metadata_values` keeps for the ids of
the store are those whose reference is one. Either both raise, when a reference cannot be hashed, or
neither does. -/
theorem orphan_law (h : IsMap store contents Good) {s : σ} (hs : Good s)
    (calls : List (Call PyStr)) {batchSize : ℤ} (hb : 1 ≤ batchSize) :
    ∃ s' records ids, Refinement.runOps (exec store) s calls = (s', calls.map fun _ => .ok ()) ∧
      values store s' batchSize = .ok records ∧ store.keys s' = .ok ids ∧
      ReferenceReport referenceKey (calls.foldl RecordMap.exec (recordsOf (contents s)))
        (findOrphanReferences records referenceKey)
        (filterByMetadataValues num records referenceKey (ids.map .str)) := by
  obtain ⟨s', hrun, hgood, hrecords⟩ := run h hs calls
  have hanswers : Answers store num s' (recordsOf (contents s')) := answers num (h.reads hgood)
  obtain ⟨batches, hbatches, hlists, -⟩ := hanswers.iterBatches batchSize hb
  obtain ⟨ids, hkeys, -, hids⟩ := hanswers.keys
  have hvalues : values store s' batchSize = .ok batches.flatten := by
    rw [values, hbatches]
    rfl
  refine ⟨s', batches.flatten, ids, hrun, hvalues, hkeys, ?_⟩
  rw [← hrecords]
  exact referenceReport referenceKey num hlists (ownIds_recordsOf _) hids

/-! ### Whole references -/

/-- Every reference of a record is the id of a record. -/
def Whole (referenceKey : PyStr) (m : RecordMap PyStr) : Prop :=
  ∀ id record, m id = some record →
    reference referenceKey record = none ∨ Resolved referenceKey m record

/-- What stays does not refer to what is deleted. -/
def Unreferenced (referenceKey : PyStr) (m : RecordMap PyStr) (recordIds : List PyStr) : Prop :=
  ∀ id record, m id = some record → id ∉ recordIds →
    ∀ recordId ∈ recordIds, reference referenceKey record ≠ some (.str recordId)

/-- What a caller has to see to: what is written refers to what is there or is written with it, and
what is deleted is not referred to. -/
def Keeps (referenceKey : PyStr) (m : RecordMap PyStr) : Call PyStr → Prop
  | .setMany records => ∀ id record, byId records id = some record →
      reference referenceKey record = none ∨
        ∃ id', reference referenceKey record = some (.str id') ∧
          ((byId records id').isSome ∨ (m id').isSome)
  | .delete recordId => Unreferenced referenceKey m [recordId]
  | .deleteMany recordIds => Unreferenced referenceKey m recordIds
  | .clear => True

/-- Every call of a run does. -/
def KeepsAll (referenceKey : PyStr) : RecordMap PyStr → List (Call PyStr) → Prop
  | _, [] => True
  | m, call :: calls => Keeps referenceKey m call ∧ KeepsAll referenceKey (m.exec call) calls

variable {referenceKey}

theorem not_dangling_iff (record : Record PyStr) :
    ¬ Dangling referenceKey m record ↔
      reference referenceKey record = none ∨ Resolved referenceKey m record := by
  rw [Dangling, Resolved]
  cases reference referenceKey record with
  | none => simp
  | some value =>
    simp only [Option.some.injEq, exists_eq_left', reduceCtorEq, false_or, not_forall]
    refine exists_congr fun id => ?_
    rw [exists_prop, ← Ne, Option.ne_none_iff_isSome]

/-- `find_orphan_references` finds nothing. -/
theorem findOrphanReferences_eq_nil_iff {records : List (Record PyStr)}
    (h : ListsRecords m records) (hown : OwnIds m) :
    findOrphanReferences records referenceKey = .ok [] ↔ Whole referenceKey m := by
  obtain ⟨holds, hholds, horphans⟩ := findOrphanReferences_eq referenceKey h hown
  have hunchecked := isSome_findSome?_iff referenceKey h
  have hwhole : Whole referenceKey m ↔ ∀ record ∈ records, ¬ Dangling referenceKey m record := by
    constructor
    · intro hall record hmem
      exact (not_dangling_iff record).mpr (hall _ record ((h.mem_iff record).mp hmem))
    · intro hall id record hget
      obtain rfl := hown id record hget
      exact (not_dangling_iff record).mp (hall record ((h.mem_iff record).mpr hget))
  rw [horphans, hwhole]
  cases hfind : records.findSome? (referenceError referenceKey) with
  | none =>
    simp only [raising, Except.ok.injEq, List.map_eq_nil_iff, List.filter_eq_nil_iff, hholds]
  | some e =>
    refine iff_of_false (by simp [raising]) fun hall => ?_
    -- a reference that cannot be hashed is no `str`
    rw [hfind] at hunchecked
    obtain ⟨record, hget, herror⟩ := hunchecked.mp rfl
    rcases (not_dangling_iff record).mp (hall record ((h.mem_iff record).mpr hget)) with
      hnone | ⟨id, hid, -⟩
    · rw [reference] at hnone
      rw [referenceError] at herror
      split at hnone
      · next hvalue =>
        rw [hvalue] at herror
        cases herror
      · next hvalue =>
        rw [hvalue] at herror
        cases herror
      · cases hnone
    · rw [reference] at hid
      rw [referenceError] at herror
      split at hid
      · cases hid
      · cases hid
      · next hvalue =>
        rw [hvalue, Option.some.inj hid] at herror
        cases herror

/-- **One call** keeps references whole exactly when it does its part. -/
theorem whole_exec_iff (h : Whole referenceKey m) (call : Call PyStr) :
    Whole referenceKey (m.exec call) ↔ Keeps referenceKey m call := by
  have hdelete : ∀ recordIds : List PyStr,
      Whole referenceKey (m.exec (.deleteMany recordIds)) ↔
        Unreferenced referenceKey m recordIds := by
    intro recordIds
    constructor
    · intro hwhole id record hget hid recordId hmem heq
      rcases hwhole id record ((if_neg hid).trans hget) with hnone | ⟨id', hid', hsome⟩
      · cases hnone.symm.trans heq
      · cases Option.some.inj (hid'.symm.trans heq)
        have hgone : m.exec (.deleteMany recordIds) recordId = none := if_pos hmem
        rw [hgone] at hsome
        cases hsome
    · intro hfree id record hget
      by_cases hid : id ∈ recordIds
      · cases (if_pos hid : m.exec (.deleteMany recordIds) id = none).symm.trans hget
      · have hold : m id = some record := (if_neg hid).symm.trans hget
        refine (h id record hold).imp_right ?_
        rintro ⟨id', hid', hsome⟩
        refine ⟨id', hid', ?_⟩
        have hstays : m.exec (.deleteMany recordIds) id' = m id' := if_neg fun hmem =>
          hfree id record hold hid id' hmem hid'
        rw [hstays]
        exact hsome
  cases call with
  | setMany records =>
    have hexec := exec_setMany m records
    constructor
    · intro hwhole id record hget
      refine (hwhole id record (by rw [hexec, hget]; rfl)).imp_right ?_
      rintro ⟨id', hid', hsome⟩
      rw [hexec, Option.isSome_or, Bool.or_eq_true] at hsome
      exact ⟨id', hid', hsome⟩
    · intro hkeeps id record hget
      rw [hexec] at hget
      rcases Option.or_eq_some_iff.mp hget with hnew | ⟨-, hold⟩
      · refine (hkeeps id record hnew).imp_right ?_
        rintro ⟨id', hid', hsome⟩
        refine ⟨id', hid', ?_⟩
        rw [hexec, Option.isSome_or, Bool.or_eq_true]
        exact hsome
      · refine (h id record hold).imp_right ?_
        rintro ⟨id', hid', hsome⟩
        refine ⟨id', hid', ?_⟩
        rw [hexec, Option.isSome_or, hsome, Bool.or_true]
  | delete recordId =>
    have hone : m.exec (.delete recordId) = m.exec (.deleteMany [recordId]) := by
      funext id
      by_cases hid : id = recordId
      · exact (if_pos hid).trans (if_pos (List.mem_singleton.mpr hid)).symm
      · exact (if_neg hid).trans (if_neg fun hmem => hid (List.mem_singleton.mp hmem)).symm
    rw [hone]
    exact hdelete [recordId]
  | deleteMany recordIds => exact hdelete recordIds
  | clear => exact iff_of_true (fun id record hget => by cases hget) trivial

theorem keepsAll_iff (h : Whole referenceKey m) (calls : List (Call PyStr)) :
    KeepsAll referenceKey m calls ↔ ∀ before after, calls = before ++ after →
      Whole referenceKey (before.foldl RecordMap.exec m) := by
  induction calls generalizing m with
  | nil =>
    refine iff_of_true trivial fun before after heq => ?_
    obtain ⟨rfl, -⟩ := List.append_eq_nil_iff.mp heq.symm
    exact h
  | cons call calls ih =>
    rw [KeepsAll, ← whole_exec_iff h]
    constructor
    · rintro ⟨hwhole, hrest⟩ before after heq
      cases before with
      | nil => exact h
      | cons first before =>
        obtain ⟨rfl, rfl⟩ := List.cons.inj heq
        exact (ih hwhole).mp hrest before after rfl
    · intro hall
      have hwhole : Whole referenceKey (m.exec call) := hall [call] calls rfl
      refine ⟨hwhole, (ih hwhole).mpr fun before after heq => ?_⟩
      exact hall (call :: before) after (congrArg (call :: ·) heq)

/-- **Referential integrity.** In a run from whole references, `find_orphan_references` never finds
one that dangles, whenever it is asked, exactly when every call does its part. -/
theorem integrity_law (h : IsMap store contents Good) {s : σ} (hs : Good s)
    (hwhole : Whole referenceKey (recordsOf (contents s))) (calls : List (Call PyStr))
    {batchSize : ℤ} (hb : 1 ≤ batchSize) :
    KeepsAll referenceKey (recordsOf (contents s)) calls ↔
      ∀ before after, calls = before ++ after →
        ∃ s' records, Refinement.runOps (exec store) s before =
            (s', before.map fun _ => .ok ()) ∧
          values store s' batchSize = .ok records ∧
          findOrphanReferences records referenceKey = .ok [] := by
  rw [keepsAll_iff hwhole]
  refine forall_congr' fun before => forall_congr' fun after => imp_congr_right fun _ => ?_
  obtain ⟨s', hrun, hgood, hrecords⟩ := run h hs before
  obtain ⟨batches, hbatches, hyields⟩ := (h.reads hgood).iterBatches batchSize hb
  have hlists := listsRecords_of_yields hyields
  have hvalues : values store s' batchSize = .ok (batches.map batchRecords).flatten := by
    rw [values, iterBatches, hbatches]
    rfl
  have hiff : findOrphanReferences (batches.map batchRecords).flatten referenceKey = .ok [] ↔
      Whole referenceKey (recordsOf (contents s')) :=
    findOrphanReferences_eq_nil_iff hlists (ownIds_recordsOf _)
  rw [← hrecords, ← hiff]
  constructor
  · intro hnil
    exact ⟨s', _, hrun, hvalues, hnil⟩
  · rintro ⟨s'', records, hrun', hvalues', hnil⟩
    obtain ⟨rfl, -⟩ := Prod.mk.inj (hrun.symm.trans hrun')
    obtain rfl := Except.ok.inj (hvalues.symm.trans hvalues')
    exact hnil

end Runs

/-! ### A document and a chunk of it -/

/-- The key of the references. -/
def parentId : PyStr := ofString "parent_id"

/-- A chunk of a document, which is written before the document is. -/
def chunked : List (Record PyStr) :=
  [⟨ofString "chunk", .ofList [(parentId, .str (ofString "doc"))]⟩, ⟨ofString "doc", ∅⟩]

/-- The store that the two are written to. -/
def corpus : BaseStore (InMemoryStore PyStr (Dict PyStr PyVal)) PyStr (Dict PyStr PyVal) :=
  InMemoryStore.baseStore byPosition

/-- The document is deleted first. -/
theorem orphan_law_chunk : ∃ s' records ids,
    Refinement.runOps (exec corpus) InMemoryStore.init.open
        [.setMany chunked, .delete (ofString "doc")] = (s', [.ok (), .ok ()]) ∧
      values corpus s' 32 = .ok records ∧ corpus.keys s' = .ok ids ∧
      ReferenceReport parentId
        ([.setMany chunked, .delete (ofString "doc")].foldl RecordMap.exec fun _ => none)
        (findOrphanReferences records parentId)
        (filterByMetadataValues wholeNumbers records parentId (ids.map .str)) :=
  orphan_law parentId wholeNumbers (InMemoryStore.isMap byPosition)
    InMemoryStore.opened_open_init [.setMany chunked, .delete (ofString "doc")] (by decide)

theorem mem_chunked {id : PyStr} {record : Record PyStr} (h : byId chunked id = some record) :
    id = ofString "chunk" ∧ reference parentId record = some (.str (ofString "doc")) ∨
      reference parentId record = none := by
  obtain ⟨rfl, hmem⟩ := mem_of_byId h
  rcases List.mem_cons.mp hmem with rfl | hmem
  · exact .inl ⟨rfl, rfl⟩
  · obtain rfl := List.mem_singleton.mp hmem
    exact .inr rfl

/-- The chunk is deleted first, then the document. -/
theorem keepsAll_chunked : KeepsAll parentId (recordsOf fun _ => none)
    [.setMany chunked, .delete (ofString "chunk"), .delete (ofString "doc")] := by
  refine ⟨?_, ?_, ?_, trivial⟩
  · intro id record hget
    rcases mem_chunked hget with ⟨-, hdoc⟩ | hnone
    · exact .inr ⟨_, hdoc, .inl rfl⟩
    · exact .inl hnone
  · intro id record hget hid recordId hmem heq
    obtain rfl := List.mem_singleton.mp hmem
    rcases mem_chunked hget with ⟨rfl, -⟩ | hnone
    · exact hid hmem
    · cases hnone.symm.trans heq
  · intro id record hget _ recordId _ heq
    by_cases hid : id = ofString "chunk"
    · cases (if_pos hid).symm.trans hget
    · rcases mem_chunked ((if_neg hid).symm.trans hget) with ⟨hchunk, -⟩ | hnone
      · exact hid hchunk
      · cases hnone.symm.trans heq

/-- Before the document is deleted. -/
theorem integrity_law_chunk : ∃ s' records,
    Refinement.runOps (exec corpus) InMemoryStore.init.open
        [.setMany chunked, .delete (ofString "chunk")] = (s', [.ok (), .ok ()]) ∧
      values corpus s' 32 = .ok records ∧ findOrphanReferences records parentId = .ok [] :=
  (integrity_law (InMemoryStore.isMap byPosition) InMemoryStore.opened_open_init
    (fun id record hget => by cases hget) _ (by decide)).mp keepsAll_chunked
    [.setMany chunked, .delete (ofString "chunk")] [.delete (ofString "doc")] rfl

end Records

end Persista
