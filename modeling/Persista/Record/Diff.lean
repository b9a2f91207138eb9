import Persista.Record.RecordStore

/-!
# `diff_records` and `find_id_collisions`

`record/analysis/diff.py` and `record/analysis/id_collision.py`. Both look at records under their
ids, as a record store does: the first compares the last record of each id in two snapshots, the
second lists the different metadata that one id comes with.

What they are for is said by the store. A diff is a patch: delete what was removed, write what was
added or changed, and a record store that held the first snapshot holds the second. Records collide
when it matters in which order they are written.

Metadata are compared with `==`, which is a parameter: it need not be reflexive, and is not on
metadata with a NaN.

## Main results

* `Records.mem_ids_iff` — the ids of a diff are those whose records differ
* `Records.diff_records_law` — a diff, applied to a record store
* `Records.findIdCollisions_eq_empty_iff` — collisions, by the first metadata of each id
* `Records.id_collision_law` — records without collisions can be written in any order
-/

namespace Persista

namespace Records

open Json BaseStore

variable {K : Type} [LinearOrder K] (eq : Dict PyStr PyVal → Dict PyStr PyVal → Bool)

/-! ### The two snapshots -/

/-- What an empty record store holds after `set_many(records)`. -/
def byId (records : List (Record K)) : RecordMap K :=
  RecordMap.exec (fun _ => none) (.setMany records)

/-- No record, or records with equal metadata. -/
def SameRecord : Option (Record K) → Option (Record K) → Prop
  | none, none => True
  | some record, some record' => eq record.metadata record'.metadata
  | _, _ => False

theorem byId_eq (records : List (Record K)) : byId records = recordsOf (items records).get? := by
  have hwrite := recordsOf_write (fun _ => none) records
  rw [← write_ofList] at hwrite
  rw [byId]
  refine hwrite.symm.trans (congrArg recordsOf (funext fun k => ?_))
  rw [Contents.write_entries, Option.or_none]
  rfl

theorem byId_concat (records : List (Record K)) (record : Record K) :
    byId (records ++ [record]) = Function.update (byId records) record.id (some record) :=
  List.foldl_append

/-- Records written over others. -/
theorem exec_setMany (m : RecordMap K) (records : List (Record K)) (id : K) :
    m.exec (.setMany records) id = (byId records id).or (m id) := by
  induction records using List.reverseRecOn with
  | nil => rfl
  | append_singleton records record ih =>
    have hconcat : m.exec (.setMany (records ++ [record])) =
        Function.update (m.exec (.setMany records)) record.id (some record) := List.foldl_append
    rw [hconcat, byId_concat, Function.update_apply, Function.update_apply, ih]
    split
    · rfl
    · rfl

/-- The records with some of the ids. -/
theorem byId_filter (records : List (Record K)) (ids : List K) (id : K) :
    byId (records.filter fun record => decide (record.id ∈ ids)) id =
      if id ∈ ids then byId records id else none := by
  induction records using List.reverseRecOn with
  | nil => simp [byId, RecordMap.exec]
  | append_singleton records record ih =>
    rw [List.filter_append, byId_concat, Function.update_apply]
    by_cases hrecord : record.id ∈ ids
    · rw [List.filter_cons_of_pos (by simpa using hrecord), List.filter_nil, byId_concat,
        Function.update_apply, ih]
      by_cases hid : id = record.id
      · rw [if_pos hid, if_pos hid, if_pos (hid ▸ hrecord)]
      · rw [if_neg hid, if_neg hid]
    · rw [List.filter_cons_of_neg (by simpa using hrecord), List.filter_nil, List.append_nil, ih]
      by_cases hid : id = record.id
      · rw [if_neg (hid ▸ hrecord), if_neg (hid ▸ hrecord)]
      · rw [if_neg hid]

theorem isSome_byId {records : List (Record K)} {id : K} :
    (byId records id).isSome ↔ id ∈ (items records).keys := by
  rw [byId_eq, isSome_recordsOf, Dict.isSome_get?_iff]

/-! ### The diff -/

/-- What `diff_records` returns. -/
structure Diff (K : Type) where
  added : List K
  removed : List K
  changed : List K

/-- `diff_records(before, after)`. -/
def diffRecords (before after : List (Record K)) : Diff K :=
  let beforeById := items before
  let afterById := items after
  { added := afterById.keys.filter fun id => decide (id ∉ beforeById.keys)
    removed := beforeById.keys.filter fun id => decide (id ∉ afterById.keys)
    changed := afterById.keys.filter fun id =>
      match afterById.get? id, beforeById.get? id with
      | some new, some old => !eq new old
      | _, _ => false }

/-- The ids of a diff. -/
def Diff.ids (diff : Diff K) : List K := diff.added ++ diff.removed ++ diff.changed

variable {eq} {before after : List (Record K)} {id : K}

theorem mem_added :
    id ∈ (diffRecords eq before after).added ↔
      (byId after id).isSome ∧ byId before id = none := by
  rw [diffRecords, List.mem_filter, decide_eq_true_iff, ← isSome_byId, ← isSome_byId,
    Bool.not_eq_true, Option.isSome_eq_false_iff, Option.isNone_iff_eq_none]

theorem mem_removed :
    id ∈ (diffRecords eq before after).removed ↔
      (byId before id).isSome ∧ byId after id = none := by
  rw [diffRecords, List.mem_filter, decide_eq_true_iff, ← isSome_byId, ← isSome_byId,
    Bool.not_eq_true, Option.isSome_eq_false_iff, Option.isNone_iff_eq_none]

theorem mem_changed :
    id ∈ (diffRecords eq before after).changed ↔
      ∃ new old, byId after id = some new ∧ byId before id = some old ∧
        eq new.metadata old.metadata = false := by
  rw [diffRecords, List.mem_filter, ← isSome_byId, byId_eq, byId_eq, recordsOf, recordsOf]
  cases (items after).get? id with
  | none => simp
  | some new =>
    cases (items before).get? id with
    | none => simp
    | some old => simp [fromValue]

/-- **The ids of a diff** are those whose records differ. -/
theorem mem_ids_iff :
    id ∈ (diffRecords eq before after).ids ↔ ¬ SameRecord eq (byId after id) (byId before id) := by
  rw [Diff.ids, List.mem_append, List.mem_append, mem_added, mem_removed, mem_changed]
  cases byId after id with
  | none =>
    cases byId before id with
    | none => simp [SameRecord]
    | some old => simp [SameRecord]
  | some new =>
    cases byId before id with
    | none => simp [SameRecord]
    | some old => simp [SameRecord]

/-- No id is in two of the lists, or twice in one of them. -/
theorem nodup_ids (before after : List (Record K)) : (diffRecords eq before after).ids.Nodup := by
  rw [Diff.ids, List.nodup_append, List.nodup_append]
  refine ⟨⟨(items after).nodup.filter _, (items before).nodup.filter _, ?_⟩,
    (items after).nodup.filter _, ?_⟩
  · rintro id hadded _ hremoved rfl
    have hsome := (mem_added.mp hadded).1
    rw [(mem_removed.mp hremoved).2] at hsome
    cases hsome
  · rintro id hmem _ hchanged rfl
    obtain ⟨new, old, hnew, hold, -⟩ := mem_changed.mp hchanged
    rcases List.mem_append.mp hmem with hadded | hremoved
    · exact absurd (hold.symm.trans (mem_added.mp hadded).2) (Option.some_ne_none old)
    · exact absurd (hnew.symm.trans (mem_removed.mp hremoved).2) (Option.some_ne_none new)

/-! ### The patch -/

/-- The calls that a diff says: delete what was removed, and write what was added or changed. -/
def Diff.patch (diff : Diff K) (after : List (Record K)) : List (Call K) :=
  [.deleteMany diff.removed,
    .setMany (after.filter fun record => decide (record.id ∈ diff.added ++ diff.changed))]

/-- What the patch makes of the first snapshot: the ids of the diff are those of the second, and the
others are left alone. -/
theorem foldl_patch (eq : Dict PyStr PyVal → Dict PyStr PyVal → Bool)
    (before after : List (Record K)) (id : K) :
    ((diffRecords eq before after).patch after).foldl RecordMap.exec (byId before) id =
      if id ∈ (diffRecords eq before after).ids then byId after id else byId before id := by
  rw [Diff.patch, List.foldl_cons, List.foldl_cons, List.foldl_nil, exec_setMany, byId_filter,
    RecordMap.exec]
  simp only [Diff.ids, List.mem_append]
  by_cases hremoved : id ∈ (diffRecords eq before after).removed
  · have hnone := (mem_removed.mp hremoved).2
    simp [hremoved, hnone]
  · by_cases hrest : id ∈ (diffRecords eq before after).added ∨
        id ∈ (diffRecords eq before after).changed
    · have hsome : (byId after id).isSome := by
        rcases hrest with hadded | hchanged
        · exact (mem_added.mp hadded).1
        · obtain ⟨new, -, hnew, -⟩ := mem_changed.mp hchanged
          rw [hnew]
          rfl
      have hids : (id ∈ (diffRecords eq before after).added ∨
          id ∈ (diffRecords eq before after).removed) ∨
          id ∈ (diffRecords eq before after).changed := by tauto
      rw [if_pos hrest, if_pos hids, Option.or_of_isSome hsome]
    · have hids : ¬ ((id ∈ (diffRecords eq before after).added ∨
          id ∈ (diffRecords eq before after).removed) ∨
          id ∈ (diffRecords eq before after).changed) := by tauto
      rw [if_neg hrest, if_neg hids, if_neg hremoved, Option.none_or]

variable {σ : Type} {store : BaseStore σ K (Dict PyStr PyVal)}
  {contents : σ → Contents K (Dict PyStr PyVal)} {Good : σ → Prop} {N : Type} [DecidableEq N]
  (num : Numbers N)

/-- **A diff is a patch.** The three lists have no id in common and no id twice; an id is in one of
them exactly when its records differ; and a record store that holds the first snapshot holds after
the calls of the patch, none of which raises, the records of the second under the ids of the diff
and equal ones under all others. -/
theorem diff_records_law (h : IsMap store contents Good) {s : σ} (hs : Good s)
    (eq : Dict PyStr PyVal → Dict PyStr PyVal → Bool) (before after : List (Record K))
    (hbefore : recordsOf (contents s) = byId before) :
    (diffRecords eq before after).ids.Nodup ∧
    (∀ id, id ∈ (diffRecords eq before after).ids ↔
      ¬ SameRecord eq (byId after id) (byId before id)) ∧
    ∃ s' m, Refinement.runOps (exec store) s ((diffRecords eq before after).patch after) =
        (s', [.ok (), .ok ()]) ∧ Answers store num s' m ∧
      ∀ id, if id ∈ (diffRecords eq before after).ids then m id = byId after id
        else m id = byId before id ∧ SameRecord eq (byId after id) (m id) := by
  refine ⟨nodup_ids before after, fun id => mem_ids_iff, ?_⟩
  obtain ⟨s', hrun, hgood, hrecords⟩ := run h hs ((diffRecords eq before after).patch after)
  refine ⟨s', _, hrun, hrecords ▸ answers num (h.reads hgood), fun id => ?_⟩
  rw [hbefore, foldl_patch]
  by_cases hid : id ∈ (diffRecords eq before after).ids
  · rw [if_pos hid, if_pos hid]
  · rw [if_neg hid, if_neg hid]
    exact ⟨rfl, not_not.mp fun hdiffer => hid (mem_ids_iff.mpr hdiffer)⟩

/-- `==` on metadata. -/
def metadataEq (num : Numbers N) (m m' : Dict PyStr PyVal) : Bool :=
  (PyVal.ofDict m).eq num (PyVal.ofDict m')

/-- Metadata with a page. -/
def page (n : ℤ) : Dict PyStr PyVal := .ofList [(ofString "page", .int n)]

theorem diff_records_law_memory :
    ∃ s' m, Refinement.runOps (exec (InMemoryStore.baseStore byPosition))
        (⟨items [⟨"a", page 1⟩, ⟨"b", ∅⟩], false⟩ : InMemoryStore String (Dict PyStr PyVal))
        ((diffRecords (metadataEq wholeNumbers) [⟨"a", page 1⟩, ⟨"b", ∅⟩]
          [⟨"a", page 2⟩, ⟨"c", ∅⟩]).patch [⟨"a", page 2⟩, ⟨"c", ∅⟩]) = (s', [.ok (), .ok ()]) ∧
      Answers (InMemoryStore.baseStore byPosition) wholeNumbers s' m := by
  obtain ⟨-, -, s', m, hrun, hanswers, -⟩ := diff_records_law wholeNumbers
    (InMemoryStore.isMap byPosition) (s := ⟨items [⟨"a", page 1⟩, ⟨"b", ∅⟩], false⟩) rfl
    (metadataEq wholeNumbers) [⟨"a", page 1⟩, ⟨"b", ∅⟩] [⟨"a", page 2⟩, ⟨"c", ∅⟩] (byId_eq _).symm
  exact ⟨s', m, hrun, hanswers⟩

/-! ### Collisions -/

section Collisions

variable (eq : Dict PyStr PyVal → Dict PyStr PyVal → Bool)

/-- `if metadata not in seen: seen.append(metadata)`. -/
def addVariant (seen : List (Dict PyStr PyVal)) (metadata : Dict PyStr PyVal) :
    List (Dict PyStr PyVal) :=
  if seen.any fun m => eq m metadata then seen else seen ++ [metadata]

/-- One turn of the loop: `seen = variants.setdefault(record.id, [])`. -/
def collect (variants : Dict K (List (Dict PyStr PyVal))) (record : Record K) :
    Dict K (List (Dict PyStr PyVal)) :=
  variants.set record.id (addVariant eq ((variants.get? record.id).getD []) record.metadata)

/-- `find_id_collisions(records)`. -/
def findIdCollisions (records : List (Record K)) : Dict K (List (Dict PyStr PyVal)) :=
  (records.foldl (collect eq) ∅).filterEntries fun item => decide (1 < item.2.length)

/-- The metadata that an id comes with. -/
def metadataOf (records : List (Record K)) (id : K) : List (Dict PyStr PyVal) :=
  (records.filter fun record => decide (record.id = id)).map Record.metadata

variable {eq}

theorem metadataOf_concat (records : List (Record K)) (record : Record K) (id : K) :
    metadataOf (records ++ [record]) id =
      metadataOf records id ++ if record.id = id then [record.metadata] else [] := by
  rw [metadataOf, List.filter_append, List.map_append]
  by_cases h : record.id = id
  · rw [if_pos h, List.filter_cons_of_pos (by simpa using h)]
    rfl
  · rw [if_neg h, List.filter_cons_of_neg (by simpa using h)]
    rfl

/-- The variants of an id are those of its metadata, in their order. -/
theorem get?_collect (records : List (Record K)) (id : K) :
    (records.foldl (collect eq) ∅).get? id =
      if metadataOf records id = [] then none
      else some ((metadataOf records id).foldl (addVariant eq) []) := by
  induction records using List.reverseRecOn with
  | nil => rfl
  | append_singleton records record ih =>
    rw [List.foldl_append, List.foldl_cons, List.foldl_nil, collect, Dict.get?_set,
      metadataOf_concat]
    by_cases h : record.id = id
    · subst h
      have hne : metadataOf records record.id ++ [record.metadata] ≠ [] := by simp
      rw [if_pos rfl, if_pos rfl, if_neg hne, List.foldl_append, ih]
      split
      · next hnil =>
        rw [hnil]
        rfl
      · rfl
    · rw [if_neg h, List.append_nil, if_neg fun heq => h heq.symm, ih]

/-- One variant is left when all metadata equal the first. -/
theorem length_variants (m : Dict PyStr PyVal) (ms seen : List (Dict PyStr PyVal)) :
    1 < (ms.foldl (addVariant eq) (m :: seen)).length ↔
      seen ≠ [] ∨ ∃ m' ∈ ms, eq m m' = false := by
  induction ms generalizing seen with
  | nil => cases seen <;> simp
  | cons m' ms ih =>
    rw [List.foldl_cons, addVariant]
    by_cases hseen : seen = []
    · subst hseen
      cases heq : eq m m' with
      | true => simp [heq, ih]
      | false => simp [heq, ih]
    · split
      · rw [ih]
        simp [hseen]
      · rw [List.cons_append, ih]
        simp [hseen]

theorem mem_collisions_iff {records : List (Record K)} {id : K} :
    id ∈ (findIdCollisions eq records).keys ↔
      ∃ m ms, metadataOf records id = m :: ms ∧ ∃ m' ∈ ms, eq m m' = false := by
  rw [← Dict.isSome_get?_iff, Option.isSome_iff_exists]
  simp only [findIdCollisions, Dict.get?_filterEntries_eq_some, get?_collect, decide_eq_true_iff]
  cases metadataOf records id with
  | nil => simp
  | cons m ms =>
    have hfirst : (m :: ms).foldl (addVariant eq) [] = ms.foldl (addVariant eq) [m] := rfl
    simp [hfirst, length_variants]

/-- **No collisions**: every metadata of an id equals the first. -/
theorem findIdCollisions_eq_empty_iff {records : List (Record K)} :
    (findIdCollisions eq records).entries = [] ↔
      ∀ id m ms, metadataOf records id = m :: ms → ∀ m' ∈ ms, eq m m' = true := by
  constructor
  · intro hempty id m ms hms m' hm'
    by_contra hne
    have hmem : id ∈ (findIdCollisions eq records).keys :=
      mem_collisions_iff.mpr ⟨m, ms, hms, m', hm', by simpa using hne⟩
    rw [Dict.keys, hempty] at hmem
    cases hmem
  · intro hall
    refine List.eq_nil_iff_forall_not_mem.mpr fun item hitem => ?_
    obtain ⟨m, ms, hms, m', hm', hne⟩ := mem_collisions_iff.mp (Dict.mem_keys_of_mem hitem)
    rw [hall _ m ms hms m' hm'] at hne
    cases hne

/-- Comparing some metadata says that they are equal: none of them has a NaN. -/
structure EqualityOn (eq : Dict PyStr PyVal → Dict PyStr PyVal → Bool)
    (ms : List (Dict PyStr PyVal)) : Prop where
  refl : ∀ m ∈ ms, eq m m
  symm : ∀ m ∈ ms, ∀ m' ∈ ms, eq m m' → eq m' m
  trans : ∀ m ∈ ms, ∀ m' ∈ ms, ∀ m'' ∈ ms, eq m m' → eq m' m'' → eq m m''

theorem mem_metadataOf {records : List (Record K)} {id : K} {m : Dict PyStr PyVal} :
    m ∈ metadataOf records id ↔ (⟨id, m⟩ : Record K) ∈ records := by
  simp only [metadataOf, List.mem_map, List.mem_filter, decide_eq_true_iff]
  constructor
  · rintro ⟨record, ⟨hmem, rfl⟩, rfl⟩
    exact hmem
  · intro hmem
    exact ⟨_, ⟨hmem, rfl⟩, rfl⟩

/-- What is held under an id is one of the records with it. -/
theorem mem_of_byId {records : List (Record K)} {id : K} {record : Record K}
    (h : byId records id = some record) : record.id = id ∧ record ∈ records := by
  induction records using List.reverseRecOn with
  | nil => cases h
  | append_singleton records last ih =>
    rw [byId_concat, Function.update_apply] at h
    split at h
    · next hid =>
      obtain rfl := Option.some.inj h
      exact ⟨hid.symm, List.mem_append_right _ List.mem_cons_self⟩
    · exact ⟨(ih h).1, List.mem_append_left _ (ih h).2⟩

/-- The records in an order with one of them last. -/
theorem exists_perm_last {records : List (Record K)} {record : Record K} (h : record ∈ records) :
    ∃ records', records.Perm records' ∧ byId records' record.id = some record := by
  obtain ⟨front, back, rfl⟩ := List.append_of_mem h
  refine ⟨front ++ back ++ [record], ?_, ?_⟩
  · exact List.perm_middle.trans (List.perm_append_singleton _ _).symm
  · rw [byId_concat, Function.update_self]

theorem isSome_byId_iff {records : List (Record K)} {id : K} :
    (byId records id).isSome ↔ ∃ record ∈ records, record.id = id := by
  constructor
  · intro hsome
    obtain ⟨record, hrecord⟩ := Option.isSome_iff_exists.mp hsome
    exact ⟨record, (mem_of_byId hrecord).2, (mem_of_byId hrecord).1⟩
  · rintro ⟨record, hmem, rfl⟩
    induction records using List.reverseRecOn with
    | nil => cases hmem
    | append_singleton records last ih =>
      rw [byId_concat, Function.update_apply]
      split
      · rfl
      · next hne =>
        refine ih ((List.mem_append.mp hmem).resolve_right fun hlast => hne ?_)
        rw [List.mem_singleton.mp hlast]

/-- Records with one id have equal metadata. -/
def SameById (eq : Dict PyStr PyVal → Dict PyStr PyVal → Bool) (records : List (Record K)) : Prop :=
  ∀ r ∈ records, ∀ r' ∈ records, r.id = r'.id → eq r.metadata r'.metadata

/-- No id collides exactly when records with one id have equal metadata: each of them is compared
with the first. -/
theorem sameById_iff {records : List (Record K)}
    (h : EqualityOn eq (records.map Record.metadata)) :
    SameById eq records ↔
      ∀ id m ms, metadataOf records id = m :: ms → ∀ m' ∈ ms, eq m m' = true := by
  constructor
  · intro hsame id m ms hms m' hm'
    exact hsame ⟨id, m⟩ (mem_metadataOf.mp (hms ▸ List.mem_cons_self)) ⟨id, m'⟩
      (mem_metadataOf.mp (hms ▸ List.mem_cons_of_mem m hm')) rfl
  · intro hall r hr r' hr' hid
    have hin : ∀ record ∈ records, record.metadata ∈ records.map Record.metadata :=
      fun record hrecord => List.mem_map_of_mem hrecord
    obtain ⟨m, ms, hms⟩ :=
      List.exists_cons_of_ne_nil (List.ne_nil_of_mem (mem_metadataOf.mpr hr))
    have hm : m ∈ records.map Record.metadata :=
      hin _ (mem_metadataOf.mp (hms ▸ List.mem_cons_self))
    have hfirst : ∀ variant ∈ metadataOf records r.id, eq m variant := by
      intro variant hvariant
      rw [hms] at hvariant
      rcases List.mem_cons.mp hvariant with rfl | hrest
      · exact h.refl _ hm
      · exact hall r.id m ms hms _ hrest
    exact h.trans _ (hin r hr) m hm _ (hin r' hr')
      (h.symm m hm _ (hin r hr) (hfirst _ (mem_metadataOf.mpr hr)))
      (hfirst _ (hid ▸ mem_metadataOf.mpr hr'))

/-- Without a collision every order leaves equal records. -/
theorem SameById.sameRecord {records records' : List (Record K)} (h : SameById eq records)
    (hperm : records.Perm records') (id : K) :
    SameRecord eq (byId records id) (byId records' id) := by
  have hsome : (byId records id).isSome = (byId records' id).isSome := by
    rw [Bool.eq_iff_iff, isSome_byId_iff, isSome_byId_iff]
    simp only [hperm.mem_iff]
  cases hr : byId records id with
  | none =>
    rw [hr] at hsome
    rw [Option.not_isSome_iff_eq_none.mp (Bool.eq_false_iff.mp hsome.symm)]
    trivial
  | some r =>
    rw [hr] at hsome
    obtain ⟨r', hr'⟩ := Option.isSome_iff_exists.mp hsome.symm
    rw [hr']
    obtain ⟨hid, hmem⟩ := mem_of_byId hr
    obtain ⟨hid', hmem'⟩ := mem_of_byId hr'
    exact h r hmem r' (hperm.mem_iff.mpr hmem') (hid.trans hid'.symm)

/-- When every order leaves equal records, the record that is held equals each one with its id,
which may be put last. -/
theorem exists_held {records : List (Record K)}
    (hall : ∀ records', records.Perm records' →
      ∀ id, SameRecord eq (byId records id) (byId records' id))
    {r : Record K} (hr : r ∈ records) :
    ∃ held ∈ records, byId records r.id = some held ∧ eq held.metadata r.metadata := by
  obtain ⟨records', hperm, hbyId⟩ := exists_perm_last hr
  have hsame := hall records' hperm r.id
  rw [hbyId] at hsame
  cases hheld : byId records r.id with
  | none =>
    rw [hheld] at hsame
    cases hsame
  | some held =>
    rw [hheld] at hsame
    exact ⟨held, (mem_of_byId hheld).2, rfl, hsame⟩

/-- **Records collide** exactly when it matters in which order an empty record store is given
them. -/
theorem id_collision_law {records : List (Record K)}
    (h : EqualityOn eq (records.map Record.metadata)) :
    (findIdCollisions eq records).entries = [] ↔
      ∀ records', records.Perm records' →
        ∀ id, SameRecord eq (byId records id) (byId records' id) := by
  rw [findIdCollisions_eq_empty_iff, ← sameById_iff h]
  constructor
  · exact fun hsame records' hperm id => hsame.sameRecord hperm id
  · intro hall r hr r' hr' hid
    have hin : ∀ record ∈ records, record.metadata ∈ records.map Record.metadata :=
      fun record hrecord => List.mem_map_of_mem hrecord
    obtain ⟨held, hheld, hget, heq⟩ := exists_held hall hr
    obtain ⟨held', -, hget', heq'⟩ := exists_held hall hr'
    rw [hid] at hget
    obtain rfl := Option.some.inj (hget.symm.trans hget')
    exact h.trans _ (hin r hr) _ (hin held hheld) _ (hin r' hr')
      (h.symm _ (hin held hheld) _ (hin r hr) heq) heq'

/-- One id with two pages. -/
def twoPages : List (Record String) := [⟨"a", page 1⟩, ⟨"b", ∅⟩, ⟨"a", page 2⟩]

theorem id_collision_law_pages :
    ¬ ∀ records', twoPages.Perm records' → ∀ id,
      SameRecord (metadataEq wholeNumbers) (byId twoPages id) (byId records' id) := by
  have hequality : EqualityOn (metadataEq wholeNumbers) (twoPages.map Record.metadata) :=
    ⟨by decide, by decide, by decide⟩
  rw [← id_collision_law hequality]
  decide

end Collisions

end Records

end Persista
