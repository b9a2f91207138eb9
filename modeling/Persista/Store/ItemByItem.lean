import Persista.Store.InMemory
import Persista.Store.Rows

/-!
# Stores that write a batch item by item

`store/in_memory.py` deep-copies a value and assigns it, `store/file.py` saves a value to its own
file, and both go on to the next item only when that worked. Nothing undoes the items already
written when one of them raises.

`put value old` is one such write: what it raises, and what is under the key afterwards whether it
raises or not. The loop is `writeEach`. Keys of a batch are distinct, so what it does can be said
item by item against the state before the call: `attempted` are the items it gets to, and
`observed_writeEach_iff` says when a loop that raised cannot be told from one that did not start.

## Main results

* `Contents.observed_writeEach_iff` — the loop is all-or-nothing exactly when the items up to the
  first one that raises leave what they found
* `batches_all_or_nothing_iff` — the same for the `set_many` of both stores
-/

namespace Persista

namespace Contents

variable {K V R E L : Type}

/-- The items the loop gets to: up to the first whose write raises, that one included. -/
def attempted (put : V → Option R → Except E Unit × Option R) (m : Contents K R) :
    List (K × V) → List (K × V)
  | [] => []
  | item :: items =>
    match (put item.2 (m item.1)).1 with
    | .error _ => [item]
    | .ok () => item :: attempted put m items

/-- What reading a key shows. -/
def observed (load : R → Except L V) (m : Contents K R) : K → Option (Except L V) := fun key =>
  (m key).map load

/-- Some item raises when it is written. -/
def Raises (put : V → Option R → Except E Unit × Option R) (m : Contents K R)
    (items : List (K × V)) : Prop :=
  ∃ item ∈ items, ∃ e, (put item.2 (m item.1)).1 = .error e

/-- Writing the item cannot be observed. -/
def Unseen (put : V → Option R → Except E Unit × Option R) (load : R → Except L V)
    (m : Contents K R) (item : K × V) : Prop :=
  (put item.2 (m item.1)).2.map load = (m item.1).map load

variable {put : V → Option R → Except E Unit × Option R} {load : R → Except L V}
  {m : Contents K R} {items : List (K × V)}

theorem attempted_congr {m' : Contents K R} (h : ∀ k ∈ items.map Prod.fst, m' k = m k) :
    attempted put m' items = attempted put m items := by
  induction items with
  | nil => rfl
  | cons item items ih =>
    rw [attempted, attempted, h item.1 (by simp), ih fun k hk => h k (List.mem_cons_of_mem _ hk)]

variable (put m items) in
theorem attempted_initial : attempted put m items <+: items := by
  induction items with
  | nil => exact List.prefix_refl _
  | cons item items ih =>
    rw [attempted]
    split
    · exact ⟨items, rfl⟩
    · exact List.cons_prefix_cons.mpr ⟨rfl, ih⟩

theorem raises_congr {m' : Contents K R} (h : ∀ k ∈ items.map Prod.fst, m' k = m k) :
    Raises put m' items ↔ Raises put m items := by
  have hput : ∀ item ∈ items, put item.2 (m' item.1) = put item.2 (m item.1) := fun item hi => by
    rw [h item.1 (List.mem_map_of_mem hi)]
  constructor
  · rintro ⟨item, hi, e, he⟩
    exact ⟨item, hi, e, hput item hi ▸ he⟩
  · rintro ⟨item, hi, e, he⟩
    exact ⟨item, hi, e, (hput item hi).symm ▸ he⟩

variable [DecidableEq K]

/-- Write the items one by one until one of them raises. -/
def writeEach (put : V → Option R → Except E Unit × Option R) (m : Contents K R) :
    List (K × V) → Except E Unit × Contents K R
  | [] => (.ok (), m)
  | (key, value) :: items =>
    match put value (m key) with
    | (.error e, left) => (.error e, Function.update m key left)
    | (.ok (), left) => writeEach put (Function.update m key left) items

/-- The loop raises exactly when some item does: an earlier item does not change what a later one
finds. -/
theorem raises_iff (hnd : (items.map Prod.fst).Nodup) :
    (∃ e, (writeEach put m items).1 = .error e) ↔ Raises put m items := by
  induction items generalizing m with
  | nil => simp [writeEach, Raises]
  | cons item items ih =>
    obtain ⟨key, value⟩ := item
    simp only [List.map_cons, List.nodup_cons] at hnd
    rw [writeEach]
    split
    · next e left hput =>
      exact iff_of_true ⟨e, rfl⟩ ⟨(key, value), by simp, e, by rw [hput]⟩
    · next left hput =>
      have hother : ∀ k ∈ items.map Prod.fst, Function.update m key left k = m k := fun k hk =>
        Function.update_of_ne (ne_of_mem_of_not_mem hk hnd.1) _ _
      rw [ih hnd.2, raises_congr hother]
      constructor
      · rintro ⟨item, hi, e, he⟩
        exact ⟨item, List.mem_cons_of_mem _ hi, e, he⟩
      · rintro ⟨item, hi, e, he⟩
        rcases List.mem_cons.mp hi with rfl | hi
        · rw [hput] at he
          cases he
        · exact ⟨item, hi, e, he⟩

/-- What the loop leaves under a key. -/
theorem snd_writeEach_apply (hnd : (items.map Prod.fst).Nodup) (k : K) :
    (writeEach put m items).2 k =
      match (attempted put m items).lookup k with
      | none => m k
      | some value => (put value (m k)).2 := by
  induction items generalizing m with
  | nil => rfl
  | cons item items ih =>
    obtain ⟨key, value⟩ := item
    simp only [List.map_cons, List.nodup_cons] at hnd
    rw [writeEach, attempted]
    split
    · next e left hput =>
      simp only [hput, Dict.lookup_cons_ite]
      by_cases hk : k = key
      · subst hk
        simp [hput]
      · simp [hk]
    · next left hput =>
      have hother : ∀ k ∈ items.map Prod.fst, Function.update m key left k = m k := fun k hk =>
        Function.update_of_ne (ne_of_mem_of_not_mem hk hnd.1) _ _
      simp only [hput, Dict.lookup_cons_ite]
      rw [ih hnd.2, attempted_congr hother]
      by_cases hk : k = key
      · subst hk
        have hnone : (attempted put m items).lookup k = none :=
          Dict.lookup_eq_none_of_not_mem fun hmem => by
            obtain ⟨item, hi, rfl⟩ := List.mem_map.mp hmem
            exact hnd.1 (List.mem_map_of_mem ((attempted_initial put m items).subset hi))
        simp [hnone, hput]
      · simp [hk]

/-- **A loop that leaves no trace.** Reading shows nothing of a loop that raised exactly when every
write it got to, the failing one included, left what it found. -/
theorem observed_writeEach_iff (hnd : (items.map Prod.fst).Nodup) :
    ((∃ e, (writeEach put m items).1 = .error e) →
        observed load (writeEach put m items).2 = observed load m) ↔
      (Raises put m items → ∀ item ∈ attempted put m items, Unseen put load m item) := by
  have hkeys : ((attempted put m items).map Prod.fst).Nodup :=
    hnd.sublist ((attempted_initial put m items).sublist.map _)
  rw [raises_iff hnd]
  refine imp_congr_right fun _ => ⟨fun h item hi => ?_, fun h => ?_⟩
  · have hk := congrFun h item.1
    simp only [observed, snd_writeEach_apply hnd, Dict.lookup_eq_some_of_mem hkeys hi] at hk
    exact hk
  · funext k
    rw [observed, observed, snd_writeEach_apply hnd]
    split
    · rfl
    · next value hl =>
      obtain ⟨before, after, heq, -⟩ := List.lookup_eq_some_iff.mp hl
      exact h (k, value) (heq ▸ by simp)

/-! ### What a call is to write -/

variable [ShallowMerge V]

/-- What a strategy makes of a new value and of what is stored, when there is something to write. -/
def plannedValue (load : R → Except L V) (onConflict : OnConflict) (new : V) (old : Option R) :
    Option V :=
  match old, onConflict with
  | none, _ => some new
  | some _, .skip => none
  | some raw, .merge => (load raw).toOption.map fun old => ShallowMerge.merge (some old) new
  | some _, .raise => some new
  | some _, .overwrite => some new

/-- The call raises before it writes: a conflict under `raise`, or a stored value to merge that does
not load. -/
def RaisesFirst (load : R → Except L V) (m : Contents K R) (items : Dict K V)
    (onConflict : OnConflict) : Prop :=
  ∃ key ∈ items.keys, ∃ raw, m key = some raw ∧
    (onConflict = .raise ∨ onConflict = .merge ∧ (load raw).toOption = none)

/-- The items the call is to write, in order. -/
def planned (load : R → Except L V) (m : Contents K R) (items : Dict K V)
    (onConflict : OnConflict) : List (K × V) :=
  items.entries.filterMap fun item =>
    (plannedValue load onConflict item.2 (m item.1)).map (item.1, ·)

/-- A batch that raises cannot be told from one that was not written: it raises before it writes, or
every write it gets to leaves what it found. -/
def LeavesNoTrace (put : V → Option R → Except E Unit × Option R) (load : R → Except L V)
    (m : Contents K R) (items : Dict K V) (onConflict : OnConflict) : Prop :=
  RaisesFirst load m items onConflict ∨
    (Raises put m (planned load m items onConflict) →
      ∀ item ∈ attempted put m (planned load m items onConflict), Unseen put load m item)

variable {batch : Dict K V} {onConflict : OnConflict}

omit [DecidableEq K] [ShallowMerge V] in
theorem map_fst_filterMap_sublist (f : K × V → Option V) (items : List (K × V)) :
    ((items.filterMap fun item => (f item).map (item.1, ·)).map Prod.fst).Sublist
      (items.map Prod.fst) := by
  induction items with
  | nil => exact List.Sublist.refl _
  | cons item items ih =>
    rw [List.filterMap_cons]
    cases f item with
    | none => exact ih.cons item.1
    | some value => exact ih.cons_cons item.1

omit [DecidableEq K] in
theorem nodup_planned : ((planned load m batch onConflict).map Prod.fst).Nodup :=
  batch.nodup.sublist (map_fst_filterMap_sublist _ _)

omit [DecidableEq K] in
theorem planned_overwrite : planned load m batch .overwrite = batch.entries := by
  rw [planned]
  refine (List.filterMap_congr fun item _ => ?_).trans (List.filterMap_some)
  cases h : m item.1 <;> rfl

omit [DecidableEq K] in
theorem mem_conflicts_iff {key : K} {keys : List K} :
    key ∈ m.conflicts keys ↔ key ∈ keys ∧ ∃ raw, m key = some raw := by
  rw [conflicts, List.mem_filter, Option.isSome_iff_exists]

/-- Past the checks, the loop of `resolve_conflicts` keeps the planned items. -/
theorem entries_resolveItems_eq_planned (ho : onConflict ≠ .overwrite)
    (h : ¬ RaisesFirst load m batch onConflict) :
    (resolveItems (m.conflicts batch.keys) onConflict
      (fun key => (m key).bind fun raw => (load raw).toOption) ∅ batch.entries).entries =
      planned load m batch onConflict := by
  rw [entries_resolveItems batch.nodup fun k _ hk => by cases hk]
  refine List.filterMap_congr fun item hi => ?_
  have hkey : item.1 ∈ batch.keys := Dict.mem_keys_of_mem hi
  cases hm : m item.1 with
  | none =>
    have hc : item.1 ∉ m.conflicts batch.keys := by simp [mem_conflicts_iff, hm]
    simp [resolved, hc, plannedValue]
  | some raw =>
    have hc : item.1 ∈ m.conflicts batch.keys := mem_conflicts_iff.mpr ⟨hkey, raw, hm⟩
    cases onConflict with
    | raise => exact absurd ⟨_, hkey, raw, hm, .inl rfl⟩ h
    | skip => simp [resolved, hc, plannedValue]
    | overwrite => exact absurd rfl ho
    | merge =>
      cases hl : (load raw).toOption with
      | none => exact absurd ⟨_, hkey, raw, hm, .inr ⟨rfl, hl⟩⟩ h
      | some old => simp [resolved, hc, plannedValue, hm, hl]

theorem leavesNoTrace_iff (h : ¬ RaisesFirst load m batch onConflict) :
    LeavesNoTrace put load m batch onConflict ↔
      ((∃ e, (writeEach put m (planned load m batch onConflict)).1 = .error e) →
        observed load (writeEach put m (planned load m batch onConflict)).2 = observed load m) := by
  rw [observed_writeEach_iff nodup_planned, LeavesNoTrace, or_iff_right h]

end Contents

/-! ### `resolve_conflicts` with lookups that raise -/

section Raising

variable {K V X : Type} [DecidableEq K] [ShallowMerge V] {get : K → Except X (Option V)}
  {get' : K → Option V} {conflicts : List K} {onConflict : OnConflict}

variable (get') in
theorem foldlM_resolveItemM_ok {todo : List (K × V)}
    (h : ∀ item ∈ todo, item.1 ∈ conflicts → onConflict ≠ .skip → get item.1 = .ok (get' item.1))
    (toWrite : Dict K V) :
    todo.foldlM (resolveItemM conflicts onConflict get) toWrite =
      .ok (resolveItems conflicts onConflict get' toWrite todo) := by
  induction todo generalizing toWrite with
  | nil => rfl
  | cons item todo ih =>
    have hitem : resolveItemM conflicts onConflict get toWrite item =
        .ok (resolveItem conflicts onConflict get' toWrite item) := by
      rw [resolveItemM, resolveItem]
      split_ifs with hc hs
      · rfl
      · rw [h item List.mem_cons_self hc hs]
        rfl
      · rfl
    rw [List.foldlM_cons, hitem, resolveItems_cons]
    exact ih (fun item hi => h item (List.mem_cons_of_mem _ hi)) _

theorem foldlM_resolveItemM_error {todo : List (K × V)} {item : K × V} (hi : item ∈ todo)
    (hc : item.1 ∈ conflicts) (hs : onConflict ≠ .skip) {e : X} (he : get item.1 = .error e)
    (toWrite : Dict K V) :
    ∃ e, todo.foldlM (resolveItemM conflicts onConflict get) toWrite = .error e := by
  induction todo generalizing toWrite with
  | nil => cases hi
  | cons first todo ih =>
    rw [List.foldlM_cons]
    cases hf : resolveItemM conflicts onConflict get toWrite first with
    | error e => exact ⟨e, rfl⟩
    | ok next =>
      rcases List.mem_cons.mp hi with rfl | hi
      · rw [resolveItemM, if_pos hc, if_neg hs, he] at hf
        cases hf
      · exact ih hi next

end Raising

/-! ### `BaseFileStore` -/

/-- What a file store's write can raise: an error of the store, `_save`'s or `_load`'s. -/
inductive FileError (K E L : Type)
  | store (error : StoreError K)
  | save (error : E)
  | load (error : L)

/-- `_save` and `_load`. `save value old` is what saving to a file with the content `old` raises and
what is in the file afterwards. -/
structure FileFormat (V R E L : Type) where
  save : V → Option R → Except E Unit × Option R
  load : R → Except L V

/-- The state of a `BaseFileStore`: its files by key, and `_closed`. -/
structure BaseFileStore (K R : Type) where
  files : Contents K R
  closed : Bool

namespace BaseFileStore

open Refinement

variable {K V R E L : Type}

/-- `_check_open`. -/
def checkOpen (s : BaseFileStore K R) : Except (FileError K E L) Unit :=
  if s.closed then .error (.store (.runtimeError (notOpenMsg "JsonFileStore"))) else .ok ()

/-- `get`. -/
def get (format : FileFormat V R E L) (s : BaseFileStore K R) (key : K) :
    Except (FileError K E L) (Option V) := do
  s.checkOpen
  match s.files key with
  | none => return none
  | some raw => ((format.load raw).mapError .load).map some

/-- `contains`. -/
def contains (s : BaseFileStore K R) (key : K) : Except (FileError K E L) Bool := do
  s.checkOpen
  return (s.files key).isSome

/-- `contains_many`: `[self.contains(key) for key in keys]`. -/
def containsMany (s : BaseFileStore K R) (keys : List K) : Except (FileError K E L) (List Bool) :=
  keys.mapM s.contains

variable [LinearOrder K]

/-- `_set_many`. -/
def saveItems (format : FileFormat V R E L) (s : BaseFileStore K R) (items : Dict K V) :
    Except (FileError K E L) Unit × BaseFileStore K R :=
  let (outcome, files) := s.files.writeEach format.save items.entries
  (outcome.mapError .save, { s with files := files })

/-- `set_many`. -/
def setMany [ShallowMerge V] (format : FileFormat V R E L) (s : BaseFileStore K R)
    (items : Dict K V) (onConflict : OnConflict) :
    Except (FileError K E L) Unit × BaseFileStore K R :=
  match (s.checkOpen : Except (FileError K E L) Unit) with
  | .error e => (.error e, s)
  | .ok () =>
    if items.entries = [] then (.ok (), s)
    else if onConflict = .overwrite then s.saveItems format items
    else
      match resolveConflictsM items onConflict s.containsMany (s.get format) with
      | .error e => (.error e, s)
      | .ok (.error e) => (.error (.store e), s)
      | .ok (.ok toWrite) => s.saveItems format toWrite

variable [ShallowMerge V] {format : FileFormat V R E L} {s : BaseFileStore K R} {items : Dict K V}
  {onConflict : OnConflict}

omit [LinearOrder K] [ShallowMerge V] in
theorem containsMany_of_opened (h : s.closed = false) (keys : List K) :
    s.containsMany keys = (.ok (s.files.containsMany keys) : Except (FileError K E L) _) := by
  have hc : (s.contains : K → Except (FileError K E L) Bool) = fun key =>
      pure (s.files key).isSome := by
    funext key
    simp [contains, checkOpen, h]
  rw [containsMany, hc]
  exact List.mapM_pure

omit [LinearOrder K] [ShallowMerge V] in
/-- `get` of a key whose file loads, or that has none. -/
theorem get_of_loads (h : s.closed = false) {key : K}
    (hload : ∀ raw, s.files key = some raw → (format.load raw).toOption ≠ none) :
    s.get format key =
      (.ok ((s.files key).bind fun raw => (format.load raw).toOption) :
        Except (FileError K E L) _) := by
  simp only [get, checkOpen, h]
  cases hf : s.files key with
  | none => rfl
  | some raw =>
    have hraw := hload raw hf
    cases hl : format.load raw with
    | error e => exact absurd (by rw [hl]; rfl) hraw
    | ok value => simp [hl]; rfl

/-- A call that raises before its first write. -/
theorem setMany_of_raisesFirst (h : s.closed = false)
    (hr : Contents.RaisesFirst format.load s.files items onConflict) :
    (∃ e, (s.setMany format items onConflict).1 = .error e) ∧
      (s.setMany format items onConflict).2 = s := by
  have hopen : (s.checkOpen : Except (FileError K E L) Unit) = .ok () := by simp [checkOpen, h]
  obtain ⟨key, hkey, raw, hraw, hwhy⟩ := hr
  have hi : items.entries ≠ [] := by
    intro hi
    rw [Dict.keys, hi] at hkey
    cases hkey
  have ho : onConflict ≠ .overwrite := by
    rcases hwhy with rfl | ⟨rfl, -⟩ <;> decide
  have hc : key ∈ s.files.conflicts items.keys := Contents.mem_conflicts_iff.mpr ⟨hkey, raw, hraw⟩
  simp only [setMany, hopen, if_neg hi, if_neg ho, resolveConflictsM, containsMany_of_opened h,
    Contents.conflictsOf_containsMany, ok_bind]
  rcases hwhy with rfl | ⟨rfl, hload⟩
  · rw [if_pos ⟨List.ne_nil_of_mem hc, rfl⟩]
    exact ⟨⟨_, rfl⟩, rfl⟩
  · -- the file of this key does not load
    obtain ⟨value, hitem⟩ := Option.isSome_iff_exists.mp (Dict.isSome_get?_iff.mpr hkey)
    have hget : ∃ e, s.get format key = (.error e : Except (FileError K E L) _) := by
      cases hl : format.load raw with
      | ok value => simp [hl, Except.toOption] at hload
      | error e => exact ⟨.load e, by simp [get, checkOpen, h, hraw, hl]; rfl⟩
    obtain ⟨e, he⟩ := hget
    obtain ⟨e, hfold⟩ := foldlM_resolveItemM_error (Dict.get?_eq_some_iff.mp hitem) hc
      (by decide : OnConflict.merge ≠ .skip) he ∅
    rw [if_neg (by simp), hfold]
    exact ⟨⟨e, rfl⟩, rfl⟩

/-- A call that gets to its writes. -/
theorem setMany_of_not_raisesFirst (h : s.closed = false)
    (hr : ¬ Contents.RaisesFirst format.load s.files items onConflict) :
    s.setMany format items onConflict =
      ((s.files.writeEach format.save
          (Contents.planned format.load s.files items onConflict)).1.mapError .save,
        { s with files := (s.files.writeEach format.save
          (Contents.planned format.load s.files items onConflict)).2 }) := by
  have hopen : (s.checkOpen : Except (FileError K E L) Unit) = .ok () := by simp [checkOpen, h]
  simp only [setMany, hopen]
  by_cases hi : items.entries = []
  · rw [if_pos hi, Contents.planned, hi]
    rfl
  rw [if_neg hi]
  by_cases ho : onConflict = .overwrite
  · subst ho
    rw [if_pos rfl, Contents.planned_overwrite]
    rfl
  rw [if_neg ho]
  have hres : resolveConflictsM items onConflict s.containsMany (s.get format) =
      (.ok (.ok (resolveItems (s.files.conflicts items.keys) onConflict
        (fun key => (s.files key).bind fun raw => (format.load raw).toOption) ∅ items.entries)) :
        Except (FileError K E L) _) := by
    have hraise : ¬ (s.files.conflicts items.keys ≠ [] ∧ onConflict = .raise) := by
      rintro ⟨hne, rfl⟩
      obtain ⟨key, hkey⟩ := List.exists_mem_of_ne_nil _ hne
      obtain ⟨hmem, raw, hraw⟩ := Contents.mem_conflicts_iff.mp hkey
      exact hr ⟨key, hmem, raw, hraw, .inl rfl⟩
    simp only [resolveConflictsM, containsMany_of_opened h, Contents.conflictsOf_containsMany,
      ok_bind, if_neg hraise]
    let loaded (key : K) : Option V := (s.files key).bind fun raw => (format.load raw).toOption
    have hget : ∀ item ∈ items.entries, item.1 ∈ s.files.conflicts items.keys →
        onConflict ≠ .skip →
          s.get format item.1 = (.ok (loaded item.1) : Except (FileError K E L) _) := by
      intro item hitem hc hs
      refine get_of_loads h fun raw hraw hload => ?_
      cases onConflict with
      | raise => exact hraise ⟨List.ne_nil_of_mem hc, rfl⟩
      | skip => exact hs rfl
      | overwrite => exact ho rfl
      | merge => exact hr ⟨item.1, Dict.mem_keys_of_mem hitem, raw, hraw, .inr ⟨rfl, hload⟩⟩
    rw [foldlM_resolveItemM_ok loaded hget]
    rfl
  rw [hres, ← Contents.entries_resolveItems_eq_planned ho hr]
  rfl

end BaseFileStore

/-! ### `InMemoryStore` -/

namespace InMemoryStore

variable {K V E : Type} [LinearOrder K]

/-- `self._data[key] = copy.deepcopy(value)` for each item. -/
def putCopies (deepcopy : V → Except E V) (data : Dict K V) :
    List (K × V) → Except (WriteError K E) Unit × Dict K V
  | [] => (.ok (), data)
  | (key, value) :: items =>
    match deepcopy value with
    | .error e => (.error (.encode e), data)
    | .ok copy => putCopies deepcopy (data.set key copy) items

/-- `set_many` with a `copy.deepcopy` that may raise. -/
def setManyCopies [ShallowMerge V] (deepcopy : V → Except E V) (s : InMemoryStore K V)
    (items : Dict K V) (onConflict : OnConflict) :
    Except (WriteError K E) Unit × InMemoryStore K V :=
  match s.checkOpen with
  | .error e => (.error (.store e), s)
  | .ok () =>
    let put (items : List (K × V)) :=
      let (outcome, data) := putCopies deepcopy s.data items
      (outcome, { s with data := data })
    if onConflict = .overwrite then put items.entries
    else
      match resolveConflicts items onConflict
        (fun keys => keys.map fun key => decide (key ∈ s.data.keys)) s.data.get? with
      | .error e => (.error (.store e), s)
      | .ok toWrite => put toWrite.entries

/-- One assignment of a copy. -/
def copyPut (deepcopy : V → Except E V) (value : V) (old : Option V) :
    Except E Unit × Option V :=
  match deepcopy value with
  | .error e => (.error e, old)
  | .ok copy => (.ok (), some copy)

/-- A stored value is there to be read. -/
def loadStored (value : V) : Except Empty V := .ok value

theorem putCopies_eq_writeEach (deepcopy : V → Except E V) (data : Dict K V)
    (items : List (K × V)) :
    (putCopies deepcopy data items).1 =
        (Contents.writeEach (copyPut deepcopy) data.get? items).1.mapError .encode ∧
      (putCopies deepcopy data items).2.get? =
        (Contents.writeEach (copyPut deepcopy) data.get? items).2 := by
  induction items generalizing data with
  | nil => exact ⟨rfl, rfl⟩
  | cons item items ih =>
    obtain ⟨key, value⟩ := item
    rw [putCopies, Contents.writeEach, copyPut]
    cases deepcopy value with
    | error e => exact ⟨rfl, (Function.update_eq_self key data.get?).symm⟩
    | ok copy =>
      have hset : Function.update data.get? key (some copy) = (data.set key copy).get? := by
        funext k
        rw [Dict.get?_set, Function.update_apply]
      simp only [hset]
      exact ih _

variable [ShallowMerge V] {deepcopy : V → Except E V} {s : InMemoryStore K V} {items : Dict K V}
  {onConflict : OnConflict}

omit [ShallowMerge V] in
theorem putCopies_ok (data : Dict K V) (items : List (K × V)) :
    putCopies (fun value => (.ok value : Except E V)) data items = (.ok (), data.setAll items) := by
  induction items generalizing data with
  | nil => rfl
  | cons item items ih => exact ih (data.set item.1 item.2)

/-- With a copy that always works this is `set_many`. -/
theorem setManyCopies_ok (s : InMemoryStore K V) (items : Dict K V) (onConflict : OnConflict) :
    s.setManyCopies (fun value => (.ok value : Except E V)) items onConflict =
      match s.setMany items onConflict with
      | .ok s' => (.ok (), s')
      | .error e => (.error (.store e), s) := by
  rw [setManyCopies, setMany]
  cases s.checkOpen with
  | error e => rfl
  | ok _ =>
    simp only [putCopies_ok, Refinement.ok_bind]
    split_ifs
    · rfl
    · cases resolveConflicts items onConflict
        (fun keys => keys.map fun key => decide (key ∈ s.data.keys)) s.data.get? <;> rfl

omit [ShallowMerge V] in
theorem containsMany_contents (s : InMemoryStore K V) :
    (fun keys : List K => keys.map fun key => decide (key ∈ s.data.keys)) =
      s.contents.containsMany := by
  funext keys
  simp only [decide_mem_keys, Contents.containsMany]

omit [LinearOrder K] [ShallowMerge V] in
theorem not_toOption_loadStored (value : V) : (loadStored value).toOption ≠ none := nofun

omit [LinearOrder K] [ShallowMerge V] in
theorem eq_iff_observed {m m' : Contents K V} :
    m = m' ↔ m.observed loadStored = m'.observed loadStored := by
  constructor
  · intro h
    rw [h]
  · intro h
    funext key
    have hkey := congrFun h key
    exact Option.map_injective (fun a b hab => Except.ok.inj hab) hkey

variable (deepcopy) in
theorem setManyCopies_of_raisesFirst (h : s.Opened)
    (hr : Contents.RaisesFirst loadStored s.contents items onConflict) :
    (s.setManyCopies deepcopy items onConflict).2 = s := by
  obtain ⟨key, hkey, raw, hraw, rfl | ⟨-, hload⟩⟩ := hr
  · have hc : s.contents.conflicts items.keys ≠ [] :=
      List.ne_nil_of_mem (Contents.mem_conflicts_iff.mpr ⟨hkey, raw, hraw⟩)
    simp only [setManyCopies, checkOpen_of_opened h, containsMany_contents, resolveConflicts,
      Contents.conflictsOf_containsMany]
    rw [if_neg (by decide), if_pos ⟨hc, trivial⟩]
  · exact absurd hload (not_toOption_loadStored raw)

variable (deepcopy) in
theorem setManyCopies_of_not_raisesFirst (h : s.Opened)
    (hr : ¬ Contents.RaisesFirst loadStored s.contents items onConflict) :
    (s.setManyCopies deepcopy items onConflict).1 =
        (Contents.writeEach (copyPut deepcopy) s.contents
          (Contents.planned loadStored s.contents items onConflict)).1.mapError .encode ∧
      (s.setManyCopies deepcopy items onConflict).2.contents =
        (Contents.writeEach (copyPut deepcopy) s.contents
          (Contents.planned loadStored s.contents items onConflict)).2 := by
  have hput := putCopies_eq_writeEach deepcopy s.data
    (Contents.planned loadStored s.contents items onConflict)
  simp only [setManyCopies, checkOpen_of_opened h]
  by_cases ho : onConflict = .overwrite
  · subst ho
    rw [Contents.planned_overwrite] at hput ⊢
    exact hput
  · have hraise : ¬ (s.contents.conflicts items.keys ≠ [] ∧ onConflict = .raise) := by
      rintro ⟨hne, rfl⟩
      obtain ⟨key, hkey⟩ := List.exists_mem_of_ne_nil _ hne
      obtain ⟨hmem, raw, hraw⟩ := Contents.mem_conflicts_iff.mp hkey
      exact hr ⟨key, hmem, raw, hraw, .inl rfl⟩
    have hplan := Contents.entries_resolveItems_eq_planned ho hr
    have hget : (fun key => (s.contents key).bind fun raw => (loadStored raw).toOption) =
        s.data.get? := by
      funext key
      cases h : s.data.get? key with
      | none => simp [contents, h]
      | some value => simp [contents, h, loadStored, Except.toOption]
    rw [hget] at hplan
    simp only [containsMany_contents, resolveConflicts, Contents.conflictsOf_containsMany,
      if_neg ho, if_neg hraise]
    rw [hplan]
    exact hput

end InMemoryStore

theorem exists_mapError_eq_error {X E E' : Type} {f : E → E'} (outcome : Except E X) :
    (∃ e, outcome.mapError f = .error e) ↔ ∃ e, outcome = .error e := by
  cases outcome <;> simp [Except.mapError]

/-- **When a batch is all-or-nothing.** A `set_many` of an `InMemoryStore` or of a file store that
raises leaves what can be read as it was exactly when the store is closed or `LeavesNoTrace` holds
of the stored contents and the items. -/
theorem batches_all_or_nothing_iff {K V : Type} [LinearOrder K] [ShallowMerge V] :
    (∀ (E : Type) (deepcopy : V → Except E V) (s : InMemoryStore K V) (items : Dict K V)
      (onConflict : OnConflict),
      ((∃ e, (s.setManyCopies deepcopy items onConflict).1 = .error e) →
          (s.setManyCopies deepcopy items onConflict).2.contents = s.contents) ↔
        s.closed = true ∨ s.contents.LeavesNoTrace (InMemoryStore.copyPut deepcopy)
          InMemoryStore.loadStored items onConflict) ∧
    ∀ (R E L : Type) (format : FileFormat V R E L) (s : BaseFileStore K R) (items : Dict K V)
      (onConflict : OnConflict),
      ((∃ e, (s.setMany format items onConflict).1 = .error e) →
          (s.setMany format items onConflict).2.files.observed format.load =
            s.files.observed format.load) ↔
        s.closed = true ∨ s.files.LeavesNoTrace format.save format.load items onConflict := by
  refine ⟨fun E deepcopy s items onConflict => ?_, fun R E L format s items onConflict => ?_⟩
  · cases h : s.closed with
    | true =>
      have hclosed : (s.setManyCopies deepcopy items onConflict).2 = s := by
        simp [InMemoryStore.setManyCopies, InMemoryStore.checkOpen, h]
      simp [hclosed]
    | false =>
      by_cases hr : Contents.RaisesFirst InMemoryStore.loadStored s.contents items onConflict
      · have hs := InMemoryStore.setManyCopies_of_raisesFirst deepcopy h hr
        exact iff_of_true (fun _ => by rw [hs]) (.inr (.inl hr))
      · obtain ⟨hout, hcon⟩ :=
          InMemoryStore.setManyCopies_of_not_raisesFirst deepcopy h hr
        rw [hout, hcon, exists_mapError_eq_error, InMemoryStore.eq_iff_observed,
          or_iff_right (by simp), Contents.leavesNoTrace_iff hr]
  · cases h : s.closed with
    | true =>
      have hclosed : (s.setMany format items onConflict).2 = s := by
        simp [BaseFileStore.setMany, BaseFileStore.checkOpen, h]
      simp [hclosed]
    | false =>
      by_cases hr : Contents.RaisesFirst format.load s.files items onConflict
      · obtain ⟨-, hs⟩ := BaseFileStore.setMany_of_raisesFirst h hr
        exact iff_of_true (fun _ => by rw [hs]) (.inr (.inl hr))
      · rw [BaseFileStore.setMany_of_not_raisesFirst h hr, exists_mapError_eq_error,
          or_iff_right (by simp), Contents.leavesNoTrace_iff hr]

namespace ItemByItem

/-- What a field of a value may be: a number, or an object like a lock, which can neither be copied
nor written as JSON. -/
inductive Field
  | int (n : ℤ)
  | object
  deriving DecidableEq

/-- A copy raises on an object, wherever it is in the value. -/
def copyNumbers (value : Dict ℕ Field) : Except Unit (Dict ℕ Field) :=
  if value.entries.any fun p => p.2 = .object then .error () else .ok value

/-- A file store that writes numbers, and leaves a file alone when it is given an object. -/
def saveNumbers : FileFormat (Dict ℕ Field) (Dict ℕ Field) Unit Unit where
  save := InMemoryStore.copyPut copyNumbers
  load value := .ok value

/-- `{1: {1: 1}, 2: {2: threading.Lock()}}`. -/
def lastFails : Dict ℕ (Dict ℕ Field) :=
  Dict.ofList [(1, Dict.ofList [(1, .int 1)]), (2, Dict.ofList [(2, .object)])]

/-- **The items before the failing one stay written.** -/
theorem batches_leave_partial_writes :
    (¬ ∀ (deepcopy : Dict ℕ Field → Except Unit (Dict ℕ Field))
      (s : InMemoryStore ℕ (Dict ℕ Field)) (items : Dict ℕ (Dict ℕ Field))
      (onConflict : OnConflict),
      (∃ e, (s.setManyCopies deepcopy items onConflict).1 = .error e) →
        (s.setManyCopies deepcopy items onConflict).2.contents = s.contents) ∧
    ¬ ∀ (format : FileFormat (Dict ℕ Field) (Dict ℕ Field) Unit Unit)
      (s : BaseFileStore ℕ (Dict ℕ Field)) (items : Dict ℕ (Dict ℕ Field))
      (onConflict : OnConflict),
      (∃ e, (s.setMany format items onConflict).1 = .error e) →
        (s.setMany format items onConflict).2.files.observed format.load =
          s.files.observed format.load := by
  constructor
  · intro h
    have hkey := congrFun (h copyNumbers ⟨∅, false⟩ lastFails .overwrite ⟨_, rfl⟩) 1
    cases hkey
  · intro h
    have hkey := congrFun (h saveNumbers ⟨fun _ => none, false⟩ lastFails .overwrite ⟨_, rfl⟩) 1
    cases hkey

end ItemByItem

end Persista
