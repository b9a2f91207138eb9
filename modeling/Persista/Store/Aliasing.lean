import Mathlib.Data.List.ReduceOption
import Persista.Lib.Heap
import Persista.Store.Iteration

/-!
# The calls of an `InMemoryStore` on a heap

The values of an `InMemoryStore` are mutable objects. The store copies deeply what it is given, and
what `get`, `get_many` and `filter` return. `iter_batches` does not copy: `dict(batch)` is a new
dictionary of the store's own values, and `values` yields these values. The property `data`, which
is the store's dictionary itself, is not one of the calls.

## Two machines

* `reference` is an `InMemoryStore` whose values nobody can write to. A value is what it reads like,
  a tree, and a merge is a merge of trees.
* `exec` is the store on the heap. It holds references, allocates the copies, and allocates the
  dictionaries `{**old, **new}` that a `merge` makes before they are copied in turn.

Whoever calls owns some addresses of the heap. A call returns copies, which the caller then owns, or
values of the store, which the caller then owns together with the store.

## Main results

* `tree_mergeDict` — merging on the heap is merging what is read
* `setMany_spec` — `set_many` on the heap, with every strategy
* `simulated_exec` — a call on the heap is the reference's call on what its values read like, and
  it keeps the objects of the caller apart from those of the store, except the ones it yields
-/

namespace Persista

namespace Aliasing

open Heap Iteration

variable {K A : Type}

/-- The classes of mutable values. -/
inductive Cls
  | dict
  | list
  deriving DecidableEq

/-- A key of a `dict`, or a position in a `list`. -/
inductive Field (K : Type)
  | key (k : K)
  | index (i : ℕ)
  deriving DecidableEq

/-- A Python value; the atom `none` is `None`. -/
abbrev PyVal (A : Type) := Heap.Val (Option A)

/-- An object. -/
abbrev PyObj (K A : Type) := Heap.Obj Cls (Field K) (Option A)

/-- The objects of the store and of its clients. -/
abbrev PyHeap (K A : Type) := Heap Cls (Field K) (Option A)

/-- What a Python value reads like. -/
abbrev PyTree (K A : Type) := Heap.Tree Cls (Field K) (Option A)

/-- The calls of a session with those that take or compare values. `V` are the values and `M` the
mappings that a call takes. -/
inductive Op (K V M : Type)
  | call (c : Call K)
  | get (key : K)
  | getMany (keys : List K)
  | filter (fieldFilters : M)
  | set (key : K) (value : V) (onConflict : OnConflict)
  | setMany (items : M) (onConflict : OnConflict)

/-- The same call with other values. -/
def Op.map {V W : Type} (f : V → W) : Op K V (Dict K V) → Op K W (Dict K W)
  | .call c => .call c
  | .get key => .get key
  | .getMany keys => .getMany keys
  | .filter fieldFilters => .filter (fieldFilters.mapValues f)
  | .set key value onConflict => .set key (f value) onConflict
  | .setMany items onConflict => .setMany (items.mapValues f) onConflict

/-! ### The reference: values that nobody can write to -/

/-- The fields at the root of a tree. -/
def rootFields (t : PyTree K A) : List (Field K) :=
  match t [] with
  | some (.obj _ fields) => fields
  | _ => []

section Reference

variable [LinearOrder K]

/-- `value.get(key)`. -/
def child (t : PyTree K A) (f : Field K) : Option (PyTree K A) :=
  if f ∈ rootFields t then some fun path => t (f :: path) else none

/-- `{**(old or {}), **new}`. -/
instance : ShallowMerge (PyTree K A) where
  merge old new
    | [] =>
      let oldFields := old.elim [] rootFields
      some (.obj .dict
        (oldFields ++ (rootFields new).filter fun f => decide (f ∉ oldFields)))
    | f :: path =>
      if f ∈ rootFields new then new (f :: path) else old.bind fun t => t (f :: path)

/-- `all(value.get(key) == val for key, val in field_filters.items())`, where `eq` is `==` and an
absent field is `None`. -/
def matchesFilters (eq : Option (PyTree K A) → PyTree K A → Bool)
    (fieldFilters : Dict K (PyTree K A)) (value : PyTree K A) : Bool :=
  fieldFilters.entries.all fun p => eq (child value (.key p.1)) p.2

omit [LinearOrder K] in
/-- The values `filter` selects. Without filters these are all. -/
def filterValues {V : Type} (p : V → Bool) (s : InMemoryStore K V) :
    Except (StoreError K) (List (Option V)) := do
  s.checkOpen
  return (s.data.values.filter p).map some

/-- A call on a store of immutable values. -/
def reference (batchify : Batchify) (eq : Option (PyTree K A) → PyTree K A → Bool) :
    Op K (PyTree K A) (Dict K (PyTree K A)) → Session K (PyTree K A) →
      Outcome K (PyTree K A) × Session K (PyTree K A)
  | .call c, s => s.call batchify c
  | .get key, s => (.reply .value (s.store.get key), s)
  | .getMany keys, s => (.reply .values (s.store.getMany keys), s)
  | .filter fieldFilters, s =>
    (.reply .values (filterValues (matchesFilters eq fieldFilters) s.store), s)
  | .set key value onConflict, s => s.write (s.store.set key value onConflict)
  | .setMany items onConflict, s => s.write (s.store.setMany items onConflict)

end Reference

/-! ### The calls on the heap -/

section Calls

/-- `copy.deepcopy(value) if value is not None else None`. -/
def copyOption (h : PyHeap K A) : Option (PyVal A) → PyHeap K A × Option (PyVal A)
  | some v => ((h.deepcopy v).1, some (h.deepcopy v).2)
  | none => (h, none)

/-- The copies of a list of results, made one after the other. -/
def copyAll (h : PyHeap K A) : List (Option (PyVal A)) → PyHeap K A × List (Option (PyVal A))
  | [] => (h, [])
  | v :: vs =>
    ((copyAll (copyOption h v).1 vs).1, (copyOption h v).2 :: (copyAll (copyOption h v).1 vs).2)

variable [LinearOrder K]

/-- `{**(old or {}), **new}`: a new `dict` that shares its values with the two. -/
def mergeDict (h : PyHeap K A) (old : Option (PyVal A)) (new : PyVal A) : PyHeap K A × PyVal A :=
  h.alloc ⟨.dict, (old.elim ∅ h.fields).update (h.fields new)⟩

/-- One iteration of the loop of `resolve_conflicts`. -/
def resolveItem (conflicts : List K) (onConflict : OnConflict) (get : K → Option (PyVal A))
    (st : PyHeap K A × Dict K (PyVal A)) (item : K × PyVal A) : PyHeap K A × Dict K (PyVal A) :=
  if item.1 ∈ conflicts then
    if onConflict = .skip then st
    else
      ((mergeDict st.1 (get item.1) item.2).1,
        st.2.set item.1 (mergeDict st.1 (get item.1) item.2).2)
  else (st.1, st.2.set item.1 item.2)

/-- `resolve_conflicts(items, on_conflict, contains_many, get)`. -/
def resolveConflicts (h : PyHeap K A) (items : Dict K (PyVal A)) (onConflict : OnConflict)
    (containsMany : List K → List Bool) (get : K → Option (PyVal A)) :
    Except (StoreError K) (PyHeap K A × Dict K (PyVal A)) :=
  let conflicts := conflictsOf items.keys (containsMany items.keys)
  if conflicts ≠ [] ∧ onConflict = .raise then .error (.keyError (sorted conflicts))
  else .ok (items.entries.foldl (resolveItem conflicts onConflict get) (h, ∅))

/-- `for key, value in items: self._data[key] = copy.deepcopy(value)`. -/
def writeCopies (st : PyHeap K A × Dict K (PyVal A)) (items : List (K × PyVal A)) :
    PyHeap K A × Dict K (PyVal A) :=
  items.foldl
    (fun st item => ((st.1.deepcopy item.2).1, st.2.set item.1 (st.1.deepcopy item.2).2)) st

/-- `set_many`. -/
def setMany (h : PyHeap K A) (s : InMemoryStore K (PyVal A)) (items : Dict K (PyVal A))
    (onConflict : OnConflict) :
    Except (StoreError K) (PyHeap K A × InMemoryStore K (PyVal A)) := do
  s.checkOpen
  if onConflict = .overwrite then
    let written := writeCopies (h, s.data) items.entries
    return (written.1, { s with data := written.2 })
  let toWrite ← resolveConflicts h items onConflict
    (fun keys => keys.map fun key => decide (key ∈ s.data.keys)) s.data.get?
  let written := writeCopies (toWrite.1, s.data) toWrite.2.entries
  return (written.1, { s with data := written.2 })

/-- What a call leaves: its outcome, the heap and the session. -/
abbrev Effect (K A : Type) := Outcome K (PyVal A) × PyHeap K A × Session K (PyVal A)

/-- A reading call that returns copies of what it read. -/
def readCopies (h : PyHeap K A) (s : Session K (PyVal A)) :
    Except (StoreError K) (List (Option (PyVal A))) → Effect K A
  | .ok vs => (.values (copyAll h vs).2, (copyAll h vs).1, s)
  | .error e => (.raised e, h, s)

/-- A writing call. -/
def writeStore (h : PyHeap K A) (s : Session K (PyVal A)) :
    Except (StoreError K) (PyHeap K A × InMemoryStore K (PyVal A)) → Effect K A
  | .ok r => (.done, r.1, { s with store := r.2 })
  | .error e => (.raised e, h, s)

/-- A call. -/
def exec (batchify : Batchify) (eq : Option (PyTree K A) → PyTree K A → Bool) :
    Op K (PyVal A) (Dict K (PyVal A)) → PyHeap K A → Session K (PyVal A) → Effect K A
  | .call c, h, s => ((s.call batchify c).1, h, (s.call batchify c).2)
  | .get key, h, s =>
    match s.store.get key with
    | .ok v => (.value (copyOption h v).2, (copyOption h v).1, s)
    | .error e => (.raised e, h, s)
  | .getMany keys, h, s => readCopies h s (s.store.getMany keys)
  | .filter fieldFilters, h, s =>
    readCopies h s (filterValues
      (fun v => matchesFilters eq (fieldFilters.mapValues h.tree) (h.tree v)) s.store)
  | .set key value onConflict, h, s =>
    writeStore h s (setMany h s.store (Dict.ofList [(key, value)]) onConflict)
  | .setMany items onConflict, h, s => writeStore h s (setMany h s.store items onConflict)

end Calls

/-! ### Merging on the heap -/

section Merge

variable [LinearOrder K]

theorem rootFields_tree (h : PyHeap K A) (v : PyVal A) :
    rootFields (h.tree v) = (h.fields v).keys := by
  cases v with
  | atom a => rfl
  | ref r =>
    have hfields : h.fields (.ref r) = (h.obj? (.ref r)).elim ∅ Obj.fields := rfl
    have htree : h.tree (.ref r) [] = (h.obj? (.ref r)).map fun o => .obj o.cls o.fields.keys := rfl
    rw [rootFields, htree, hfields]
    cases h.obj? (.ref r) <;> rfl

theorem tree_field {h : PyHeap K A} {v w : PyVal A} {f : Field K}
    (hf : (h.fields v).get? f = some w) (path : List (Field K)) :
    h.tree v (f :: path) = h.tree w path := by
  change ((h.fields v).get? f).bind (h.look path) = h.look path w
  rw [hf, Option.bind_some]

theorem tree_absent {h : PyHeap K A} {v : PyVal A} {f : Field K}
    (hf : (h.fields v).get? f = none) (path : List (Field K)) : h.tree v (f :: path) = none := by
  change ((h.fields v).get? f).bind (h.look path) = none
  rw [hf, Option.bind_none]

theorem extends_mergeDict (h : PyHeap K A) (old : Option (PyVal A)) (new : PyVal A) :
    h.Extends (mergeDict h old new).1 :=
  h.extends_alloc _

/-- The values of a merged `dict` are values of the two. -/
theorem valid_mergeDict {h : PyHeap K A} (hwf : h.WellFormed) (old : Option (PyVal A))
    (new : PyVal A) :
    ∀ w ∈ ((old.elim ∅ h.fields).update (h.fields new)).values, h.Valid w := by
  intro w hw
  rcases Dict.mem_values_setAll hw with hnew | hold
  · exact hwf.valid_field (v := new) hnew
  · cases old with
    | none => cases hold
    | some v => exact hwf.valid_field (v := v) hold

/-- **Merging on the heap is merging what is read.** -/
theorem tree_mergeDict {h : PyHeap K A} (hwf : h.WellFormed) (old : Option (PyVal A))
    (new : PyVal A) :
    (mergeDict h old new).1.tree (mergeDict h old new).2 =
      ShallowMerge.merge (old.map h.tree) (h.tree new) := by
  have hx := extends_mergeDict h old new
  have hvalid := valid_mergeDict hwf old new
  have hfields : (mergeDict h old new).1.fields (mergeDict h old new).2 =
      (old.elim ∅ h.fields).update (h.fields new) := h.fields_alloc _
  have hold : (old.map h.tree).elim [] rootFields = (old.elim ∅ h.fields).keys := by
    cases old with
    | none => rfl
    | some v => exact rootFields_tree h v
  funext path
  cases path with
  | nil =>
    have hroot : (mergeDict h old new).1.tree (mergeDict h old new).2 [] =
        some (.obj .dict ((old.elim ∅ h.fields).update (h.fields new)).keys) := by
      simp [mergeDict, alloc, Heap.tree, look, obj?, size]
    rw [hroot, Dict.keys_update]
    simp only [ShallowMerge.merge, hold, rootFields_tree]
  | cons f path =>
    have hmerge : ShallowMerge.merge (old.map h.tree) (h.tree new) (f :: path) =
        if f ∈ (h.fields new).keys then h.tree new (f :: path)
        else (old.map h.tree).bind fun t => t (f :: path) := by
      simp only [ShallowMerge.merge, rootFields_tree]
    rw [hmerge]
    -- a field of the merged object reads in the new heap as it read in the old one
    have hread : ∀ w, ((old.elim ∅ h.fields).update (h.fields new)).get? f = some w →
        (mergeDict h old new).1.tree (mergeDict h old new).2 (f :: path) = h.tree w path := by
      intro w hw
      rw [tree_field (hfields ▸ hw),
        hx.tree hwf (hvalid w (Dict.mem_values_of_get? hw))]
    cases hnew : (h.fields new).get? f with
    | some w =>
      have hmem : f ∈ (h.fields new).keys := Dict.isSome_get?_iff.mp (by rw [hnew]; rfl)
      rw [if_pos hmem, tree_field hnew, hread w (by rw [Dict.get?_update, hnew]; rfl)]
    | none =>
      rw [if_neg (Dict.get?_eq_none_iff.mp hnew)]
      cases hf : (old.elim ∅ h.fields).get? f with
      | none =>
        have hnone : ((old.elim ∅ h.fields).update (h.fields new)).get? f = none := by
          rw [Dict.get?_update, hnew, hf]
          rfl
        rw [tree_absent (hfields ▸ hnone)]
        cases old with
        | none => rfl
        | some v => exact (tree_absent (v := v) hf path).symm
      | some w =>
        rw [hread w (by rw [Dict.get?_update, hnew, hf]; rfl)]
        cases old with
        | none => cases hf
        | some v => exact (tree_field (v := v) hf path).symm

end Merge

/-! ### Copies for the client -/

section Copies

variable [LinearOrder K] {h : PyHeap K A} {own : Set ℕ} {held handed : List (PyVal A)}

/-- What a call does to the heap: it adds objects, some of them the client's, and the objects of the
client stay apart from those of the store. -/
structure Grows (h h' : PyHeap K A) (own own' : Set ℕ) (held' handed' : List (PyVal A)) :
    Prop where
  extends_heap : h.Extends h'
  own_subset : own ⊆ own'
  separated : h'.Separated own' held' handed'

omit [LinearOrder K] in
theorem Grows.refl (hs : h.Separated own held handed) : Grows h h own own held handed :=
  ⟨.refl h, Set.Subset.refl own, hs⟩

omit [LinearOrder K] in
theorem Grows.trans {h' h'' : PyHeap K A} {own' own'' : Set ℕ}
    {held' handed' held'' handed'' : List (PyVal A)}
    (h₁ : Grows h h' own own' held' handed') (h₂ : Grows h' h'' own' own'' held'' handed'') :
    Grows h h'' own own'' held'' handed'' where
  extends_heap := h₁.extends_heap.trans h₂.extends_heap
  own_subset := h₁.own_subset.trans h₂.own_subset
  separated := h₂.separated

theorem copyOption_spec (hs : h.Separated own held handed) {v : Option (PyVal A)}
    (hv : ∀ w, v = some w → h.Valid w) :
    ∃ own', Grows h (copyOption h v).1 own own' held handed ∧
      (∀ w, (copyOption h v).2 = some w → Owned own' w) ∧
      (copyOption h v).2.map (copyOption h v).1.tree = v.map h.tree := by
  cases v with
  | none => exact ⟨own, .refl hs, fun w hw => (by cases hw), rfl⟩
  | some v =>
    refine ⟨_, ⟨h.extends_deepcopy v, Set.subset_union_left, hs.copyOut v⟩, ?_, ?_⟩
    · intro w hw
      cases hw
      exact Separated.owned_copyOut (hv v rfl) own
    · exact congrArg some (h.tree_deepcopy v)

theorem copyAll_spec (hs : h.Separated own held handed) {vs : List (Option (PyVal A))}
    (hvs : ∀ v, some v ∈ vs → h.Valid v) :
    ∃ own', Grows h (copyAll h vs).1 own own' held handed ∧
      (∀ w, some w ∈ (copyAll h vs).2 → Owned own' w) ∧
      (copyAll h vs).2.map (Option.map (copyAll h vs).1.tree) = vs.map (Option.map h.tree) := by
  induction vs generalizing h own with
  | nil => exact ⟨own, .refl hs, fun w hw => (by cases hw), rfl⟩
  | cons v vs ih =>
    obtain ⟨own₁, hg₁, hown₁, htree₁⟩ :=
      copyOption_spec hs (v := v) fun w hw => hvs w (hw ▸ List.mem_cons_self)
    have hrest : ∀ w, some w ∈ vs → h.Valid w := fun w hw => hvs w (List.mem_cons_of_mem _ hw)
    obtain ⟨own₂, hg₂, hown₂, htree₂⟩ :=
      ih hg₁.separated fun w hw => hg₁.extends_heap.valid (hrest w hw)
    refine ⟨own₂, hg₁.trans hg₂, ?_, ?_⟩
    · intro w hw
      rcases List.mem_cons.mp hw with hw | hw
      · exact (hown₁ w hw.symm).mono hg₂.own_subset
      · exact hown₂ w hw
    · -- the first copy is not changed by those after it, nor are the values still to be copied
      have hfirst : (copyOption h v).2.map (copyAll (copyOption h v).1 vs).1.tree =
          v.map h.tree := by
        rw [← htree₁]
        refine Option.map_congr fun w hw => ?_
        exact hg₂.extends_heap.tree hg₁.separated.wellFormed
          (hg₁.separated.valid (hown₁ w hw))
      have hlater : vs.map (Option.map (copyOption h v).1.tree) = vs.map (Option.map h.tree) := by
        refine List.map_congr_left fun u hu => Option.map_congr fun w hw => ?_
        exact hg₁.extends_heap.tree hs.wellFormed (hrest w (hw ▸ hu))
      have hheap : (copyAll h (v :: vs)).1 = (copyAll (copyOption h v).1 vs).1 := rfl
      have hvalues : (copyAll h (v :: vs)).2 =
        (copyOption h v).2 :: (copyAll (copyOption h v).1 vs).2 := rfl
      rw [hheap, hvalues, List.map_cons, List.map_cons, hfirst, htree₂, hlater]

end Copies

/-! ### Copies for the store -/

section Writes

variable [LinearOrder K] {own : Set ℕ} {rest handed : List (PyVal A)}

/-- The loop that writes copies: the store holds them, and its data read as if the items themselves
had been written. -/
theorem writeCopies_spec {h : PyHeap K A} {data : Dict K (PyVal A)}
    (hs : h.Separated own (data.values ++ rest) handed) (items : List (K × PyVal A))
    (hitems : ∀ v ∈ items.map Prod.snd, h.Valid v) :
    Grows h (writeCopies (h, data) items).1 own own
        ((writeCopies (h, data) items).2.values ++ rest) handed ∧
      (writeCopies (h, data) items).2.mapValues (writeCopies (h, data) items).1.tree =
        (data.mapValues h.tree).setAll (items.map fun p => (p.1, h.tree p.2)) := by
  induction items generalizing h data with
  | nil => exact ⟨.refl hs, rfl⟩
  | cons item items ih =>
    obtain ⟨key, v⟩ := item
    have hx := h.extends_deepcopy v
    have hv : h.Valid v := hitems v List.mem_cons_self
    have hrest : ∀ w ∈ items.map Prod.snd, h.Valid w :=
      fun w hw => hitems w (List.mem_cons_of_mem _ hw)
    have hnext : (h.deepcopy v).1.Separated own
        ((data.set key (h.deepcopy v).2).values ++ rest) handed := by
      refine (hs.copyIn hv).mono_held ?_
      intro w hw
      rcases List.mem_append.mp hw with hw | hw
      · rcases Dict.mem_values_set hw with rfl | hw
        · exact List.mem_cons_self
        · exact List.mem_cons_of_mem _ (List.mem_append_left _ hw)
      · exact List.mem_cons_of_mem _ (List.mem_append_right _ hw)
    obtain ⟨hgrows, htree⟩ := ih hnext fun w hw => hx.valid (hrest w hw)
    refine ⟨⟨hx.trans hgrows.extends_heap, hgrows.own_subset, hgrows.separated⟩, ?_⟩
    have hdata : data.mapValues (h.deepcopy v).1.tree = data.mapValues h.tree :=
      Dict.mapValues_congr fun w hw =>
        hx.tree hs.wellFormed (hs.held_valid w (List.mem_append_left _ hw))
    have hlater : (items.map fun p => (p.1, (h.deepcopy v).1.tree p.2)) =
        items.map fun p => (p.1, h.tree p.2) := by
      refine List.map_congr_left fun p hp => ?_
      rw [hx.tree hs.wellFormed (hrest p.2 (List.mem_map_of_mem hp))]
    have hfold : writeCopies (h, data) ((key, v) :: items) =
      writeCopies ((h.deepcopy v).1, data.set key (h.deepcopy v).2) items := rfl
    rw [hfold, htree, Dict.mapValues_set, h.tree_deepcopy v, hdata, hlater]
    rfl

variable {held : List (PyVal A)}

/-- One iteration of the loop of `resolve_conflicts`: at most one new object, that nobody owns, and
the reference's iteration on what the values read like. -/
theorem resolveItem_spec {conflicts : List K} {onConflict : OnConflict}
    {get : K → Option (PyVal A)} {h : PyHeap K A} {toWrite : Dict K (PyVal A)}
    (hs : h.Separated own held handed) (hst : ∀ w ∈ toWrite.values, h.Valid w) (key : K)
    {v : PyVal A} (hv : h.Valid v) {st' : PyHeap K A × Dict K (PyVal A)}
    (hst' : resolveItem conflicts onConflict get (h, toWrite) (key, v) = st') :
    Grows h st'.1 own own held handed ∧ (∀ w ∈ st'.2.values, st'.1.Valid w) ∧
      st'.2.mapValues st'.1.tree = Persista.resolveItem conflicts onConflict
        (fun k => (get k).map h.tree) (toWrite.mapValues h.tree) (key, h.tree v) := by
  rw [resolveItem] at hst'
  rw [Persista.resolveItem]
  by_cases hc : key ∈ conflicts
  · by_cases hskip : onConflict = .skip
    · rw [if_pos hc, if_pos hskip] at hst'
      subst hst'
      rw [if_pos hc, if_pos hskip]
      exact ⟨.refl hs, hst, rfl⟩
    · rw [if_pos hc, if_neg hskip] at hst'
      subst hst'
      rw [if_pos hc, if_neg hskip]
      have hx := extends_mergeDict h (get key) v
      refine ⟨⟨hx, fun _ ha => ha, hs.allocTemp (valid_mergeDict hs.wellFormed (get key) v)⟩,
        ?_, ?_⟩
      · intro w hw
        rcases Dict.mem_values_set hw with rfl | hw
        · intro r hr
          have hsize : (mergeDict h (get key) v).1.size = h.size + 1 := h.size_alloc _
          have hnew : r = h.size := (Val.ref.inj hr).symm
          show r < (mergeDict h (get key) v).1.size
          omega
        · exact hx.valid (hst w hw)
      · have hdata : toWrite.mapValues (mergeDict h (get key) v).1.tree =
            toWrite.mapValues h.tree :=
          Dict.mapValues_congr fun w hw => hx.tree hs.wellFormed (hst w hw)
        rw [Dict.mapValues_set, tree_mergeDict hs.wellFormed, hdata]
  · rw [if_neg hc] at hst'
    subst hst'
    rw [if_neg hc]
    refine ⟨.refl hs, ?_, Dict.mapValues_set _ _ _ _⟩
    intro w hw
    rcases Dict.mem_values_set hw with rfl | hw
    · exact hv
    · exact hst w hw

/-- The loop of `resolve_conflicts`. -/
theorem resolveItems_spec {conflicts : List K} {onConflict : OnConflict}
    {get : K → Option (PyVal A)} {h : PyHeap K A} {toWrite : Dict K (PyVal A)}
    (hs : h.Separated own held handed) (hget : ∀ k v, get k = some v → h.Valid v)
    {items : List (K × PyVal A)} (hitems : ∀ v ∈ items.map Prod.snd, h.Valid v)
    (hst : ∀ v ∈ toWrite.values, h.Valid v) {st' : PyHeap K A × Dict K (PyVal A)}
    (hst' : items.foldl (resolveItem conflicts onConflict get) (h, toWrite) = st') :
    Grows h st'.1 own own held handed ∧ (∀ v ∈ st'.2.values, st'.1.Valid v) ∧
      st'.2.mapValues st'.1.tree =
        Persista.resolveItems conflicts onConflict (fun k => (get k).map h.tree)
          (toWrite.mapValues h.tree) (items.map fun p => (p.1, h.tree p.2)) := by
  induction items generalizing h toWrite with
  | nil =>
    subst hst'
    exact ⟨.refl hs, hst, rfl⟩
  | cons item items ih =>
    obtain ⟨key, v⟩ := item
    have hrest : ∀ w ∈ items.map Prod.snd, h.Valid w :=
      fun w hw => hitems w (List.mem_cons_of_mem _ hw)
    cases hone : resolveItem conflicts onConflict get (h, toWrite) (key, v) with
    | mk h₁ toWrite₁ =>
      obtain ⟨hgrows, hvalid, htree⟩ :=
        resolveItem_spec hs hst key (hitems v List.mem_cons_self) hone
      have hx := hgrows.extends_heap
      rw [List.foldl_cons, hone] at hst'
      obtain ⟨hgrows', hvalid', htree'⟩ :=
        ih hgrows.separated (fun k w hw => hx.valid (hget k w hw))
          (fun w hw => hx.valid (hrest w hw)) hvalid hst'
      -- what the later iterations read, they read as it was at the start
      have hread : (fun k => (get k).map h₁.tree) = fun k => (get k).map h.tree := by
        funext k
        exact Option.map_congr fun w hw => hx.tree hs.wellFormed (hget k w hw)
      have hlater : (items.map fun p => (p.1, h₁.tree p.2)) =
          items.map fun p => (p.1, h.tree p.2) := by
        refine List.map_congr_left fun p hp => ?_
        rw [hx.tree hs.wellFormed (hrest p.2 (List.mem_map_of_mem hp))]
      refine ⟨hgrows.trans hgrows', hvalid', ?_⟩
      rw [htree', htree, hread, hlater]
      rfl

end Writes

/-! ### `set_many` -/

section SetMany

variable [LinearOrder K] {h : PyHeap K A} {own : Set ℕ} {handed : List (PyVal A)}
  {s : Session K (PyVal A)}

/-- `resolve_conflicts` on the heap. -/
theorem resolveConflicts_spec {held : List (PyVal A)} (hs : h.Separated own held handed)
    {data items : Dict K (PyVal A)} (hdata : ∀ v ∈ data.values, h.Valid v)
    (hitems : ∀ v ∈ items.values, h.Valid v) (onConflict : OnConflict)
    (containsMany : List K → List Bool) :
    (∃ e, resolveConflicts h items onConflict containsMany data.get? = .error e ∧
      Persista.resolveConflicts (items.mapValues h.tree) onConflict containsMany
        (data.mapValues h.tree).get? = .error e) ∨
    ∃ st, resolveConflicts h items onConflict containsMany data.get? = .ok st ∧
      Grows h st.1 own own held handed ∧ (∀ v ∈ st.2.values, st.1.Valid v) ∧
      Persista.resolveConflicts (items.mapValues h.tree) onConflict containsMany
        (data.mapValues h.tree).get? = .ok (st.2.mapValues st.1.tree) := by
  have hget : (data.mapValues h.tree).get? = fun k => (data.get? k).map h.tree :=
    funext fun k => Dict.get?_mapValues data h.tree k
  rw [resolveConflicts, Persista.resolveConflicts, Dict.keys_mapValues, hget]
  by_cases hc : conflictsOf items.keys (containsMany items.keys) ≠ [] ∧ onConflict = .raise
  · simp only [if_pos hc]
    exact .inl ⟨_, rfl, rfl⟩
  · simp only [if_neg hc]
    obtain ⟨hgrows, hvalid, htree⟩ := resolveItems_spec hs
      (fun k v hv => hdata v (Dict.mem_values_of_get? hv)) hitems
      (fun v (hv : v ∈ (∅ : Dict K (PyVal A)).values) => by cases hv) rfl
    exact .inr ⟨_, rfl, hgrows, hvalid, congrArg Except.ok htree.symm⟩

/-- **`set_many` on the heap** is `set_many` on what its values read like. -/
theorem setMany_spec (hs : h.Separated own s.held handed) {items : Dict K (PyVal A)}
    (hitems : ∀ v ∈ items.values, h.Valid v) (onConflict : OnConflict) :
    (∃ e, setMany h s.store items onConflict = .error e ∧
      (s.store.map h.tree).setMany (items.mapValues h.tree) onConflict = .error e) ∨
    ∃ h' store, setMany h s.store items onConflict = .ok (h', store) ∧
      Grows h h' own own ({ s with store := store } : Session K (PyVal A)).held handed ∧
      (s.store.map h.tree).setMany (items.mapValues h.tree) onConflict =
        .ok (store.map h'.tree) := by
  have hdata : ∀ v ∈ s.store.data.values, h.Valid v :=
    fun v hv => hs.held_valid v (Session.mem_held.mpr (.inl hv))
  rw [setMany, InMemoryStore.setMany, checkOpen_map]
  cases s.store.checkOpen with
  | error e => exact .inl ⟨e, rfl, rfl⟩
  | ok u =>
    by_cases ho : onConflict = .overwrite
    · obtain ⟨hgrows, htree⟩ := writeCopies_spec hs items.entries hitems
      simp only [if_pos ho]
      refine .inr ⟨_, _, rfl, hgrows, ?_⟩
      exact congrArg (fun data => Except.ok (InMemoryStore.mk data s.store.closed)) htree.symm
    · simp only [if_neg ho]
      have hkeys : (s.store.map h.tree).data.keys = s.store.data.keys := Dict.keys_mapValues _ _
      rw [hkeys]
      rcases resolveConflicts_spec hs hdata hitems onConflict
          (fun keys => keys.map fun key => decide (key ∈ s.store.data.keys)) with
        ⟨e, hheap, href⟩ | ⟨st, hheap, hgrows, hvalid, href⟩
      · rw [InMemoryStore.map, href, hheap]
        exact .inl ⟨e, rfl, rfl⟩
      · obtain ⟨hgrows', htree⟩ := writeCopies_spec hgrows.separated st.2.entries hvalid
        have hold : s.store.data.mapValues st.1.tree = s.store.data.mapValues h.tree :=
          Dict.mapValues_congr fun v hv =>
            hgrows.extends_heap.tree hs.wellFormed (hdata v hv)
        rw [InMemoryStore.map, href, hheap]
        refine .inr ⟨_, _, rfl, hgrows.trans hgrows', ?_⟩
        rw [hold] at htree
        exact congrArg (fun data => Except.ok (InMemoryStore.mk data s.store.closed)) htree.symm

end SetMany

/-! ### One call -/

/-- The values a call takes. -/
def Op.values {V : Type} : Op K V (Dict K V) → List V
  | .filter fieldFilters => fieldFilters.values
  | .set _ value _ => [value]
  | .setMany items _ => items.values
  | .call _ | .get _ | .getMany _ => []

/-- The store's own values that a call returns: what iterations yield. -/
def Op.yielded {V M W : Type} (o : Outcome K W) : Op K V M → List W
  | .call _ => o.results
  | .get _ | .getMany _ | .filter _ | .set _ _ _ | .setMany _ _ => []

section Exec

variable [LinearOrder K] {h : PyHeap K A} {own : Set ℕ} {handed : List (PyVal A)}
  {s : Session K (PyVal A)}

/-- The values of a session read the same in a heap with more objects. -/
theorem map_extends {h' : PyHeap K A} (hs : h.Separated own s.held handed)
    (hx : h.Extends h') : s.map h'.tree = s.map h.tree :=
  Session.map_congr fun v hv => hx.tree hs.wellFormed (hs.held_valid v hv)

/-- A call on the heap: it is the reference's call on what the values read like; the heap grows, and
what the call returns is the client's. -/
structure Simulated (batchify : Batchify) (eq : Option (PyTree K A) → PyTree K A → Bool)
    (op : Op K (PyVal A) (Dict K (PyVal A))) (h : PyHeap K A) (s : Session K (PyVal A))
    (own : Set ℕ) (handed : List (PyVal A)) (r : Effect K A) : Prop where
  refines : reference batchify eq (op.map h.tree) (s.map h.tree) =
    (r.1.map r.2.1.tree, r.2.2.map r.2.1.tree)
  grows : ∃ own', Grows h r.2.1 own own' r.2.2.held (handed ++ op.yielded r.1) ∧
    ∀ v ∈ r.1.results, Owned own' v

/-- A call that returns copies. -/
theorem readCopies_spec (hs : h.Separated own s.held handed)
    (read : Except (StoreError K) (List (Option (PyVal A))))
    (hread : ∀ vs, read = .ok vs → ∀ v, some v ∈ vs → v ∈ s.store.data.values) :
    (Outcome.reply .values (read.map (List.map (Option.map h.tree))), s.map h.tree) =
        ((readCopies h s read).1.map (readCopies h s read).2.1.tree,
          (readCopies h s read).2.2.map (readCopies h s read).2.1.tree) ∧
      ∃ own', Grows h (readCopies h s read).2.1 own own' (readCopies h s read).2.2.held
          (handed ++ []) ∧ ∀ v ∈ (readCopies h s read).1.results, Owned own' v := by
  rw [List.append_nil]
  cases read with
  | error e => exact ⟨rfl, own, .refl hs, fun v hv => by cases hv⟩
  | ok vs =>
    have hvalid : ∀ v, some v ∈ vs → h.Valid v := fun v hv =>
      hs.held_valid v (Session.mem_held.mpr (.inl (hread vs rfl v hv)))
    obtain ⟨own', hgrows, hown, htree⟩ := copyAll_spec hs hvalid
    refine ⟨Prod.ext ?_ (map_extends hs hgrows.extends_heap).symm, own', hgrows, ?_⟩
    · exact congrArg Outcome.values htree.symm
    · intro v hv
      exact hown v (List.reduceOption_mem_iff.mp hv)

/-- A call that writes copies. -/
theorem writeStore_spec (hs : h.Separated own s.held handed) {items : Dict K (PyVal A)}
    (hitems : ∀ v ∈ items.values, h.Valid v) {onConflict : OnConflict} {r : Effect K A}
    (hr : writeStore h s (setMany h s.store items onConflict) = r) :
    (s.map h.tree).write ((s.store.map h.tree).setMany (items.mapValues h.tree) onConflict) =
        (r.1.map r.2.1.tree, r.2.2.map r.2.1.tree) ∧
      ∃ own', Grows h r.2.1 own own' r.2.2.held (handed ++ []) ∧
        ∀ v ∈ r.1.results, Owned own' v := by
  rw [List.append_nil]
  subst hr
  rcases setMany_spec hs hitems onConflict with ⟨e, hheap, href⟩ | ⟨h', store, hheap, hgrows, href⟩
  · rw [hheap, href]
    exact ⟨rfl, own, .refl hs, fun v hv => by cases hv⟩
  · rw [hheap, href]
    have hiterators := congrArg Session.iterators (map_extends hs hgrows.extends_heap)
    refine ⟨Prod.ext rfl ?_, own, hgrows, fun v hv => by cases hv⟩
    exact congrArg (Session.mk (store.map h'.tree)) hiterators.symm

theorem filterValues_map (s : InMemoryStore K (PyVal A)) (h : PyHeap K A)
    (p : PyTree K A → Bool) :
    filterValues p (s.map h.tree) =
      (filterValues (fun v => p (h.tree v)) s).map (List.map (Option.map h.tree)) := by
  rw [filterValues, filterValues, checkOpen_map]
  cases s.checkOpen with
  | error e => rfl
  | ok u =>
    refine congrArg Except.ok ?_
    change ((s.data.mapValues h.tree).values.filter p).map some = _
    rw [Dict.values_mapValues, List.filter_map, List.map_map, List.map_map]
    rfl

omit [LinearOrder K] in
theorem mem_values_of_filterValues {V : Type} {p : V → Bool} {s : InMemoryStore K V}
    {vs : List (Option V)} (hvs : filterValues p s = .ok vs) {v : V} (hv : some v ∈ vs) :
    v ∈ s.data.values := by
  have hselected : (s.data.values.filter p).map some = vs := eq_of_checked hvs
  rw [← hselected] at hv
  obtain ⟨w, hw, hwv⟩ := List.mem_map.mp hv
  cases hwv
  exact (List.mem_filter.mp hw).1

/-- `get`. -/
theorem simulated_get (batchify : Batchify) (eq : Option (PyTree K A) → PyTree K A → Bool)
    (hs : h.Separated own s.held handed) (key : K) :
    Simulated batchify eq (.get key) h s own handed (exec batchify eq (.get key) h s) := by
  have hget := get_map h.tree s.store key
  cases hr : s.store.get key with
  | error e =>
    have hexec : exec batchify eq (.get key) h s = (.raised e, h, s) := by rw [exec, hr]
    rw [hr] at hget
    rw [hexec]
    refine ⟨?_, own, ⟨.refl h, fun _ ha => ha, ?_⟩, fun v hv => by cases hv⟩
    · exact Prod.ext (congrArg (Outcome.reply Outcome.value) hget) rfl
    · rw [Op.yielded, List.append_nil]
      exact hs
  | ok v =>
    have hexec : exec batchify eq (.get key) h s =
        (.value (copyOption h v).2, (copyOption h v).1, s) := by rw [exec, hr]
    rw [hr] at hget
    have hv : ∀ w, v = some w → h.Valid w := by
      rintro w rfl
      exact hs.held_valid w (Session.mem_held.mpr (.inl (Session.mem_values_of_get hr)))
    obtain ⟨own', hgrows, hown, htree⟩ := copyOption_spec hs hv
    rw [hexec]
    refine ⟨?_, own', ?_, fun w hw => hown w (Option.mem_toList.mp hw)⟩
    · refine Prod.ext ?_ (map_extends hs hgrows.extends_heap).symm
      rw [Outcome.map, htree]
      exact congrArg (Outcome.reply Outcome.value) hget
    · rw [Op.yielded, List.append_nil]
      exact hgrows

/-- **One call.** -/
theorem simulated_exec (batchify : Batchify) (eq : Option (PyTree K A) → PyTree K A → Bool)
    (hs : h.Separated own s.held handed) {op : Op K (PyVal A) (Dict K (PyVal A))}
    (hop : ∀ v ∈ op.values, h.Valid v) :
    Simulated batchify eq op h s own handed (exec batchify eq op h s) := by
  cases op with
  | call c =>
    let own' := own ∪ {a | ∃ r ∈ (s.call batchify c).1.results, h.Reach r a}
    have hout :=
      (hs.handOut (Session.results_call batchify s c)).mono_held
        (Session.held_call batchify s c)
    refine ⟨Session.map_call h.tree batchify s c, own', ⟨.refl h, Set.subset_union_left, hout⟩, ?_⟩
    intro v hv r hr
    exact .inr ⟨v, hv, .here hr⟩
  | get key => exact simulated_get batchify eq hs key
  | getMany keys =>
    obtain ⟨href, hgrows⟩ := readCopies_spec hs (s.store.getMany keys)
      fun vs hvs v hv => Session.mem_values_of_getMany hvs hv
    rw [← getMany_map] at href
    exact ⟨href, hgrows⟩
  | filter fieldFilters =>
    obtain ⟨href, hgrows⟩ := readCopies_spec hs
      (filterValues
        (fun v => matchesFilters eq (fieldFilters.mapValues h.tree) (h.tree v)) s.store)
      fun vs hvs v hv => mem_values_of_filterValues hvs hv
    rw [← filterValues_map] at href
    exact ⟨href, hgrows⟩
  | set key value onConflict =>
    have hitems : ∀ v ∈ (Dict.ofList [(key, value)]).values, h.Valid v := fun v hv =>
      hop v (Dict.mem_values_ofList hv)
    obtain ⟨href, hgrows⟩ := writeStore_spec hs hitems rfl
    rw [Dict.mapValues_ofList] at href
    exact ⟨href, hgrows⟩
  | setMany items onConflict =>
    obtain ⟨href, hgrows⟩ := writeStore_spec hs hop rfl
    exact ⟨href, hgrows⟩

end Exec

end Aliasing

end Persista
