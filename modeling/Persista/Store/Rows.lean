import Persista.Store.Contents

/-!
# Calls on stored rows

A backend does not keep values but rows: the JSON text of a value, a tuple of columns, a string of
the keyspace. A `Layout` is how it turns one into the other, and `Contents.setManyRows` is
`set_many` executed without interruption on rows. Nothing here assumes that a row reads back as the
value it was made from, so the concurrent stores are compared with it for every layout; the
comparison of two stores, which needs that much, goes through `Contents.map_read_setManyRows`.

## A call that is interrupted

Between the existence query, the reads and the write of a `raise`, `skip` or `merge` call other
clients run. `Resolving` says what it means for such a call to be on its way: what it has read and
resolved so far is right for the present contents. The interrupted call keeps it
(`Resolving.get`), a write to other keys keeps it (`Resolving.congr`), and when the loop is over it
makes the write the one of the uninterrupted call (`Resolving.finish`).
-/

namespace Persista

/-- How a store lays a value out in a row: `_encode` and `_decode`, or `_row_to_value` and its
converse. -/
structure Layout (V R : Type) where
  valueToRow : V → R
  rowToValue : R → V

/-- `_encode` and `_decode` of a store; encoding may raise. -/
structure Codec (V R E : Type) where
  encode : V → Except E R
  decode : R → V

/-- `_decode` undoes `_encode`. -/
def Codec.RoundTrip {V R E : Type} (codec : Codec V R E) : Prop :=
  ∀ value raw, codec.encode value = .ok raw → codec.decode raw = value

/-- What a write can raise when its encoder can: an error of the store, or the encoder's. -/
inductive WriteError (K E : Type)
  | store (error : StoreError K)
  | encode (error : E)
  deriving DecidableEq

/-- The rows of some values, in their order. -/
def rows {K V R : Type} (layout : Layout V R) (values : Dict K V) : List (K × R) :=
  (values.mapValues layout.valueToRow).entries

namespace Contents

variable {K V R : Type} (layout : Layout V R)

/-- The values of the rows. -/
def read (m : Contents K R) : Contents K V := fun k => (m k).map layout.rowToValue

theorem containsMany_read (m : Contents K R) (keys : List K) :
    (m.read layout).containsMany keys = m.containsMany keys := by
  simp [containsMany, read]

variable [LinearOrder K]

/-- Write the rows of some values. -/
def writeRows (m : Contents K R) (values : Dict K V) : Contents K R :=
  m.write (rows layout values)

/-- `set_many` on rows, executed without interruption. -/
def setManyRows [ShallowMerge V] (m : Contents K R) (items : Dict K V) (onConflict : OnConflict) :
    Except (StoreError K) (Contents K R) :=
  if onConflict = .overwrite then .ok (m.writeRows layout items)
  else do
    let toWrite ← resolveConflicts items onConflict m.containsMany (m.read layout)
    return m.writeRows layout toWrite

variable {layout} {m m' : Contents K R} {items : Dict K V} {onConflict : OnConflict}

theorem writeRows_apply (values : Dict K V) (k : K) :
    m.writeRows layout values k = ((values.get? k).map layout.valueToRow).or (m k) := by
  rw [writeRows, rows, write_entries, Dict.get?_mapValues]

theorem writeRows_of_not_mem {values : Dict K V} {k : K} (h : k ∉ values.keys) :
    m.writeRows layout values k = m k := by
  rw [writeRows_apply, Dict.get?_eq_none_iff.mpr h]
  rfl

omit [LinearOrder K] in
theorem fst_mem_keys_of_mem_rows {values : Dict K V} {row : K × R} (h : row ∈ rows layout values) :
    row.1 ∈ values.keys := by
  rw [← Dict.keys_mapValues values layout.valueToRow]
  exact Dict.mem_keys_of_mem h

theorem snd_eq_of_mem_rows {values : Dict K V} {row row' : K × R} (h : row ∈ rows layout values)
    (h' : row' ∈ rows layout values) (hk : row.1 = row'.1) : row.2 = row'.2 := by
  have hv := Dict.get?_of_mem h
  rw [hk, Dict.get?_of_mem h'] at hv
  exact (Option.some.inj hv).symm

theorem writeRows_of_mem_rows {values : Dict K V} {row : K × R} (h : row ∈ rows layout values) :
    m.writeRows layout values row.1 = some row.2 := by
  rw [writeRows, rows, write_entries]
  exact congrArg (·.or (m row.1)) (Dict.get?_of_mem h)

/-- A table that holds every row of some values holds what writing them gives. -/
theorem writeRows_eq_of_rows {table m : Contents K R} {values : Dict K V} (hk : k ∈ values.keys)
    (h : ∀ row ∈ rows layout values, table row.1 = some row.2) :
    table k = m.writeRows layout values k := by
  obtain ⟨v, hv⟩ := Option.isSome_iff_exists.mp (Dict.isSome_get?_iff.mpr hk)
  have hrow : (k, layout.valueToRow v) ∈ rows layout values :=
    Dict.get?_eq_some_iff.mp (by rw [Dict.get?_mapValues, hv]; rfl)
  rw [Contents.writeRows_apply, hv, h _ hrow]
  rfl

theorem read_writeRows (hround : ∀ v, layout.rowToValue (layout.valueToRow v) = v)
    (values : Dict K V) :
    (m.writeRows layout values).read layout = (m.read layout).write values.entries := by
  funext k
  rw [write_entries, read, writeRows_apply, read]
  cases values.get? k <;> simp [hround]

variable [ShallowMerge V]

/-- **Rows that read back.** A call on rows is the call on values. -/
theorem map_read_setManyRows (hround : ∀ v, layout.rowToValue (layout.valueToRow v) = v)
    (m : Contents K R) (items : Dict K V) (onConflict : OnConflict) :
    (m.setManyRows layout items onConflict).map (read layout) =
      (m.read layout).setMany items onConflict := by
  have hc : (m.read layout).containsMany = m.containsMany := funext (containsMany_read layout m)
  simp only [setManyRows, setMany, hc]
  split
  · exact congrArg Except.ok (read_writeRows hround items)
  · cases resolveConflicts items onConflict m.containsMany (m.read layout) with
    | error e => rfl
    | ok toWrite => exact congrArg Except.ok (read_writeRows hround toWrite)

theorem setManyRows_overwrite :
    m.setManyRows layout items .overwrite = .ok (m.writeRows layout items) :=
  if_pos rfl

theorem setManyRows_of_conflict (h : m.conflicts items.keys ≠ []) :
    m.setManyRows layout items .raise = .error (.keyError (sorted (m.conflicts items.keys))) := by
  simp [setManyRows, resolveConflicts, conflictsOf_containsMany, h]

theorem setManyRows_empty : m.setManyRows layout (∅ : Dict K V) onConflict = .ok m := by
  rw [setManyRows]
  split
  · rfl
  · simp [resolveConflicts, conflictsOf]
    rfl

/-- `set_many` as one atomic call: its outcome, and the rows after it. -/
def atomicSetMany (layout : Layout V R) (items : Dict K V) (onConflict : OnConflict)
    (m : Contents K R) : Except (StoreError K) Unit × Contents K R :=
  match m.setManyRows layout items onConflict with
  | .ok m' => (.ok (), m')
  | .error e => (.error e, m)

theorem atomicSetMany_ok (h : m.setManyRows layout items onConflict = .ok m') :
    atomicSetMany layout items onConflict m = (.ok (), m') := by
  rw [atomicSetMany, h]

theorem atomicSetMany_overwrite :
    atomicSetMany layout items .overwrite m = (.ok (), m.writeRows layout items) :=
  atomicSetMany_ok setManyRows_overwrite

theorem atomicSetMany_empty :
    atomicSetMany layout (∅ : Dict K V) onConflict m = (.ok (), m) :=
  atomicSetMany_ok setManyRows_empty

theorem atomicSetMany_of_conflict (h : m.conflicts items.keys ≠ []) :
    atomicSetMany layout items .raise m =
      (.error (.keyError (sorted (m.conflicts items.keys))), m) := by
  rw [atomicSetMany, setManyRows_of_conflict h]

/-- A write call as one atomic call on rows. -/
def atomicExec (layout : Layout V R) (m : Contents K R) :
    StoreOp K V → Except (StoreError K) Unit × Contents K R
  | .set key value onConflict => atomicSetMany layout (Dict.ofList [(key, value)]) onConflict m
  | .setMany items onConflict => atomicSetMany layout items onConflict m
  | .delete key => (.ok (), m.delete [key])
  | .deleteMany keys => (.ok (), m.delete keys)
  | .clear => (.ok (), fun _ => none)

/-! ### A call on its way -/

/-- The conflicts found, the values resolved so far and the items left are those of a call that runs
on the contents `m`. -/
structure Resolving (layout : Layout V R) (m : Contents K R) (items : Dict K V)
    (onConflict : OnConflict) (conflicts : List K) (todo : List (K × V)) (toWrite : Dict K V) :
    Prop where
  conflicts_eq : conflicts = m.conflicts items.keys
  no_raise : conflicts = [] ∨ onConflict ≠ .raise
  todo_sub : ∀ item ∈ todo, item.1 ∈ items.keys
  keys_sub : ∀ k ∈ toWrite.keys, k ∈ items.keys
  rest : resolveItems conflicts onConflict (m.read layout) toWrite todo =
    resolveItems conflicts onConflict (m.read layout) ∅ items.entries

variable {conflicts : List K} {todo : List (K × V)} {toWrite : Dict K V} {item : K × V}

/-- The existence query. -/
theorem Resolving.start (h : m.conflicts items.keys = [] ∨ onConflict ≠ .raise) :
    Resolving layout m items onConflict (m.conflicts items.keys) items.entries ∅ where
  conflicts_eq := rfl
  no_raise := h
  todo_sub _ hi := Dict.mem_keys_of_mem hi
  keys_sub _ hk := by cases hk
  rest := rfl

/-- One iteration. -/
theorem Resolving.get (h : Resolving layout m items onConflict conflicts (item :: todo) toWrite) :
    Resolving layout m items onConflict conflicts todo
      (resolveItem conflicts onConflict (m.read layout) toWrite item) where
  conflicts_eq := h.conflicts_eq
  no_raise := h.no_raise
  todo_sub i hi := h.todo_sub i (List.mem_cons_of_mem _ hi)
  keys_sub k hk := by
    rcases mem_keys_resolveItem hk with rfl | hk
    · exact h.todo_sub item List.mem_cons_self
    · exact h.keys_sub k hk
  rest := h.rest

/-- Writes to other keys do not disturb the call. -/
theorem Resolving.congr (h : Resolving layout m items onConflict conflicts todo toWrite)
    (hm : ∀ k ∈ items.keys, m' k = m k) :
    Resolving layout m' items onConflict conflicts todo toWrite where
  conflicts_eq := h.conflicts_eq.trans (conflicts_congr fun k hk => (hm k hk).symm)
  no_raise := h.no_raise
  todo_sub := h.todo_sub
  keys_sub := h.keys_sub
  rest := by
    have hread : ∀ k ∈ items.keys, m'.read layout k = m.read layout k := fun k hk => by
      rw [read, read, hm k hk]
    have htodo : ∀ k ∈ todo.map Prod.fst, m'.read layout k = m.read layout k := by
      intro k hk
      obtain ⟨i, hi, rfl⟩ := List.mem_map.mp hk
      exact hread _ (h.todo_sub i hi)
    rw [resolveItems_congr htodo, resolveItems_congr hread, h.rest]

/-- **The end of the loop.** What is left to write is what the uninterrupted call writes. -/
theorem Resolving.finish (h : Resolving layout m items onConflict conflicts [] toWrite)
    (ho : onConflict ≠ .overwrite) :
    atomicSetMany layout items onConflict m = (.ok (), m.writeRows layout toWrite) := by
  obtain ⟨rfl, hn, -, -, hrest⟩ := h
  have hc : ¬ (m.conflicts items.keys ≠ [] ∧ onConflict = .raise) := by tauto
  refine atomicSetMany_ok ?_
  simp only [Contents.setManyRows, if_neg ho, resolveConflicts, conflictsOf_containsMany, if_neg hc]
  rw [resolveItems_nil] at hrest
  rw [hrest]
  rfl

end Contents

end Persista
