import Persista.Json.Dumps

/-!
# The typed layouts

`TypedSQLiteStore`, `TypedDuckDBStore` and `TypedPostgresStore` lay a value out in a row of columns:
one column for each field of the `value_schema` and one, `extra`, for a `dict` of all other fields.
`_value_to_row` and `_row_to_value` are the same functions in the three stores. They differ in what
is kept in `extra`: a JSON text, or a `dict` that the driver converts.

A field of the schema that is `None` is written as `NULL`, and so is one that the value does not
have. Reading leaves `NULL` columns out, so the first kind of field is lost.

## Main results

* `Typed.get?_rowToValue_of_valueToRow` — what a row reads back as, field by field
* `Typed.typed_layouts_lossless_iff` — a value reads back as itself exactly when no field of the
  schema is `None` in it
-/

namespace Persista

namespace Typed

open Json

/-- A row: `(key, *known, extra)`. -/
structure TypedRow (C X : Type) where
  key : PyStr
  known : List C
  extra : Option X

/-- What the `extra` column holds: how it is written (`none` when that raises), when it is true, and
how it is read. -/
structure ExtraColumn (X : Type) where
  encode : Dict PyStr PyVal → Option X
  truthy : X → Bool
  decode : X → Dict PyStr PyVal

/-! ### `_value_to_row` and `_row_to_value` -/

section Layout

variable {C X : Type} (column : ExtraColumn X) (schema : Dict PyStr String)

/-- `{k: v for k, v in value.items() if k not in self._schema}`. -/
def overflow (value : Dict PyStr PyVal) : Dict PyStr PyVal :=
  value.filterKeys fun k => decide (k ∉ schema.keys)

/-- `_value_to_row(key, value)`. -/
def valueToRow (key : PyStr) (value : Dict PyStr PyVal) : Option (TypedRow PyVal X) :=
  let known := schema.keys.map fun k => (value.get? k).getD .none
  let extra := overflow schema value
  if extra.entries = [] then some ⟨key, known, none⟩
  else (column.encode extra).map fun x => ⟨key, known, some x⟩

/-- `v if v is not None`. -/
def notNone : PyVal → Option PyVal
  | .none => none
  | v => some v

/-- `_row_to_value(row)`; `toPython` is what the driver makes of the value of a column. -/
def rowToValue (toPython : C → PyVal) (row : TypedRow C X) : Dict PyStr PyVal :=
  let schemaVals := schema.keys.zip (row.known.map toPython)
  let value := Dict.ofList (schemaVals.filterMap fun p => (notNone p.2).map (p.1, ·))
  match row.extra with
  | some x => if column.truthy x then value.update (column.decode x) else value
  | none => value

variable {column schema}

@[simp] theorem get?_overflow (value : Dict PyStr PyVal) (k : PyStr) :
    (overflow schema value).get? k = if k ∈ schema.keys then none else value.get? k := by
  by_cases hk : k ∈ schema.keys <;> simp [overflow, hk]

/-- The typed columns of a row, read back. -/
theorem get?_known (f : PyStr → PyVal) (k : PyStr) :
    (Dict.ofList ((schema.keys.zip (schema.keys.map f)).filterMap
      fun p => (notNone p.2).map (p.1, ·))).get? k =
        if k ∈ schema.keys then notNone (f k) else none := by
  have hzip : schema.keys.zip (schema.keys.map f) = schema.keys.map fun k => (k, f k) := by
    rw [List.zip_map_right, List.zip_eq_zipWith, List.zipWith_self, List.map_map]
    rfl
  rw [hzip, List.filterMap_map]
  exact Dict.get?_ofList_filterMap (fun k => notNone (f k)) schema.keys k

/-- The column is read as it was written, when it was written and is true. -/
def ExtraColumn.Keeps (column : ExtraColumn X) (d : Dict PyStr PyVal) : Prop :=
  ∃ x, column.encode d = some x ∧ column.truthy x ∧ column.decode x = d

/-- **A row, read back.** Fields of the schema lose a `None`, the other fields are kept. -/
theorem get?_rowToValue_of_valueToRow (key : PyStr) {value : Dict PyStr PyVal}
    (h : (overflow schema value).entries ≠ [] → column.Keeps (overflow schema value)) :
    ∃ row, valueToRow column schema key value = some row ∧ row.key = key ∧
      ∀ k, (rowToValue column schema id row).get? k =
        if k ∈ schema.keys then (value.get? k).bind notNone else value.get? k := by
  have hknown : ∀ k, notNone ((value.get? k).getD .none) = (value.get? k).bind notNone := by
    intro k
    cases value.get? k <;> rfl
  by_cases he : (overflow schema value).entries = []
  · refine ⟨⟨key, schema.keys.map fun k => (value.get? k).getD .none, none⟩, ?_, rfl, fun k => ?_⟩
    · simp only [valueToRow, if_pos he]
    · simp only [rowToValue, List.map_id]
      rw [get?_known, hknown]
      by_cases hk : k ∈ schema.keys
      · rw [if_pos hk, if_pos hk]
      · have hnone : (overflow schema value).get? k = none := by
          rw [Dict.get?, he]
          rfl
        rw [get?_overflow, if_neg hk] at hnone
        rw [if_neg hk, if_neg hk, hnone]
  · obtain ⟨x, hx, htruthy, hdecode⟩ := h he
    refine ⟨⟨key, schema.keys.map fun k => (value.get? k).getD .none, some x⟩, ?_, rfl, fun k => ?_⟩
    · simp only [valueToRow, if_neg he, hx, Option.map_some]
    · simp only [rowToValue, List.map_id, htruthy, if_true, hdecode]
      rw [Dict.get?_update, get?_known, hknown, get?_overflow]
      by_cases hk : k ∈ schema.keys <;> simp [hk]

end Layout

/-- The row of a value can be built and reads back as the value. -/
def LosesNothing {X : Type} (column : ExtraColumn X) (schema : Dict PyStr String) (key : PyStr)
    (value : Dict PyStr PyVal) : Prop :=
  ∃ row, valueToRow column schema key value = some row ∧ row.key = key ∧
    (rowToValue column schema id row).Same value

theorem bind_notNone_eq_iff (v : Option PyVal) : v.bind notNone = v ↔ v ≠ some .none := by
  cases v with
  | none => simp
  | some v => cases v <;> simp [notNone]

theorem losesNothing_iff {X : Type} {column : ExtraColumn X} {schema : Dict PyStr String}
    {key : PyStr} {value : Dict PyStr PyVal}
    (h : (overflow schema value).entries ≠ [] → column.Keeps (overflow schema value)) :
    LosesNothing column schema key value ↔ ∀ k ∈ schema.keys, value.get? k ≠ some .none := by
  obtain ⟨row, hrow, hkey, hread⟩ := get?_rowToValue_of_valueToRow key h
  constructor
  · rintro ⟨row', hrow', -, hsame⟩ k hk
    obtain rfl : row = row' := by rw [hrow] at hrow'; exact Option.some.inj hrow'
    have hk' := hsame k
    rw [hread, if_pos hk] at hk'
    exact (bind_notNone_eq_iff _).mp hk'
  · intro hv
    refine ⟨row, hrow, hkey, fun k => ?_⟩
    rw [hread]
    split
    · next hk => exact (bind_notNone_eq_iff _).mpr (hv k hk)
    · rfl

/-! ### The three stores -/

/-- `json.loads` reads back what `json.dumps` writes for `d`. -/
def RoundTrips (loads : String → Dict PyStr PyVal) (d : Dict PyStr PyVal) : Prop :=
  (dumps false (.ofDict d)).map loads = some d

/-- `TypedSQLiteStore`: `extra` is a JSON text. -/
def TypedSQLiteStore.extra (loads : String → Dict PyStr PyVal) : ExtraColumn String where
  encode d := dumps false (.ofDict d)
  truthy text := decide (text ≠ "")
  decode := loads

/-- `TypedDuckDBStore`: `extra` is a JSON text. -/
def TypedDuckDBStore.extra (loads : String → Dict PyStr PyVal) : ExtraColumn String where
  encode d := dumps false (.ofDict d)
  truthy text := decide (text ≠ "")
  decode := loads

/-- `TypedPostgresStore`: `extra` is `Jsonb(extra)`, which the driver reads as a `dict`. -/
def TypedPostgresStore.extra : ExtraColumn (Dict PyStr PyVal) where
  encode := some
  truthy d := decide (d.entries ≠ [])
  decode := id

theorem keeps_of_roundTrips {loads : String → Dict PyStr PyVal} {d : Dict PyStr PyVal}
    (h : RoundTrips loads d) : (TypedSQLiteStore.extra loads).Keeps d := by
  obtain ⟨text, htext, hloads⟩ := Option.map_eq_some_iff.mp h
  refine ⟨text, htext, ?_, hloads⟩
  obtain ⟨v, -, rfl⟩ := Option.map_eq_some_iff.mp htext
  obtain ⟨c, l, hcl, -⟩ := render_start v
  refine decide_eq_true fun hempty => ?_
  have hnil := congrArg String.toList hempty
  rw [String.toList_ofList, hcl] at hnil
  cases hnil

/-- **When the typed layouts lose nothing.** In each of the three stores the row of a value reads
back as that value exactly when no field of the schema is `None` in it. -/
theorem typed_layouts_lossless_iff (loads : String → Dict PyStr PyVal)
    (schema : Dict PyStr String) (key : PyStr) (value : Dict PyStr PyVal)
    (hjson : RoundTrips loads (overflow schema value)) :
    (LosesNothing (TypedSQLiteStore.extra loads) schema key value ↔
      ∀ k ∈ schema.keys, value.get? k ≠ some .none) ∧
    (LosesNothing (TypedDuckDBStore.extra loads) schema key value ↔
      ∀ k ∈ schema.keys, value.get? k ≠ some .none) ∧
    (LosesNothing TypedPostgresStore.extra schema key value ↔
      ∀ k ∈ schema.keys, value.get? k ≠ some .none) := by
  have htext : (TypedSQLiteStore.extra loads).Keeps (overflow schema value) :=
    keeps_of_roundTrips hjson
  refine ⟨losesNothing_iff fun _ => htext, losesNothing_iff fun _ => htext,
    losesNothing_iff fun he => ?_⟩
  exact ⟨_, rfl, decide_eq_true he, rfl⟩

/-! ### A `None` in a typed column -/

/-- `{"author": "TEXT"}`. -/
def authorSchema : Dict PyStr String := .ofList [(ofString "author", "TEXT")]

/-- `{"author": author, "tags": []}`. -/
def tagged (author : PyVal) : Dict PyStr PyVal :=
  .ofList [(ofString "author", author), (ofString "tags", .list [])]

/-- `json.loads` on the text that `tagged` leaves to the column `extra`. -/
def loadsTags (_ : String) : Dict PyStr PyVal := .ofList [(ofString "tags", .list [])]

theorem get?_tagged_of_mem (author : PyVal) :
    ∀ k ∈ authorSchema.keys, (tagged author).get? k = some author := by
  intro k hk
  obtain rfl : k = ofString "author" := List.mem_singleton.mp hk
  rfl

/-- `{"author": "Bob", "tags": []}` is kept. -/
theorem typed_layouts_keep_tagged :
    LosesNothing (TypedSQLiteStore.extra loadsTags) authorSchema (ofString "1")
      (tagged (.str (ofString "Bob"))) :=
  (typed_layouts_lossless_iff loadsTags authorSchema (ofString "1") (tagged (.str (ofString "Bob")))
    rfl).1.mpr fun k hk => by simp [get?_tagged_of_mem _ k hk]

/-- **A `None` is lost.** `{"author": None, "tags": []}` reads back without the field, in the three
stores. -/
theorem typed_layouts_lose_none :
    RoundTrips loadsTags (overflow authorSchema (tagged .none)) ∧
    ¬ LosesNothing (TypedSQLiteStore.extra loadsTags) authorSchema (ofString "1")
        (tagged .none) ∧
    ¬ LosesNothing (TypedDuckDBStore.extra loadsTags) authorSchema (ofString "1")
        (tagged .none) ∧
    ¬ LosesNothing TypedPostgresStore.extra authorSchema (ofString "1") (tagged .none) := by
  have hround : RoundTrips loadsTags (overflow authorSchema (tagged .none)) := rfl
  have hauthor : ofString "author" ∈ authorSchema.keys := List.mem_singleton.mpr rfl
  have hlost : ¬ ∀ k ∈ authorSchema.keys, (tagged .none).get? k ≠ some .none :=
    fun h => h _ hauthor (get?_tagged_of_mem _ _ hauthor)
  refine ⟨hround, ?_, ?_, ?_⟩
  · exact mt (losesNothing_iff fun _ => keeps_of_roundTrips hround).mp hlost
  · exact mt (losesNothing_iff fun _ => keeps_of_roundTrips hround).mp hlost
  · exact mt (losesNothing_iff fun he => ⟨_, rfl, decide_eq_true he, rfl⟩).mp hlost

end Typed

end Persista
