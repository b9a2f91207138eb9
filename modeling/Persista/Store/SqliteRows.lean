import Persista.Json.Dumps
import Persista.Store.SqliteFailure
import Mathlib.Data.List.Lex

/-!
# The rows of `SQLiteStore` and `TypedSQLiteStore`

What the two stores make of a value, and which of it SQLite binds. A key binds when it has a UTF-8
encoding. `SQLiteStore` writes one JSON text, which is ASCII and always binds. `TypedSQLiteStore`
gives each field of its schema a column of its own and the other fields one JSON text, so a field of
the schema that holds a list, a `dict` or a large integer does not bind.

`json.loads` and the conversions SQLite makes for the declared type of a column are parameters.
-/

namespace Persista

namespace SqliteFailure

open Json

/-! ### What binds -/

/-- The `str` has a UTF-8 encoding: no lone surrogates. -/
def encodable (s : PyStr) : Bool := s.all fun c => decide (c.val < 0xd800 ∨ 0xdfff < c.val)

/-- A value in a column. -/
inductive SqlValue
  | null
  | integer (n : ℤ)
  | real (x : PyFloat)
  | text (s : PyStr)

/-- Bind a parameter. An integer takes 64 bits, and the float that is not a number is null. -/
def bindValue : PyVal → Option SqlValue
  | .none => some .null
  | .bool b => some (.integer b.toNat)
  | .int n => if -2 ^ 63 ≤ n ∧ n < 2 ^ 63 then some (.integer n) else none
  | .float x => if x.text = "NaN".toList then some .null else some (.real x)
  | .str s => if encodable s then some (.text s) else none
  | .list _ | .tuple _ | .dict _ => none

/-- The value of a column, which is left out when it is null. -/
def SqlValue.toPython : SqlValue → Option PyVal
  | .null => none
  | .integer n => some (.int n)
  | .real x => some (.float x)
  | .text s => some (.str s)

/-! ### The two layouts -/

variable (loads : String → Dict PyStr PyVal)

/-- `SQLiteStore`: `(key, json.dumps(value))`. -/
def sqliteLayout : BindLayout PyStr (Dict PyStr PyVal) String String where
  valueToRow value := dumps false (.ofDict value)
  bindKey := encodable
  bind := some
  rowToValue := loads

/-- `TypedSQLiteStore`: `_value_to_row` and `_row_to_value`. -/
def typedLayout (schema : Dict PyStr String) (affinity : String → SqlValue → SqlValue) :
    BindLayout PyStr (Dict PyStr PyVal) (List PyVal × Option String)
      (List SqlValue × Option String) where
  valueToRow value :=
    let known := schema.keys.map fun k => (value.get? k).getD .none
    let extra := value.filterKeys fun k => decide (k ∉ schema.keys)
    if extra.entries = [] then some (known, none)
    else (dumps false (.ofDict extra)).map fun text => (known, some text)
  bindKey := encodable
  bind row := (row.1.mapM bindValue).map fun known => (schema.values.zipWith affinity known, row.2)
  rowToValue row :=
    let known := (schema.keys.zip row.1).filterMap fun p => p.2.toPython.map (p.1, ·)
    (Dict.ofList known).update (row.2.elim ∅ loads)

/-- **When a failed `set_many` leaves no trace**, for the two stores and both of their APIs: exactly
when the rows of the batch before its failing one are in the table already. -/
theorem sqlite_failure_invisible_iff (schema : Dict PyStr String)
    (affinity : String → SqlValue → SqlValue) (maxSqlVariables : ℕ+) :
    (∀ table api items onConflict e,
      (setMany (sqliteLayout loads) (.at table) api items onConflict).2 = .error e →
        (Invisible (sqliteLayout loads) maxSqlVariables table
            (setMany (sqliteLayout loads) (.at table) api items onConflict).1 ↔
          table.write (rowsBefore (sqliteLayout loads) table items onConflict) = table)) ∧
    (∀ table api items onConflict e,
      (setMany (typedLayout loads schema affinity) (.at table) api items onConflict).2 = .error e →
        (Invisible (typedLayout loads schema affinity) maxSqlVariables table
            (setMany (typedLayout loads schema affinity) (.at table) api items onConflict).1 ↔
          table.write (rowsBefore (typedLayout loads schema affinity) table items onConflict) =
            table)) :=
  ⟨fun _ _ _ _ _ hfail => failure_invisible_iff maxSqlVariables hfail,
    fun _ _ _ _ _ hfail => failure_invisible_iff maxSqlVariables hfail⟩

/-! ### A list in an `INTEGER` column -/

/-- One column. -/
def countSchema : Dict PyStr String := .ofList [(ofString "n", "INTEGER")]

/-- `TypedSQLiteStore(value_schema={"n": "INTEGER"})`, without conversions. -/
def countLayout := typedLayout (fun _ => ∅) countSchema fun _ v => v

/-- `{"n": x}`. -/
def count (x : PyVal) : Dict PyStr PyVal := .ofList [(ofString "n", x)]

/-- `{"x": {"n": 1}, "y": {"n": [2]}}`. -/
def badBatch : Dict PyStr (Dict PyStr PyVal) :=
  .ofList [(ofString "x", count (.int 1)), (ofString "y", count (.list [.int 2]))]

/-- The same rows the other way round raise before anything is inserted. -/
theorem typed_failure_invisible :
    Invisible countLayout 900 (fun _ => none)
      (setMany countLayout (.at fun _ => none) .sync
        (.ofList [(ofString "y", count (.list [.int 2])), (ofString "x", count (.int 1))])
          .overwrite).1 :=
  ((sqlite_failure_invisible_iff (fun _ => ∅) countSchema (fun _ v => v) 900).2 _ _ _ _ .bind
    rfl).mpr rfl

/-- **A row of a failed batch is committed.** The batch raises at its second row, and then any
`delete` commits the first one. -/
theorem typed_failure_committed :
    (setMany countLayout (.at fun _ => none) .sync badBatch .overwrite).2 = .error .bind ∧
      ¬ Invisible countLayout 900 (fun _ => none)
        (setMany countLayout (.at fun _ => none) .sync badBatch .overwrite).1 := by
  refine ⟨rfl, fun h => ?_⟩
  obtain ⟨db, hdb, hrow⟩ := Option.map_eq_some_iff.mp
    (rfl : (runOk countLayout 900
      (setMany countLayout (.at fun _ => none) .sync badBatch .overwrite).1
        [(.sync, .delete (ofString "z"))]).map (·.committed (ofString "x")) =
          some (some ([.integer 1], none)))
  obtain ⟨db₀, hdb₀, -, hcommitted⟩ := h _ db hdb
  have hnone : (runOk countLayout 900 (.at fun _ => none)
      [(.sync, .delete (ofString "z"))]).map (·.committed (ofString "x")) = some none := rfl
  rw [hdb₀, Option.map_some, ← hcommitted, hrow] at hnone
  cases hnone

end SqliteFailure

end Persista
