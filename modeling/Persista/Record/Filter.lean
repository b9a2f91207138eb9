import Persista.Json.Equality
import Persista.Store.FieldName
import Persista.Store.Paging
import Persista.Store.SqliteRows
import Persista.Store.TypedSchema

/-!
# `RecordStore.filter` on a `TypedSQLiteStore`

`RecordStore.filter` hands its filters to the store when the store has `filter_items`, and scans the
store otherwise. On a `TypedSQLiteStore` the first becomes a `WHERE` clause over the columns and
`json_extract`, the second compares Python values.

The two agree on every value that SQLite and Python compare alike. They part where an expected value
does not bind, which raises in the first and not in the second, and where SQLite reads something
else than the value:

* `json_extract` returns the text of an array or an object, which then equals a string, and it makes
  a float of an integer beyond 64 bits;
* a typed column converts the expected value before it is compared;
* the bare name of a column is an expression of SQLite's own when the column is called
  `current_date`, `current_time` or `current_timestamp`, and none at all when it is called `cast` or
  `raise`.

## Main results

* `RecordStore.holds_iff` — a condition holds on a row when Python's comparison does, but for a
  value that SQLite confuses with another or misses
* `RecordStore.filter_agrees_iff` — when the pushdown returns exactly the records of the scan
-/

namespace Persista

namespace RecordStore

open Json Typed SqliteFailure

/-- A record. -/
structure Record where
  id : PyStr
  metadata : Dict PyStr PyVal

/-! ### SQLite -/

/-- What SQLite does with numbers, with the text of a JSON column, with the comparison of a typed
column and a parameter, and with the clock. -/
structure Engine (N : Type) where
  num : Numbers N
  /-- The `dict` that a JSON text says. -/
  loads : String → Dict PyStr PyVal
  /-- What `json_extract` returns for an array or an object. -/
  jsonText : PyVal → PyStr
  /-- What `json_extract` returns for a float, and for an integer beyond 64 bits. -/
  jsonReal : PyVal → PyFloat
  /-- A column declared with some type equals a parameter, neither of them null. -/
  columnEq : String → SqlValue → SqlValue → Bool
  /-- The text of `current_date`, `current_time` or `current_timestamp` when the query runs. -/
  now : PyStr → PyStr

variable {N : Type} [DecidableEq N]

/-- The number in a column. -/
def sqlNumber (num : Numbers N) : SqlValue → Option N
  | .integer n => some (num.ofInt n)
  | .real x => floatNumber num x
  | _ => none

/-- `x = y` between values without a declared type; never true of null. -/
def sqlEq (num : Numbers N) : SqlValue → SqlValue → Bool
  | .text s, .text t => decide (s = t)
  | x, y => sameNumber (sqlNumber num x) (sqlNumber num y)

/-- `x IS NULL`. -/
def isNull : SqlValue → Bool
  | .null => true
  | _ => false

/-- An array or an object. -/
def isContainer : PyVal → Bool
  | .list _ | .tuple _ | .dict _ => true
  | _ => false

/-- A number. -/
def isNumber : PyVal → Bool
  | .bool _ | .int _ | .float _ => true
  | _ => false

/-- The float that is not a number. -/
def isNaN : PyVal → Bool
  | .float x => decide (x.text = "NaN".toList)
  | _ => false

/-- In an expression the name is a function of the clock, also when a column has it. -/
def isClock (name : PyStr) : Bool :=
  (["current_date", "current_time", "current_timestamp"].map ofString).contains
    (TypedSchema.foldCase name)

example : isClock (ofString "Current_Date") = true := by decide

/-- The name is accepted for a column and is a syntax error in an expression. -/
def isReserved (name : PyStr) : Bool :=
  (["cast", "raise"].map ofString).contains (TypedSchema.foldCase name)

/-- The value in the column of a name. -/
def valueAt {K C : Type} [DecidableEq K] (names : List K) (values : List C) (name : K) : Option C :=
  (names.zip values).lookup name

section Query

variable (engine : Engine N) (schema : Dict PyStr String)

/-- `json_extract` of a JSON value. -/
def jsonScalar : PyVal → SqlValue
  | .none => .null
  | .bool b => .integer b.toNat
  | .int n =>
    if -2 ^ 63 ≤ n ∧ n < 2 ^ 63 then .integer n else .real (engine.jsonReal (.int n))
  | .float x => if isNaN (.float x) then .null else .real (engine.jsonReal (.float x))
  | .str s => .text s
  | v => .text (engine.jsonText v)

/-- The `dict` in the column `extra`, empty when the column is null. -/
def document (row : TypedRow SqlValue String) : Dict PyStr PyVal := row.extra.elim ∅ engine.loads

/-- The value of a typed column. -/
def column (row : TypedRow SqlValue String) (name : PyStr) : SqlValue :=
  (valueAt schema.keys row.known name).getD .null

/-- A condition: the name of a typed column, or `json_extract(extra, '$.field')`, compared with a
parameter or tested with `IS NULL`. -/
structure Condition where
  name : PyStr
  dtype : Option String
  param : Option SqlValue

/-- The value that the expression of a condition has on a row. -/
def Condition.expr (c : Condition) (row : TypedRow SqlValue String) : SqlValue :=
  match c.dtype with
  | some _ => if isClock c.name then .text (engine.now c.name) else column schema row c.name
  | none => (((document engine row).get? c.name).map (jsonScalar engine)).getD .null

/-- The condition selects a row. -/
def Condition.holds (c : Condition) (row : TypedRow SqlValue String) : Bool :=
  match c.param with
  | none => isNull (c.expr engine schema row)
  | some p =>
    match c.dtype with
    | some dtype =>
      -- a function of the clock has no declared type
      if isClock c.name then sqlEq engine.num (c.expr engine schema row) p
      else !isNull (c.expr engine schema row) && !isNull p &&
        engine.columnEq dtype (c.expr engine schema row) p
    | none => sqlEq engine.num (c.expr engine schema row) p

/-- One turn of the loop of `_build_filter_where`, its parsing by SQLite and the binding of its
parameter; `none` when one of them raises. -/
def condition (field : PyStr × PyVal) : Option Condition :=
  if field.1 ∈ schema.keys ∧ isReserved field.1 then none
  else if field.1 ∈ schema.keys ∨ fieldNameMatches field.1 then
    match field.2 with
    | .none => some ⟨field.1, schema.get? field.1, none⟩
    | expected => (bindValue expected).map fun p => ⟨field.1, schema.get? field.1, some p⟩
  else none

/-- The driver's value of a column. -/
def fromColumn (c : SqlValue) : PyVal := c.toPython.getD .none

/-- `_row_to_value`. -/
def rowValue (row : TypedRow SqlValue String) : Dict PyStr PyVal :=
  rowToValue (TypedSQLiteStore.extra engine.loads) schema fromColumn row

/-- `filter_items(**metadata_filters)`, as records. -/
def filterItems (table : Table PyStr (TypedRow SqlValue String)) (filters : Dict PyStr PyVal) :
    Option (List Record) :=
  if filters.entries = [] then
    some (table.entries.map fun r => ⟨r.1, rowValue engine schema r.2⟩)
  else
    (filters.entries.mapM (condition schema)).map fun clauses =>
      (table.entries.filter fun r => clauses.all (·.holds engine schema r.2)).map
        fun r => ⟨r.1, rowValue engine schema r.2⟩

/-! ### The scan -/

/-- `record.metadata.get(key) == val`. -/
def matchesField (metadata : Dict PyStr PyVal) (field : PyStr × PyVal) : Bool :=
  ((metadata.get? field.1).getD .none).eq engine.num field.2

/-- `_matches(record, metadata_filters)`. -/
def «matches» (record : Record) (filters : Dict PyStr PyVal) : Bool :=
  filters.entries.all (matchesField engine record.metadata)

/-- The full scan over `iter_batches()`. -/
def scan (table : Table PyStr (TypedRow SqlValue String)) (filters : Dict PyStr PyVal) :
    List Record :=
  (Paging.iterBatches 32 table).flatMap fun batch =>
    (batch.entries.map fun r => ⟨r.1, rowValue engine schema r.2⟩).filter
      fun record => «matches» engine record filters

end Query

/-! ### One value, compared twice -/

section Compare

variable (num : Numbers N)

omit [DecidableEq N] in
theorem number_fromColumn (c : SqlValue) : (fromColumn c).number num = sqlNumber num c := by
  cases c <;> rfl

/-- A number that binds. -/
theorem sqlEq_number {c p : SqlValue} {expected : PyVal}
    (hp : sqlNumber num p = expected.number num) (htext : ∀ s, p ≠ .text s)
    (hne : expected ≠ .none) (hstr : ∀ s, expected ≠ .str s) (hbox : isContainer expected = false) :
    sqlEq num c p = (fromColumn c).eq num expected := by
  have hsql : sqlEq num c p = sameNumber (sqlNumber num c) (sqlNumber num p) := by
    cases p with
    | text s => exact absurd rfl (htext s)
    | _ => cases c <;> rfl
  have hpy : (fromColumn c).eq num expected =
      sameNumber ((fromColumn c).number num) (expected.number num) := by
    cases expected with
    | none => exact absurd rfl hne
    | str s => exact absurd rfl (hstr s)
    | list _ | tuple _ | dict _ => cases hbox
    | _ => cases c <;> rfl
  rw [hsql, hpy, hp, number_fromColumn]

/-- A column and a bound value compare as their Python values do. -/
theorem sqlEq_eq (c : SqlValue) {expected : PyVal} {p : SqlValue}
    (hp : bindValue expected = some p) (hne : expected ≠ .none) :
    sqlEq num c p = (fromColumn c).eq num expected := by
  cases expected with
  | none => exact absurd rfl hne
  | bool b =>
    obtain rfl := Option.some.inj hp
    exact sqlEq_number num rfl (by simp) hne (by simp) rfl
  | int n =>
    simp only [bindValue] at hp
    split at hp
    · obtain rfl := Option.some.inj hp
      exact sqlEq_number num rfl (by simp) hne (by simp) rfl
    · cases hp
  | float x =>
    simp only [bindValue] at hp
    split at hp
    · next hx =>
      obtain rfl := Option.some.inj hp
      have hnan : (PyVal.float x).number num = none := if_pos hx
      exact sqlEq_number num hnan.symm (by simp) hne (by simp) rfl
    · obtain rfl := Option.some.inj hp
      exact sqlEq_number num rfl (by simp) hne (by simp) rfl
  | str s =>
    simp only [bindValue] at hp
    split at hp
    · obtain rfl := Option.some.inj hp
      cases c <;> rfl
    · cases hp
  | list _ | tuple _ | dict _ => cases hp

/-- A number is compared as the number that it is. -/
theorem eq_number {v : PyVal} (hv : isNumber v) (expected : PyVal) :
    v.eq num expected = sameNumber (v.number num) (expected.number num) := by
  cases v with
  | bool _ | int _ | float _ => cases expected <;> rfl
  | _ => cases hv

/-- A column equals a text when it is that text. -/
theorem column_eq_text {c : SqlValue} {s : PyStr} :
    (fromColumn c).eq num (.str s) ↔ c = .text s := by
  cases c with
  | text t =>
    change decide (t = s) = true ↔ _
    rw [decide_eq_true_iff, SqlValue.text.injEq]
  | null =>
    rw [show (fromColumn .null).eq num (.str s) = false from rfl]
    simp
  | integer n =>
    rw [show (fromColumn (.integer n)).eq num (.str s) = false from rfl]
    simp
  | real x =>
    rw [show (fromColumn (.real x)).eq num (.str s) = sameNumber (floatNumber num x) none from rfl,
      sameNumber_none]
    simp

theorem isNull_iff (c : SqlValue) : isNull c = (fromColumn c).eq num .none := by
  cases c with
  | real x =>
    change false = sameNumber (floatNumber num x) none
    rw [sameNumber_none]
  | _ => rfl

/-- An array or an object equals no bound value. -/
theorem container_eq {v : PyVal} (hv : isContainer v) {expected : PyVal} {p : SqlValue}
    (hp : bindValue expected = some p) : v.eq num expected = false := by
  cases v with
  | list _ | tuple _ | dict _ =>
    cases expected with
    | list _ | tuple _ | dict _ => cases hp
    | _ => rfl
  | _ => cases hv

end Compare

/-! ### The rows of a store -/

section Rows

variable (engine : Engine N) (schema : Dict PyStr String)

/-- The row that `_value_to_row` makes of some metadata, as SQLite stores it. -/
def Stored (id : PyStr) (row : TypedRow SqlValue String) : Prop :=
  ∃ metadata params, RoundTrips engine.loads (overflow schema metadata) ∧
    valueToRow (TypedSQLiteStore.extra engine.loads) schema id metadata = some params ∧
    params.known.mapM bindValue = some row.known ∧ row.extra = params.extra

variable {engine schema}

theorem mapM_eq_map {α β : Type} {f : α → Option β} (default : β) {l : List α} {out : List β}
    (h : l.mapM f = some out) : out = l.map fun x => (f x).getD default := by
  have hmap := congrArg (List.map (·.getD default)) (mapM_eq_some_iff.mp h)
  rw [List.map_map, List.map_map] at hmap
  exact (List.map_id out).symm.trans hmap.symm

theorem valueAt_map {K C : Type} [DecidableEq K] {g : K → C} {names : List K} {k : K}
    (hk : k ∈ names) : valueAt names (names.map g) k = some (g k) := by
  induction names with
  | nil => cases hk
  | cons j names ih =>
    rw [valueAt, List.map_cons, List.zip_cons_cons, Dict.lookup_cons_ite]
    by_cases h : k = j
    · rw [if_pos h, h]
    · rw [if_neg h]
      exact ih ((List.mem_cons.mp hk).resolve_left h)

omit [DecidableEq N] in
/-- What is kept of a stored row: the columns, and a document without fields of the schema. -/
theorem stored_spec {id : PyStr} {row : TypedRow SqlValue String}
    (h : Stored engine schema id row) :
    row.known = schema.keys.map (column schema row) ∧
      (∀ k ∈ schema.keys, (document engine row).get? k = none) ∧
      ∀ text, row.extra = some text → (TypedSQLiteStore.extra engine.loads).truthy text := by
  obtain ⟨metadata, params, hround, hparams, hknown, hextra⟩ := h
  have hdoc : ∀ k ∈ schema.keys, (overflow schema metadata).get? k = none := fun k hk => by
    rw [get?_overflow, if_pos hk]
  have hcolumns : ∀ known : List PyVal, known = schema.keys.map (fun k =>
      (metadata.get? k).getD .none) → known.mapM bindValue = some row.known →
      row.known = schema.keys.map (column schema row) := by
    rintro known rfl hbind
    have hmap := mapM_eq_map SqlValue.null hbind
    rw [List.map_map] at hmap
    refine hmap.trans (List.map_congr_left fun k hk => ?_)
    rw [column, hmap, valueAt_map hk]
    rfl
  obtain ⟨text, htext, htruthy, hloads⟩ := keeps_of_roundTrips hround
  by_cases he : (overflow schema metadata).entries = []
  · simp only [valueToRow, if_pos he, Option.some.injEq] at hparams
    subst hparams
    refine ⟨hcolumns _ rfl hknown, fun k _ => ?_, fun text ht => ?_⟩
    · rw [document, hextra]
      rfl
    · rw [hextra] at ht
      cases ht
  · simp only [valueToRow, if_neg he, htext, Option.map_some, Option.some.injEq] at hparams
    subst hparams
    refine ⟨hcolumns _ rfl hknown, fun k hk => ?_, fun text' ht => ?_⟩
    · rw [document, hextra, Option.elim_some, show engine.loads text = _ from hloads]
      exact hdoc k hk
    · rw [hextra, Option.some.injEq] at ht
      exact ht ▸ htruthy

theorem notNone_fromColumn (c : SqlValue) : notNone (fromColumn c) = c.toPython := by
  cases c <;> rfl

omit [DecidableEq N] in
/-- The metadata of a stored row, field by field. -/
theorem get?_rowValue {id : PyStr} {row : TypedRow SqlValue String}
    (h : Stored engine schema id row) (k : PyStr) :
    (rowValue engine schema row).get? k =
      if k ∈ schema.keys then (column schema row k).toPython
      else (document engine row).get? k := by
  obtain ⟨hknown, hdoc, htruthy⟩ := stored_spec h
  have hcolumns : row.known.map fromColumn = schema.keys.map fun k =>
      fromColumn (column schema row k) := by
    conv_lhs => rw [hknown]
    rw [List.map_map]
    rfl
  rw [rowValue, rowToValue]
  simp only [hcolumns]
  cases hx : row.extra with
  | none =>
    have hempty : document engine row = ∅ := by rw [document, hx]; rfl
    simp only [get?_known, notNone_fromColumn, hempty, Dict.get?_empty]
  | some text =>
    have hdocument : document engine row = engine.loads text := by rw [document, hx]; rfl
    simp only [htruthy text hx, if_true, Dict.get?_update, get?_known, notNone_fromColumn]
    change ((engine.loads text).get? k).or _ = _
    rw [← hdocument]
    by_cases hk : k ∈ schema.keys
    · rw [if_pos hk, if_pos hk, hdoc k hk]
      rfl
    · rw [if_neg hk, if_neg hk, Option.or_none]

/-- A number that `json_extract` returns as another one. -/
def Misread (engine : Engine N) (v : PyVal) : Prop :=
  isNumber v ∧ (fromColumn (jsonScalar engine v)).number engine.num ≠ v.number engine.num

/-- SQLite takes a JSON value for the expected one and Python does not: by the text of an array or
an object, by the null that stands for the float that is not a number, or by a number that is not
its own. -/
def ExtractConfused (engine : Engine N) (v expected : PyVal) : Prop :=
  isContainer v ∧ expected = .str (engine.jsonText v) ∨ isNaN v ∧ expected = .none ∨
    Misread engine v ∧ (fromColumn (jsonScalar engine v)).eq engine.num expected

/-- SQLite takes the value of a field for the expected one and Python does not: a JSON value that it
confuses, the text of the clock in place of a column, or a column that converts what it is compared
with. -/
def Confused (engine : Engine N) (schema : Dict PyStr String) (row : TypedRow SqlValue String)
    (field : PyStr × PyVal) : Prop :=
  match schema.get? field.1 with
  | some dtype =>
    if isClock field.1 then
      field.2 = .str (engine.now field.1) ∧ column schema row field.1 ≠ .text (engine.now field.1)
    else ∃ p, bindValue field.2 = some p ∧ isNull (column schema row field.1) = false ∧
      isNull p = false ∧ engine.columnEq dtype (column schema row field.1) p ∧
      sqlEq engine.num (column schema row field.1) p = false
  | none => ExtractConfused engine (((document engine row).get? field.1).getD .none) field.2

/-- Python takes the value of a field for the expected one and SQLite does not: a column behind the
text of the clock, or a number that `json_extract` returns as another one. -/
def Missed (engine : Engine N) (schema : Dict PyStr String) (row : TypedRow SqlValue String)
    (field : PyStr × PyVal) : Prop :=
  match schema.get? field.1 with
  | some _ => isClock field.1 ∧ field.2 ≠ .str (engine.now field.1) ∧
      (fromColumn (column schema row field.1)).eq engine.num field.2
  | none => Misread engine (((document engine row).get? field.1).getD .none) ∧
      (((document engine row).get? field.1).getD .none).eq engine.num field.2

/-- A typed column equals the parameters that its value equals. -/
def ComparesEqual (engine : Engine N) (schema : Dict PyStr String)
    (row : TypedRow SqlValue String) : Prop :=
  ∀ name dtype, schema.get? name = some dtype →
    ∀ p, sqlEq engine.num (column schema row name) p →
      engine.columnEq dtype (column schema row name) p

theorem condition_cases {field : PyStr × PyVal} {c : Condition}
    (h : condition schema field = some c) :
    c.name = field.1 ∧ c.dtype = schema.get? field.1 ∧
      (field.2 = .none ∧ c.param = none ∨
        field.2 ≠ .none ∧ ∃ p, bindValue field.2 = some p ∧ c.param = some p) := by
  obtain ⟨name, expected⟩ := field
  rw [condition] at h
  split at h
  · cases h
  split at h
  · cases expected with
    | none =>
      obtain rfl := Option.some.inj h
      exact ⟨rfl, rfl, .inl ⟨rfl, rfl⟩⟩
    | _ =>
      obtain ⟨p, hp, rfl⟩ := Option.map_eq_some_iff.mp h
      exact ⟨rfl, rfl, .inr ⟨by simp, p, hp, rfl⟩⟩
  · cases h

/-- The expected value of a condition binds. -/
theorem bind_of_condition {field : PyStr × PyVal} {c : Condition}
    (h : condition schema field = some c) : ∃ p, bindValue field.2 = some p := by
  obtain ⟨-, -, ⟨hnone, -⟩ | ⟨-, p, hp, -⟩⟩ := condition_cases h
  · exact ⟨.null, hnone ▸ rfl⟩
  · exact ⟨p, hp⟩

theorem not_null_of_sqlEq {num : Numbers N} {c p : SqlValue} (h : sqlEq num c p) :
    isNull c = false ∧ isNull p = false := by
  have hnum : ∀ x y : Option N, sameNumber x y → x ≠ none ∧ y ≠ none := by
    intro x y hxy
    obtain ⟨hx, hxy⟩ := (Bool.and_eq_true _ _).mp hxy
    rw [← of_decide_eq_true hxy, and_self]
    exact Option.isSome_iff_ne_none.mp hx
  constructor
  · cases c with
    | null =>
      have hnull : sameNumber none (sqlNumber num p) := by cases p <;> exact h
      exact absurd rfl (hnum _ _ hnull).1
    | _ => rfl
  · cases p with
    | null =>
      have hnull : sameNumber (sqlNumber num c) none := by cases c <;> exact h
      exact absurd rfl (hnum _ _ hnull).2
    | _ => rfl

/-- Where the answers of SQL and of Python part: only SQL takes the row when the two values are
confused, only Python when the value is missed. -/
structure PartedBy (sql py : Bool) (confused missed : Prop) : Prop where
  confused_iff : confused ↔ sql ∧ py = false
  missed_iff : missed ↔ py ∧ sql = false

/-- Two answers that are the same leave nothing to part them. -/
theorem PartedBy.of_eq {sql py : Bool} {confused missed : Prop} (h : sql = py) (hc : ¬ confused)
    (hm : ¬ missed) : PartedBy sql py confused missed := by
  subst h
  refine ⟨⟨fun h => (hc h).elim, fun h => ?_⟩, ⟨fun h => (hm h).elim, fun h => ?_⟩⟩ <;>
  · rw [h.1] at h
    cases h.2

/-- A condition on a column whose name is a function of the clock. -/
theorem holds_clock {row : TypedRow SqlValue String} {field : PyStr × PyVal} {dtype : String}
    (hdtype : schema.get? field.1 = some dtype) (hclock : isClock field.1) {c : Condition}
    (hc : condition schema field = some c) :
    PartedBy (c.holds engine schema row)
      ((fromColumn (column schema row field.1)).eq engine.num field.2)
      (Confused engine schema row field) (Missed engine schema row field) := by
  obtain ⟨hname, hcd, hparam⟩ := condition_cases hc
  rw [hdtype] at hcd
  have hexpr : c.expr engine schema row = .text (engine.now field.1) := by
    simp only [Condition.expr, hcd, hname, if_pos hclock]
  have hholds : c.holds engine schema row ↔ field.2 = .str (engine.now field.1) := by
    rw [← str_eq_iff engine.num]
    rcases hparam with ⟨hnone, hparam⟩ | ⟨hne, p, hp, hparam⟩
    · simp only [Condition.holds, hparam, hexpr, hnone]
      rfl
    · simp only [Condition.holds, hparam, hcd, hname, if_pos hclock, hexpr]
      rw [sqlEq_eq engine.num _ hp hne]
      rfl
  simp only [Confused, Missed, hdtype, hclock, if_true, true_and]
  constructor
  · rw [hholds]
    refine and_congr_right fun hnow => ?_
    rw [hnow, ← not_iff_not, not_not, Bool.not_eq_false, column_eq_text]
  · rw [and_comm, ← Bool.not_eq_true, hholds]

/-- A condition on another typed column. -/
theorem holds_column {row : TypedRow SqlValue String} (hcol : ComparesEqual engine schema row)
    {field : PyStr × PyVal} {dtype : String} (hdtype : schema.get? field.1 = some dtype)
    (hclock : isClock field.1 = false) {c : Condition} (hc : condition schema field = some c) :
    PartedBy (c.holds engine schema row)
      ((fromColumn (column schema row field.1)).eq engine.num field.2)
      (Confused engine schema row field) (Missed engine schema row field) := by
  obtain ⟨hname, hcd, hparam⟩ := condition_cases hc
  rw [hdtype] at hcd
  have hexpr : c.expr engine schema row = column schema row field.1 := by
    simp only [Condition.expr, hcd, hname, hclock, Bool.false_eq_true, if_false]
  simp only [Confused, Missed, hdtype, hclock, Bool.false_eq_true, if_false, false_and]
  rcases hparam with ⟨hnone, hparam⟩ | ⟨hne, p, hp, hparam⟩
  · have hholds : c.holds engine schema row =
        (fromColumn (column schema row field.1)).eq engine.num field.2 := by
      simp only [Condition.holds, hparam, hexpr, hnone]
      exact isNull_iff _ _
    refine PartedBy.of_eq hholds ?_ id
    rintro ⟨p, hp, -, hpn, -⟩
    rw [hnone] at hp
    obtain rfl := Option.some.inj hp
    cases hpn
  · have heq := sqlEq_eq engine.num (column schema row field.1) hp hne
    have hholds : c.holds engine schema row = (!isNull (column schema row field.1) && !isNull p &&
        engine.columnEq dtype (column schema row field.1) p) := by
      simp only [Condition.holds, hparam, hcd, hname, hclock, Bool.false_eq_true, if_false, hexpr]
    rw [← heq, hholds]
    constructor
    · simp only [Bool.and_eq_true, Bool.not_eq_true']
      refine ⟨?_, fun h => ⟨p, hp, h.1.1.1, h.1.1.2, h.1.2, h.2⟩⟩
      rintro ⟨p', hp', hcn, hpn, hceq, hfalse⟩
      obtain rfl := Option.some.inj (hp.symm.trans hp')
      exact ⟨⟨⟨hcn, hpn⟩, hceq⟩, hfalse⟩
    · refine ⟨False.elim, ?_⟩
      rintro ⟨hsql, hfalse⟩
      obtain ⟨hcn, hpn⟩ := not_null_of_sqlEq hsql
      rw [hcn, hpn, hcol _ _ hdtype p hsql] at hfalse
      cases hfalse

omit [DecidableEq N] in
/-- The float that is not a number is null in SQLite and no number in Python. -/
theorem of_isNaN (engine : Engine N) {v : PyVal} (h : isNaN v) :
    isNumber v ∧ jsonScalar engine v = .null ∧ v.number engine.num = none := by
  cases v with
  | float x => exact ⟨rfl, if_pos h, if_pos (of_decide_eq_true h)⟩
  | _ => cases h

omit [DecidableEq N] in
/-- `json_extract` returns a number for a number. -/
theorem isNumber_jsonScalar (engine : Engine N) {v : PyVal} (hnum : isNumber v)
    (hnan : isNaN v = false) : isNumber (fromColumn (jsonScalar engine v)) := by
  cases v with
  | bool b => rfl
  | int n =>
    rw [jsonScalar]
    split <;> rfl
  | float x =>
    rw [jsonScalar, hnan]
    rfl
  | _ => cases hnum

/-- Two numbers that differ do not both equal a third. -/
theorem sameNumber_of_ne {x y : Option N} (z : Option N) (h : x ≠ y) (hx : sameNumber x z) :
    sameNumber y z = false := by
  obtain ⟨-, hxz⟩ := (Bool.and_eq_true _ _).mp hx
  rw [sameNumber, Bool.and_eq_false_iff]
  exact .inr (decide_eq_false fun hyz => h ((of_decide_eq_true hxz).trans hyz.symm))

/-- `json_extract` returns the text of a container. -/
theorem extract_container (engine : Engine N) {v : PyVal} (hbox : isContainer v)
    {expected : PyVal} {p : SqlValue} (hp : bindValue expected = some p) :
    PartedBy ((fromColumn (jsonScalar engine v)).eq engine.num expected)
      (v.eq engine.num expected) (ExtractConfused engine v expected)
      (Misread engine v ∧ v.eq engine.num expected) := by
  have hnum : isNumber v = false := by cases v <;> first | rfl | cases hbox
  have hnan : isNaN v = false := by cases v <;> first | rfl | cases hbox
  have htext : jsonScalar engine v = .text (engine.jsonText v) := by
    cases v with
    | list _ | tuple _ | dict _ => rfl
    | _ => cases hbox
  have htaken : (fromColumn (jsonScalar engine v)).eq engine.num expected ↔
      expected = .str (engine.jsonText v) := by
    rw [htext]
    exact str_eq_iff engine.num
  constructor <;>
  simp only [ExtractConfused, Misread, hbox, hnan, hnum, container_eq engine.num hbox hp, htaken,
    Bool.false_eq_true, false_and, or_false, true_and, and_true]

/-- The float that is not a number is returned as a null. -/
theorem extract_nan (engine : Engine N) {v : PyVal} (hnan : isNaN v) (expected : PyVal) :
    PartedBy ((fromColumn (jsonScalar engine v)).eq engine.num expected)
      (v.eq engine.num expected) (ExtractConfused engine v expected)
      (Misread engine v ∧ v.eq engine.num expected) := by
  obtain ⟨hnum, htext, hnone⟩ := of_isNaN engine hnan
  have hbox : isContainer v = false := by cases v <;> first | rfl | cases hnan
  have hpy : v.eq engine.num expected = false := by
    rw [eq_number engine.num hnum, hnone]
    rfl
  have htaken : (fromColumn (jsonScalar engine v)).eq engine.num expected ↔
      expected = .none := by
    rw [htext]
    exact none_eq_iff engine.num
  have hread : ¬ Misread engine v := fun h => h.2 (by rw [htext, hnone]; rfl)
  constructor <;>
  simp only [ExtractConfused, hbox, hnan, hread, hpy, htaken, Bool.false_eq_true, false_and,
    false_or, or_false, true_and, and_true]

/-- Another number is compared as a number, and its two readings can be two numbers. -/
theorem extract_number (engine : Engine N) {v : PyVal} (hnum : isNumber v)
    (hnan : isNaN v = false) (expected : PyVal) :
    PartedBy ((fromColumn (jsonScalar engine v)).eq engine.num expected)
      (v.eq engine.num expected) (ExtractConfused engine v expected)
      (Misread engine v ∧ v.eq engine.num expected) := by
  have hbox : isContainer v = false := by cases v <;> first | rfl | cases hnum
  have hsql := eq_number engine.num (isNumber_jsonScalar engine hnum hnan) expected
  have hpy := eq_number engine.num hnum expected
  by_cases hread : Misread engine v
  · -- The value compared with cannot be both numbers.
    have hsql_py := sameNumber_of_ne (expected.number engine.num) hread.2
    have hpy_sql := sameNumber_of_ne (expected.number engine.num) hread.2.symm
    rw [← hsql, ← hpy] at hsql_py hpy_sql
    simp only [ExtractConfused, hbox, hnan, hread, Bool.false_eq_true, false_and, false_or,
      true_and]
    exact ⟨⟨fun h => ⟨h, hsql_py h⟩, And.left⟩, ⟨fun h => ⟨h, hpy_sql h⟩, And.left⟩⟩
  · have hnumber : (fromColumn (jsonScalar engine v)).number engine.num = v.number engine.num :=
      not_not.mp fun h => hread ⟨hnum, h⟩
    refine .of_eq (by rw [hsql, hpy, hnumber]) ?_ fun h => hread h.1
    simp only [ExtractConfused, hbox, hnan, hread, Bool.false_eq_true, false_and, or_false,
      not_false_eq_true]

/-- What `json_extract` returns for a value, compared with a value that binds. -/
theorem extract_spec (engine : Engine N) (v : PyVal) {expected : PyVal} {p : SqlValue}
    (hp : bindValue expected = some p) :
    PartedBy ((fromColumn (jsonScalar engine v)).eq engine.num expected)
      (v.eq engine.num expected) (ExtractConfused engine v expected)
      (Misread engine v ∧ v.eq engine.num expected) := by
  cases v with
  | list _ | tuple _ | dict _ => exact extract_container engine rfl hp
  | bool _ | int _ => exact extract_number engine rfl rfl expected
  | float x =>
    cases hnan : isNaN (.float x) with
    | true => exact extract_nan engine hnan expected
    | false => exact extract_number engine rfl hnan expected
  | none | str _ =>
    refine .of_eq rfl ?_ ?_ <;>
    simp only [ExtractConfused, Misread, isContainer, isNaN, isNumber, Bool.false_eq_true,
      false_and, or_false, not_false_eq_true]

/-- A condition on the overflow column. -/
theorem holds_extract {row : TypedRow SqlValue String} {field : PyStr × PyVal}
    (hfield : schema.get? field.1 = none) {c : Condition} (hc : condition schema field = some c) :
    PartedBy (c.holds engine schema row)
      ((((document engine row).get? field.1).getD .none).eq engine.num field.2)
      (Confused engine schema row field) (Missed engine schema row field) := by
  obtain ⟨hname, hcd, hparam⟩ := condition_cases hc
  obtain ⟨bound, hbound⟩ := bind_of_condition hc
  rw [hfield] at hcd
  have hexpr : c.expr engine schema row =
      jsonScalar engine (((document engine row).get? field.1).getD .none) := by
    simp only [Condition.expr, hcd, hname]
    cases (document engine row).get? field.1 <;> rfl
  have hholds : c.holds engine schema row = (fromColumn (jsonScalar engine
      (((document engine row).get? field.1).getD .none))).eq engine.num field.2 := by
    rcases hparam with ⟨hnone, hparam⟩ | ⟨hne, p, hp, hparam⟩
    · simp only [Condition.holds, hparam, hexpr, hnone]
      exact isNull_iff _ _
    · simp only [Condition.holds, hparam, hcd, hexpr]
      exact sqlEq_eq _ _ hp hne
  simp only [Confused, Missed, hfield, hholds]
  exact extract_spec engine _ hbound

/-- **Where a condition parts from Python's comparison.** On a stored row it holds and Python finds
another value exactly when the two are confused, and the other way round exactly when the value is
missed. -/
theorem holds_iff {id : PyStr} {row : TypedRow SqlValue String} (h : Stored engine schema id row)
    (hcol : ComparesEqual engine schema row) {field : PyStr × PyVal} {c : Condition}
    (hc : condition schema field = some c) :
    PartedBy (c.holds engine schema row) (matchesField engine (rowValue engine schema row) field)
      (Confused engine schema row field) (Missed engine schema row field) := by
  rw [matchesField, get?_rowValue h]
  cases hfield : schema.get? field.1 with
  | some dtype =>
    have hk : field.1 ∈ schema.keys := Dict.isSome_get?_iff.mp (by rw [hfield]; rfl)
    rw [if_pos hk]
    cases hclock : isClock field.1 with
    | true => exact holds_clock hfield hclock hc
    | false => exact holds_column hcol hfield hclock hc
  | none =>
    rw [if_neg (Dict.get?_eq_none_iff.mp hfield)]
    exact holds_extract hfield hc

end Rows

/-! ### Pushdown against scan -/

section Agreement

variable {engine : Engine N} {schema : Dict PyStr String}

theorem all_of_mapM {α β : Type} {f : α → Option β} {l : List α} {out : List β}
    (h : l.mapM f = some out) (P : β → Bool) :
    out.all P ↔ ∀ x ∈ l, ∀ y, f x = some y → P y := by
  rw [List.all_eq_true]
  constructor
  · intro hall x hx y hy
    exact hall y ((mem_mapM_iff h).mpr ⟨x, hx, hy⟩)
  · intro hall y hy
    obtain ⟨x, hx, hxy⟩ := (mem_mapM_iff h).mp hy
    exact hall x hx y hxy

/-- Two filters of one list keep the same elements when what is kept is told apart. -/
theorem perm_filter_iff {α β : Type} {l : List α} {p q : α → Bool} {g : α → β}
    (hg : ∀ x ∈ l, ∀ y ∈ l, g x = g y → x = y) :
    ((l.filter p).map g).Perm ((l.filter q).map g) ↔ ∀ x ∈ l, p x = q x := by
  have hkept : ∀ {p q : α → Bool}, ((l.filter p).map g).Perm ((l.filter q).map g) →
      ∀ x ∈ l, p x → q x := by
    intro p q hperm x hx hpx
    have hmem : g x ∈ (l.filter q).map g :=
      hperm.subset (List.mem_map_of_mem (List.mem_filter.mpr ⟨hx, hpx⟩))
    obtain ⟨y, hy, hyx⟩ := List.mem_map.mp hmem
    obtain ⟨hyl, hqy⟩ := List.mem_filter.mp hy
    rwa [← hg y hyl x hx hyx]
  constructor
  · intro hperm x hx
    exact Bool.eq_iff_iff.mpr ⟨hkept hperm x hx, hkept hperm.symm x hx⟩
  · intro hpq
    rw [List.filter_congr hpq]

/-- The scan keeps the records of the table that match. -/
theorem scan_perm (table : Table PyStr (TypedRow SqlValue String)) (filters : Dict PyStr PyVal) :
    (scan engine schema table filters).Perm
      ((table.entries.filter fun r => filters.entries.all
        (matchesField engine (rowValue engine schema r.2))).map
          fun r => ⟨r.1, rowValue engine schema r.2⟩) := by
  have hscan : scan engine schema table filters =
      ((Table.orderByKey table).entries.filter fun r => filters.entries.all
        (matchesField engine (rowValue engine schema r.2))).map
          fun r => ⟨r.1, rowValue engine schema r.2⟩ := by
    rw [← Paging.flatten_iterBatches (by decide : 1 ≤ 32) table, scan, List.filter_flatten,
      List.map_flatten, List.map_map, List.map_map, List.flatMap_def]
    refine congrArg List.flatten (List.map_congr_left fun batch _ => ?_)
    exact List.filter_map ..
  rw [hscan]
  exact ((List.perm_insertionSort _ table.entries).filter _).map _

/-- What a filter takes on a row: what Python takes and SQLite does not miss, and what it
confuses. -/
def Passes (engine : Engine N) (schema : Dict PyStr String) (row : TypedRow SqlValue String)
    (field : PyStr × PyVal) : Prop :=
  matchesField engine (rowValue engine schema row) field ∧ ¬ Missed engine schema row field ∨
    Confused engine schema row field

/-- The field of a filter is an expression of SQLite, and its expected value binds. -/
def Accepted (schema : Dict PyStr String) (field : PyStr × PyVal) : Prop :=
  ¬ (field.1 ∈ schema.keys ∧ isReserved field.1) ∧ (bindValue field.2).isSome

variable (schema) in
theorem isSome_condition_iff {field : PyStr × PyVal} (hname : isIdentifier field.1) :
    (condition schema field).isSome ↔ Accepted schema field := by
  obtain ⟨name, expected⟩ := field
  rw [condition, Accepted]
  by_cases hreserved : name ∈ schema.keys ∧ isReserved name
  · simp only [hreserved, and_self, not_true_eq_false, false_and]
    simp
  · rw [if_neg hreserved, if_pos (.inr (fieldNameMatches_of_isIdentifier hname))]
    simp only [hreserved, not_false_eq_true, true_and]
    cases expected with
    | none => exact Iff.rfl
    | _ => rw [Option.isSome_map]

instance (field : PyStr × PyVal) : Decidable (Accepted schema field) :=
  inferInstanceAs (Decidable (¬ (_ ∧ _) ∧ _))

/-- A condition holds when its filter takes the row. -/
theorem passes_iff {id : PyStr} {row : TypedRow SqlValue String} (h : Stored engine schema id row)
    (hcol : ComparesEqual engine schema row) {field : PyStr × PyVal} {c : Condition}
    (hc : condition schema field = some c) :
    Passes engine schema row field ↔ c.holds engine schema row := by
  obtain ⟨hconfused, hmissed⟩ := holds_iff h hcol hc
  rw [Passes, hconfused, hmissed]
  cases c.holds engine schema row <;>
    cases matchesField engine (rowValue engine schema row) field <;> simp

/-- What the `WHERE` clause selects. -/
theorem filterItems_spec {table : Table PyStr (TypedRow SqlValue String)}
    (hstored : ∀ r ∈ table.entries, Stored engine schema r.1 r.2)
    (hcol : ∀ r ∈ table.entries, ComparesEqual engine schema r.2)
    {filters : Dict PyStr PyVal} (hnames : ∀ name ∈ filters.keys, isIdentifier name)
    (haccepted : ∀ field ∈ filters.entries, Accepted schema field) :
    ∃ p : PyStr × TypedRow SqlValue String → Bool,
      filterItems engine schema table filters =
        some ((table.entries.filter p).map fun r => ⟨r.1, rowValue engine schema r.2⟩) ∧
      ∀ r ∈ table.entries, p r ↔ ∀ field ∈ filters.entries, Passes engine schema r.2 field := by
  by_cases hempty : filters.entries = []
  · refine ⟨fun _ => true, ?_, fun r _ => by simp [hempty]⟩
    rw [filterItems, if_pos hempty, List.filter_true]
  · have hcondition : ∀ field ∈ filters.entries, ∃ c, condition schema field = some c :=
      fun field hf => Option.isSome_iff_exists.mp
        ((isSome_condition_iff schema (hnames _ (Dict.mem_keys_of_mem hf))).mpr
          (haccepted field hf))
    obtain ⟨clauses, hclauses⟩ := Option.isSome_iff_exists.mp
      (isSome_mapM.mpr fun field hf => Option.isSome_iff_exists.mpr (hcondition field hf))
    refine ⟨fun r => clauses.all (·.holds engine schema r.2), ?_, fun r hr => ?_⟩
    · rw [filterItems, if_neg hempty, hclauses]
      rfl
    · rw [all_of_mapM hclauses]
      refine forall₂_congr fun field hf => ?_
      obtain ⟨c, hc⟩ := hcondition field hf
      rw [passes_iff (hstored r hr) (hcol r hr) hc]
      constructor
      · exact fun h => h c hc
      · intro h c' hc'
        obtain rfl := Option.some.inj (hc.symm.trans hc')
        exact h

/-- A row passes when it matches, exactly when nothing on it is confused or missed. -/
theorem passes_iff_matches_iff {row : TypedRow SqlValue String} {fields : List (PyStr × PyVal)}
    (hconfused : ∀ field ∈ fields, Confused engine schema row field →
      matchesField engine (rowValue engine schema row) field = false) :
    ((∀ field ∈ fields, Passes engine schema row field) ↔
        ∀ field ∈ fields, matchesField engine (rowValue engine schema row) field) ↔
      ((∀ field ∈ fields, Passes engine schema row field) →
          ∀ field ∈ fields, ¬ Confused engine schema row field) ∧
        ((∀ field ∈ fields, matchesField engine (rowValue engine schema row) field) →
          ∀ field ∈ fields, ¬ Missed engine schema row field) := by
  have hnot : ∀ field ∈ fields, Confused engine schema row field →
      ¬ matchesField engine (rowValue engine schema row) field :=
    fun field hf hc => Bool.eq_false_iff.mp (hconfused field hf hc)
  constructor
  · refine fun h => ⟨fun hpass field hf hc => hnot field hf hc (h.mp hpass field hf), ?_⟩
    intro hall field hf hm
    rcases h.mpr hall field hf with hpass | hc
    · exact hpass.2 hm
    · exact hnot field hf hc (hall field hf)
  · rintro ⟨hc, hm⟩
    refine ⟨fun hpass field hf => ?_, fun hall field hf => ?_⟩
    · exact ((hpass field hf).resolve_right (hc hpass field hf)).1
    · exact .inl ⟨hall field hf, hm hall field hf⟩

/-- **When the pushdown is the scan.** The records are the same exactly when SQLite accepts every
filter, no record passes all filters with some of them confused, and none matches all filters with
some of them missed. -/
theorem filter_agrees_iff (engine : Engine N) (schema : Dict PyStr String)
    (table : Table PyStr (TypedRow SqlValue String))
    (hstored : ∀ r ∈ table.entries, Stored engine schema r.1 r.2)
    (hcol : ∀ r ∈ table.entries, ComparesEqual engine schema r.2)
    (filters : Dict PyStr PyVal) (hnames : ∀ name ∈ filters.keys, isIdentifier name) :
    (∃ found, filterItems engine schema table filters = some found ∧
        found.Perm (scan engine schema table filters)) ↔
      (∀ field ∈ filters.entries, Accepted schema field) ∧
        ∀ r ∈ table.entries,
          ((∀ field ∈ filters.entries, Passes engine schema r.2 field) →
            ∀ field ∈ filters.entries, ¬ Confused engine schema r.2 field) ∧
          ((∀ field ∈ filters.entries,
              matchesField engine (rowValue engine schema r.2) field) →
            ∀ field ∈ filters.entries, ¬ Missed engine schema r.2 field) := by
  by_cases haccepted : ∀ field ∈ filters.entries, Accepted schema field
  · obtain ⟨p, hp, hpasses⟩ := filterItems_spec hstored hcol hnames haccepted
    have hinj : ∀ r ∈ table.entries, ∀ r' ∈ table.entries,
        Record.mk r.1 (rowValue engine schema r.2) = ⟨r'.1, rowValue engine schema r'.2⟩ →
          r = r' := fun r hr r' hr' h =>
      List.inj_on_of_nodup_map table.nodup hr hr' (congrArg Record.id h)
    have hagree : (∃ found, filterItems engine schema table filters = some found ∧
        found.Perm (scan engine schema table filters)) ↔
          ∀ r ∈ table.entries, p r = filters.entries.all
            (matchesField engine (rowValue engine schema r.2)) := by
      rw [← perm_filter_iff hinj, hp]
      constructor
      · rintro ⟨found, hfound, hperm⟩
        obtain rfl := Option.some.inj hfound
        exact hperm.trans (scan_perm table filters)
      · exact fun hperm => ⟨_, rfl, hperm.trans (scan_perm table filters).symm⟩
    have hnot : ∀ r ∈ table.entries, ∀ field ∈ filters.entries,
        Confused engine schema r.2 field →
          matchesField engine (rowValue engine schema r.2) field = false := by
      intro r hr field hf hconfused
      obtain ⟨c, hc⟩ := Option.isSome_iff_exists.mp
        ((isSome_condition_iff schema (hnames _ (Dict.mem_keys_of_mem hf))).mpr
          (haccepted field hf))
      exact ((holds_iff (hstored r hr) (hcol r hr) hc).confused_iff.mp hconfused).2
    rw [hagree, and_iff_right haccepted]
    refine forall₂_congr fun r hr => ?_
    rw [Bool.eq_iff_iff, hpasses r hr, List.all_eq_true]
    exact passes_iff_matches_iff (hnot r hr)
  · refine ⟨?_, fun h => absurd h.1 haccepted⟩
    rintro ⟨found, hfound, -⟩
    refine absurd (fun field hf => ?_) haccepted
    have hempty : filters.entries ≠ [] := fun h => by rw [h] at hf; cases hf
    rw [filterItems, if_neg hempty] at hfound
    have hsome : (filters.entries.mapM (condition schema)).isSome := by
      obtain ⟨clauses, hclauses, -⟩ := Option.map_eq_some_iff.mp hfound
      rw [hclauses]
      rfl
    rw [← isSome_condition_iff schema (hnames _ (Dict.mem_keys_of_mem hf))]
    exact isSome_mapM.mp hsome field hf

/-! ### The text of an array -/

/-- SQLite on integers, and on the one JSON text of the records below, at some noon. -/
def tagsEngine : Engine ℤ where
  num := ⟨id, fun _ => 0⟩
  loads := loadsTags
  jsonText _ := ofString "[]"
  jsonReal _ := ⟨"0.0".toList, by decide⟩
  columnEq _ := sqlEq ⟨id, fun _ => 0⟩
  now _ := ofString "12:00:00"

/-- The row of the record `{"author": author, "tags": []}`; the author has a column. -/
def tagsRow (id : PyStr) (author : SqlValue) : TypedRow SqlValue String :=
  ⟨id, [author], some "\x7b\"tags\": []\x7d"⟩

/-- The store with the record `{"author": "Bob", "tags": []}`. -/
def tagsTable : Table PyStr (TypedRow SqlValue String) :=
  .ofList [(ofString "1", tagsRow (ofString "1") (.text (ofString "Bob")))]

/-- The store with that record, and with `{"author": "Eve", "tags": []}`. -/
def authorsTable : Table PyStr (TypedRow SqlValue String) :=
  .ofList [(ofString "1", tagsRow (ofString "1") (.text (ofString "Bob"))),
    (ofString "2", tagsRow (ofString "2") (.text (ofString "Eve")))]

theorem stored_tagsRow (id author : PyStr) (h : encodable author) :
    Stored tagsEngine authorSchema id (tagsRow id (.text author)) := by
  refine ⟨tagged (.str author), _, rfl, rfl, ?_, rfl⟩
  change [PyVal.str author].mapM bindValue = some [.text author]
  rw [List.mapM_cons, List.mapM_nil, bindValue, if_pos h]
  rfl

/-- `filter(author="Bob")`, which finds one record of two. -/
theorem filter_agrees_author : ∃ found,
    filterItems tagsEngine authorSchema authorsTable
        (.ofList [(ofString "author", .str (ofString "Bob"))]) = some found ∧
      found.Perm (scan tagsEngine authorSchema authorsTable
        (.ofList [(ofString "author", .str (ofString "Bob"))])) := by
  refine (filter_agrees_iff tagsEngine authorSchema authorsTable (fun r hr => ?_)
    (fun r _ _ _ _ _ h => h) _ ?_).mpr ⟨?_, ?_⟩
  · rcases List.mem_cons.mp hr with rfl | hr
    · exact stored_tagsRow _ _ (by decide)
    · obtain rfl := List.mem_singleton.mp hr
      exact stored_tagsRow _ _ (by decide)
  · decide
  · decide
  · refine fun r _ => ⟨fun _ field hf hconfused => ?_, fun _ field hf hmissed => ?_⟩
    · obtain rfl := List.mem_singleton.mp hf
      obtain ⟨p, -, -, -, heq, hne⟩ := hconfused
      exact absurd heq (by rw [show tagsEngine.columnEq _ _ p = _ from hne]; simp)
    · obtain rfl := List.mem_singleton.mp hf
      have hclock : isClock (ofString "author") := hmissed.1
      revert hclock
      decide

/-- **The text of an array is taken for the array.** `filter(tags="[]")` finds the record whose tags
are `[]`, and the scan does not. -/
theorem filter_finds_text : ¬ ∃ found,
    filterItems tagsEngine authorSchema tagsTable
        (.ofList [(ofString "tags", .str (ofString "[]"))]) = some found ∧
      found.Perm (scan tagsEngine authorSchema tagsTable
        (.ofList [(ofString "tags", .str (ofString "[]"))])) := by
  rintro ⟨found, hfound, hperm⟩
  have hone : (filterItems tagsEngine authorSchema tagsTable
      (.ofList [(ofString "tags", .str (ofString "[]"))])).map List.length = some 1 := by decide
  have hzero : (scan tagsEngine authorSchema tagsTable
      (.ofList [(ofString "tags", .str (ofString "[]"))])).length = 0 := by decide
  rw [hfound, Option.map_some, hperm.length_eq, hzero] at hone
  cases hone

end Agreement

end RecordStore

end Persista
