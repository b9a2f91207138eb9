import Persista.Store.FieldFilters
import Persista.Store.Typed

/-!
# `filter` on the Postgres stores

`PostgresStore` writes `value->>'name' = %s::text` for each filter. `TypedPostgresStore` writes the
same on its column `extra` for a field without a column of its own, and `"name" = %s` for one with.
There is no `IS NULL`: the parameter of an expected `None` is `NULL`, and nothing equals `NULL`, so
a filter on `None` finds nothing. What else is compared is text, and a number or a boolean is found
under a string that looks like it, and not under a number of another type.

How a column compares with a parameter is left open, and so is which parameters it takes.

## Main results

* `PostgresStore.textEq_differsBy` — the comparison of texts against Python's
* `TypedPostgresStore.get?_rowToValue` — a stored row, field by field
* `PostgresStore.filter_both_exact_iff` — when `filter` returns exactly the values that match, on
  both stores
* `PostgresStore.filter_exact_of_plain`, `TypedPostgresStore.filter_exact_of_plain` — they do when
  each field has the type that is expected of it
-/

namespace Persista

open Json FieldFilters Pushdown

namespace PostgresStore

/-- What Postgres and its driver do; `C` are the values of typed columns that are not null. -/
structure Engine (N C : Type) where
  num : Numbers N
  /-- The text of a float, an array or an object. -/
  jsonText : PyVal → PyStr
  /-- The driver takes a value for a parameter that is cast to text. -/
  binds : Scalar → Bool
  /-- A parameter can be compared with a column declared with some type. -/
  columnBinds : String → Scalar → Bool
  /-- A column declared with some type equals a parameter. -/
  columnEq : String → C → Scalar → Bool
  /-- The driver's value of a column. -/
  toPython : C → PyVal
  fetch : (R : Type) → Fetch R
  order : (R : Type) → EvalOrder (PyStr × R) Field

variable {N C : Type} [DecidableEq N] (engine : Engine N C)

/-! ### Conditions -/

/-- `%s::text`. -/
def paramText : Scalar → Option PyStr
  | .none => none
  | .bool b => some (boolText b)
  | .int n => some (decimal n)
  | .str s => some s

/-- `x = y` between texts; never true of `NULL`. -/
def textEq (x y : Option PyStr) : Bool := x.isSome && decide (x = y)

/-- `document->>'name' = %s::text`. -/
def extractEq (document : Value) (field : Field) : Bool :=
  textEq (extractText engine.jsonText (fieldOf document field.1)) (paramText field.2)

/-- The `PostgresStore`, with its values in a column of type `JSONB`. -/
def sqlFilter : SqlFilter Value where
  validate := validateFieldName
  binds field := decide (field.2 = .none) || engine.binds field.2
  holds r field := some (extractEq engine r.2 field)
  rowToValue row := row
  fetch := engine.fetch Value
  order := engine.order Value

/-- `filter(**field_filters)`. -/
def filter (table : Table PyStr Value) (filters : Dict PyStr Scalar) :
    Except FilterError (List Value) :=
  (sqlFilter engine).filter table filters

end PostgresStore

namespace TypedPostgresStore

open Typed PostgresStore

variable {N C : Type} [DecidableEq N] (engine : Engine N C) (schema : Dict PyStr String)

/-- A row: columns that may be null, and the column `extra`. -/
abbrev Row (C : Type) := TypedRow (Option C) Value

/-- The column of a name. -/
def column (row : Row C) (name : PyStr) : Option C :=
  ((Dict.ofList (schema.keys.zip row.known)).get? name).join

/-- What the column `extra` holds, nothing when it is null. -/
def document (row : Row C) : Value := row.extra.getD ∅

/-- The driver's value of a column that may be null. -/
def fromColumn (c : Option C) : PyVal := c.elim .none engine.toPython

/-- `"name" = %s`; never true of `NULL`. -/
def columnHolds (dtype : String) (c : Option C) (expected : Scalar) : Bool :=
  decide (expected ≠ .none) && c.any fun x => engine.columnEq dtype x expected

/-- The condition that `_build_filter_condition(name)` writes, on a row. -/
def holds (row : Row C) (field : Field) : Bool :=
  match schema.get? field.1 with
  | some dtype => columnHolds engine dtype (column schema row field.1) field.2
  | none => extractEq engine (document row) field

/-- A field with a column of its own is not validated. -/
def validate (name : PyStr) : Except ValidationError Unit :=
  if name ∈ schema.keys then .ok () else validateFieldName name

/-- The parameter of a condition can be bound. -/
def binds (field : Field) : Bool :=
  decide (field.2 = .none) ||
    match schema.get? field.1 with
    | some dtype => engine.columnBinds dtype field.2
    | none => engine.binds field.2

/-- `_row_to_value(row)`. -/
def rowToValue (row : Row C) : Value :=
  Typed.rowToValue TypedPostgresStore.extra schema (fromColumn engine) row

/-- The `TypedPostgresStore` with some `value_schema`. -/
def sqlFilter : SqlFilter (Row C) where
  validate := validate schema
  binds := binds engine schema
  holds r field := some (holds engine schema r.2 field)
  rowToValue := rowToValue engine schema
  fetch := engine.fetch (Row C)
  order := engine.order (Row C)

/-- `filter(**field_filters)`. -/
def filter (table : Table PyStr (Row C)) (filters : Dict PyStr Scalar) :
    Except FilterError (List Value) :=
  (sqlFilter engine schema).filter table filters

end TypedPostgresStore

/-! ### A comparison against Python's -/

/-- A comparison that differs from a test where the test succeeds and the value is missed, and where
it fails and the two are confused. -/
structure DiffersBy (holds test : Bool) (missed confused : Prop) : Prop where
  holds_iff : holds ↔ test ∧ ¬ missed ∨ confused
  test_of_missed : missed → test
  not_test_of_confused : confused → ¬ test

namespace DiffersBy

variable {holds test : Bool} {missed confused : Prop}

theorem holds_iff_of_test (h : DiffersBy holds test missed confused) (ht : test) :
    holds ↔ ¬ missed := by
  have hno : ¬ confused := fun hc => h.not_test_of_confused hc ht
  rw [h.holds_iff, or_iff_left hno, and_iff_right ht]

theorem not_holds_iff (h : DiffersBy holds test missed confused) :
    ¬ holds ↔ missed ∨ ¬ test ∧ ¬ confused := by
  have htest := h.test_of_missed
  have hno := h.not_test_of_confused
  rw [h.holds_iff]
  tauto

end DiffersBy

section Right

variable {N : Type} [DecidableEq N] (num : Numbers N) (filters : Dict PyStr Scalar)

/-- `filter` is right about a value: one that matches all filters is missed by none, and of one that
does not, some field is missed, or is not the expected one and is not confused with it. -/
def RightAbout (value : Value) (missed confused : Field → Prop) : Prop :=
  (matchesAll num filters value → ∀ f ∈ filters.entries, ¬ missed f) ∧
  (¬ matchesAll num filters value →
    ∃ f ∈ filters.entries, missed f ∨ ¬ fieldEq num value f ∧ ¬ confused f)

variable {num filters} {R : Type} {store : SqlFilter R} {table : Table PyStr R}
  {holds : R → Field → Bool} {missed confused : R → Field → Prop}

/-- A value about which `filter` is right, by what the conditions are on its row. -/
theorem rightAbout_iff {r : PyStr × R} (hholds : ∀ f, store.holds r f = some (holds r.2 f))
    (hdiff : ∀ f, DiffersBy (holds r.2 f) (fieldEq num (store.rowToValue r.2) f) (missed r.2 f)
      (confused r.2 f)) :
    RightAbout num filters (store.rowToValue r.2) (missed r.2) (confused r.2) ↔
      (matchesAll num filters (store.rowToValue r.2) →
        ∀ f ∈ filters.entries, store.holds r f = some true) ∧
      (¬ matchesAll num filters (store.rowToValue r.2) →
        Refuted (store.holds r) (store.order.on r filters.entries)) := by
  have htotal : ∀ c ∈ store.order.on r filters.entries, (store.holds r c).isSome := fun c _ => by
    rw [hholds c]
    rfl
  refine and_congr (forall_congr' fun hall => forall₂_congr fun f hf => ?_)
    (imp_congr_right fun _ => ?_)
  · rw [hholds f, Option.some.injEq]
    exact ((hdiff f).holds_iff_of_test (List.all_eq_true.mp hall f hf)).symm
  · rw [refuted_iff_of_total htotal]
    refine exists_congr fun f => ?_
    rw [(store.order.perm r filters.entries).mem_iff, hholds f, Option.some.injEq,
      ← (hdiff f).not_holds_iff, Bool.not_eq_true]

variable (store holds missed confused) in
/-- When `filter` is exact, for comparisons that do not raise. -/
theorem exact_iff_rightAbout (hnames : ∀ name ∈ filters.keys, store.validate name = .ok ())
    (hholds : ∀ r f, store.holds r f = some (holds r.2 f))
    (hdiff : ∀ r ∈ table.entries, ∀ f, DiffersBy (holds r.2 f)
      (fieldEq num (store.rowToValue r.2) f) (missed r.2 f) (confused r.2 f)) :
    Exact num filters (storedValues store.rowToValue table) (store.filter table filters) ↔
      (∀ f ∈ filters.entries, store.binds f) ∧
        ∀ r ∈ table.entries,
          RightAbout num filters (store.rowToValue r.2) (missed r.2) (confused r.2) := by
  rw [forall₂_congr fun r hr => rightAbout_iff (hholds r) (hdiff r hr)]
  exact SqlFilter.exact_iff hnames

end Right

namespace PostgresStore

variable {N C : Type} [DecidableEq N] (engine : Engine N C)

/-- A value that is the expected one for Python and not for Postgres: `None`, always, and a number
or a boolean that is written in another way. -/
def Missed (v : PyVal) : Scalar → Prop
  | .none => v = .none
  | .bool b => v.eq engine.num (.bool b) ∧ extractText engine.jsonText v ≠ some (boolText b)
  | .int n => v.eq engine.num (.int n) ∧ extractText engine.jsonText v ≠ some (decimal n)
  | .str _ => False

/-- A value that is not the expected one for Python, with the same text. -/
def Confused (v : PyVal) : Scalar → Prop
  | .none => False
  | .bool b => ¬ v.eq engine.num (.bool b) ∧ extractText engine.jsonText v = some (boolText b)
  | .int n => ¬ v.eq engine.num (.int n) ∧ extractText engine.jsonText v = some (decimal n)
  | .str s => (∀ u, v ≠ .str u) ∧ extractText engine.jsonText v = some s

variable {engine}

theorem textEq_some {x : Option PyStr} {t : PyStr} : textEq x (some t) ↔ x = some t := by
  cases x with
  | none => simp [textEq]
  | some s => simp [textEq]

theorem textEq_none (x : Option PyStr) : textEq x none = false := by
  cases x with
  | none => rfl
  | some s => rfl

/-- **The comparison of texts against Python's.** -/
theorem textEq_differsBy (v : PyVal) (expected : Scalar) :
    DiffersBy (textEq (extractText engine.jsonText v) (paramText expected))
      (v.eq engine.num expected.toPyVal) (Missed engine v expected)
        (Confused engine v expected) := by
  cases expected with
  | none =>
    refine ⟨?_, (eq_none_iff engine.num).mpr, False.elim⟩
    rw [paramText, textEq_none, Scalar.toPyVal, eq_none_iff]
    simp [Missed, Confused]
  | bool b =>
    refine ⟨?_, And.left, And.left⟩
    rw [paramText, textEq_some, Missed, Confused, Scalar.toPyVal]
    tauto
  | int n =>
    refine ⟨?_, And.left, And.left⟩
    rw [paramText, textEq_some, Missed, Confused, Scalar.toPyVal]
    tauto
  | str s =>
    refine ⟨?_, False.elim, fun hc h => hc.1 s ((eq_str_iff engine.num).mp h)⟩
    rw [paramText, textEq_some, Missed, Confused, Scalar.toPyVal, eq_str_iff]
    cases v with
    | str t => simp [extractText]
    | _ => simp

/-- A value of the type that is expected, or none. No value is plain where `None` is expected. -/
def Plain (v : PyVal) : Scalar → Prop
  | .none => False
  | .bool _ => v = .none ∨ ∃ b, v = .bool b
  | .int _ => v = .none ∨ ∃ n, v = .int n
  | .str _ => v = .none ∨ ∃ s, v = .str s

/-- Plain values are compared as Python compares them. -/
theorem textEq_of_plain (hinj : Function.Injective engine.num.ofInt) {v : PyVal}
    {expected : Scalar} (h : Plain v expected) :
    textEq (extractText engine.jsonText v) (paramText expected) =
      v.eq engine.num expected.toPyVal := by
  cases expected with
  | none => exact h.elim
  | bool b =>
    rcases h with rfl | ⟨c, rfl⟩
    · rfl
    · rw [Scalar.toPyVal, bool_eq_bool hinj, Bool.eq_iff_iff, paramText, textEq_some, extractText,
        Option.some.injEq, boolText_injective.eq_iff, decide_eq_true_iff]
  | int n =>
    rcases h with rfl | ⟨m, rfl⟩
    · rfl
    · rw [Scalar.toPyVal, int_eq_int hinj, Bool.eq_iff_iff, paramText, textEq_some, extractText,
        Option.some.injEq, decimal_injective.eq_iff, decide_eq_true_iff]
  | str s =>
    rcases h with rfl | ⟨t, rfl⟩
    · rfl
    · rw [Bool.eq_iff_iff, paramText, textEq_some, extractText, Option.some.injEq, Scalar.toPyVal,
        eq_str_iff, PyVal.str.injEq]

end PostgresStore

/-! ### Typed columns -/

namespace TypedPostgresStore

open Typed PostgresStore

variable {N C : Type} [DecidableEq N] (engine : Engine N C) (schema : Dict PyStr String)

/-- A value that is the expected one for Python and not for Postgres. -/
def Missed (row : Row C) (field : Field) : Prop :=
  match schema.get? field.1 with
  | some dtype =>
    (fromColumn engine (column schema row field.1)).eq engine.num field.2.toPyVal ∧
      ¬ columnHolds engine dtype (column schema row field.1) field.2
  | none => PostgresStore.Missed engine (fieldOf (document row) field.1) field.2

/-- A value that is not the expected one for Python, and is for Postgres. -/
def Confused (row : Row C) (field : Field) : Prop :=
  match schema.get? field.1 with
  | some dtype =>
    ¬ (fromColumn engine (column schema row field.1)).eq engine.num field.2.toPyVal ∧
      columnHolds engine dtype (column schema row field.1) field.2
  | none => PostgresStore.Confused engine (fieldOf (document row) field.1) field.2

/-- A row as the store keeps it: one column for each field of the schema, and a document with the
other fields unless there are none. -/
structure Stored (schema : Dict PyStr String) (row : Row C) : Prop where
  known : row.known.length = schema.keys.length
  extra : ∀ d, row.extra = some d → d.entries ≠ [] ∧ ∀ k ∈ schema.keys, d.get? k = none

variable {engine schema}

/-- What `_value_to_row` makes of a value is stored so, each column converted by Postgres. -/
theorem stored_of_valueToRow {key : PyStr} {value : Value} {params : TypedRow PyVal Value}
    (h : valueToRow TypedPostgresStore.extra schema key value = some params)
    (convert : PyVal → Option C) :
    Stored schema ⟨params.key, params.known.map convert, params.extra⟩ := by
  rw [valueToRow] at h
  split at h
  · obtain rfl := Option.some.inj h
    refine ⟨by simp, fun d hd => ?_⟩
    cases hd
  · next hne =>
    obtain rfl := Option.some.inj h
    refine ⟨by simp, fun d hd => ?_⟩
    obtain rfl := Option.some.inj hd
    exact ⟨hne, fun k hk => by rw [get?_overflow, if_pos hk]⟩

/-- The columns of a stored row are those of the schema, in its order. -/
theorem known_eq {row : Row C} (h : Stored schema row) :
    row.known = schema.keys.map (column schema row) := by
  have hfst : (schema.keys.zip row.known).map Prod.fst = schema.keys :=
    List.map_fst_zip h.known.ge
  refine List.ext_getElem (by rw [List.length_map, h.known]) fun i hi hi' => ?_
  have hk : i < schema.keys.length := h.known ▸ hi
  have hmem : (schema.keys[i], row.known[i]) ∈ schema.keys.zip row.known := by
    rw [← List.getElem_zip (h := by rw [List.length_zip]; omega)]
    exact List.getElem_mem _
  have hentries : (Dict.ofList (schema.keys.zip row.known)).entries = schema.keys.zip row.known :=
    Dict.entries_ofList (by rw [hfst]; exact schema.nodup)
  rw [List.getElem_map, column, Dict.get?_of_mem (p := (schema.keys[i], row.known[i]))
    (hentries ▸ hmem)]
  rfl

omit [DecidableEq N] in
/-- **A stored row, field by field.** -/
theorem get?_rowToValue {row : Row C} (h : Stored schema row) (k : PyStr) :
    (rowToValue engine schema row).get? k =
      if k ∈ schema.keys then notNone (fromColumn engine (column schema row k))
      else (document row).get? k := by
  have hcolumns : row.known.map (fromColumn engine) =
      schema.keys.map fun k => fromColumn engine (column schema row k) := by
    conv_lhs => rw [known_eq h]
    rw [List.map_map]
    rfl
  rw [rowToValue, Typed.rowToValue]
  simp only [hcolumns]
  cases hx : row.extra with
  | none =>
    have hempty : document row = ∅ := by rw [document, hx]; rfl
    simp only [get?_known, hempty, Dict.get?_empty]
  | some d =>
    obtain ⟨hne, hkeys⟩ := h.extra d hx
    have htruthy : TypedPostgresStore.extra.truthy d = true := decide_eq_true hne
    have hdocument : document row = d := by rw [document, hx]; rfl
    simp only [htruthy, if_true, Dict.get?_update, get?_known, hdocument]
    change (d.get? k).or _ = _
    by_cases hk : k ∈ schema.keys
    · rw [if_pos hk, if_pos hk, hkeys k hk]
      rfl
    · rw [if_neg hk, if_neg hk, Option.or_none]

theorem getD_notNone (v : PyVal) : (notNone v).getD .none = v := by
  cases v with
  | none => rfl
  | _ => rfl

/-- **A condition against Python's comparison.** -/
theorem holds_differsBy {row : Row C} (h : Stored schema row) (field : Field) :
    DiffersBy (holds engine schema row field)
      (fieldEq engine.num (rowToValue engine schema row) field)
        (Missed engine schema row field) (Confused engine schema row field) := by
  rw [FieldFilters.fieldEq, fieldOf, get?_rowToValue h, holds, Missed, Confused]
  cases hfield : schema.get? field.1 with
  | some dtype =>
    have hk : field.1 ∈ schema.keys := Dict.isSome_get?_iff.mp (by rw [hfield]; rfl)
    rw [if_pos hk, getD_notNone]
    refine ⟨?_, And.left, And.left⟩
    simp only
    tauto
  | none =>
    rw [if_neg (Dict.get?_eq_none_iff.mp hfield)]
    exact textEq_differsBy _ _

variable (engine schema) in
/-- A field is plain: its column compares with the parameter as Python compares the values, or its
value in the document is plain. -/
def Plain (row : Row C) (field : Field) : Prop :=
  match schema.get? field.1 with
  | some dtype => columnHolds engine dtype (column schema row field.1) field.2 =
      (fromColumn engine (column schema row field.1)).eq engine.num field.2.toPyVal
  | none => PostgresStore.Plain (fieldOf (document row) field.1) field.2

/-- Plain fields are compared as Python compares them. -/
theorem holds_of_plain (hinj : Function.Injective engine.num.ofInt) {row : Row C}
    (h : Stored schema row) {field : Field} (hplain : Plain engine schema row field) :
    holds engine schema row field = fieldEq engine.num (rowToValue engine schema row) field := by
  rw [FieldFilters.fieldEq, fieldOf, get?_rowToValue h, holds]
  rw [Plain] at hplain
  cases hfield : schema.get? field.1 with
  | some dtype =>
    have hk : field.1 ∈ schema.keys := Dict.isSome_get?_iff.mp (by rw [hfield]; rfl)
    rw [hfield] at hplain
    rw [if_pos hk, getD_notNone]
    exact hplain
  | none =>
    rw [hfield] at hplain
    rw [if_neg (Dict.get?_eq_none_iff.mp hfield)]
    exact textEq_of_plain hinj hplain

end TypedPostgresStore

/-! ### The values returned -/

section Filter

variable {N C : Type} [DecidableEq N]

omit [DecidableEq N] in
theorem PostgresStore.binds_iff (engine : Engine N C) (f : Field) :
    (PostgresStore.sqlFilter engine).binds f ↔ (f.2 ≠ .none → engine.binds f.2) := by
  change (decide (f.2 = .none) || engine.binds f.2) = true ↔ _
  rw [Bool.or_eq_true, decide_eq_true_iff, or_iff_not_imp_left]

/-- **When `filter` is exact.** Both stores return exactly the values that match all filters when
every expected value can be bound and no value is wrongly left out or taken: none that matches is
missed, and of one that does not, some field is found not to match. -/
theorem PostgresStore.filter_both_exact_iff (engine : Engine N C) (schema : Dict PyStr String)
    (table : Table PyStr Value) (typed : Table PyStr (TypedPostgresStore.Row C))
    (hstored : ∀ r ∈ typed.entries, TypedPostgresStore.Stored schema r.2)
    (filters : Dict PyStr Scalar) (hnames : ∀ name ∈ filters.keys, isIdentifier name) :
    (Exact engine.num filters table.values (PostgresStore.filter engine table filters) ↔
      (∀ f ∈ filters.entries, f.2 ≠ .none → engine.binds f.2) ∧
        ∀ value ∈ table.values, RightAbout engine.num filters value
          (fun f => PostgresStore.Missed engine (fieldOf value f.1) f.2)
          (fun f => PostgresStore.Confused engine (fieldOf value f.1) f.2)) ∧
    (Exact engine.num filters
        (storedValues (TypedPostgresStore.rowToValue engine schema) typed)
        (TypedPostgresStore.filter engine schema typed filters) ↔
      (∀ f ∈ filters.entries, TypedPostgresStore.binds engine schema f) ∧
        ∀ r ∈ typed.entries,
          RightAbout engine.num filters (TypedPostgresStore.rowToValue engine schema r.2)
            (TypedPostgresStore.Missed engine schema r.2)
            (TypedPostgresStore.Confused engine schema r.2)) := by
  have hvalid : ∀ name ∈ filters.keys, validateFieldName name = .ok () := fun name hn =>
    validateFieldName_eq_ok.mpr (fieldNameMatches_of_isIdentifier (hnames name hn))
  constructor
  · have hbinds : ∀ f : Field, (PostgresStore.sqlFilter engine).binds f ↔
        (f.2 ≠ .none → engine.binds f.2) := fun f => PostgresStore.binds_iff engine f
    have hvalues : ∀ P : Value → Prop, (∀ value ∈ table.values, P value) ↔
        ∀ r ∈ table.entries, P r.2 := fun P => List.forall_mem_map
    rw [hvalues, ← forall₂_congr fun f _ => hbinds f]
    exact exact_iff_rightAbout (PostgresStore.sqlFilter engine) (PostgresStore.extractEq engine)
      (fun value f => PostgresStore.Missed engine (fieldOf value f.1) f.2)
      (fun value f => PostgresStore.Confused engine (fieldOf value f.1) f.2)
      hvalid (fun _ _ => rfl) fun r _ f => PostgresStore.textEq_differsBy _ _
  · refine exact_iff_rightAbout (TypedPostgresStore.sqlFilter engine schema) _ _ _
      (fun name hn => ?_) (fun _ _ => rfl) fun r hr f =>
        TypedPostgresStore.holds_differsBy (hstored r hr) f
    change (if name ∈ schema.keys then .ok () else validateFieldName name) = _
    rw [hvalid name hn, ite_self]

variable {engine : PostgresStore.Engine N C} {schema : Dict PyStr String}
  {filters : Dict PyStr Scalar}

/-- **Fields of one type.** `filter` is exact when no expected value is `None` and every stored
value has, under each name that is asked for, a value of the type that is expected, or none. -/
theorem PostgresStore.filter_exact_of_plain (hinj : Function.Injective engine.num.ofInt)
    {table : Table PyStr Value} (hnames : ∀ name ∈ filters.keys, isIdentifier name)
    (hbinds : ∀ f ∈ filters.entries, f.2 ≠ .none → engine.binds f.2)
    (hplain : ∀ value ∈ table.values, ∀ f ∈ filters.entries,
      PostgresStore.Plain (fieldOf value f.1) f.2) :
    Exact engine.num filters table.values (PostgresStore.filter engine table filters) := by
  have hvalid : ∀ name ∈ filters.keys, (PostgresStore.sqlFilter engine).validate name = .ok () :=
    fun name hn => validateFieldName_eq_ok.mpr (fieldNameMatches_of_isIdentifier (hnames name hn))
  have hbound : ∀ f ∈ filters.entries, (PostgresStore.sqlFilter engine).binds f := fun f hf =>
    (PostgresStore.binds_iff engine f).mpr (hbinds f hf)
  refine (SqlFilter.exact_iff hvalid).mpr ⟨hbound, fun r hr => ?_⟩
  refine (PostgresStore.sqlFilter engine).right_of_holds_eq fun f hf => congrArg some ?_
  exact PostgresStore.textEq_of_plain hinj (hplain r.2 (List.mem_map_of_mem hr) f hf)

/-- The same with typed columns. -/
theorem TypedPostgresStore.filter_exact_of_plain (hinj : Function.Injective engine.num.ofInt)
    {typed : Table PyStr (TypedPostgresStore.Row C)}
    (hstored : ∀ r ∈ typed.entries, TypedPostgresStore.Stored schema r.2)
    (hnames : ∀ name ∈ filters.keys, isIdentifier name)
    (hbinds : ∀ f ∈ filters.entries, TypedPostgresStore.binds engine schema f)
    (hplain : ∀ r ∈ typed.entries, ∀ f ∈ filters.entries,
      TypedPostgresStore.Plain engine schema r.2 f) :
    Exact engine.num filters (storedValues (TypedPostgresStore.rowToValue engine schema) typed)
      (TypedPostgresStore.filter engine schema typed filters) := by
  have hvalid : ∀ name ∈ filters.keys,
      (TypedPostgresStore.sqlFilter engine schema).validate name = .ok () := by
    intro name hn
    change (if name ∈ schema.keys then .ok () else validateFieldName name) = _
    rw [validateFieldName_eq_ok.mpr (fieldNameMatches_of_isIdentifier (hnames name hn)), ite_self]
  refine (SqlFilter.exact_iff hvalid).mpr ⟨hbinds, fun r hr => ?_⟩
  refine (TypedPostgresStore.sqlFilter engine schema).right_of_holds_eq fun f hf =>
    congrArg some ?_
  exact TypedPostgresStore.holds_of_plain hinj (hstored r hr) (hplain r hr f hf)

end Filter

/-! ### A filter on `None` -/

/-- Python and Postgres on integers. -/
def yearEngine : PostgresStore.Engine ℤ ℤ where
  num := ⟨id, fun _ => 0⟩
  jsonText _ := []
  binds _ := true
  columnBinds _ _ := true
  columnEq _ x expected := decide (expected = .int x)
  toPython := .int
  fetch := .stored
  order _ := .written

/-- `{"year": "INTEGER"}`. -/
def yearSchema : Dict PyStr String := .ofList [(ofString "year", "INTEGER")]

/-- `{"title": title}`. -/
def titled (title : String) : Value := .ofList [(ofString "title", .str (ofString title))]

/-- A `PostgresStore` with the values `{"title": "A"}` and `{"title": "B", "year": 1999}`. -/
def titledTable : Table PyStr Value :=
  .ofList [(ofString "1", titled "A"),
    (ofString "2", (titled "B").set (ofString "year") (.int 1999))]

/-- The same values in a `TypedPostgresStore`. -/
def titledRows : Table PyStr (TypedPostgresStore.Row ℤ) :=
  .ofList [(ofString "1", ⟨ofString "1", [none], some (titled "A")⟩),
    (ofString "2", ⟨ofString "2", [some 1999], some (titled "B")⟩)]

/-- `filter(name=expected)`. -/
def filtering (name : String) (expected : Scalar) : Dict PyStr Scalar :=
  .ofList [(ofString name, expected)]

theorem stored_titledRows : ∀ r ∈ titledRows.entries, TypedPostgresStore.Stored yearSchema r.2 := by
  have hstored : ∀ key year title,
      TypedPostgresStore.Stored yearSchema (C := ℤ) ⟨key, [year], some (titled title)⟩ := by
    intro key year title
    refine ⟨rfl, fun d hd => ?_⟩
    obtain rfl := Option.some.inj hd
    refine ⟨List.cons_ne_nil _ _, fun k hk => ?_⟩
    obtain rfl := List.mem_singleton.mp hk
    rfl
  intro r hr
  rcases List.mem_pair.mp hr with rfl | rfl
  · exact hstored _ _ _
  · exact hstored _ _ _

/-- `filter(title="A")` returns the first value and not the second, on both stores. -/
theorem PostgresStore.filter_exact_title :
    Exact yearEngine.num (filtering "title" (.str (ofString "A"))) titledTable.values
        (PostgresStore.filter yearEngine titledTable (filtering "title" (.str (ofString "A")))) ∧
      Exact yearEngine.num (filtering "title" (.str (ofString "A")))
        (storedValues (TypedPostgresStore.rowToValue yearEngine yearSchema) titledRows)
        (TypedPostgresStore.filter yearEngine yearSchema titledRows
          (filtering "title" (.str (ofString "A")))) ∧
      titledTable.values.filter
        (matchesAll yearEngine.num (filtering "title" (.str (ofString "A")))) = [titled "A"] := by
  obtain ⟨hjson, htyped⟩ := PostgresStore.filter_both_exact_iff yearEngine yearSchema titledTable
    titledRows stored_titledRows (filtering "title" (.str (ofString "A"))) (by decide)
  refine ⟨hjson.mpr ⟨fun _ _ _ => rfl, fun value hv => ?_⟩,
    htyped.mpr ⟨by decide, fun r hr => ?_⟩, rfl⟩
  · rcases List.mem_pair.mp hv with rfl | rfl
    · refine ⟨fun _ f hf => ?_, fun hno => absurd rfl hno⟩
      obtain rfl := List.mem_singleton.mp hf
      exact id
    · refine ⟨fun hall => absurd hall (by decide), fun _ => ⟨_, List.mem_cons_self, .inr ?_⟩⟩
      exact ⟨by decide, fun hc => hc.1 _ rfl⟩
  · rcases List.mem_pair.mp hr with rfl | rfl
    · refine ⟨fun _ f hf => ?_, fun hno => absurd rfl hno⟩
      obtain rfl := List.mem_singleton.mp hf
      exact id
    · refine ⟨fun hall => absurd hall (by decide), fun _ => ⟨_, List.mem_cons_self, .inr ?_⟩⟩
      exact ⟨by decide, fun hc => hc.1 _ rfl⟩

/-- **`None` is not found.** The value `{"title": "A"}` has no year, and `filter(year=None)` does
not return it: neither when the year has no column, nor when its column is null. -/
theorem PostgresStore.filter_misses_none :
    ¬ Exact yearEngine.num (filtering "year" .none) titledTable.values
        (PostgresStore.filter yearEngine titledTable (filtering "year" .none)) ∧
      ¬ Exact yearEngine.num (filtering "year" .none)
        (storedValues (TypedPostgresStore.rowToValue yearEngine yearSchema) titledRows)
        (TypedPostgresStore.filter yearEngine yearSchema titledRows (filtering "year" .none)) := by
  constructor
  · rintro ⟨found, hfound, hperm⟩
    have hnone :
        PostgresStore.filter yearEngine titledTable (filtering "year" .none) = .ok [] := rfl
    obtain rfl := Except.ok.inj (hnone.symm.trans hfound)
    exact absurd hperm.length_eq (by decide)
  · rintro ⟨found, hfound, hperm⟩
    have hnone : TypedPostgresStore.filter yearEngine yearSchema titledRows
        (filtering "year" .none) = .ok [] := rfl
    obtain rfl := Except.ok.inj (hnone.symm.trans hfound)
    exact absurd hperm.length_eq (by decide)

end Persista
