import Persista.Json.Dumps
import Persista.Json.Equality
import Persista.Lib.Pushdown
import Persista.Store.Sqlite
import Persista.Store.SqlFragments

/-!
# The contract of `filter`

`BaseStore.filter(**field_filters)` returns the values whose fields match all filters exactly. The
DuckDB and Postgres stores leave the comparison to the database: `filter_items` writes one condition
for each filter into a `WHERE` clause, the database selects rows, and the rows are read back as
values. What the two have in common is here; a store adds its conditions and what they mean.

The rows come in an order that the database chooses, and so do the conditions on each row.

## Main results

* `FieldFilters.exact_query_iff` — when the values of the rows selected are those that match
* `FieldFilters.SqlFilter.exact_iff` — when `filter` returns exactly the values that match
-/

namespace Persista

namespace FieldFilters

open Json Pushdown

/-- An expected value. -/
inductive Scalar
  | none
  | bool (b : Bool)
  | int (n : ℤ)
  | str (s : PyStr)
  deriving DecidableEq

/-- The value that a scalar is. -/
def Scalar.toPyVal : Scalar → PyVal
  | .none => .none
  | .bool b => .bool b
  | .int n => .int n
  | .str s => .str s

/-- A stored value. -/
abbrev Value := Dict PyStr PyVal

/-- A name and what is expected under it. -/
abbrev Field := PyStr × Scalar

/-- `value.get(name)`. -/
def fieldOf (value : Value) (name : PyStr) : PyVal := (value.get? name).getD .none

section Contract

variable {N : Type} [DecidableEq N] (num : Numbers N)

/-- `value.get(name) == expected`. -/
def fieldEq (value : Value) (field : Field) : Bool :=
  (fieldOf value field.1).eq num field.2.toPyVal

/-- The value matches all filters. -/
def matchesAll (filters : Dict PyStr Scalar) (value : Value) : Bool :=
  filters.entries.all (fieldEq num value)

/-- What `filter_items` raises. -/
inductive FilterError
  /-- The `ValueError` of `validate_field_name`. -/
  | name (error : ValidationError)
  /-- An error of the driver or of the database. -/
  | database

/-- What a call of `filter` returned are the values that match, each as often as it is stored. -/
def Exact (filters : Dict PyStr Scalar) (stored : List Value)
    (result : Except FilterError (List Value)) : Prop :=
  ∃ found, result = .ok found ∧ found.Perm (stored.filter (matchesAll num filters))

end Contract

/-! ### Texts -/

/-- `true` or `false`. -/
def boolText (b : Bool) : PyStr := ofString (if b then "true" else "false")

/-- The decimal digits. -/
def decimal (n : ℤ) : PyStr := ofString (String.ofList (intText n))

/-- What `json_extract_string` and `->>` make of a value: the text of a string, `NULL` for null, the
JSON text of anything else. The text of floats, arrays and objects is the database's own. -/
def extractText (jsonText : PyVal → PyStr) : PyVal → Option PyStr
  | .none => none
  | .str s => some s
  | .bool b => some (boolText b)
  | .int n => some (decimal n)
  | v => some (jsonText v)

theorem extractText_eq_none_iff {jsonText : PyVal → PyStr} {v : PyVal} :
    extractText jsonText v = none ↔ v = .none := by
  cases v <;> simp [extractText]

theorem boolText_injective : Function.Injective boolText := by
  intro b c h
  have hlen := congrArg List.length h
  cases b <;> cases c <;> first | rfl | exact absurd hlen (by decide)

theorem decimal_injective : Function.Injective decimal := fun _ _ h =>
  intText_injective (String.ofList_injective (ofString_injective h))

section Numbers

variable {N : Type} [DecidableEq N] {num : Numbers N}

/-- Integers that are different numbers are not equal. -/
theorem int_eq_int (hinj : Function.Injective num.ofInt) (m n : ℤ) :
    (PyVal.int m).eq num (.int n) = decide (m = n) := by
  have heq : (PyVal.int m).eq num (.int n) =
      decide (some (num.ofInt m) = some (num.ofInt n)) := rfl
  rw [heq, decide_eq_decide, Option.some.injEq, hinj.eq_iff]

theorem bool_eq_bool (hinj : Function.Injective num.ofInt) (b c : Bool) :
    (PyVal.bool b).eq num (.bool c) = decide (b = c) := by
  have heq : (PyVal.bool b).eq num (.bool c) = (PyVal.int b.toNat).eq num (.int c.toNat) := rfl
  rw [heq, int_eq_int hinj, decide_eq_decide]
  cases b <;> cases c <;> decide

end Numbers

/-- A loop that lets every element through. -/
theorem mapM_ok {ε α : Type} {f : α → Except ε α} {l : List α} (h : ∀ x ∈ l, f x = .ok x) :
    l.mapM f = .ok l := by
  induction l with
  | nil => rfl
  | cons x l ih =>
    rw [List.forall_mem_cons] at h
    rw [List.mapM_cons, h.1, ih h.2]
    rfl

/-! ### Queries -/

/-- The order in which the database returns the rows of a table. -/
structure Fetch (R : Type) where
  rows : Table PyStr R → List (PyStr × R)
  perm : ∀ table, (rows table).Perm table.entries

/-- The order in which the rows are stored. -/
def Fetch.stored (R : Type) : Fetch R := ⟨Dict.entries, fun _ => List.Perm.refl _⟩

section Query

variable {R κ : Type} (fetch : Fetch R) (order : EvalOrder (PyStr × R) κ)
variable (eval : PyStr × R → κ → Option Bool) (rowToValue : R → Value)

/-- `dict(self._row_to_kv(row) for row in rows)`. -/
def readRows (rows : List (PyStr × R)) : Dict PyStr Value :=
  .ofList (rows.map fun r => (r.1, rowToValue r.2))

/-- `SELECT ... WHERE` the conditions, executed and read back. -/
def query (table : Table PyStr R) (conds : List κ) : Except FilterError (Dict PyStr Value) :=
  match select order eval conds (fetch.rows table) with
  | none => .error .database
  | some rows => .ok (readRows rowToValue rows)

/-- The values in a table. -/
def storedValues (table : Table PyStr R) : List Value := table.entries.map fun r => rowToValue r.2

variable {fetch order eval rowToValue}

theorem values_readRows {rows : List (PyStr × R)} (h : (rows.map Prod.fst).Nodup) :
    (readRows rowToValue rows).values = rows.map fun r => rowToValue r.2 := by
  rw [Dict.values, readRows, Dict.entries_ofList, List.map_map]
  · rfl
  · rw [List.map_map]
    exact h

theorem nodup_rows (table : Table PyStr R) : ((fetch.rows table).map Prod.fst).Nodup :=
  ((fetch.perm table).map Prod.fst).nodup_iff.mpr table.nodup

variable {N : Type} [DecidableEq N] {num : Numbers N}

theorem matchesAll_of_nil {filters : Dict PyStr Scalar} (h : filters.entries = [])
    (value : Value) : matchesAll num filters value := by
  rw [matchesAll, h]
  rfl

/-- Without filters every value is returned. -/
theorem exact_readRows (table : Table PyStr R) {filters : Dict PyStr Scalar}
    (h : filters.entries = []) :
    Exact num filters (storedValues rowToValue table)
      (.ok (readRows rowToValue (fetch.rows table)).values) := by
  refine ⟨_, rfl, ?_⟩
  rw [values_readRows (nodup_rows table), List.filter_eq_self.mpr fun v _ => matchesAll_of_nil h v]
  exact (fetch.perm table).map _

/-- **When a query is exact.** On each row that matches all conditions are true, and on each row
that does not, one is found false before any raises. -/
theorem exact_query_iff {table : Table PyStr R} {conds : List κ} {filters : Dict PyStr Scalar} :
    Exact num filters (storedValues rowToValue table)
        ((query fetch order eval rowToValue table conds).map Dict.values) ↔
      ∀ r ∈ table.entries,
        (matchesAll num filters (rowToValue r.2) → ∀ c ∈ conds, eval r c = some true) ∧
        (¬ matchesAll num filters (rowToValue r.2) → Refuted (eval r) (order.on r conds)) := by
  have hrows : (∀ r ∈ table.entries,
      (matchesAll num filters (rowToValue r.2) → ∀ c ∈ conds, eval r c = some true) ∧
      (¬ matchesAll num filters (rowToValue r.2) → Refuted (eval r) (order.on r conds))) ↔
        ∃ found, select order eval conds (fetch.rows table) = some found ∧
          (found.map fun r => rowToValue r.2).Perm
            (((fetch.rows table).map fun r => rowToValue r.2).filter (matchesAll num filters)) := by
    rw [select_agrees_iff]
    exact forall_congr' fun r => by rw [(fetch.perm table).mem_iff]
  have hstored : (((fetch.rows table).map fun r => rowToValue r.2).filter
      (matchesAll num filters)).Perm
        ((storedValues rowToValue table).filter (matchesAll num filters)) :=
    ((fetch.perm table).map _).filter _
  have hfound : ∀ {rows}, select order eval conds (fetch.rows table) = some rows →
      (query fetch order eval rowToValue table conds).map Dict.values =
        .ok (rows.map fun r => rowToValue r.2) := by
    intro rows h
    have hnodup : (rows.map Prod.fst).Nodup := by
      obtain ⟨-, rfl⟩ := select_eq_some_iff.mp h
      exact (nodup_rows table).sublist (List.filter_sublist.map _)
    rw [query, h]
    exact congrArg Except.ok (values_readRows hnodup)
  rw [hrows]
  constructor
  · rintro ⟨values, hvalues, hperm⟩
    cases hselect : select order eval conds (fetch.rows table) with
    | none =>
      rw [query, hselect] at hvalues
      cases hvalues
    | some rows =>
      obtain rfl := Except.ok.inj ((hfound hselect).symm.trans hvalues)
      exact ⟨rows, rfl, hperm.trans hstored.symm⟩
  · rintro ⟨rows, hselect, hperm⟩
    exact ⟨_, hfound hselect, hperm.trans hstored⟩

end Query

/-! ### `filter_items` -/

/-- What `filter_items` takes from the class of a store, and what the database makes of it. -/
structure SqlFilter (R : Type) where
  /-- The name goes into the condition that is written for it. -/
  validate : PyStr → Except ValidationError Unit
  /-- The parameter of a condition can be bound. -/
  binds : Field → Bool
  /-- A condition is true on a row; `none` when it raises. -/
  holds : PyStr × R → Field → Option Bool
  rowToValue : R → Value
  fetch : Fetch R
  order : EvalOrder (PyStr × R) Field

namespace SqlFilter

variable {R : Type} (store : SqlFilter R)

/-- The condition for a name and what is expected under it. -/
def condition (field : Field) : Except ValidationError Field :=
  match store.validate field.1 with
  | .error e => .error e
  | .ok () => .ok field

/-- `filter_items(**field_filters)` of an open store. -/
def filterItems (table : Table PyStr R) (filters : Dict PyStr Scalar) :
    Except FilterError (Dict PyStr Value) :=
  if filters.entries = [] then .ok (readRows store.rowToValue (store.fetch.rows table))
  else
    match filters.entries.mapM store.condition with
    | .error e => .error (.name e)
    | .ok conds =>
      if conds.all store.binds then
        query store.fetch store.order store.holds store.rowToValue table conds
      else .error .database

/-- `filter(**field_filters)`. -/
def filter (table : Table PyStr R) (filters : Dict PyStr Scalar) :
    Except FilterError (List Value) :=
  (store.filterItems table filters).map Dict.values

variable {store} {N : Type} [DecidableEq N] {num : Numbers N} {table : Table PyStr R}
  {filters : Dict PyStr Scalar}

/-- **When `filter` is exact.** The parameters bind, and the conditions are right on every row. -/
theorem exact_iff (hnames : ∀ name ∈ filters.keys, store.validate name = .ok ()) :
    Exact num filters (storedValues store.rowToValue table) (store.filter table filters) ↔
      (∀ f ∈ filters.entries, store.binds f) ∧
        ∀ r ∈ table.entries,
          (matchesAll num filters (store.rowToValue r.2) →
            ∀ f ∈ filters.entries, store.holds r f = some true) ∧
          (¬ matchesAll num filters (store.rowToValue r.2) →
            Refuted (store.holds r) (store.order.on r filters.entries)) := by
  have hconds : filters.entries.mapM store.condition = .ok filters.entries :=
    mapM_ok fun f hf => by rw [condition, hnames _ (Dict.mem_keys_of_mem hf)]
  rw [filter, filterItems, hconds, ← List.all_eq_true]
  split
  · next hempty =>
    refine iff_of_true (exact_readRows table hempty) ⟨by rw [hempty]; rfl, fun r _ => ?_⟩
    constructor
    · intro _ f hf
      rw [hempty] at hf
      cases hf
    · intro hno
      exact absurd (matchesAll_of_nil hempty _) hno
  · by_cases hall : filters.entries.all store.binds = true
    · simp only [hall, if_true, true_and]
      exact exact_query_iff
    · refine iff_of_false ?_ fun h => hall h.1
      rintro ⟨found, hfound, -⟩
      simp only [hall] at hfound
      cases hfound

variable (store) in
/-- Conditions that are Python's comparison on a row are right on it. -/
theorem right_of_holds_eq {r : PyStr × R}
    (h : ∀ f ∈ filters.entries, store.holds r f = some (fieldEq num (store.rowToValue r.2) f)) :
    (matchesAll num filters (store.rowToValue r.2) →
      ∀ f ∈ filters.entries, store.holds r f = some true) ∧
    (¬ matchesAll num filters (store.rowToValue r.2) →
      Refuted (store.holds r) (store.order.on r filters.entries)) := by
  have horder := fun f => (store.order.perm r filters.entries).mem_iff (a := f)
  refine ⟨fun hall f hf => ?_, fun hno => ?_⟩
  · rw [h f hf, List.all_eq_true.mp hall f hf]
  · rw [refuted_iff_of_total fun f hf => by rw [h f ((horder f).mp hf)]; rfl]
    obtain ⟨f, hf, hfalse⟩ := List.all_eq_false.mp (Bool.eq_false_iff.mpr hno)
    exact ⟨f, (horder f).mpr hf, by rw [h f hf, Bool.eq_false_iff.mpr hfalse]⟩

end SqlFilter

end FieldFilters

end Persista
