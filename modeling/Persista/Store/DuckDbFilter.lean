import Persista.Store.FieldFilters

/-!
# `DuckDBStore.filter`

`DuckDBStore` writes `json_extract_string(value, '$.name') = ?` for each filter, and `IS NULL` when
`None` is expected. Every comparison is therefore one of text. With a string that is what Python
compares, except that a number, a boolean, an array or an object has a JSON text too: the value `5`
is found under the expected `"5"`. With an integer or a boolean DuckDB casts the text to the
parameter or the parameter to text; the first raises on a text that is no number, and either takes
values for equal that Python tells apart, or the other way round. Only `None` is always right.

How the cast goes, in which order DuckDB takes the conditions on a row and which parameters bind, is
left open.

## Main results

* `DuckDBStore.holds_eq_true`, `DuckDBStore.holds_eq_false` — a condition against Python's
  comparison
* `DuckDBStore.filter_exact_iff` — when `filter` returns exactly the values that match
* `DuckDBStore.filter_exact_of_plain` — it does when each field has the type that is expected of it
-/

namespace Persista

namespace DuckDBStore

open Json FieldFilters Pushdown

/-! ### DuckDB -/

/-- How a text is compared with a parameter of another type: one is cast to the other. -/
inductive Casting (α : Type)
  | ofParam (text : α → PyStr)
  /-- A text that is no value of the type raises. -/
  | ofText (parse : PyStr → Option α)

/-- The comparison; `none` when the cast raises. -/
def Casting.equal {α : Type} [DecidableEq α] : Casting α → PyStr → α → Option Bool
  | .ofParam text, t, x => some (decide (t = text x))
  | .ofText parse, t, x => (parse t).map fun y => decide (y = x)

/-- What DuckDB, its driver and the JSON reader do. -/
structure Engine (N : Type) where
  num : Numbers N
  /-- The `dict` that a JSON text says. -/
  loads : String → Value
  /-- The text of a float, an array or an object. -/
  jsonText : PyVal → PyStr
  int : Casting ℤ
  bool : Casting Bool
  /-- The driver takes a value for a parameter. -/
  binds : Scalar → Bool
  fetch : Fetch String
  order : EvalOrder (PyStr × String) Field

variable {N : Type} [DecidableEq N] (engine : Engine N)

/-! ### `filter_items` -/

/-- `_filter_expr(name)`, on a row. -/
def filterExpr (row : String) (name : PyStr) : Option PyStr :=
  extractText engine.jsonText (fieldOf (engine.loads row) name)

/-- A text equals a parameter. -/
def equalTo (t : PyStr) : Scalar → Option Bool
  | .none => some false
  | .bool b => engine.bool.equal t b
  | .int n => engine.int.equal t n
  | .str s => some (decide (t = s))

/-- A text that may be `NULL` is compared; with `NULL` the comparison is not true. -/
def compared (text : Option PyStr) (cmp : PyStr → Option Bool) : Option Bool :=
  text.elim (some false) cmp

/-- `expr IS NULL`, or `expr = ?`; `none` when it raises. -/
def holds (r : PyStr × String) (field : Field) : Option Bool :=
  match field.2 with
  | .none => some (filterExpr engine r.2 field.1).isNone
  | expected => compared (filterExpr engine r.2 field.1) fun t => equalTo engine t expected

/-- The `DuckDBStore`; a parameter is bound for every expected value but `None`. -/
def sqlFilter : SqlFilter String where
  validate := validateFieldName
  binds field := decide (field.2 = .none) || engine.binds field.2
  holds := holds engine
  rowToValue := engine.loads
  fetch := engine.fetch
  order := engine.order

/-- `filter(**field_filters)`. -/
def filter (table : Table PyStr String) (filters : Dict PyStr Scalar) :
    Except FilterError (List Value) :=
  (sqlFilter engine).filter table filters

/-! ### A value, compared as text -/

/-- The cast of the text of a value raises. -/
def Uncastable (v : PyVal) : Scalar → Prop
  | .bool b => ∃ t, extractText engine.jsonText v = some t ∧ engine.bool.equal t b = none
  | .int n => ∃ t, extractText engine.jsonText v = some t ∧ engine.int.equal t n = none
  | .none | .str _ => False

/-- A value that is the expected one for Python, with a text that is not: `True` where `1` is
expected. -/
def Missed (v : PyVal) : Scalar → Prop
  | .bool b => v.eq engine.num (.bool b) ∧
      ∃ t, extractText engine.jsonText v = some t ∧ engine.bool.equal t b = some false
  | .int n => v.eq engine.num (.int n) ∧
      ∃ t, extractText engine.jsonText v = some t ∧ engine.int.equal t n = some false
  | .none | .str _ => False

/-- A value that is not the expected one for Python, with a text that is: `5` where `"5"` is
expected, `"5"` where `5` is. -/
def Confused (v : PyVal) : Scalar → Prop
  | .bool b => ¬ v.eq engine.num (.bool b) ∧
      ∃ t, extractText engine.jsonText v = some t ∧ engine.bool.equal t b = some true
  | .int n => ¬ v.eq engine.num (.int n) ∧
      ∃ t, extractText engine.jsonText v = some t ∧ engine.int.equal t n = some true
  | .str s => (∀ u, v ≠ .str u) ∧ extractText engine.jsonText v = some s
  | .none => False

/-- The condition of a filter is true of the value of its field. -/
def Accepted (v : PyVal) (expected : Scalar) : Prop :=
  v.eq engine.num expected.toPyVal ∧ ¬ Missed engine v expected ∧ ¬ Uncastable engine v expected ∨
    Confused engine v expected

/-- The condition of a filter is false of the value of its field. -/
def Rejected (v : PyVal) (expected : Scalar) : Prop :=
  ¬ v.eq engine.num expected.toPyVal ∧ ¬ Confused engine v expected ∧
      ¬ Uncastable engine v expected ∨ Missed engine v expected

section Compare

/-- A text compared by `cmp`, against a test that fails when there is none. -/
theorem compared_iff {text : Option PyStr} {cmp : PyStr → Option Bool} {test : Bool}
    (hnull : text = none → test = false) :
    (compared text cmp = some true ↔
        test ∧ ¬ (test ∧ ∃ t, text = some t ∧ cmp t = some false) ∧
            ¬ (∃ t, text = some t ∧ cmp t = none) ∨
          ¬ test ∧ ∃ t, text = some t ∧ cmp t = some true) ∧
    (compared text cmp = some false ↔
        ¬ test ∧ ¬ (¬ test ∧ ∃ t, text = some t ∧ cmp t = some true) ∧
            ¬ (∃ t, text = some t ∧ cmp t = none) ∨
          test ∧ ∃ t, text = some t ∧ cmp t = some false) := by
  cases text with
  | none => simp [compared, hnull rfl]
  | some t =>
    rcases hcmp : cmp t with - | (- | -)
    · simp [compared, hcmp]
    · cases test <;> simp [compared, hcmp]
    · cases test <;> simp [compared, hcmp]

variable {engine}

/-- A value whose text is a given string is that string, or is confused with it. -/
theorem text_eq_iff {v : PyVal} {s : PyStr} :
    extractText engine.jsonText v = some s ↔
      v.eq engine.num (.str s) ∨ Confused engine v (.str s) := by
  rw [eq_str_iff, Confused]
  cases v with
  | str t => simp [extractText]
  | _ => simp

theorem compared_text {text : Option PyStr} {s : PyStr} :
    compared text (fun t => some (decide (t = s))) = some (decide (text = some s)) := by
  cases text with
  | none => rfl
  | some t => simp [compared]

/-- **A condition against Python's comparison.** It is true where the two agree and the value is the
expected one, and where they are confused; and false accordingly. -/
theorem holds_iff (r : PyStr × String) (field : Field) :
    (holds engine r field = some true ↔
      Accepted engine (fieldOf (engine.loads r.2) field.1) field.2) ∧
    (holds engine r field = some false ↔
      Rejected engine (fieldOf (engine.loads r.2) field.1) field.2) := by
  obtain ⟨name, expected⟩ := field
  have hnull : ∀ e : Scalar, e ≠ .none →
      extractText engine.jsonText (fieldOf (engine.loads r.2) name) = none →
        (fieldOf (engine.loads r.2) name).eq engine.num e.toPyVal = false := by
    intro e he htext
    rw [extractText_eq_none_iff.mp htext]
    cases e with
    | none => exact absurd rfl he
    | _ => rfl
  cases expected with
  | none =>
    have hisNone : holds engine r (name, .none) =
        some (extractText engine.jsonText (fieldOf (engine.loads r.2) name)).isNone := rfl
    rw [hisNone, Option.some.injEq, Option.some.injEq, Option.isNone_iff_eq_none,
      ← Bool.not_eq_true, Option.isNone_iff_eq_none, extractText_eq_none_iff,
      ← eq_none_iff engine.num]
    simp [Accepted, Rejected, Missed, Confused, Uncastable, Scalar.toPyVal]
  | bool b => exact compared_iff (hnull (.bool b) (by simp))
  | int n => exact compared_iff (hnull (.int n) (by simp))
  | str s =>
    have hholds : holds engine r (name, .str s) =
        some (decide (extractText engine.jsonText (fieldOf (engine.loads r.2) name) = some s)) :=
      compared_text
    rw [hholds, Option.some.injEq, Option.some.injEq, decide_eq_true_iff, decide_eq_false_iff_not,
      text_eq_iff, not_or]
    simp [Accepted, Rejected, Missed, Uncastable, Scalar.toPyVal]

end Compare

/-! ### The values returned -/

section Filter

variable {engine} {table : Table PyStr String} {filters : Dict PyStr Scalar}

/-- `filter` is right about a value: one that matches all filters is missed by none and casts under
all, and of one that does not a condition is false before any raises. -/
def Right (engine : Engine N) (filters : Dict PyStr Scalar) (r : PyStr × String) : Prop :=
  (matchesAll engine.num filters (engine.loads r.2) → ∀ f ∈ filters.entries,
    ¬ Missed engine (fieldOf (engine.loads r.2) f.1) f.2 ∧
      ¬ Uncastable engine (fieldOf (engine.loads r.2) f.1) f.2) ∧
  (¬ matchesAll engine.num filters (engine.loads r.2) → ∃ before f after,
    engine.order.on r filters.entries = before ++ f :: after ∧
      (∀ b ∈ before, Accepted engine (fieldOf (engine.loads r.2) b.1) b.2) ∧
        Rejected engine (fieldOf (engine.loads r.2) f.1) f.2)

/-- Under all filters a matching value is accepted when none misses it and it casts. -/
theorem accepted_iff {v : PyVal} {expected : Scalar} (h : v.eq engine.num expected.toPyVal) :
    Accepted engine v expected ↔ ¬ Missed engine v expected ∧ ¬ Uncastable engine v expected := by
  have hconfused : ¬ Confused engine v expected := by
    cases expected with
    | none => exact id
    | bool b => exact fun hc => hc.1 h
    | int n => exact fun hc => hc.1 h
    | str s => exact fun hc => hc.1 s ((eq_str_iff engine.num).mp h)
  rw [Accepted, or_iff_left hconfused, and_iff_right h]

theorem right_iff {r : PyStr × String} : Right engine filters r ↔
    (matchesAll engine.num filters (engine.loads r.2) →
      ∀ f ∈ filters.entries, holds engine r f = some true) ∧
    (¬ matchesAll engine.num filters (engine.loads r.2) →
      Refuted (holds engine r) (engine.order.on r filters.entries)) := by
  simp only [Right, Refuted, (holds_iff r _).1, (holds_iff r _).2]
  refine and_congr (forall_congr' fun hall => forall₂_congr fun f hf => ?_) Iff.rfl
  exact (accepted_iff (List.all_eq_true.mp hall f hf)).symm

omit [DecidableEq N] in
theorem binds_iff {f : Field} :
    (sqlFilter engine).binds f ↔ (f.2 ≠ .none → engine.binds f.2) := by
  change (decide (f.2 = .none) || engine.binds f.2) = true ↔ _
  rw [Bool.or_eq_true, decide_eq_true_iff, or_iff_not_imp_left]

/-- **When `filter` is exact.** It returns exactly the values that match all filters when every
expected value can be bound and it is right about every stored value. -/
theorem filter_exact_iff (engine : Engine N) (table : Table PyStr String)
    (filters : Dict PyStr Scalar) (hnames : ∀ name ∈ filters.keys, isIdentifier name) :
    Exact engine.num filters (storedValues engine.loads table) (filter engine table filters) ↔
      (∀ f ∈ filters.entries, f.2 ≠ .none → engine.binds f.2) ∧
        ∀ r ∈ table.entries, Right engine filters r := by
  have hvalid : ∀ name ∈ filters.keys, (sqlFilter engine).validate name = .ok () := fun name hn =>
    validateFieldName_eq_ok.mpr (fieldNameMatches_of_isIdentifier (hnames name hn))
  rw [forall₂_congr fun r _ => right_iff, ← forall₂_congr fun f _ => binds_iff (f := f)]
  exact SqlFilter.exact_iff hvalid

/-- A value of the type that is expected, or none. When DuckDB casts one to the other, the text of a
number or a boolean has to compare as the number does. -/
def Plain (engine : Engine N) (v : PyVal) : Scalar → Prop
  | .none => True
  | .bool b => v = .none ∨
      ∃ c, v = .bool c ∧ engine.bool.equal (boolText c) b = some (decide (c = b))
  | .int n => v = .none ∨ ∃ m, v = .int m ∧ engine.int.equal (decimal m) n = some (decide (m = n))
  | .str _ => v = .none ∨ ∃ s, v = .str s

/-- Plain values are compared as Python compares them. -/
theorem holds_of_plain (hinj : Function.Injective engine.num.ofInt) {r : PyStr × String} {f : Field}
    (h : Plain engine (fieldOf (engine.loads r.2) f.1) f.2) :
    holds engine r f = some (fieldEq engine.num (engine.loads r.2) f) := by
  obtain ⟨name, expected⟩ := f
  rw [FieldFilters.fieldEq]
  cases expected with
  | none =>
    have hholds : holds engine r (name, .none) =
        some (extractText engine.jsonText (fieldOf (engine.loads r.2) name)).isNone := rfl
    rw [hholds, Option.some.injEq, Bool.eq_iff_iff, Option.isNone_iff_eq_none,
      extractText_eq_none_iff, Scalar.toPyVal, eq_none_iff]
  | bool b =>
    simp only [holds, filterExpr]
    rcases h with hnone | ⟨c, hc, hequal⟩
    · rw [hnone]
      rfl
    · rw [hc, Scalar.toPyVal, bool_eq_bool hinj]
      exact hequal
  | int n =>
    simp only [holds, filterExpr]
    rcases h with hnone | ⟨m, hm, hequal⟩
    · rw [hnone]
      rfl
    · rw [hm, Scalar.toPyVal, int_eq_int hinj]
      exact hequal
  | str s =>
    simp only [holds, filterExpr]
    rcases h with hnone | ⟨t, ht⟩
    · rw [hnone]
      rfl
    · rw [ht]
      rfl

theorem right_of_plain (hinj : Function.Injective engine.num.ofInt) {r : PyStr × String}
    (h : ∀ f ∈ filters.entries, Plain engine (fieldOf (engine.loads r.2) f.1) f.2) :
    Right engine filters r :=
  right_iff.mpr ((sqlFilter engine).right_of_holds_eq fun f hf => holds_of_plain hinj (h f hf))

/-- **Fields of one type.** `filter` is exact when every stored value has, under each name that is
asked for, a value of the type that is expected, or none. -/
theorem filter_exact_of_plain (hinj : Function.Injective engine.num.ofInt)
    (hnames : ∀ name ∈ filters.keys, isIdentifier name)
    (hbinds : ∀ f ∈ filters.entries, f.2 ≠ .none → engine.binds f.2)
    (hplain : ∀ r ∈ table.entries, ∀ f ∈ filters.entries,
      Plain engine (fieldOf (engine.loads r.2) f.1) f.2) :
    Exact engine.num filters (storedValues engine.loads table) (filter engine table filters) := by
  have hvalid : ∀ name ∈ filters.keys, (sqlFilter engine).validate name = .ok () := fun name hn =>
    validateFieldName_eq_ok.mpr (fieldNameMatches_of_isIdentifier (hnames name hn))
  exact (SqlFilter.exact_iff hvalid).mpr ⟨fun f hf => binds_iff.mpr (hbinds f hf),
    fun r hr => right_iff.mp (right_of_plain hinj (hplain r hr))⟩

end Filter

/-! ### A number and its text -/

/-- Python on integers, and DuckDB on the JSON texts below. -/
def numberEngine : Engine ℤ where
  num := ⟨id, fun _ => 0⟩
  loads text := .ofList [(ofString "n", .int (if text = "\x7b\"n\": 5\x7d" then 5 else 6))]
  jsonText _ := []
  int := .ofText fun t =>
    if t = decimal 5 then some 5 else if t = decimal 6 then some 6 else none
  bool := .ofText fun _ => none
  binds _ := true
  fetch := .stored String
  order := .written

/-- The store with the values `{"n": 5}` and `{"n": 6}`. -/
def numberTable : Table PyStr String :=
  .ofList [(ofString "1", "\x7b\"n\": 5\x7d"), (ofString "2", "\x7b\"n\": 6\x7d")]

/-- `filter(n=expected)`. -/
def expecting (expected : Scalar) : Dict PyStr Scalar := .ofList [(ofString "n", expected)]

/-- `filter(n=5)` returns the value with 5 and not the one with 6. -/
theorem filter_exact_number :
    Exact numberEngine.num (expecting (.int 5)) (storedValues numberEngine.loads numberTable)
        (filter numberEngine numberTable (expecting (.int 5))) ∧
      (storedValues numberEngine.loads numberTable).filter
          (matchesAll numberEngine.num (expecting (.int 5))) =
        [.ofList [(ofString "n", .int 5)]] := by
  refine ⟨(filter_exact_iff numberEngine numberTable (expecting (.int 5)) (by decide)).mpr
    ⟨fun _ _ _ => rfl, fun r hr => right_of_plain (fun _ _ h => h) fun f hf => ?_⟩, rfl⟩
  obtain rfl := List.mem_singleton.mp hf
  rcases List.mem_pair.mp hr with rfl | rfl
  · exact .inr ⟨5, rfl, by decide⟩
  · exact .inr ⟨6, rfl, by decide⟩

/-- **A number is found under its text.** `filter(n="5")` returns the value `{"n": 5}`, and Python
does not take `5` for `"5"`. -/
theorem filter_number_as_text : ¬ Exact numberEngine.num (expecting (.str (ofString "5")))
    (storedValues numberEngine.loads numberTable)
    (filter numberEngine numberTable (expecting (.str (ofString "5")))) := by
  rintro ⟨found, hfound, hperm⟩
  have hone : filter numberEngine numberTable (expecting (.str (ofString "5"))) =
      .ok [.ofList [(ofString "n", .int 5)]] := rfl
  obtain rfl := Except.ok.inj (hone.symm.trans hfound)
  exact absurd hperm.length_eq (by decide)

end DuckDBStore

end Persista
