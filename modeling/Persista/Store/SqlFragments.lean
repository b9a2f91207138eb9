import Persista.Store.FieldName

/-!
# Names and types inside SQL

The validators of `store/validation.py` that guard what is written into a query, and the queries
that the SQLite, DuckDB and Postgres stores build from names and types: `filter` and the
`CREATE TABLE` of a store. A query is a list of pieces, and a piece is either part of the text of
the source or comes from a name or a type. Values are bound parameters and never occur.

`re.match` with `$` at the end of the pattern also accepts a word that one newline follows. That is
the only thing the validators let through beyond their grammar, and a query is `Clean` exactly when
it writes no such word.

## Main results

* `fieldNameMatches_iff`, `columnTypeMatches_iff` — the words that the patterns accept
* `clean_iff_of_words` — a query that writes accepted words
* `identifier_validation_iff` — the validators accept their grammar, and the queries are clean,
  exactly up to the newline
-/

namespace Persista

open Json

/-! ### Validators -/

/-- Number literals stand for code points. -/
local instance codePoints : @NeZero ℕ Zero.ofOfNat0 0x110000 := ⟨Nat.succ_ne_zero 0x10ffff⟩

/-- `\n`. -/
def newline : CodePoint := 10

/-- `[A-Za-z0-9_ ()]`. -/
def isTypeChar (c : CodePoint) : Bool :=
  isWord c || decide (c.val = 32) || decide (c.val = 40) || decide (c.val = 41)

/-- The string is `[A-Za-z0-9_ ()]+`. -/
def isColumnType (dtype : PyStr) : Bool := !dtype.isEmpty && dtype.all isTypeChar

/-- `_COLUMN_TYPE_PATTERN.match(dtype)`: `$` also matches before a newline that ends the string. -/
def columnTypeMatches (dtype : PyStr) : Bool :=
  isColumnType dtype || (dtype.getLast?.any (fun c => decide (c.val = 10)) &&
    isColumnType dtype.dropLast)

/-- The `ValueError`s of the validators. -/
inductive ValidationError
  /-- `Invalid filter field name: {name!r}. Field names must match …`. -/
  | fieldName (name : PyStr)
  /-- `Invalid column type: {dtype!r}. Column types must match …`. -/
  | columnType (dtype : PyStr)
  /-- `Invalid table name: {name!r}. Table names must match …`. -/
  | tableName (name : PyStr)
  /-- `value_schema must not contain the reserved key column name '_KEY_'`. -/
  | reservedKey
  deriving DecidableEq, Repr

/-- `validate_field_name`. -/
def validateFieldName (name : PyStr) : Except ValidationError Unit :=
  if fieldNameMatches name then .ok () else .error (.fieldName name)

/-- `validate_column_type`. -/
def validateColumnType (dtype : PyStr) : Except ValidationError Unit :=
  if columnTypeMatches dtype then .ok () else .error (.columnType dtype)

/-- `validate_table_name`. -/
def validateTableName (name : PyStr) : Except ValidationError Unit :=
  if fieldNameMatches name then .ok () else .error (.tableName name)

/-- `validate_value_schema`. -/
def validateValueSchema : List (PyStr × PyStr) → Except ValidationError Unit
  | [] => .ok ()
  | (name, dtype) :: columns =>
    match validateFieldName name with
    | .error e => .error e
    | .ok () =>
      match validateColumnType dtype with
      | .error e => .error e
      | .ok () => validateValueSchema columns

/-- `_KEY_COLUMN`. -/
def keyColumn : PyStr := ofString "_KEY_"

/-- The `value_schema` of a typed store, as its constructor lets it in. -/
structure ValueSchema where
  columns : Dict PyStr PyStr
  reserved : keyColumn ∉ columns.keys
  valid : validateValueSchema columns.entries = .ok ()

/-- The `table` of a Postgres store, as its constructor lets it in. -/
structure TableName where
  name : PyStr
  valid : validateTableName name = .ok ()

/-! ### Queries -/

/-- A piece of a query: text of the source, or characters of a name or a type. -/
inductive Piece
  | text (s : PyStr)
  | name (s : PyStr)
  deriving DecidableEq, Repr

/-- Text of the source. -/
def sqlText (s : String) : Piece := .text (ofString s)

/-- The characters that come from names and types. -/
def inserted : List Piece → PyStr
  | [] => []
  | .text _ :: sql => inserted sql
  | .name s :: sql => s ++ inserted sql

/-- No character but those of column types comes from a name or a type. -/
def Clean (sql : List Piece) : Prop := ∀ c ∈ inserted sql, isTypeChar c

/-- `c` written twice wherever it occurs. -/
def doubled (c : CodePoint) (s : PyStr) : PyStr := s.flatMap fun d => if d = c then [d, d] else [d]

/-- `"{s}"`. -/
def quotedName (s : PyStr) : List Piece := [sqlText "\"", .name s, sqlText "\""]

/-- `sql.Identifier(s)`. -/
def identifier (s : PyStr) : List Piece := quotedName (doubled 34 s)

/-- `sql.Literal(s)`. -/
def literal (s : PyStr) : List Piece :=
  if (92 : CodePoint) ∈ s then [sqlText " E'", .name (doubled 92 (doubled 39 s)), sqlText "'"]
  else [sqlText "'", .name (doubled 39 s), sqlText "'"]

/-- The SQL stores, with what their constructors keep for their queries. -/
inductive SqlStore
  | sqlite
  | typedSqlite (schema : ValueSchema)
  | duckDb
  | typedDuckDb (schema : ValueSchema)
  | postgres (table : TableName)
  | typedPostgres (table : TableName) (schema : ValueSchema)

namespace SqlStore

/-- SQL that is built after `validate_field_name(key)`. -/
def validated (key : PyStr) (sql : List Piece) : Except ValidationError (List Piece) :=
  match validateFieldName key with
  | .error e => .error e
  | .ok () => .ok sql

/-- `_filter_expr(key)` of the SQLite and DuckDB stores, `_build_filter_condition(key)` of the
Postgres stores. -/
def filterExpr (store : SqlStore) (key : PyStr) : Except ValidationError (List Piece) :=
  match store with
  | .sqlite => validated key [sqlText "json_extract(value, '$.", .name key, sqlText "')"]
  | .typedSqlite schema =>
    if key ∈ schema.columns.keys then .ok [.name key]
    else validated key [sqlText "json_extract(extra, '$.", .name key, sqlText "')"]
  | .duckDb => validated key [sqlText "json_extract_string(value, '$.", .name key, sqlText "')"]
  | .typedDuckDb schema =>
    if key ∈ schema.columns.keys then .ok (quotedName key)
    else validated key [sqlText "json_extract_string(extra, '$.", .name key, sqlText "')"]
  | .postgres _ => validated key (sqlText "value->>" :: literal key ++ [sqlText " = %s::text"])
  | .typedPostgres _ schema =>
    if key ∈ schema.columns.keys then .ok (identifier key ++ [sqlText " = %s"])
    else validated key (sqlText "extra->>" :: literal key ++ [sqlText " = %s::text"])

/-- Whether a filter on `None` is written as `IS NULL`. -/
def hasIsNull : SqlStore → Bool
  | .postgres _ | .typedPostgres _ _ => false
  | _ => true

/-- The condition of one filter: its field and whether it expects `None`. -/
def condition (store : SqlStore) (filter : PyStr × Bool) : Except ValidationError (List Piece) :=
  match store.filterExpr filter.1 with
  | .error e => .error e
  | .ok expr =>
    if store.hasIsNull then
      .ok (expr ++ [sqlText (if filter.2 then " IS NULL" else " = ?")])
    else .ok expr

/-- `" AND ".join(conditions)`. -/
def conditions (store : SqlStore) : List (PyStr × Bool) → Except ValidationError (List Piece)
  | [] => .ok []
  | filter :: filters =>
    match store.condition filter with
    | .error e => .error e
    | .ok cond =>
      match store.conditions filters with
      | .error e => .error e
      | .ok rest => .ok (if filters.isEmpty then cond else cond ++ sqlText " AND " :: rest)

/-- What a query selects from. -/
def select : SqlStore → List Piece
  | .sqlite | .typedSqlite _ => [sqlText "SELECT * FROM store"]
  | .duckDb => [sqlText "SELECT \"key\", \"value\" FROM store"]
  | .typedDuckDb schema =>
    sqlText "SELECT \"_KEY_\"" ::
      schema.columns.keys.flatMap (fun name => sqlText ", " :: quotedName name) ++
        [sqlText ", \"extra\" FROM store"]
  | .postgres table | .typedPostgres table _ => sqlText "SELECT * FROM " :: identifier table.name

/-- The query of `filter_items(**filters)`. -/
def filterQuery (store : SqlStore) (filters : List (PyStr × Bool)) :
    Except ValidationError (List Piece) :=
  if filters.isEmpty then .ok store.select
  else
    match store.conditions filters with
    | .error e => .error e
    | .ok sql => .ok (store.select ++ sqlText " WHERE " :: sql)

/-- The columns of a typed store. -/
def typedColumns (quote : PyStr → List Piece) (columns : List (PyStr × PyStr)) : List Piece :=
  columns.flatMap fun p => sqlText ", " :: quote p.1 ++ [sqlText " ", .name p.2]

/-- `_create_table_sql()`, `_build_create_table()`. -/
def createTable : SqlStore → List Piece
  | .sqlite =>
    [sqlText "CREATE TABLE IF NOT EXISTS store ( key TEXT PRIMARY KEY, value JSON NOT NULL )"]
  | .typedSqlite schema =>
    sqlText "CREATE TABLE IF NOT EXISTS store (_KEY_ TEXT PRIMARY KEY" ::
      typedColumns (fun name => [.name name]) schema.columns.entries ++ [sqlText ", extra JSON)"]
  | .duckDb =>
    [sqlText "CREATE TABLE IF NOT EXISTS store ( key VARCHAR PRIMARY KEY, value JSON NOT NULL )"]
  | .typedDuckDb schema =>
    sqlText "CREATE TABLE IF NOT EXISTS store (_KEY_ VARCHAR PRIMARY KEY" ::
      typedColumns quotedName schema.columns.entries ++ [sqlText ", extra JSON)"]
  | .postgres table =>
    sqlText "CREATE TABLE IF NOT EXISTS " :: identifier table.name ++
      [sqlText " ( key TEXT PRIMARY KEY, value JSONB NOT NULL )"]
  | .typedPostgres table schema =>
    sqlText "CREATE TABLE IF NOT EXISTS " :: identifier table.name ++
      sqlText " (\"_KEY_\" TEXT PRIMARY KEY" ::
        typedColumns identifier schema.columns.entries ++ [sqlText ", extra JSONB)"]

/-- The names that `select` writes into the query. -/
def selectNames : SqlStore → List PyStr
  | .sqlite | .typedSqlite _ | .duckDb => []
  | .typedDuckDb schema => schema.columns.keys
  | .postgres table | .typedPostgres table _ => [table.name]

/-- The names that `filterQuery` writes into the query. -/
def filterNames (store : SqlStore) (filters : List (PyStr × Bool)) : List PyStr :=
  store.selectNames ++ filters.map Prod.fst

/-- The names and types that `createTable` writes into the query. -/
def createNames : SqlStore → List PyStr
  | .sqlite | .duckDb => []
  | .typedSqlite schema | .typedDuckDb schema => schema.columns.keys ++ schema.columns.values
  | .postgres table => [table.name]
  | .typedPostgres table schema => table.name :: (schema.columns.keys ++ schema.columns.values)

end SqlStore

/-! ### Words that the patterns accept -/

/-- The words that a validator accepts. -/
def Accepted (s : PyStr) : Prop := fieldNameMatches s ∨ columnTypeMatches s

/-- A newline ends the string. -/
def EndsInNewline (s : PyStr) : Prop := s.getLast? = some newline

theorem endsInNewline_iff {s : PyStr} : EndsInNewline s ↔ ∃ word, s = word ++ [newline] :=
  List.getLast?_eq_some_iff

theorem newline_iff {c : CodePoint} : c.val = 10 ↔ c = newline := by
  rw [Fin.ext_iff]
  rfl

/-- The pattern of a class of words accepts them, and each of them before a newline. -/
theorem matches_iff {accepts : PyStr → Bool} {s : PyStr} :
    (accepts s || (s.getLast?.any (fun c => decide (c.val = 10)) && accepts s.dropLast)) ↔
      accepts s ∨ ∃ word, accepts word ∧ s = word ++ [newline] := by
  rw [Bool.or_eq_true, Bool.and_eq_true]
  refine or_congr_right ?_
  constructor
  · rintro ⟨hlast, hword⟩
    obtain ⟨c, hc, hcode⟩ := (Option.any_eq_true _ _).mp hlast
    obtain rfl : c = newline := newline_iff.mp (of_decide_eq_true hcode)
    obtain ⟨word, rfl⟩ := List.getLast?_eq_some_iff.mp hc
    rw [List.dropLast_concat] at hword
    exact ⟨word, hword, rfl⟩
  · rintro ⟨word, hword, rfl⟩
    rw [List.getLast?_concat, List.dropLast_concat]
    exact ⟨rfl, hword⟩

theorem fieldNameMatches_iff {s : PyStr} :
    fieldNameMatches s ↔ isIdentifier s ∨ ∃ word, isIdentifier word ∧ s = word ++ [newline] :=
  matches_iff

theorem columnTypeMatches_iff {s : PyStr} :
    columnTypeMatches s ↔ isColumnType s ∨ ∃ word, isColumnType word ∧ s = word ++ [newline] :=
  matches_iff

theorem isTypeChar_of_isWord {c : CodePoint} (h : isWord c) : isTypeChar c := by
  rw [isTypeChar, h]
  rfl

theorem isTypeChar_of_isIdentifier {s : PyStr} (h : isIdentifier s) : ∀ c ∈ s, isTypeChar c := by
  rcases s with _ | ⟨d, s⟩
  · cases h
  · rw [isIdentifier, Bool.and_eq_true] at h
    obtain ⟨hfirst, hrest⟩ := h
    intro c hc
    rcases List.mem_cons.mp hc with rfl | hc
    · refine isTypeChar_of_isWord ?_
      rw [isWord, Bool.or_right_comm, hfirst, Bool.true_or]
    · exact isTypeChar_of_isWord (List.all_eq_true.mp hrest c hc)

theorem isTypeChar_of_isColumnType {s : PyStr} (h : isColumnType s) : ∀ c ∈ s, isTypeChar c := by
  rw [isColumnType, Bool.and_eq_true] at h
  exact List.all_eq_true.mp h.2

theorem not_isTypeChar_newline : ¬ isTypeChar newline := by decide

/-- The characters of a word before a newline. -/
theorem isTypeChar_of_accepted {s : PyStr} (h : Accepted s) :
    ∀ c ∈ s, isTypeChar c ∨ (c = newline ∧ EndsInNewline s) := by
  intro c hc
  have hword : ∀ word, (∀ c ∈ word, isTypeChar c) → s = word ++ [newline] →
      isTypeChar c ∨ (c = newline ∧ EndsInNewline s) := by
    rintro word hword rfl
    rcases List.mem_append.mp hc with hc | hc
    · exact .inl (hword c hc)
    · exact .inr ⟨List.mem_singleton.mp hc, endsInNewline_iff.mpr ⟨word, rfl⟩⟩
  rcases h with h | h
  · rcases fieldNameMatches_iff.mp h with h | ⟨word, h, hs⟩
    · exact .inl (isTypeChar_of_isIdentifier h c hc)
    · exact hword word (isTypeChar_of_isIdentifier h) hs
  · rcases columnTypeMatches_iff.mp h with h | ⟨word, h, hs⟩
    · exact .inl (isTypeChar_of_isColumnType h c hc)
    · exact hword word (isTypeChar_of_isColumnType h) hs

/-! ### What comes from names -/

@[simp] theorem inserted_nil : inserted [] = [] := rfl

@[simp] theorem inserted_sqlText (s : String) (sql : List Piece) :
    inserted (sqlText s :: sql) = inserted sql := rfl

@[simp] theorem inserted_name (s : PyStr) (sql : List Piece) :
    inserted (.name s :: sql) = s ++ inserted sql := rfl

@[simp] theorem inserted_append (sql sql' : List Piece) :
    inserted (sql ++ sql') = inserted sql ++ inserted sql' := by
  induction sql with
  | nil => rfl
  | cons piece sql ih =>
    cases piece with
    | text s => exact ih
    | name s => rw [List.cons_append, inserted_name, inserted_name, ih, List.append_assoc]

@[simp] theorem mem_doubled {c d : CodePoint} {s : PyStr} : d ∈ doubled c s ↔ d ∈ s := by
  rw [doubled, List.mem_flatMap]
  constructor
  · rintro ⟨e, he, hd⟩
    split at hd
    · simp only [List.mem_cons, List.not_mem_nil, or_false, or_self] at hd
      exact hd ▸ he
    · exact List.mem_singleton.mp hd ▸ he
  · intro hd
    refine ⟨d, hd, ?_⟩
    split
    · exact List.mem_cons_self
    · exact List.mem_singleton_self d

@[simp] theorem mem_inserted_quotedName {c : CodePoint} {s : PyStr} :
    c ∈ inserted (quotedName s) ↔ c ∈ s := by
  simp [quotedName]

@[simp] theorem mem_inserted_identifier {c : CodePoint} {s : PyStr} :
    c ∈ inserted (identifier s) ↔ c ∈ s := by
  simp [identifier]

@[simp] theorem mem_inserted_literal {c : CodePoint} {s : PyStr} :
    c ∈ inserted (literal s) ↔ c ∈ s := by
  rw [literal]
  split <;> simp

/-- A query whose characters are those of accepted words is clean exactly when no newline ends one
of them. -/
theorem clean_iff_of_words {sql : List Piece} {words : List PyStr}
    (hsql : ∀ c, c ∈ inserted sql ↔ ∃ s ∈ words, c ∈ s) (hwords : ∀ s ∈ words, Accepted s) :
    Clean sql ↔ ∀ s ∈ words, ¬ EndsInNewline s := by
  constructor
  · intro hclean s hs hend
    obtain ⟨word, rfl⟩ := endsInNewline_iff.mp hend
    refine not_isTypeChar_newline (hclean newline ((hsql newline).mpr ⟨_, hs, ?_⟩))
    exact List.mem_append_right _ (List.mem_singleton_self _)
  · intro hend c hc
    obtain ⟨s, hs, hc⟩ := (hsql c).mp hc
    exact (isTypeChar_of_accepted (hwords s hs) c hc).resolve_right fun h => hend s hs h.2

namespace SqlStore

theorem accepted_of_validated {key : PyStr} {sql expr : List Piece}
    (h : validated key sql = .ok expr) : Accepted key ∧ sql = expr := by
  rw [validated, validateFieldName] at h
  split at h
  · cases h
  · next hok =>
    refine ⟨.inl ?_, Except.ok.inj h⟩
    by_contra hno
    rw [if_neg hno] at hok
    cases hok

theorem matches_of_validateValueSchema {columns : List (PyStr × PyStr)}
    (h : validateValueSchema columns = .ok ()) :
    ∀ p ∈ columns, fieldNameMatches p.1 ∧ columnTypeMatches p.2 := by
  induction columns with
  | nil => intro p hp; cases hp
  | cons column columns ih =>
    obtain ⟨name, dtype⟩ := column
    simp only [validateValueSchema, validateFieldName, validateColumnType] at h
    by_cases hname : fieldNameMatches name
    · by_cases hdtype : columnTypeMatches dtype
      · simp only [hname, hdtype, if_true] at h
        intro p hp
        rcases List.mem_cons.mp hp with rfl | hp
        · exact ⟨hname, hdtype⟩
        · exact ih h p hp
      · simp [hname, hdtype] at h
    · simp [hname] at h

theorem accepted_of_validateValueSchema {columns : List (PyStr × PyStr)}
    (h : validateValueSchema columns = .ok ()) :
    ∀ p ∈ columns, Accepted p.1 ∧ Accepted p.2 := by
  intro p hp
  obtain ⟨hname, hdtype⟩ := matches_of_validateValueSchema h p hp
  exact ⟨.inl hname, .inr hdtype⟩

theorem accepted_of_mem_keys (schema : ValueSchema) {name : PyStr}
    (h : name ∈ schema.columns.keys) : Accepted name := by
  obtain ⟨p, hp, rfl⟩ := List.mem_map.mp h
  exact (accepted_of_validateValueSchema schema.valid p hp).1

theorem accepted_of_mem_values (schema : ValueSchema) {dtype : PyStr}
    (h : dtype ∈ schema.columns.values) : Accepted dtype := by
  obtain ⟨p, hp, rfl⟩ := List.mem_map.mp h
  exact (accepted_of_validateValueSchema schema.valid p hp).2

theorem accepted_tableName (table : TableName) : Accepted table.name := by
  have h := table.valid
  rw [validateTableName] at h
  refine .inl ?_
  by_contra hno
  rw [if_neg hno] at h
  cases h

/-- Reading one field writes its name, and only an accepted one. -/
theorem mem_inserted_filterExpr {store : SqlStore} {key : PyStr} {sql : List Piece}
    (h : store.filterExpr key = .ok sql) :
    Accepted key ∧ ∀ c, c ∈ inserted sql ↔ c ∈ key := by
  cases store with
  | sqlite | duckDb | postgres =>
    rw [filterExpr] at h
    obtain ⟨hkey, rfl⟩ := accepted_of_validated h
    exact ⟨hkey, fun c => by simp⟩
  | typedSqlite schema | typedDuckDb schema | typedPostgres table schema =>
    rw [filterExpr] at h
    split at h
    · next hmem =>
      obtain rfl := Except.ok.inj h
      exact ⟨accepted_of_mem_keys schema hmem, fun c => by simp⟩
    · obtain ⟨hkey, rfl⟩ := accepted_of_validated h
      exact ⟨hkey, fun c => by simp⟩

theorem mem_inserted_condition {store : SqlStore} {filter : PyStr × Bool} {sql : List Piece}
    (h : store.condition filter = .ok sql) :
    Accepted filter.1 ∧ ∀ c, c ∈ inserted sql ↔ c ∈ filter.1 := by
  rw [condition] at h
  split at h
  · cases h
  · next expr hexpr =>
    obtain ⟨hkey, hmem⟩ := mem_inserted_filterExpr hexpr
    refine ⟨hkey, fun c => ?_⟩
    split at h
    · obtain rfl := Except.ok.inj h
      rw [inserted_append, inserted_sqlText, inserted_nil, List.append_nil, hmem]
    · obtain rfl := Except.ok.inj h
      exact hmem c

/-- The filters write their fields. -/
theorem mem_inserted_conditions {store : SqlStore} {filters : List (PyStr × Bool)}
    {sql : List Piece} (h : store.conditions filters = .ok sql) :
    (∀ s ∈ filters.map Prod.fst, Accepted s) ∧
      ∀ c, c ∈ inserted sql ↔ ∃ s ∈ filters.map Prod.fst, c ∈ s := by
  induction filters generalizing sql with
  | nil =>
    obtain rfl := Except.ok.inj h
    exact ⟨fun s hs => absurd hs List.not_mem_nil, fun c => by simp⟩
  | cons filter filters ih =>
    rw [conditions] at h
    split at h
    · cases h
    · next cond hcond =>
      split at h
      · cases h
      · next rest hrest =>
        obtain ⟨haccept, hmem⟩ := mem_inserted_condition hcond
        obtain ⟨haccepts, hmems⟩ := ih hrest
        obtain rfl := Except.ok.inj h
        refine ⟨?_, fun c => ?_⟩
        · intro s hs
          rcases List.mem_cons.mp hs with rfl | hs
          · exact haccept
          · exact haccepts s hs
        · split
          · next hempty =>
            obtain rfl := List.isEmpty_iff.mp hempty
            simp [hmem]
          · rw [inserted_append, inserted_sqlText, List.mem_append, hmem, hmems]
            simp

theorem mem_inserted_select (store : SqlStore) (c : CodePoint) :
    c ∈ inserted store.select ↔ ∃ s ∈ store.selectNames, c ∈ s := by
  have hcolumns : ∀ names : List PyStr,
      c ∈ inserted (names.flatMap fun name => sqlText ", " :: quotedName name) ↔
        ∃ s ∈ names, c ∈ s := by
    intro names
    induction names with
    | nil => simp
    | cons name names ih => simp [ih]
  cases store with
  | sqlite | typedSqlite | duckDb | postgres | typedPostgres => simp [select, selectNames]
  | typedDuckDb schema => simp [select, selectNames, hcolumns]

/-- A filter query writes the names of its fields, its columns and its table. -/
theorem mem_inserted_filterQuery {store : SqlStore} {filters : List (PyStr × Bool)}
    {sql : List Piece} (h : store.filterQuery filters = .ok sql) :
    (∀ s ∈ store.filterNames filters, Accepted s) ∧
      ∀ c, c ∈ inserted sql ↔ ∃ s ∈ store.filterNames filters, c ∈ s := by
  have hstore : ∀ s ∈ store.selectNames, Accepted s := by
    cases store with
    | sqlite | typedSqlite | duckDb => simp [selectNames]
    | typedDuckDb schema => exact fun s hs => accepted_of_mem_keys schema hs
    | postgres table | typedPostgres table => simp [selectNames, accepted_tableName]
  rw [filterQuery] at h
  split at h
  · next hempty =>
    obtain rfl := List.isEmpty_iff.mp hempty
    obtain rfl := Except.ok.inj h
    rw [filterNames, List.map_nil, List.append_nil]
    exact ⟨hstore, mem_inserted_select store⟩
  · split at h
    · cases h
    · next cond hcond =>
      obtain ⟨haccept, hmem⟩ := mem_inserted_conditions hcond
      obtain rfl := Except.ok.inj h
      rw [filterNames]
      refine ⟨fun s hs => (List.mem_append.mp hs).elim (hstore s) (haccept s), fun c => ?_⟩
      rw [inserted_append, inserted_sqlText, List.mem_append, hmem, mem_inserted_select]
      simp only [List.mem_append, or_and_right, exists_or]

theorem mem_inserted_typedColumns {quote : PyStr → List Piece}
    (hquote : ∀ c s, c ∈ inserted (quote s) ↔ c ∈ s) (columns : List (PyStr × PyStr))
    (c : CodePoint) : c ∈ inserted (typedColumns quote columns) ↔
      ∃ s ∈ columns.map Prod.fst ++ columns.map Prod.snd, c ∈ s := by
  induction columns with
  | nil => simp [typedColumns]
  | cons column columns ih =>
    rw [typedColumns, List.flatMap_cons, inserted_append, List.mem_append, ← typedColumns, ih]
    have hcolumn : c ∈ inserted (sqlText ", " :: quote column.1 ++ [sqlText " ", .name column.2]) ↔
        c ∈ column.1 ∨ c ∈ column.2 := by simp [hquote]
    rw [hcolumn, List.map_cons, List.map_cons]
    simp only [List.mem_append, List.mem_cons, or_and_right, exists_or, exists_eq_left]
    exact or_or_or_comm

/-- A `CREATE TABLE` writes the table, the columns and their types. -/
theorem mem_inserted_createTable (store : SqlStore) :
    (∀ s ∈ store.createNames, Accepted s) ∧
      ∀ c, c ∈ inserted store.createTable ↔ ∃ s ∈ store.createNames, c ∈ s := by
  have hschema : ∀ (schema : ValueSchema), ∀ s ∈ schema.columns.keys ++ schema.columns.values,
      Accepted s := fun schema s hs =>
    (List.mem_append.mp hs).elim (accepted_of_mem_keys schema) (accepted_of_mem_values schema)
  cases store with
  | sqlite | duckDb => simp [createNames, createTable]
  | postgres table => simp [createNames, createTable, accepted_tableName]
  | typedSqlite schema =>
    refine ⟨hschema schema, fun c => ?_⟩
    simp only [createTable, inserted_append, inserted_sqlText, inserted_nil, List.append_nil]
    exact mem_inserted_typedColumns (by simp) _ c
  | typedDuckDb schema =>
    refine ⟨hschema schema, fun c => ?_⟩
    simp only [createTable, inserted_append, inserted_sqlText, inserted_nil, List.append_nil]
    exact mem_inserted_typedColumns (by simp) _ c
  | typedPostgres table schema =>
    refine ⟨?_, fun c => ?_⟩
    · intro s hs
      rcases List.mem_cons.mp hs with rfl | hs
      · exact accepted_tableName table
      · exact hschema schema s hs
    · simp only [createTable, createNames, List.cons_append, inserted_append, inserted_sqlText,
        inserted_nil, List.append_nil, List.mem_append, mem_inserted_identifier, List.mem_cons,
        exists_eq_or_imp]
      have hcolumns := @mem_inserted_typedColumns identifier (by simp) schema.columns.entries c
      rw [hcolumns]
      simp only [List.mem_append]
      rfl

end SqlStore

/-! ### The validators and the queries -/

theorem validateFieldName_eq_ok {s : PyStr} :
    validateFieldName s = .ok () ↔ fieldNameMatches s := by
  rw [validateFieldName]
  split <;> simp_all

theorem validateTableName_eq_ok {s : PyStr} :
    validateTableName s = .ok () ↔ fieldNameMatches s := by
  rw [validateTableName]
  split <;> simp_all

theorem validateColumnType_eq_ok {s : PyStr} :
    validateColumnType s = .ok () ↔ columnTypeMatches s := by
  rw [validateColumnType]
  split <;> simp_all

/-- A class of words without newlines, and its words before a newline. -/
theorem accepts_exactly_iff {accepts matches' : PyStr → Bool} {s : PyStr}
    (hchars : ∀ c ∈ s, accepts s → isTypeChar c)
    (hmatches : matches' s ↔ accepts s ∨ ∃ word, accepts word ∧ s = word ++ [newline]) :
    (matches' s ↔ accepts s) ↔ ¬ ∃ word, accepts word ∧ s = word ++ [newline] := by
  rw [hmatches]
  constructor
  · rintro h ⟨word, hword, rfl⟩
    have haccept := h.mp (.inr ⟨word, hword, rfl⟩)
    exact not_isTypeChar_newline
      (hchars newline (List.mem_append_right _ (List.mem_singleton_self _)) haccept)
  · intro h
    exact ⟨fun hs => hs.resolve_right h, .inl⟩

/-- **The validators accept their grammar, and the queries hold no other character, exactly up to a
newline at the end of a word.** -/
theorem identifier_validation_iff (s : PyStr) (store : SqlStore) (filters : List (PyStr × Bool)) :
    ((validateFieldName s = .ok () ↔ isIdentifier s) ↔
      ¬ ∃ word, isIdentifier word ∧ s = word ++ [newline]) ∧
    ((validateTableName s = .ok () ↔ isIdentifier s) ↔
      ¬ ∃ word, isIdentifier word ∧ s = word ++ [newline]) ∧
    ((validateColumnType s = .ok () ↔ isColumnType s) ↔
      ¬ ∃ word, isColumnType word ∧ s = word ++ [newline]) ∧
    (∀ sql, store.filterQuery filters = .ok sql →
      (Clean sql ↔ ∀ name ∈ store.filterNames filters, ¬ EndsInNewline name)) ∧
    (Clean store.createTable ↔ ∀ name ∈ store.createNames, ¬ EndsInNewline name) := by
  rw [validateFieldName_eq_ok, validateTableName_eq_ok, validateColumnType_eq_ok]
  refine ⟨?_, ?_, ?_, ?_, ?_⟩
  · exact accepts_exactly_iff (fun c hc h => isTypeChar_of_isIdentifier h c hc)
      fieldNameMatches_iff
  · exact accepts_exactly_iff (fun c hc h => isTypeChar_of_isIdentifier h c hc)
      fieldNameMatches_iff
  · exact accepts_exactly_iff (fun c hc h => isTypeChar_of_isColumnType h c hc)
      columnTypeMatches_iff
  · intro sql hsql
    obtain ⟨haccept, hmem⟩ := SqlStore.mem_inserted_filterQuery hsql
    exact clean_iff_of_words hmem haccept
  · obtain ⟨haccept, hmem⟩ := store.mem_inserted_createTable
    exact clean_iff_of_words hmem haccept

/-- `author\n` passes and is written into the query. -/
theorem identifier_validation_newline :
    ¬ ((∀ s, (validateFieldName s = .ok () ↔ isIdentifier s) ∧
        (validateTableName s = .ok () ↔ isIdentifier s) ∧
        (validateColumnType s = .ok () ↔ isColumnType s)) ∧
      ∀ (store : SqlStore) (filters : List (PyStr × Bool)), Clean store.createTable ∧
        ∀ sql, store.filterQuery filters = .ok sql → Clean sql) := by
  intro h
  have hname := (h.1 (ofString "author\n")).1.mp (by decide)
  exact absurd hname (by decide)

end Persista
