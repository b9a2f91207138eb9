import Persista.Store.SqlFragments
import Persista.Store.Typed

/-!
# The tables of the typed stores

`TypedSQLiteStore` and `TypedDuckDBStore` write the fields of their `value_schema` into a
`CREATE TABLE` and an `INSERT`, between the key column and the column `extra`. Both statements are
read here the way SQL reads them: the items in parentheses are cut at the commas, and an item is a
name, quoted or not, and what follows it.

The constructors refuse the key column by its exact name only, and types by their characters. So
`extra` is accepted for a field, two fields that SQL does not tell apart are, and a type of
parentheses.

## Main results

* `TypedSchema.declared_typedColumns` — the columns that a `CREATE TABLE` declares
* `TypedSchema.listed_buildInsert` — the columns that an `INSERT` lists
* `TypedSchema.wellFormed_iff` — when the table of an accepted schema is well formed
-/

namespace Persista

open Json

namespace TypedSchema

/-- Number literals stand for code points. -/
local instance codePoints : @NeZero ℕ Zero.ofOfNat0 0x110000 := ⟨Nat.succ_ne_zero 0x10ffff⟩

/-! ### `_build_insert` -/

/-- `sep.join(items)`. -/
def joined (sep : String) : List (List Piece) → List Piece
  | [] => []
  | item :: items => item ++ items.flatMap (sqlText sep :: ·)

/-- `[_KEY_COLUMN, *self._schema.keys(), "extra"]`. -/
def colNames (schema : ValueSchema) : List Piece :=
  .text keyColumn :: schema.columns.keys.map .name ++ [sqlText "extra"]

/-- `_build_insert()`, with the way it writes a name. -/
def buildInsert (quote : Piece → List Piece) (schema : ValueSchema) : List Piece :=
  let colNames := colNames schema
  sqlText "INSERT OR REPLACE INTO store (" :: joined ", " (colNames.map quote) ++
    sqlText ") VALUES (" :: joined ", " (colNames.map fun _ => [sqlText "?"]) ++ [sqlText ")"]

/-- `TypedSQLiteStore._build_insert()`. -/
def typedSqliteInsert (schema : ValueSchema) : List Piece := buildInsert (fun name => [name]) schema

/-- `TypedDuckDBStore._build_insert()`. -/
def typedDuckDbInsert (schema : ValueSchema) : List Piece :=
  buildInsert (fun name => [sqlText "\"", name, sqlText "\""]) schema

/-! ### Reading a statement -/

/-- The text of a query. -/
def render (sql : List Piece) : PyStr :=
  sql.flatMap fun
    | .text s => s
    | .name s => s

/-- A space or a newline. -/
def isSqlSpace (c : CodePoint) : Bool := decide (c.val = 32) || decide (c.val = 10)

/-- An item: a name, in quotes or up to the end of the word, and the rest. -/
def readItem (item : PyStr) : PyStr × PyStr :=
  match item.dropWhile isSqlSpace with
  | [] => ([], [])
  | c :: rest =>
    if c = 34 then (rest.takeWhile (· != 34), (rest.dropWhile (· != 34)).tail)
    else ((c :: rest).takeWhile isWord, (c :: rest).dropWhile isWord)

/-- The columns that a `CREATE TABLE` declares: the items in its parentheses. -/
def declared (sql : PyStr) : List (PyStr × PyStr) :=
  (((sql.dropWhile (· != 40)).tail.dropLast).splitOn 44).map readItem

/-- The columns that an `INSERT` lists. -/
def listed (sql : PyStr) : List PyStr :=
  ((((sql.dropWhile (· != 40)).tail).takeWhile (· != 41)).splitOn 44).map fun item =>
    (readItem item).1

/-- How SQL compares names. -/
def foldCase (name : PyStr) : PyStr :=
  name.map fun c => if 65 ≤ c.val ∧ c.val ≤ 90 then Fin.ofNat 0x110000 (c.val + 32) else c

/-- The parentheses are balanced, with some of them open already. -/
def balanced : ℕ → PyStr → Bool
  | depth, [] => decide (depth = 0)
  | depth, c :: dtype =>
    if c = 40 then balanced (depth + 1) dtype
    else if c = 41 then decide (depth ≠ 0) && balanced (depth - 1) dtype
    else balanced depth dtype

/-- The type starts with a name. -/
def hasName (dtype : PyStr) : Bool :=
  (dtype.dropWhile isSqlSpace).head?.any fun c => isLetter c || decide (c.val = 95)

/-! ### Well-formed tables -/

/-- The overflow column. -/
def extraColumn : PyStr := ofString "extra"

/-- The schema, as the layout of the rows has it. -/
def layout (schema : ValueSchema) : Dict PyStr String :=
  schema.columns.mapValues fun dtype => String.ofList (dtype.map fun c => Char.ofNat c.val)

/-- A table that is created by one statement and filled by another. `column` is what the database
makes of the name of a field. -/
structure WellFormed (schema : ValueSchema) (column : PyStr → PyStr) (create insert : PyStr) :
    Prop where
  names : ((declared create).map fun c => foldCase c.1).Nodup
  types : ∀ c ∈ declared create, balanced 0 c.2 = true ∧ hasName c.2 = true
  lists : listed insert = (declared create).map Prod.fst
  marks : insert.count 63 = (declared create).length
  row : ∀ {X : Type} (extra : Typed.ExtraColumn X) key value row,
    Typed.valueToRow extra (layout schema) key value = some row →
      row.known.length + 2 = (listed insert).length ∧
      ∀ i field, schema.columns.keys[i]? = some field →
        row.known[i]? = some ((value.get? field).getD .none) ∧
          (listed insert)[i + 1]? = some (column field)

/-- The fields of a schema do not clash with each other, the key column or the overflow column, and
its types are names with balanced parentheses. -/
structure Consistent (schema : ValueSchema) (column : PyStr → PyStr) : Prop where
  distinct : (schema.columns.keys.map fun field => foldCase (column field)).Nodup
  key : ∀ field ∈ schema.columns.keys, foldCase (column field) ≠ foldCase keyColumn
  extra : ∀ field ∈ schema.columns.keys, foldCase (column field) ≠ foldCase extraColumn
  types : ∀ dtype ∈ schema.columns.values, balanced 0 dtype = true ∧ hasName dtype = true

/-- What SQLite makes of a field: the name without a newline that ends it. -/
def bareName (field : PyStr) : PyStr := field.takeWhile isWord

/-! ### Texts -/

@[simp] theorem render_nil : render [] = [] := rfl

@[simp] theorem render_sqlText (s : String) (sql : List Piece) :
    render (sqlText s :: sql) = ofString s ++ render sql := rfl

@[simp] theorem render_name (s : PyStr) (sql : List Piece) :
    render (.name s :: sql) = s ++ render sql := rfl

@[simp] theorem render_append (sql sql' : List Piece) :
    render (sql ++ sql') = render sql ++ render sql' := List.flatMap_append

theorem ofString_comma : ofString ", " = [44, 32] := by decide

theorem ofString_space : ofString " " = [32] := by decide

theorem ofString_quote : ofString "\"" = [34] := by decide

/-- Items between separators are cut into the items. -/
theorem splitOn_items {c : CodePoint} {item : PyStr} {items : List PyStr} (hitem : c ∉ item)
    (hitems : ∀ q ∈ items, c ∉ q) : (item ++ items.flatMap (c :: ·)).splitOn c = item :: items := by
  induction items generalizing item with
  | nil => rw [List.flatMap_nil, List.append_nil, List.splitOn_eq_singleton hitem]
  | cons q items ih =>
    obtain ⟨hq, hrest⟩ := List.forall_mem_cons.mp hitems
    rw [List.flatMap_cons, List.cons_append, List.splitOn_append_cons_self_of_not_mem hitem,
      ih hq hrest]

/-- What comes after the first character of a kind. -/
theorem tail_dropWhile_bne {c : CodePoint} {before : PyStr} (h : c ∉ before) (rest : PyStr) :
    ((before ++ c :: rest).dropWhile (· != c)).tail = rest := by
  have hbefore : ∀ d ∈ before, (d != c) = true := fun d hd =>
    bne_iff_ne.mpr fun heq => h (heq ▸ hd)
  rw [List.dropWhile_append_of_pos hbefore, List.dropWhile_cons_of_neg (by simp), List.tail_cons]

theorem takeWhile_bne {c : CodePoint} {before : PyStr} (h : c ∉ before) (rest : PyStr) :
    (before ++ c :: rest).takeWhile (· != c) = before := by
  have hbefore : ∀ d ∈ before, (d != c) = true := fun d hd =>
    bne_iff_ne.mpr fun heq => h (heq ▸ hd)
  rw [List.takeWhile_append_of_pos hbefore, List.takeWhile_cons_of_neg (by simp), List.append_nil]

theorem declared_of_items (before : PyStr) {item : PyStr} {items : List PyStr}
    (hbefore : 40 ∉ before) (hitem : 44 ∉ item) (hitems : ∀ q ∈ items, 44 ∉ q) :
    declared (before ++ 40 :: (item ++ items.flatMap (44 :: ·) ++ [41])) =
      (item :: items).map readItem := by
  rw [declared, tail_dropWhile_bne hbefore, List.dropLast_concat, splitOn_items hitem hitems]

theorem listed_of_items {before item rest : PyStr} {items : List PyStr} (hbefore : 40 ∉ before)
    (hitem : 44 ∉ item ∧ 41 ∉ item) (hitems : ∀ q ∈ items, 44 ∉ q ∧ 41 ∉ q) :
    listed (before ++ 40 :: (item ++ items.flatMap (44 :: ·) ++ 41 :: rest)) =
      (item :: items).map fun q => (readItem q).1 := by
  have hclose : (41 : CodePoint) ∉ item ++ items.flatMap (44 :: ·) := by
    rw [List.mem_append, List.mem_flatMap, not_or]
    refine ⟨hitem.2, ?_⟩
    rintro ⟨q, hq, hmem⟩
    rcases List.mem_cons.mp hmem with h | h
    · exact absurd h (by decide)
    · exact (hitems q hq).2 h
  rw [listed, tail_dropWhile_bne hbefore, takeWhile_bne hclose,
    splitOn_items hitem.1 fun q hq => (hitems q hq).1]

/-! ### Items -/

theorem readItem_space {c : CodePoint} (hc : isSqlSpace c = true) (item : PyStr) :
    readItem (c :: item) = readItem item := by
  rw [readItem, readItem, List.dropWhile_cons_of_pos hc]

theorem isWord_of_isIdentifier {word : PyStr} (h : isIdentifier word = true) :
    ∀ c ∈ word, isWord c = true := by
  cases word with
  | nil => exact absurd h Bool.false_ne_true
  | cons c word =>
    rw [isIdentifier, Bool.and_eq_true] at h
    obtain ⟨hc, hall⟩ := h
    refine List.forall_mem_cons.mpr ⟨?_, List.all_eq_true.mp hall⟩
    rw [isWord, Bool.or_right_comm, hc, Bool.true_or]

/-- A word is read up to its end. -/
theorem readItem_word {word rest : PyStr} (hword : isIdentifier word = true)
    (hrest : ∀ c ∈ rest.head?, isWord c = false) : readItem (word ++ rest) = (word, rest) := by
  cases word with
  | nil => exact absurd hword Bool.false_ne_true
  | cons c word =>
    have hwords := isWord_of_isIdentifier hword
    rw [isIdentifier, Bool.and_eq_true] at hword
    have hc := hword.1
    have hspace : isSqlSpace c = false := by
      simp only [isLetter, Bool.or_eq_true, decide_eq_true_eq] at hc
      simp only [isSqlSpace, Bool.or_eq_false_iff, decide_eq_false_iff_not]
      omega
    have hquote : c ≠ 34 := by
      rintro rfl
      exact absurd hc (by decide)
    have htake : rest.takeWhile isWord = [] ∧ rest.dropWhile isWord = rest := by
      cases rest with
      | nil => exact ⟨rfl, rfl⟩
      | cons d rest =>
        have hd := hrest d rfl
        rw [List.takeWhile_cons_of_neg (by simp [hd]), List.dropWhile_cons_of_neg (by simp [hd])]
        exact ⟨rfl, rfl⟩
    have hdrop : (c :: word ++ rest).dropWhile isSqlSpace = c :: (word ++ rest) :=
      List.dropWhile_cons_of_neg (by simp [hspace])
    rw [readItem, hdrop]
    simp only [hquote, if_false]
    rw [← List.cons_append, List.takeWhile_append_of_pos hwords,
      List.dropWhile_append_of_pos hwords, htake.1, htake.2, List.append_nil]

/-- A quoted name is read up to its closing quote. -/
theorem readItem_quoted {name : PyStr} (h : 34 ∉ name) (rest : PyStr) :
    readItem (34 :: (name ++ 34 :: rest)) = (name, rest) := by
  have hdrop : (34 :: (name ++ 34 :: rest) : PyStr).dropWhile isSqlSpace =
      34 :: (name ++ 34 :: rest) := List.dropWhile_cons_of_neg (by decide)
  rw [readItem, hdrop]
  simp only [if_true]
  rw [takeWhile_bne h, tail_dropWhile_bne h]

/-! ### The statements -/

theorem render_typedColumns (quote : PyStr → List Piece) (columns : List (PyStr × PyStr)) :
    render (SqlStore.typedColumns quote columns) =
      (columns.map fun p => 32 :: (render (quote p.1) ++ 32 :: p.2)).flatMap (44 :: ·) := by
  induction columns with
  | nil => rfl
  | cons p columns ih =>
    rw [SqlStore.typedColumns, List.flatMap_cons, render_append, ← SqlStore.typedColumns, ih,
      List.map_cons, List.flatMap_cons, List.cons_append, render_sqlText, ofString_comma,
      render_append, render_sqlText, ofString_space, render_name, render_nil, List.append_nil]
    simp only [List.cons_append, List.nil_append, List.append_assoc]

/-- The columns of a `CREATE TABLE` are the items that it is made of. -/
theorem declared_typedColumns {quote : PyStr → List Piece} {start : String} (keyItem : PyStr)
    (hstart : ofString start = ofString "CREATE TABLE IF NOT EXISTS store " ++ 40 :: keyItem)
    (hkey : 44 ∉ keyItem) {columns : List (PyStr × PyStr)}
    (hcolumns : ∀ p ∈ columns, 44 ∉ render (quote p.1) ∧ 44 ∉ p.2) :
    declared (render (sqlText start :: SqlStore.typedColumns quote columns ++
        [sqlText ", extra JSON)"])) =
      readItem keyItem :: columns.map (fun p => readItem (render (quote p.1) ++ 32 :: p.2)) ++
        [readItem (ofString "extra JSON")] := by
  have hextra : ofString ", extra JSON)" = 44 :: (32 :: ofString "extra JSON" ++ [41]) := by decide
  have hcomma : (44 : CodePoint) ≠ 32 := by decide
  have hitems : ∀ q ∈ (columns.map fun p => 32 :: (render (quote p.1) ++ 32 :: p.2)) ++
      [32 :: ofString "extra JSON"], (44 : CodePoint) ∉ q := by
    intro q hq
    rcases List.mem_append.mp hq with hq | hq
    · obtain ⟨p, hp, rfl⟩ := List.mem_map.mp hq
      obtain ⟨hname, hdtype⟩ := hcolumns p hp
      simp only [List.mem_cons, List.mem_append, hname, hdtype, hcomma, or_self, not_false_eq_true]
    · rw [List.mem_singleton.mp hq]
      decide
  have hsplit := declared_of_items (ofString "CREATE TABLE IF NOT EXISTS store ") (by decide) hkey
    hitems
  have hspace : isSqlSpace 32 = true := by decide
  rw [List.cons_append, render_sqlText, render_append, render_typedColumns, render_sqlText,
    render_nil, List.append_nil, hstart, hextra]
  rw [List.flatMap_append, List.flatMap_singleton] at hsplit
  simp only [List.append_assoc, List.cons_append] at hsplit ⊢
  rw [hsplit, List.map_cons, List.map_append, List.map_map, List.map_singleton,
    readItem_space hspace]
  refine congrArg (readItem keyItem :: ·) (congrArg (· ++ _) (List.map_congr_left fun p _ => ?_))
  exact readItem_space hspace _

theorem render_joined (item : List Piece) (items : List (List Piece)) :
    render (joined ", " (item :: items)) =
      render item ++ (items.map fun i => 32 :: render i).flatMap (44 :: ·) := by
  rw [joined, render_append]
  refine congrArg (render item ++ ·) ?_
  induction items with
  | nil => rfl
  | cons i items ih =>
    rw [List.flatMap_cons, render_append, ih, render_sqlText, ofString_comma, List.map_cons,
      List.flatMap_cons]
    rfl

theorem render_buildInsert (quote : Piece → List Piece) (schema : ValueSchema) :
    render (buildInsert quote schema) =
      ofString "INSERT OR REPLACE INTO store " ++ 40 ::
        (render (joined ", " ((colNames schema).map quote)) ++ 41 :: (ofString " VALUES (" ++
          (render (joined ", " ((colNames schema).map fun _ => [sqlText "?"])) ++ [41]))) := by
  have hopen : ofString "INSERT OR REPLACE INTO store (" =
      ofString "INSERT OR REPLACE INTO store " ++ [40] := by decide
  have hclose : ofString ") VALUES (" = 41 :: ofString " VALUES (" := by decide
  have hend : ofString ")" = [41] := by decide
  rw [buildInsert]
  simp only [List.cons_append, render_sqlText, render_append, hopen, hclose, hend, render_nil,
    List.append_assoc, List.nil_append, List.append_nil]

/-- The names of an `INSERT` are those that it is made of. -/
theorem listed_buildInsert {quote : Piece → List Piece} {schema : ValueSchema}
    (h : ∀ name ∈ colNames schema, 44 ∉ render (quote name) ∧ 41 ∉ render (quote name)) :
    listed (render (buildInsert quote schema)) =
      (colNames schema).map fun name => (readItem (render (quote name))).1 := by
  have hspace : isSqlSpace 32 = true := by decide
  obtain ⟨key, names, hnames⟩ : ∃ key names, colNames schema = key :: names :=
    ⟨_, _, rfl⟩
  rw [hnames] at h
  obtain ⟨hkey, hrest⟩ := List.forall_mem_cons.mp h
  have hitems : ∀ q ∈ (names.map quote).map fun i => 32 :: render i,
      (44 : CodePoint) ∉ q ∧ (41 : CodePoint) ∉ q := by
    intro q hq
    obtain ⟨i, hi, rfl⟩ := List.mem_map.mp hq
    obtain ⟨name, hname, rfl⟩ := List.mem_map.mp hi
    obtain ⟨hcomma, hparen⟩ := hrest name hname
    constructor
    · rw [List.mem_cons, not_or]
      exact ⟨by decide, hcomma⟩
    · rw [List.mem_cons, not_or]
      exact ⟨by decide, hparen⟩
  have hbefore : (40 : CodePoint) ∉ ofString "INSERT OR REPLACE INTO store " := by decide
  rw [render_buildInsert, hnames, List.map_cons, render_joined,
    listed_of_items hbefore hkey hitems, List.map_cons, List.map_cons, List.map_map, List.map_map]
  refine congrArg (_ :: ·) (List.map_congr_left fun name _ => ?_)
  rw [Function.comp_apply, Function.comp_apply, readItem_space hspace]

theorem count_joined (c : CodePoint) (hc : c ∉ ofString ", ") (items : List (List Piece)) :
    (render (joined ", " items)).count c =
      (items.map fun i => (render i).count c).sum := by
  cases items with
  | nil => rfl
  | cons item items =>
    rw [joined, render_append, List.count_append, List.map_cons, List.sum_cons]
    refine congrArg _ ?_
    induction items with
    | nil => rfl
    | cons i items ih =>
      rw [List.flatMap_cons, render_append, List.count_append, ih, render_sqlText,
        List.count_append, List.count_eq_zero_of_not_mem hc, Nat.zero_add, List.map_cons,
        List.sum_cons]

/-- There is a mark for each name of an `INSERT`. -/
theorem count_buildInsert {quote : Piece → List Piece} {schema : ValueSchema}
    (h : ∀ name ∈ colNames schema, 63 ∉ render (quote name)) :
    (render (buildInsert quote schema)).count 63 = (colNames schema).length := by
  have hcomma : (63 : CodePoint) ∉ ofString ", " := by decide
  have hopen : (ofString "INSERT OR REPLACE INTO store ").count 63 = 0 := by decide
  have hvalues : (ofString " VALUES (").count 63 = 0 := by decide
  have hnames : ∀ names : List Piece, (∀ name ∈ names, 63 ∉ render (quote name)) →
      ((names.map quote).map fun i => (render i).count 63).sum = 0 := by
    intro names hnames
    induction names with
    | nil => rfl
    | cons name names ih =>
      obtain ⟨hname, hrest⟩ := List.forall_mem_cons.mp hnames
      rw [List.map_cons, List.map_cons, List.sum_cons, ih hrest,
        List.count_eq_zero_of_not_mem hname]
  have hmarks : ∀ names : List Piece,
      ((names.map fun _ => [sqlText "?"]).map fun i => (render i).count 63).sum =
        names.length := by
    intro names
    induction names with
    | nil => rfl
    | cons name names ih =>
      have hone : (render [sqlText "?"]).count 63 = 1 := by decide
      rw [List.map_cons, List.map_cons, List.sum_cons, ih, hone, List.length_cons, Nat.add_comm]
  rw [render_buildInsert, List.count_append, List.count_cons, List.count_append, List.count_cons,
    List.count_append, List.count_append, count_joined 63 hcomma, count_joined 63 hcomma,
    hnames _ h, hmarks, hopen, hvalues]
  simp

/-! ### Names and types of a schema -/

/-- A field is a word, or a word and a newline. -/
theorem field_cases {field : PyStr} (h : fieldNameMatches field) :
    ∃ word rest, field = word ++ rest ∧ isIdentifier word = true ∧
      (rest = [] ∨ rest = [newline]) := by
  rcases fieldNameMatches_iff.mp h with hword | ⟨word, hword, rfl⟩
  · exact ⟨field, [], (List.append_nil field).symm, hword, .inl rfl⟩
  · exact ⟨word, [newline], rfl, hword, .inr rfl⟩

/-- No other characters are in a field. -/
theorem not_mem_field {field : PyStr} (h : fieldNameMatches field) {c : CodePoint}
    (hc : isWord c = false) (hnewline : c ≠ newline) : c ∉ field := by
  obtain ⟨word, rest, rfl, hword, hrest⟩ := field_cases h
  rw [List.mem_append, not_or]
  refine ⟨fun hmem => ?_, fun hmem => ?_⟩
  · exact Bool.false_ne_true (hc.symm.trans (isWord_of_isIdentifier hword c hmem))
  · rcases hrest with rfl | rfl
    · exact List.not_mem_nil hmem
    · exact hnewline (List.mem_singleton.mp hmem)

/-- Nor in a type. -/
theorem not_mem_dtype {dtype : PyStr} (h : columnTypeMatches dtype) {c : CodePoint}
    (hc : isTypeChar c = false) (hnewline : c ≠ newline) : c ∉ dtype := by
  intro hmem
  rcases isTypeChar_of_accepted (.inr h) c hmem with hchar | ⟨heq, -⟩
  · exact Bool.false_ne_true (hc.symm.trans hchar)
  · exact hnewline heq

/-- What follows the word of a field. -/
theorem dropWhile_field {field : PyStr} (h : fieldNameMatches field) :
    field.dropWhile isWord = [] ∨ field.dropWhile isWord = [newline] := by
  obtain ⟨word, rest, rfl, hword, hrest⟩ := field_cases h
  rw [List.dropWhile_append_of_pos (isWord_of_isIdentifier hword)]
  rcases hrest with rfl | rfl
  · exact .inl rfl
  · exact .inr (by decide)

/-- A field that is not quoted is read up to its newline. -/
theorem readItem_field {field : PyStr} (h : fieldNameMatches field) {rest : PyStr}
    (hrest : ∀ c ∈ rest.head?, isWord c = false) :
    readItem (field ++ rest) = (bareName field, field.dropWhile isWord ++ rest) := by
  obtain ⟨word, tail, rfl, hword, htail⟩ := field_cases h
  have hwords := isWord_of_isIdentifier hword
  have hheads : ∀ c ∈ (tail ++ rest).head?, isWord c = false := by
    rcases htail with rfl | rfl
    · exact hrest
    · intro c hc
      rw [← Option.some.inj hc]
      decide
  have htake : tail.takeWhile isWord = [] ∧ tail.dropWhile isWord = tail := by
    rcases htail with rfl | rfl
    · exact ⟨rfl, rfl⟩
    · exact ⟨by decide, by decide⟩
  rw [List.append_assoc, readItem_word hword hheads, bareName, List.takeWhile_append_of_pos hwords,
    List.dropWhile_append_of_pos hwords, htake.1, htake.2, List.append_nil]

theorem balanced_cons {c : CodePoint} (hopen : c ≠ 40) (hclose : c ≠ 41) (depth : ℕ)
    (dtype : PyStr) : balanced depth (c :: dtype) = balanced depth dtype := by
  rw [balanced, if_neg hopen, if_neg hclose]

theorem hasName_space {c : CodePoint} (hc : isSqlSpace c = true) (dtype : PyStr) :
    hasName (c :: dtype) = hasName dtype := by
  rw [hasName, hasName, List.dropWhile_cons_of_pos hc]

/-- A newline and the space before a type change nothing about it. -/
theorem reads_dtype {before : PyStr} (hbefore : before = [] ∨ before = [newline]) (dtype : PyStr) :
    balanced 0 (before ++ 32 :: dtype) = balanced 0 dtype ∧
      hasName (before ++ 32 :: dtype) = hasName dtype := by
  have hspace : balanced 0 (32 :: dtype) = balanced 0 dtype ∧
      hasName (32 :: dtype) = hasName dtype :=
    ⟨balanced_cons (by decide) (by decide) 0 dtype, hasName_space (by decide) dtype⟩
  rcases hbefore with rfl | rfl
  · exact hspace
  · rw [List.singleton_append, balanced_cons (by decide) (by decide), hasName_space (by decide)]
    exact hspace

/-! ### When a table is well formed -/

theorem keys_layout (schema : ValueSchema) : (layout schema).keys = schema.columns.keys :=
  Dict.keys_mapValues _ _

/-- A row has the values of the fields, in the order of the schema. -/
theorem known_valueToRow {X : Type} {extra : Typed.ExtraColumn X} {schema : ValueSchema}
    {key : PyStr} {value : Dict PyStr PyVal} {row : Typed.TypedRow PyVal X}
    (h : Typed.valueToRow extra (layout schema) key value = some row) :
    row.known = schema.columns.keys.map fun field => (value.get? field).getD .none := by
  rw [← keys_layout]
  simp only [Typed.valueToRow] at h
  split at h
  · rw [← Option.some.inj h]
  · obtain ⟨x, -, rfl⟩ := Option.map_eq_some_iff.mp h
    rfl

/-- Names between two others that differ. -/
theorem nodup_between {names : List PyStr} {first last : PyStr} (hne : first ≠ last) :
    (first :: names ++ [last]).Nodup ↔
      names.Nodup ∧ (∀ name ∈ names, name ≠ first) ∧ ∀ name ∈ names, name ≠ last := by
  rw [List.cons_append, List.nodup_cons, List.mem_append, List.mem_singleton, List.nodup_append]
  constructor
  · rintro ⟨hfirst, hnodup, -, hlast⟩
    refine ⟨hnodup, fun name hname heq => hfirst (.inl (heq ▸ hname)), fun name hname => ?_⟩
    exact hlast name hname last (List.mem_singleton_self last)
  · rintro ⟨hnodup, hfirst, hlast⟩
    refine ⟨fun h => ?_, hnodup, List.nodup_singleton last, fun name hname other hother => ?_⟩
    · rcases h with h | h
      · exact hfirst first h rfl
      · exact hne h
    · rw [List.mem_singleton.mp hother]
      exact hlast name hname

/-- The values of a row stand at the places of their columns. -/
theorem row_of_listed {schema : ValueSchema} {column : PyStr → PyStr} {insert : PyStr}
    (hlisted : listed insert = keyColumn :: schema.columns.keys.map column ++ [extraColumn])
    {X : Type} {extra : Typed.ExtraColumn X} {key : PyStr} {value : Dict PyStr PyVal}
    {row : Typed.TypedRow PyVal X}
    (hrow : Typed.valueToRow extra (layout schema) key value = some row) :
    row.known.length + 2 = (listed insert).length ∧
      ∀ i field, schema.columns.keys[i]? = some field →
        row.known[i]? = some ((value.get? field).getD .none) ∧
          (listed insert)[i + 1]? = some (column field) := by
  rw [known_valueToRow hrow, hlisted]
  refine ⟨by simp, fun i field hfield => ⟨?_, ?_⟩⟩
  · rw [List.getElem?_map, hfield]
    rfl
  · have hi : i < schema.columns.keys.length := (List.getElem?_eq_some_iff.mp hfield).1
    rw [List.cons_append, List.getElem?_cons_succ,
      List.getElem?_append_left (by simpa using hi), List.getElem?_map, hfield]
    rfl

/-- **A table, from what its statements say.** -/
theorem wellFormed_iff_of_reads {schema : ValueSchema} {column : PyStr → PyStr}
    {create insert : PyStr} (keyType extraType : PyStr) (rest : PyStr × PyStr → PyStr)
    (hdeclared : declared create = (keyColumn, keyType) ::
      schema.columns.entries.map (fun p => (column p.1, rest p)) ++ [(extraColumn, extraType)])
    (hrest : ∀ p ∈ schema.columns.entries,
      balanced 0 (rest p) = balanced 0 p.2 ∧ hasName (rest p) = hasName p.2)
    (hkey : balanced 0 keyType = true ∧ hasName keyType = true)
    (hextra : balanced 0 extraType = true ∧ hasName extraType = true)
    (hlisted : listed insert = keyColumn :: schema.columns.keys.map column ++ [extraColumn])
    (hmarks : insert.count 63 = schema.columns.keys.length + 2) :
    WellFormed schema column create insert ↔ Consistent schema column := by
  have hnames : (declared create).map (fun c => foldCase c.1) = foldCase keyColumn ::
      schema.columns.keys.map (fun field => foldCase (column field)) ++ [foldCase extraColumn] := by
    rw [hdeclared, List.map_append, List.map_cons, List.map_map, List.map_singleton, Dict.keys,
      List.map_map]
    rfl
  have hlist : listed insert = (declared create).map Prod.fst := by
    rw [hlisted, hdeclared, List.map_append, List.map_cons, List.map_map, List.map_singleton,
      Dict.keys, List.map_map]
    rfl
  have hlength : (declared create).length = schema.columns.keys.length + 2 := by
    rw [hdeclared, Dict.keys]
    simp
  have hne : foldCase keyColumn ≠ foldCase extraColumn := by decide
  constructor
  · intro h
    have hnodup := h.names
    rw [hnames, nodup_between hne] at hnodup
    obtain ⟨hdistinct, hkeys, hextras⟩ := hnodup
    refine ⟨hdistinct, fun field hfield => ?_, fun field hfield => ?_, fun dtype hdtype => ?_⟩
    · exact hkeys _ (List.mem_map_of_mem (f := fun field => foldCase (column field)) hfield)
    · exact hextras _ (List.mem_map_of_mem (f := fun field => foldCase (column field)) hfield)
    · obtain ⟨p, hp, rfl⟩ := List.mem_map.mp hdtype
      have hmem : (column p.1, rest p) ∈ declared create := by
        rw [hdeclared]
        refine List.mem_append_left _ (List.mem_cons_of_mem _ ?_)
        exact List.mem_map_of_mem (f := fun p => (column p.1, rest p)) hp
      have htypes := h.types _ hmem
      rwa [(hrest p hp).1, (hrest p hp).2] at htypes
  · intro h
    refine ⟨?_, fun c hc => ?_, hlist, hmarks.trans hlength.symm,
      fun _ _ _ _ hrow => row_of_listed hlisted hrow⟩
    · rw [hnames, nodup_between hne]
      refine ⟨h.distinct, fun name hname => ?_, fun name hname => ?_⟩
      · obtain ⟨field, hfield, rfl⟩ := List.mem_map.mp hname
        exact h.key field hfield
      · obtain ⟨field, hfield, rfl⟩ := List.mem_map.mp hname
        exact h.extra field hfield
    · rw [hdeclared] at hc
      rcases List.mem_append.mp hc with hc | hc
      · rcases List.mem_cons.mp hc with rfl | hc
        · exact hkey
        · obtain ⟨p, hp, rfl⟩ := List.mem_map.mp hc
          rw [(hrest p hp).1, (hrest p hp).2]
          exact h.types p.2 (List.mem_map_of_mem hp)
      · rw [List.mem_singleton.mp hc]
        exact hextra

/-! ### The two stores -/

theorem matches_of_mem_entries (schema : ValueSchema) {p : PyStr × PyStr}
    (hp : p ∈ schema.columns.entries) : fieldNameMatches p.1 ∧ columnTypeMatches p.2 :=
  SqlStore.matches_of_validateValueSchema schema.valid p hp

theorem matches_of_mem_keys (schema : ValueSchema) {field : PyStr}
    (hfield : field ∈ schema.columns.keys) : fieldNameMatches field := by
  obtain ⟨p, hp, rfl⟩ := List.mem_map.mp hfield
  exact (matches_of_mem_entries schema hp).1

theorem length_colNames (schema : ValueSchema) :
    (colNames schema).length = schema.columns.keys.length + 2 := by
  simp [colNames]

theorem map_colNames {X : Type} (schema : ValueSchema) (f : Piece → X) :
    (colNames schema).map f = f (.text keyColumn) ::
      schema.columns.keys.map (fun field => f (.name field)) ++ [f (.text extraColumn)] := by
  rw [colNames, List.map_append, List.map_cons, List.map_map, List.map_singleton]
  rfl

/-- A way to write names that SQL reads back: `column` is what it makes of a name, and `after` is
what it leaves. -/
structure Writes (write column after : PyStr → PyStr) : Prop where
  reads : ∀ {field tail : PyStr}, fieldNameMatches field → (∀ c ∈ tail.head?, isWord c = false) →
    readItem (write field ++ tail) = (column field, after field ++ tail)
  leaves : ∀ {field}, fieldNameMatches field → after field = [] ∨ after field = [newline]
  plain : ∀ {field : PyStr} {c : CodePoint}, fieldNameMatches field → isWord c = false →
    c ≠ newline → c ≠ 34 → c ∉ write field

theorem writes_bare : Writes id bareName (List.dropWhile isWord) where
  reads h htail := readItem_field h htail
  leaves := dropWhile_field
  plain h hc hnewline _ := not_mem_field h hc hnewline

theorem writes_quoted : Writes (fun name => 34 :: (name ++ [34])) id fun _ => [] where
  reads {field tail} h _ := by
    have hquote : (34 : CodePoint) ∉ field := not_mem_field h (by decide) (by decide)
    rw [List.cons_append, List.append_assoc, List.singleton_append, readItem_quoted hquote]
    rfl
  leaves _ := .inl rfl
  plain {field c} h hc hnewline hquote := by
    have hmem := not_mem_field h hc hnewline
    simp only [List.mem_cons, List.mem_append, List.not_mem_nil, hquote, hmem, or_self,
      not_false_eq_true]

/-- Every name that an `INSERT` writes is a field, or is written like one. -/
theorem exists_field_of_mem_colNames {schema : ValueSchema} {quote : Piece → List Piece}
    {write : PyStr → PyStr}
    (h : ∀ name, render (quote (.text name)) = write name ∧
      render (quote (.name name)) = write name)
    {name : Piece} (hname : name ∈ colNames schema) :
    ∃ field, fieldNameMatches field ∧ render (quote name) = write field := by
  rcases List.mem_append.mp hname with hname | hname
  · rcases List.mem_cons.mp hname with rfl | hname
    · exact ⟨keyColumn, by decide, (h _).1⟩
    · obtain ⟨field, hfield, rfl⟩ := List.mem_map.mp hname
      exact ⟨field, matches_of_mem_keys schema hfield, (h _).2⟩
  · rw [List.mem_singleton.mp hname]
    exact ⟨extraColumn, by decide, (h _).1⟩

/-- **A table, from the way its names are written.** -/
theorem wellFormed_iff_of_writes (schema : ValueSchema) {write column after : PyStr → PyStr}
    (h : Writes write column after) (hkey : column keyColumn = keyColumn)
    (hextra : column extraColumn = extraColumn) {start : String} (keyItem keyType : PyStr)
    (hstart : ofString start = ofString "CREATE TABLE IF NOT EXISTS store " ++ 40 :: keyItem)
    (hcomma : 44 ∉ keyItem) (hitem : readItem keyItem = (keyColumn, keyType))
    (htype : balanced 0 keyType = true ∧ hasName keyType = true)
    {quote : PyStr → List Piece} (hquote : ∀ name, render (quote name) = write name)
    {quoteInsert : Piece → List Piece}
    (hinsert : ∀ name, render (quoteInsert (.text name)) = write name ∧
      render (quoteInsert (.name name)) = write name) :
    WellFormed schema column
      (render (sqlText start :: SqlStore.typedColumns quote schema.columns.entries ++
        [sqlText ", extra JSON)"]))
      (render (buildInsert quoteInsert schema)) ↔ Consistent schema column := by
  have hfields : ∀ field ∈ schema.columns.keys, fieldNameMatches field := fun field hfield =>
    matches_of_mem_keys schema hfield
  have hspace : ∀ dtype : PyStr, ∀ c ∈ (32 :: dtype : PyStr).head?, isWord c = false := by
    intro dtype c hc
    rw [← Option.some.inj hc]
    decide
  have hname : ∀ {field}, fieldNameMatches field → (readItem (write field)).1 = column field := by
    intro field hfield
    have hread : readItem (write field ++ []) = (column field, after field ++ []) :=
      h.reads hfield fun c hc => absurd hc (Option.not_mem_none c)
    rw [← List.append_nil (write field), hread]
  have hplain : ∀ c : CodePoint, isWord c = false → c ≠ newline → c ≠ 34 →
      ∀ name ∈ colNames schema, c ∉ render (quoteInsert name) := by
    intro c hc hnewline hquoted name hmem
    obtain ⟨field, hfield, heq⟩ := exists_field_of_mem_colNames hinsert hmem
    rw [heq]
    exact h.plain hfield hc hnewline hquoted
  refine wellFormed_iff_of_reads keyType (ofString " JSON") (fun p => after p.1 ++ 32 :: p.2) ?_
    (fun p hp => ?_) htype (by decide) ?_ ?_
  · have hcolumns : schema.columns.entries.map
        (fun p => readItem (render (quote p.1) ++ 32 :: p.2)) =
        schema.columns.entries.map fun p => (column p.1, after p.1 ++ 32 :: p.2) :=
      List.map_congr_left fun p hp => by
        rw [hquote, h.reads (matches_of_mem_entries schema hp).1 (hspace p.2)]
    rw [declared_typedColumns keyItem hstart hcomma fun p hp => ?_, hcolumns, hitem]
    · rfl
    · obtain ⟨hfield, hdtype⟩ := matches_of_mem_entries schema hp
      rw [hquote]
      exact ⟨h.plain hfield (by decide) (by decide) (by decide),
        not_mem_dtype hdtype (by decide) (by decide)⟩
  · exact reads_dtype (h.leaves (matches_of_mem_entries schema hp).1) p.2
  · have hnames : schema.columns.keys.map
        (fun field => (readItem (render (quoteInsert (.name field)))).1) =
        schema.columns.keys.map column :=
      List.map_congr_left fun field hfield => by
        rw [(hinsert field).2, hname (hfields field hfield)]
    rw [listed_buildInsert fun name hmem =>
      ⟨hplain 44 (by decide) (by decide) (by decide) name hmem,
        hplain 41 (by decide) (by decide) (by decide) name hmem⟩, map_colNames, hnames,
      (hinsert keyColumn).1, (hinsert extraColumn).1, hname (by decide), hname (by decide), hkey,
      hextra]
  · rw [count_buildInsert (hplain 63 (by decide) (by decide) (by decide)), length_colNames]

theorem wellFormed_sqlite_iff (schema : ValueSchema) :
    WellFormed schema bareName (render (SqlStore.typedSqlite schema).createTable)
      (render (typedSqliteInsert schema)) ↔ Consistent schema bareName := by
  have hname : ∀ name : PyStr, render [.name name] = id name := fun name => List.append_nil name
  refine wellFormed_iff_of_writes schema writes_bare (by decide) (by decide)
    (ofString "_KEY_ TEXT PRIMARY KEY") (ofString " TEXT PRIMARY KEY") (by decide) (by decide)
    (by decide) (by decide) hname fun name => ⟨?_, hname name⟩
  exact List.append_nil name

theorem wellFormed_duckDb_iff (schema : ValueSchema) :
    WellFormed schema id (render (SqlStore.typedDuckDb schema).createTable)
      (render (typedDuckDbInsert schema)) ↔ Consistent schema id := by
  have hname : ∀ name : PyStr, render (quotedName name) = 34 :: (name ++ [34]) := by
    intro name
    rw [quotedName, render_sqlText, render_name, render_sqlText, render_nil, ofString_quote]
    rfl
  have htext : ∀ name : PyStr,
      render [sqlText "\"", .text name, sqlText "\""] = 34 :: (name ++ [34]) := hname
  exact wellFormed_iff_of_writes schema writes_quoted rfl rfl
    (ofString "_KEY_ VARCHAR PRIMARY KEY") (ofString " VARCHAR PRIMARY KEY") (by decide)
    (by decide) (by decide) (by decide) hname fun name => ⟨htext name, hname name⟩

/-! ### The typed stores -/

/-- **The tables of accepted schemas.** A schema that the constructor accepts makes a well-formed
table exactly when its fields do not clash and its types are types. -/
theorem wellFormed_iff (schema : ValueSchema) :
    (WellFormed schema bareName (render (SqlStore.typedSqlite schema).createTable)
        (render (typedSqliteInsert schema)) ↔ Consistent schema bareName) ∧
      (WellFormed schema id (render (SqlStore.typedDuckDb schema).createTable)
        (render (typedDuckDbInsert schema)) ↔ Consistent schema id) :=
  ⟨wellFormed_sqlite_iff schema, wellFormed_duckDb_iff schema⟩

/-- `{"extra": "TEXT"}`. -/
def extraSchema : ValueSchema where
  columns := Dict.ofList [(extraColumn, ofString "TEXT")]
  reserved := by decide
  valid := by decide

/-- The column `extra` is declared twice. -/
theorem not_wellFormed : ¬ ∀ schema : ValueSchema,
    WellFormed schema bareName (render (SqlStore.typedSqlite schema).createTable)
        (render (typedSqliteInsert schema)) ∧
      WellFormed schema id (render (SqlStore.typedDuckDb schema).createTable)
        (render (typedDuckDbInsert schema)) := by
  intro h
  have hextra := ((wellFormed_sqlite_iff extraSchema).mp (h extraSchema).1).extra
  exact hextra extraColumn (by decide) (by decide)

end TypedSchema

end Persista
