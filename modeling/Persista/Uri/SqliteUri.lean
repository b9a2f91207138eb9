import Persista.Uri.PathUri

/-!
# Files that SQLite URIs open

`BaseSQLiteStore.__init__`, `from_path`, `to_uri` and `from_uri` of `store/sqlite.py`, and the part
of SQLite that turns a `file:` URI into a file name and an open mode.

`from_path` embeds the path into a `file:` URI as it is. SQLite reads that URI in a language of its
own: a path starts with an authority if it starts with `//`, ends at the first `?` or `#`, and has
its escapes read. A path in which none of this applies is `Embeddable`.

`sanitize_path` is not part of the repository. What the stores rely on is `SanitizePath`: the path
it returns is absolute, has no NUL, and is left as it is by a second call.

## Main results

* `parseFileUri_of_embeddable` — the file and the mode of an embeddable path
* `embeddable_of_parseFileUri` — no other path is the file that its URI opens
* `sqlite_uri_opens_same_file_iff` — `from_path` and `from_uri` open the file that the constructor
  opens exactly when its path is embeddable
-/

namespace Persista

open Urllib

/-- The mode SQLite opens a file in. -/
inductive OpenMode
  | readOnly
  | readWrite
  | readWriteCreate
  | memory
  deriving DecidableEq, Repr

/-- What SQLite opens. -/
structure Opened where
  file : List UInt8
  mode : OpenMode
  deriving DecidableEq, Repr

/-! ### `file:` URIs -/

/-- The access a mode asks for; none may ask for more than the mode it replaces. -/
def OpenMode.rank : OpenMode → ℕ
  | .memory => 0
  | .readOnly => 1
  | .readWrite => 2
  | .readWriteCreate => 3

/-- The value of `mode=`. -/
def openMode? (value : List UInt8) : Option OpenMode :=
  if value = Utf8.encode "ro".toList then some .readOnly
  else if value = Utf8.encode "rw".toList then some .readWrite
  else if value = Utf8.encode "rwc".toList then some .readWriteCreate
  else if value = Utf8.encode "memory".toList then some .memory
  else none

/-- The mode after an option of the query string. -/
def applyOption (mode : OpenMode) (option : List UInt8) : Option OpenMode :=
  let name := Percent.decode (option.takeWhile (· != 61))
  let value := Percent.decode ((option.dropWhile (· != 61)).drop 1)
  if name = Utf8.encode "mode".toList then
    match openMode? value with
    | none => none
    | some mode' => if mode'.rank ≤ mode.rank then some mode' else none
  else some mode

/-- The authority is empty or `localhost` and is left out; any other is an error. -/
def afterAuthority (uri : List UInt8) : Option (List UInt8) :=
  if uri.take 2 = [47, 47] then
    let authority := (uri.drop 2).takeWhile (· != 47)
    if authority = [] ∨ authority = Utf8.encode "localhost".toList then
      some ((uri.drop 2).dropWhile (· != 47))
    else none
  else some uri

/-- A byte of the path: neither `?` nor `#`. -/
def inPath (b : UInt8) : Bool := b != 63 && b != 35

/-- The query string that follows the path. -/
def queryOf (rest : List UInt8) : List UInt8 :=
  match rest with
  | b :: query => if b = 63 then query.takeWhile (· != 35) else []
  | [] => []

/-- What SQLite opens for the URI `file:` and these bytes, in `rwc` mode unless it says otherwise;
`none` is an error. A file name is a C string. -/
def parseFileUri (uri : List UInt8) : Option Opened :=
  match afterAuthority uri with
  | none => none
  | some uri =>
    match ((queryOf (uri.dropWhile inPath)).splitOn 38).foldlM applyOption .readWriteCreate with
    | none => none
    | some mode => some ⟨(Percent.decode (uri.takeWhile inPath)).takeWhile (· != 0), mode⟩

example : parseFileUri (Utf8.encode "/tmp/a%20b.db?mode=ro".toList) =
    some ⟨Utf8.encode "/tmp/a b.db".toList, .readOnly⟩ := by decide

/-! ### Paths that a URI can hold as they are -/

/-- The path starts with two slashes. -/
def DoubleSlash (path : List Char) : Prop := ['/', '/'] <+: path

instance (path : List Char) : Decidable (DoubleSlash path) := inferInstanceAs (Decidable (_ <+: _))

/-- A path that SQLite reads as itself inside a URI. -/
structure Embeddable (path : List Char) : Prop where
  doubleSlash : ¬ DoubleSlash path
  query : '?' ∉ path
  fragment : '#' ∉ path
  plain : Percent.Plain (Utf8.encode path)

theorem inPath_of_mem_encode {path : List Char} (hquery : '?' ∉ path) (hfragment : '#' ∉ path)
    {b : UInt8} (hb : b ∈ Utf8.encode path) : inPath b := by
  by_contra h
  simp only [inPath, Bool.and_eq_true, bne_iff_ne, not_and_or, not_not] at h
  rcases h with rfl | rfl
  · obtain ⟨c, hc, hcode⟩ := (Utf8.mem_encode_iff (by decide)).mp hb
    have hchar : c = '?' := Char.toNat_inj.mp hcode
    exact hquery (hchar ▸ hc)
  · obtain ⟨c, hc, hcode⟩ := (Utf8.mem_encode_iff (by decide)).mp hb
    have hchar : c = '#' := Char.toNat_inj.mp hcode
    exact hfragment (hchar ▸ hc)

/-- The query string that asks for a mode. -/
def modeQuery (readOnly : Bool) : List Char :=
  if readOnly then "?mode=ro".toList else "?mode=rwc".toList

/-- The mode it asks for. -/
def modeOf (readOnly : Bool) : OpenMode := if readOnly then .readOnly else .readWriteCreate

/-- It is no part of the path, and no slash is in it. -/
theorem modeQuery_eq (readOnly : Bool) : ∃ query, Utf8.encode (modeQuery readOnly) = 63 :: query ∧
    (63 :: query).dropWhile (· != 47) = [] ∧
      ((queryOf (63 :: query)).splitOn 38).foldlM applyOption .readWriteCreate =
        some (modeOf readOnly) := by
  cases readOnly
  · exact ⟨Utf8.encode "mode=rwc".toList, by decide, by decide, by decide⟩
  · exact ⟨Utf8.encode "mode=ro".toList, by decide, by decide, by decide⟩

variable {path : List Char} {readOnly : Bool}

theorem take_two_encode :
    (Utf8.encode (path ++ modeQuery readOnly)).take 2 = [47, 47] ↔ DoubleSlash path := by
  constructor
  · intro h
    obtain ⟨l, hl⟩ : ∃ l, Utf8.encode (path ++ modeQuery readOnly) = 47 :: 47 :: l :=
      ⟨_, (List.take_append_drop 2 _).symm.trans (by rw [h]; rfl)⟩
    obtain ⟨c, t, ht, hc, hl'⟩ := Utf8.eq_cons_of_encode_eq_cons (by decide) hl
    obtain ⟨d, u, rfl, hd, -⟩ := Utf8.eq_cons_of_encode_eq_cons (by decide) hl'.symm
    obtain rfl : c = '/' := Char.toNat_inj.mp hc
    obtain rfl : d = '/' := Char.toNat_inj.mp hd
    have hhead : (modeQuery readOnly).head? = some '?' := by
      cases readOnly
      all_goals rfl
    have hquery : ∀ x ∈ (modeQuery readOnly).head?, x = '?' := by
      intro x hx
      exact Option.some.inj (hx.symm.trans hhead)
    rcases path with _ | ⟨x, _ | ⟨y, path⟩⟩
    · exact absurd (hquery '/' (congrArg List.head? ht)) (by decide)
    · exact absurd (hquery '/' (congrArg (fun l => l.tail.head?) ht)) (by decide)
    · simp only [List.cons_append, List.cons.injEq] at ht
      obtain ⟨rfl, rfl, -⟩ := ht
      exact ⟨path, rfl⟩
  · rintro ⟨rest, rfl⟩
    rfl

/-- The path part ends before the query string. -/
theorem takeWhile_inPath_append (bytes query : List UInt8) :
    (bytes ++ 63 :: query).takeWhile inPath = bytes.takeWhile inPath := by
  induction bytes with
  | nil => rfl
  | cons b bytes ih =>
    rw [List.cons_append, List.takeWhile_cons, List.takeWhile_cons, ih]

/-- The file and the mode of an embeddable path. -/
theorem parseFileUri_of_embeddable (h : Embeddable path) (hnul : '\x00' ∉ path) (readOnly : Bool) :
    parseFileUri (Utf8.encode (path ++ modeQuery readOnly)) =
      some ⟨Utf8.encode path, modeOf readOnly⟩ := by
  have hafter : afterAuthority (Utf8.encode (path ++ modeQuery readOnly)) =
      some (Utf8.encode (path ++ modeQuery readOnly)) :=
    if_neg fun htake => h.doubleSlash (take_two_encode.mp htake)
  obtain ⟨query, hquery, -, hmode⟩ := modeQuery_eq readOnly
  have hin := fun b => inPath_of_mem_encode (b := b) h.query h.fragment
  have hdrop : (Utf8.encode path ++ 63 :: query).dropWhile inPath = 63 :: query := by
    rw [List.dropWhile_append_of_pos hin]
    rfl
  have htake : (Utf8.encode path ++ 63 :: query).takeWhile inPath = Utf8.encode path := by
    rw [takeWhile_inPath_append, List.takeWhile_eq_self_iff.mpr hin]
  have hnul' : (Utf8.encode path).takeWhile (· != 0) = Utf8.encode path := by
    refine List.takeWhile_eq_self_iff.mpr fun b hb => bne_iff_ne.mpr ?_
    rintro rfl
    obtain ⟨c, hc, hcode⟩ := (Utf8.mem_encode_iff (by decide)).mp hb
    obtain rfl : c = '\x00' := Char.toNat_inj.mp hcode
    exact hnul hc
  rw [parseFileUri, hafter, Utf8.encode_append, hquery]
  simp only [hdrop, htake, hmode, Percent.decode_of_plain h.plain, hnul']

theorem eq_of_afterAuthority {uri rest : List UInt8} (h : uri.take 2 = [47, 47])
    (hrest : afterAuthority uri = some rest) : rest = (uri.drop 2).dropWhile (· != 47) := by
  simp only [afterAuthority, h, if_true] at hrest
  split at hrest
  · exact (Option.some.inj hrest).symm
  · cases hrest

/-- After an authority the path part is shorter than the path. -/
theorem length_path_of_doubleSlash (h : DoubleSlash path) {rest : List UInt8}
    (hrest : afterAuthority (Utf8.encode (path ++ modeQuery readOnly)) = some rest) :
    (rest.takeWhile inPath).length < (Utf8.encode path).length := by
  obtain ⟨query, hquery, hslash, -⟩ := modeQuery_eq readOnly
  have heq := eq_of_afterAuthority (take_two_encode.mpr h) hrest
  obtain ⟨tail, rfl⟩ := h
  have hbytes : (Utf8.encode (['/', '/'] ++ tail ++ modeQuery readOnly)).drop 2 =
      Utf8.encode tail ++ 63 :: query := by
    rw [← hquery, ← Utf8.encode_append]
    rfl
  have hlen : (Utf8.encode (['/', '/'] ++ tail)).length = (Utf8.encode tail).length + 2 := rfl
  rw [heq, hbytes, List.dropWhile_append, hlen]
  split
  · rw [hslash]
    exact Nat.succ_pos _
  · rw [takeWhile_inPath_append]
    have htake :=
      (List.takeWhile_prefix (l := (Utf8.encode tail).dropWhile (· != 47)) inPath).length_le
    have hdrop := ((Utf8.encode tail).dropWhile_suffix (· != 47)).length_le
    omega

/-- Otherwise the path part is the part of the path before `?` and `#`. -/
theorem takeWhile_of_not_doubleSlash (h : ¬ DoubleSlash path) {rest : List UInt8}
    (hrest : afterAuthority (Utf8.encode (path ++ modeQuery readOnly)) = some rest) :
    rest.takeWhile inPath = (Utf8.encode path).takeWhile inPath := by
  obtain ⟨query, hquery, -, -⟩ := modeQuery_eq readOnly
  rw [afterAuthority, if_neg fun htake => h (take_two_encode.mp htake), Utf8.encode_append,
    hquery] at hrest
  rw [← Option.some.inj hrest, takeWhile_inPath_append]

/-- No other path is the file that its URI opens. -/
theorem embeddable_of_parseFileUri {mode : OpenMode}
    (h : parseFileUri (Utf8.encode (path ++ modeQuery readOnly)) = some ⟨Utf8.encode path, mode⟩) :
    Embeddable path := by
  rw [parseFileUri] at h
  split at h
  · cases h
  · next rest hrest =>
    split at h
    · cases h
    · next mode' hmode =>
      have hfile : (Percent.decode (rest.takeWhile inPath)).takeWhile (· != 0) = Utf8.encode path :=
        congrArg Opened.file (Option.some.inj h)
      have hbefore := List.takeWhile_prefix (· != 0) (l := Percent.decode (rest.takeWhile inPath))
      rw [hfile] at hbefore
      have hle := hbefore.length_le
      have hdecode := Percent.length_decode_le (rest.takeWhile inPath)
      have hdouble : ¬ DoubleSlash path := fun hp => by
        have hlt := length_path_of_doubleSlash hp hrest
        omega
      rw [takeWhile_of_not_doubleSlash hdouble hrest] at hle hdecode hbefore
      have hpart := List.takeWhile_prefix (l := Utf8.encode path) inPath
      -- Nothing in the path can have been cut off or read: the file name is as long as the path.
      have hwhole : (Utf8.encode path).takeWhile inPath = Utf8.encode path :=
        hpart.eq_of_length_le (hle.trans hdecode)
      have hin := List.takeWhile_eq_self_iff.mp hwhole
      rw [hwhole] at hbefore hdecode
      have hsame : Percent.decode (Utf8.encode path) = Utf8.encode path :=
        (hbefore.eq_of_length_le hdecode).symm
      refine ⟨hdouble, fun hmem => ?_, fun hmem => ?_, Percent.decode_eq_self_iff.mp hsame⟩
      · exact absurd (hin 63 ((Utf8.mem_encode_iff (by decide)).mpr ⟨_, hmem, rfl⟩)) (by decide)
      · exact absurd (hin 35 ((Utf8.mem_encode_iff (by decide)).mpr ⟨_, hmem, rfl⟩)) (by decide)

/-! ### The store -/

/-- What is relied on of `sanitize_path`, as a function of `str(path)`. -/
structure SanitizePath where
  run : List Char → List Char
  absolute : ∀ path, (run path).head? = some '/'
  settled : ∀ path, run (run path) = run path
  noNul : ∀ path, '\x00' ∉ run path

/-- The attributes of a `SQLiteStore` that say what it opens, with the `uri` keyword argument of
`sqlite3.connect`. -/
structure SQLiteLocation where
  database : List Char
  pathForUri : List Char
  uri : Bool
  deriving DecidableEq, Repr

namespace SQLiteLocation

variable (checks : NetlocChecks) (sanitize : SanitizePath)

/-- `_scheme`. -/
def scheme : List Char := "sqlite".toList

/-- `SQLiteStore(database, uri=uri)`. -/
def init (database : List Char) (uri : Bool) : SQLiteLocation :=
  let database :=
    if database ≠ ":memory:".toList ∧ ¬ "file:".toList <+: database then sanitize.run database
    else database
  ⟨database, database, uri⟩

/-- `SQLiteStore.from_path(path, read_only=readOnly)`. -/
def fromPath (path : List Char) (readOnly : Bool) : SQLiteLocation :=
  let (path, uri) :=
    if path = ":memory:".toList then (path, "file::memory:?cache=shared".toList)
    else if readOnly then
      (sanitize.run path, "file:".toList ++ sanitize.run path ++ "?mode=ro".toList)
    else (sanitize.run path, "file:".toList ++ sanitize.run path ++ "?mode=rwc".toList)
  { init sanitize uri true with pathForUri := path }

/-- `store.to_uri()`. -/
def toUri (store : SQLiteLocation) : List Char := encodePathUri scheme store.pathForUri

/-- `SQLiteStore.from_uri(uri, read_only=readOnly)`. -/
def fromUri (uri : List Char) (readOnly : Bool) : Except UriError SQLiteLocation :=
  match decodePathUri checks uri scheme with
  | .error e => .error e
  | .ok path => .ok (fromPath sanitize path readOnly)

/-- What `open()` opens: a `file:` URI is read as one only if `uri=True` was passed. -/
def opens (store : SQLiteLocation) : Option Opened :=
  if store.uri ∧ "file:".toList <+: store.database then
    parseFileUri (Utf8.encode (store.database.drop 5))
  else if store.database = ":memory:".toList then some ⟨[], .memory⟩
  else some ⟨Utf8.encode store.database, .readWriteCreate⟩

variable {sanitize} {path : List Char}

theorem ne_memory_of_absolute (h : path.head? = some '/') : path ≠ ":memory:".toList := by
  rintro rfl
  exact absurd h (by decide)

theorem not_file_of_absolute (h : path.head? = some '/') : ¬ "file:".toList <+: path := by
  rintro ⟨rest, rfl⟩
  have hhead : some 'f' = some '/' := h
  exact absurd hhead (by decide)

theorem init_of_absolute (h : path.head? = some '/') (uri : Bool) :
    init sanitize path uri = ⟨sanitize.run path, sanitize.run path, uri⟩ := by
  rw [init]
  simp only [ne_memory_of_absolute h, not_file_of_absolute h, ne_eq, not_false_eq_true, and_self,
    if_true]

/-- The constructor opens the path itself. -/
theorem opens_init (h : path.head? = some '/') :
    (init sanitize path false).opens =
      some ⟨Utf8.encode (sanitize.run path), .readWriteCreate⟩ := by
  rw [init_of_absolute h, opens, if_neg fun huri => Bool.false_ne_true huri.1,
    if_neg (ne_memory_of_absolute (sanitize.absolute path))]

theorem fromPath_of_absolute (h : path.head? = some '/') (readOnly : Bool) :
    fromPath sanitize path readOnly =
      ⟨"file:".toList ++ (sanitize.run path ++ modeQuery readOnly), sanitize.run path, true⟩ := by
  have hinit : ∀ rest, init sanitize ("file:".toList ++ rest) true =
      ⟨"file:".toList ++ rest, "file:".toList ++ rest, true⟩ := fun rest => by
    rw [init]
    simp only [List.prefix_append, not_true_eq_false, and_false, if_false]
  rw [fromPath, if_neg (ne_memory_of_absolute h)]
  cases readOnly
  · simp only [Bool.false_eq_true, if_false, List.append_assoc, hinit]
    rfl
  · simp only [if_true, List.append_assoc, hinit]
    rfl

/-- `from_path` has SQLite read the path as part of a URI. -/
theorem opens_fromPath (h : path.head? = some '/') (readOnly : Bool) :
    (fromPath sanitize path readOnly).opens =
      parseFileUri (Utf8.encode (sanitize.run path ++ modeQuery readOnly)) := by
  rw [fromPath_of_absolute h, opens, if_pos ⟨rfl, List.prefix_append _ _⟩]
  rfl

/-- The URI of a store reads back as its path. -/
theorem fromUri_toUri_init (h : path.head? = some '/') (readOnly : Bool) :
    fromUri checks sanitize (init sanitize path false).toUri readOnly =
      .ok (fromPath sanitize (sanitize.run path) readOnly) := by
  have hscheme : IsPathScheme scheme := @isPathScheme_of_pathScheme? .sqlite _ rfl
  rw [fromUri, init_of_absolute h, toUri, decodePathUri_encodePathUri checks hscheme]

/-- **`from_path` and `from_uri` open the file that the constructor opens exactly when its path is
embeddable.** -/
theorem sqlite_uri_opens_same_file_iff (path : List Char) (h : path.head? = some '/')
    (readOnly : Bool) :
    (∃ file, (init sanitize path false).opens = some ⟨file, .readWriteCreate⟩ ∧
      (fromPath sanitize path readOnly).opens = some ⟨file, modeOf readOnly⟩ ∧
      ∃ store, fromUri checks sanitize (init sanitize path false).toUri readOnly = .ok store ∧
        store.opens = some ⟨file, modeOf readOnly⟩) ↔
    Embeddable (sanitize.run path) := by
  constructor
  · rintro ⟨file, hinit, hfrom, -⟩
    rw [opens_init h] at hinit
    obtain rfl : Utf8.encode (sanitize.run path) = file :=
      congrArg Opened.file (Option.some.inj hinit)
    rw [opens_fromPath h] at hfrom
    exact embeddable_of_parseFileUri hfrom
  · intro hpath
    have hopens : parseFileUri (Utf8.encode (sanitize.run path ++ modeQuery readOnly)) =
        some ⟨Utf8.encode (sanitize.run path), modeOf readOnly⟩ :=
      parseFileUri_of_embeddable hpath (sanitize.noNul path) readOnly
    refine ⟨_, opens_init h, ?_, _, fromUri_toUri_init checks h readOnly, ?_⟩
    · rw [opens_fromPath h, hopens]
    · rw [opens_fromPath (sanitize.absolute path), sanitize.settled, hopens]

/-- Paths that are settled already. -/
def settledPaths : SanitizePath where
  run path := if path.head? = some '/' ∧ '\x00' ∉ path then path else ['/']
  absolute path := by
    split
    · next h => exact h.1
    · rfl
  settled path := by
    split
    · rfl
    · rfl
  noNul path := by
    split
    · next h => exact h.2
    · decide

theorem sqlite_uri_opens_same_file_iff_tmp :
    ∃ file, (init settledPaths "/tmp/a&b 5%.db".toList false).opens =
        some ⟨file, .readWriteCreate⟩ ∧
      (fromPath settledPaths "/tmp/a&b 5%.db".toList true).opens =
        some ⟨file, modeOf true⟩ ∧
      ∃ store, fromUri ⟨fun _ => true, fun _ => true⟩ settledPaths
          (init settledPaths "/tmp/a&b 5%.db".toList false).toUri true = .ok store ∧
        store.opens = some ⟨file, modeOf true⟩ :=
  (sqlite_uri_opens_same_file_iff _ "/tmp/a&b 5%.db".toList rfl true).mpr
    ⟨by decide, by decide, by decide, Percent.decode_eq_self_iff.mp (by decide)⟩

/-- `from_path("/tmp/what?.db", read_only=True)` opens `/tmp/what`, for writing. -/
theorem sqlite_uri_opens_other_file :
    ¬ ∀ (path : List Char) (readOnly : Bool), path.head? = some '/' →
      ∃ file, (init settledPaths path false).opens = some ⟨file, .readWriteCreate⟩ ∧
        (fromPath settledPaths path readOnly).opens = some ⟨file, modeOf readOnly⟩ ∧
        ∃ store, fromUri ⟨fun _ => true, fun _ => true⟩ settledPaths
            (init settledPaths path false).toUri readOnly = .ok store ∧
          store.opens = some ⟨file, modeOf readOnly⟩ := by
  intro h
  obtain ⟨file, hinit, hfrom, -⟩ := h "/tmp/what?.db".toList true rfl
  have hother : (fromPath settledPaths "/tmp/what?.db".toList true).opens =
      some ⟨Utf8.encode "/tmp/what".toList, .readWriteCreate⟩ := by decide
  rw [hother] at hfrom
  have hmode : OpenMode.readWriteCreate = modeOf true :=
    congrArg Opened.mode (Option.some.inj hfrom)
  exact absurd hmode (by decide)

end SQLiteLocation

end Persista
