import Persista.Uri.Urllib

/-!
# URIs of the stores that live at a path

`store/uri.py` and the dispatcher of `store/registry.py`. Encoding quotes a path and joins it to the
scheme; decoding splits the URI and puts the network location in front of the path again, so that
`sqlite:///tmp/data.db` reads as `/tmp/data.db`.

## What an empty network location is written as

No scheme of the stores is in `uses_netloc`. `urlunsplit` writes an empty network location under
such a scheme as nothing at all, unless the path starts with `//`: there two more slashes go in
front, without which the start of the path would be read as a network location.

## Main results

* `urlsplit_encodePathUri` — the parts an encoded path is read as
* `decodePathUri_encodePathUri` — the path that comes back
* `path_uri_round_trip` — the path and the class of its store come back
-/

namespace Persista

open Urllib

/-- The classes `_SCHEMES` dispatches to. -/
inductive StoreClass
  | inMemory
  | null
  | jsonFile
  | pickleFile
  | sqlite
  | pickleSqlite
  | typedSqlite
  | duckDb
  | typedDuckDb
  | lmdb
  | pickleLmdb
  | postgres
  | redis
  deriving DecidableEq, Repr

/-- `_SCHEMES`. -/
def schemes : List (List Char × StoreClass) :=
  [("memory".toList, .inMemory), ("null".toList, .null), ("file+json".toList, .jsonFile),
    ("file+pickle".toList, .pickleFile), ("sqlite".toList, .sqlite),
    ("sqlite+pickle".toList, .pickleSqlite), ("sqlite+typed".toList, .typedSqlite),
    ("duckdb".toList, .duckDb), ("duckdb+typed".toList, .typedDuckDb), ("lmdb".toList, .lmdb),
    ("lmdb+pickle".toList, .pickleLmdb), ("postgresql".toList, .postgres),
    ("postgres".toList, .postgres), ("redis".toList, .redis), ("rediss".toList, .redis)]

/-- The scheme of a class whose URIs hold a path. -/
def StoreClass.pathScheme? : StoreClass → Option (List Char)
  | .jsonFile => some "file+json".toList
  | .pickleFile => some "file+pickle".toList
  | .sqlite => some "sqlite".toList
  | .pickleSqlite => some "sqlite+pickle".toList
  | .typedSqlite => some "sqlite+typed".toList
  | .duckDb => some "duckdb".toList
  | .typedDuckDb => some "duckdb+typed".toList
  | .lmdb => some "lmdb".toList
  | .pickleLmdb => some "lmdb+pickle".toList
  | _ => none

/-- What reading a URI raises; all of them are `ValueError`s. -/
inductive UriError
  /-- `urlsplit` refuses the network location. -/
  | netloc (uri : List Char)
  /-- `Invalid scheme for {uri!r}: expected {expected!r}, got {got!r}`. -/
  | invalidScheme (uri expected got : List Char)
  /-- `No store registered for scheme {scheme!r} (from {uri!r})`. -/
  | notRegistered (scheme uri : List Char)
  deriving DecidableEq, Repr

variable (checks : NetlocChecks)

/-- `encode_path_uri(scheme, path)`. -/
def encodePathUri (scheme path : List Char) : List Char :=
  urlunsplit ⟨scheme, [], quote ['/'] path, [], []⟩

/-- `decode_path_uri(uri, expected_scheme=expected)`. -/
def decodePathUri (uri expected : List Char) : Except UriError (List Char) :=
  match urlsplit checks uri with
  | none => .error (.netloc uri)
  | some parsed =>
    if parsed.scheme ≠ expected then .error (.invalidScheme uri expected parsed.scheme)
    else .ok (unquote (parsed.netloc ++ parsed.path))

/-- The class whose `from_uri` `store_from_uri(uri)` calls. -/
def storeFromUri (uri : List Char) : Except UriError StoreClass :=
  match urlsplit checks uri with
  | none => .error (.netloc uri)
  | some parsed =>
    match schemes.lookup parsed.scheme with
    | none => .error (.notRegistered parsed.scheme uri)
    | some cls => .ok cls

example : encodePathUri "sqlite".toList "/tmp/data.db".toList = "sqlite:/tmp/data.db".toList ∧
    encodePathUri "sqlite".toList "//srv/data.db".toList = "sqlite:////srv/data.db".toList := by
  decide

/-! ### Schemes -/

/-- What `urlunsplit` and `urlsplit` ask of a scheme: it is written as it is, an empty network
location is not, and it reads back. -/
structure IsPathScheme (scheme : List Char) : Prop where
  ne_nil : scheme ≠ []
  notMem_usesNetloc : scheme ∉ usesNetloc
  alpha : scheme.head?.any Char.isAlpha
  chars : scheme.all isSchemeChar
  lower : scheme.map Char.toLower = scheme

theorem isPathScheme_of_pathScheme? {cls : StoreClass} {scheme : List Char}
    (h : cls.pathScheme? = some scheme) : IsPathScheme scheme := by
  cases cls
  all_goals
    cases h
  all_goals
    exact ⟨by decide, by decide, by decide, by decide, by decide⟩

theorem lookup_pathScheme? {cls : StoreClass} {scheme : List Char}
    (h : cls.pathScheme? = some scheme) : schemes.lookup scheme = some cls := by
  cases cls
  all_goals
    cases h
  all_goals
    decide

/-! ### The URI of a path -/

variable {scheme path : List Char}

/-- An empty network location and a quoted path, as `urlunsplit` writes them. -/
def located (path : List Char) : List Char :=
  if (quote ['/'] path).take 2 = ['/', '/'] then ['/', '/'] ++ quote ['/'] path
  else quote ['/'] path

theorem encodePathUri_eq (h : IsPathScheme scheme) (path : List Char) :
    encodePathUri scheme path = scheme ++ ':' :: located path := by
  rw [located]
  split
  · next htake =>
    have hfirst : (quote ['/'] path).take 1 = ['/'] :=
      (List.take_take (l := quote ['/'] path) (i := 1) (j := 2)).symm.trans
        (congrArg (List.take 1) htake)
    simp [encodePathUri, urlunsplit, h.ne_nil, htake, hfirst]
  · next htake => simp [encodePathUri, urlunsplit, h.ne_nil, h.notMem_usesNetloc, htake]

/-- The network location that is read is empty. -/
theorem splitNetloc_located (path : List Char) :
    splitNetloc (located path) = ([], quote ['/'] path) := by
  rw [located]
  split
  · next htake =>
    obtain ⟨rest, hrest⟩ : ∃ rest, quote ['/'] path = '/' :: rest := by
      cases hq : quote ['/'] path with
      | nil =>
        rw [hq] at htake
        cases htake
      | cons c rest =>
        rw [hq] at htake
        exact ⟨rest, congrArg (· :: rest) (List.cons.inj htake).1⟩
    rw [hrest]
    rfl
  · next htake => exact if_neg htake

/-- A delimiter in a quoted path is a slash. -/
theorem notMem_quote_path {c : Char} (hc : isDelimiter c) (hslash : c ≠ '/') :
    c ∉ quote ['/'] path := fun hmem =>
  hslash (List.mem_singleton.mp (mem_of_mem_quote (by decide) hc hmem).1)

theorem notMem_located {c : Char} (hc : isDelimiter c) (hslash : c ≠ '/') : c ∉ located path := by
  rw [located]
  split
  · intro hmem
    rcases List.mem_append.mp hmem with hmem | hmem
    · have hcase : c = '/' ∨ c = '/' := by simpa using hmem
      exact hslash (hcase.elim id id)
    · exact notMem_quote_path hc hslash hmem
  · exact notMem_quote_path hc hslash

/-- Nothing is stripped from it or removed in it. -/
theorem strip_encodePathUri (h : IsPathScheme scheme) (path : List Char) :
    ((encodePathUri scheme path).dropWhile isControlOrSpace).filter (fun c => !isRemoved c) =
      scheme ++ ':' :: located path := by
  have hstrip : (scheme ++ ':' :: located path).dropWhile isControlOrSpace =
      scheme ++ ':' :: located path := by
    have halpha := h.alpha
    rcases scheme with _ | ⟨c, cs⟩
    · cases halpha
    · exact List.dropWhile_cons_of_neg (not_isControlOrSpace_of_isAlpha halpha)
  have hkept : ∀ c, isRemoved c → c ∉ scheme ++ ':' :: located path := by
    intro c hc hmem
    have hcase : (c = '\t' ∨ c = '\r') ∨ c = '\n' := by
      simpa only [isRemoved, Bool.or_eq_true, beq_iff_eq] using hc
    rcases List.mem_append.mp hmem with hmem | hmem
    · have hchar := List.all_eq_true.mp h.chars c hmem
      rcases hcase with (rfl | rfl) | rfl
      all_goals
        exact absurd hchar (by decide)
    · rcases List.mem_cons.mp hmem with rfl | hmem
      · exact absurd hc (by decide)
      · rcases hcase with (rfl | rfl) | rfl
        all_goals
          exact notMem_located (by decide) (by decide) hmem
  rw [encodePathUri_eq h, hstrip, List.filter_eq_self]
  intro c hmem
  rw [Bool.not_eq_true']
  exact Bool.eq_false_iff.mpr fun hc => hkept c hc hmem

/-- The parts an encoded path is read as. -/
theorem urlsplit_encodePathUri (h : IsPathScheme scheme) (path : List Char) :
    urlsplit checks (encodePathUri scheme path) =
      some ⟨scheme, [], quote ['/'] path, [], []⟩ := by
  have haccept : acceptsNetloc checks [] :=
    acceptsNetloc_of_ascii checks List.not_mem_nil List.not_mem_nil fun c hc => by cases hc
  have hhash : '#' ∉ quote ['/'] path := notMem_quote_path (by decide) (by decide)
  have hquery : '?' ∉ quote ['/'] path := notMem_quote_path (by decide) (by decide)
  rw [urlsplit]
  simp only [strip_encodePathUri h, splitScheme_append h.alpha h.chars, h.lower,
    splitNetloc_located, haccept, splitAt_of_notMem hhash, splitAt_of_notMem hquery, if_true]

/-- The path that comes back. -/
theorem decodePathUri_encodePathUri (h : IsPathScheme scheme) (path : List Char) :
    decodePathUri checks (encodePathUri scheme path) scheme = .ok path := by
  rw [decodePathUri, urlsplit_encodePathUri checks h]
  show (if scheme ≠ scheme then _ else Except.ok (unquote ([] ++ quote ['/'] path))) = _
  rw [if_neg (fun hne => hne rfl), List.nil_append, unquote_quote (by decide)]

theorem storeFromUri_encodePathUri {cls : StoreClass} (h : cls.pathScheme? = some scheme)
    (path : List Char) : storeFromUri checks (encodePathUri scheme path) = .ok cls := by
  have hsplit := urlsplit_encodePathUri checks (isPathScheme_of_pathScheme? h) path
  simp only [storeFromUri, hsplit, lookup_pathScheme? h]

/-- **The URI of a path** gives the path back, whatever is in it, and goes to the class that wrote
it. -/
theorem path_uri_round_trip (cls : StoreClass) (scheme : List Char)
    (hscheme : cls.pathScheme? = some scheme) (path : List Char) :
    decodePathUri checks (encodePathUri scheme path) scheme = .ok path ∧
      storeFromUri checks (encodePathUri scheme path) = .ok cls :=
  ⟨decodePathUri_encodePathUri checks (isPathScheme_of_pathScheme? hscheme) path,
    storeFromUri_encodePathUri checks hscheme path⟩

/-- A path that starts with two slashes, and has delimiters of URIs in it. -/
theorem path_uri_round_trip_sqlite :
    decodePathUri ⟨fun _ => true, fun _ => true⟩
        (encodePathUri "sqlite".toList "//srv/a#b?c.db".toList) "sqlite".toList =
      .ok "//srv/a#b?c.db".toList ∧
    storeFromUri ⟨fun _ => true, fun _ => true⟩
        (encodePathUri "sqlite".toList "//srv/a#b?c.db".toList) = .ok .sqlite :=
  path_uri_round_trip _ .sqlite _ rfl _

end Persista
