import Persista.Lib.Dict
import Persista.Lib.Percent
import Mathlib.Data.List.SplitBy
import Mathlib.Data.List.TakeWhile

/-!
# `urllib.parse`

The functions of the standard library that the URI helpers are written with, as Python 3.11.10 has
them. A text is a list of characters, so it has no lone surrogates and `encode("utf-8")` does not
raise.

`urlsplit` refuses a host between brackets that `ipaddress` does not accept, and a network location
outside ASCII whose compatibility form has a delimiter in it. Both tables are `NetlocChecks`.

## Main results

* `unquote_quote` — a quoted text reads back, whatever else is safe
* `mem_of_mem_quote` — a delimiter in a quoted text is safe and comes from the text
-/

namespace Urllib

open Percent

/-! ### Quoting -/

/-- `_ALWAYS_SAFE`: letters, digits and `_.-~`. -/
def isAlwaysSafe (b : UInt8) : Bool :=
  decide (48 ≤ b.toNat ∧ b.toNat ≤ 57) || decide (65 ≤ b.toNat ∧ b.toNat ≤ 90) ||
    decide (97 ≤ b.toNat ∧ b.toNat ≤ 122) || decide (b.toNat ∈ [95, 46, 45, 126])

/-- The bytes that `quote(…, safe=safe)` keeps. -/
def isSafe (safe : List Char) (b : UInt8) : Bool :=
  isAlwaysSafe b || safe.any fun c => decide (c.toNat = b.toNat ∧ b.toNat < 128)

/-- `quote(string, safe=safe)`. -/
def quote (safe string : List Char) : List Char := encode (isSafe safe) (Utf8.encode string)

/-- `quote_plus(string)`. -/
def quotePlus (string : List Char) : List Char :=
  if ' ' ∈ string then (quote [' '] string).map fun c => if c = ' ' then '+' else c
  else quote [] string

/-- `urlencode(query)`. -/
def urlencode (query : List (List Char × List Char)) : List Char :=
  ['&'].intercalate (query.map fun p => quotePlus p.1 ++ '=' :: quotePlus p.2)

/-- Both characters are in ASCII or both are not: the runs that `_asciire.split` cuts. -/
def sameRun (c d : Char) : Bool := decide (c.toNat < 128) == decide (d.toNat < 128)

/-- A run of characters, its escapes read if it is in ASCII. -/
def unquoteRun (run : List Char) : List Char :=
  if run.all fun c => decide (c.toNat < 128) then Utf8.decode (decode (Utf8.encode run)) else run

/-- `unquote(string)`. -/
def unquote (string : List Char) : List Char :=
  if '%' ∈ string then (string.splitBy sameRun).flatMap unquoteRun else string

example : quote ['/'] "/tmp/a b%é".toList = "/tmp/a%20b%25%C3%A9".toList := by decide

/-! ### Splitting and joining -/

/-- What `urlsplit` asks about a network location: whether `_check_bracketed_host` accepts a host
between brackets, and whether `_checknetloc` accepts a location outside ASCII. -/
structure NetlocChecks where
  bracketedHost : List Char → Bool
  netloc : List Char → Bool

/-- `SplitResult`. -/
structure SplitResult where
  scheme : List Char
  netloc : List Char
  path : List Char
  query : List Char
  fragment : List Char
  deriving DecidableEq, Repr

/-- `_WHATWG_C0_CONTROL_OR_SPACE`. -/
def isControlOrSpace (c : Char) : Bool := decide (c.toNat ≤ 32)

/-- `_UNSAFE_URL_BYTES_TO_REMOVE`. -/
def isRemoved (c : Char) : Bool := c == '\t' || c == '\r' || c == '\n'

/-- `scheme_chars`. -/
def isSchemeChar (c : Char) : Bool :=
  c.isAlphanum || c == '+' || c == '-' || c == '.'

/-- The scheme of a URL and what follows it. -/
def splitScheme (url : List Char) : List Char × List Char :=
  let head := url.takeWhile (· != ':')
  if url.head?.any Char.isAlpha && decide (head.length < url.length) && head.all isSchemeChar then
    (head.map Char.toLower, url.drop (head.length + 1))
  else ([], url)

/-- `_splitnetloc(url, 2)` of a URL that starts with `//`, and nothing of any other. -/
def splitNetloc (url : List Char) : List Char × List Char :=
  if url.take 2 = ['/', '/'] then
    ((url.drop 2).takeWhile fun c => !(c == '/' || c == '?' || c == '#'),
      (url.drop 2).dropWhile fun c => !(c == '/' || c == '?' || c == '#'))
  else ([], url)

/-- `url.split(c, 1)`, or the whole and nothing. -/
def splitAt (c : Char) (url : List Char) : List Char × List Char :=
  (url.takeWhile (· != c), (url.dropWhile (· != c)).drop 1)

/-- Whether `urlsplit` raises no `ValueError` about the network location. -/
def acceptsNetloc (checks : NetlocChecks) (netloc : List Char) : Bool :=
  (netloc.contains '[' == netloc.contains ']') &&
    (!netloc.contains '[' ||
      checks.bracketedHost (((netloc.dropWhile (· != '[')).drop 1).takeWhile (· != ']'))) &&
    (netloc.all (fun c => decide (c.toNat < 128)) || checks.netloc netloc)

/-- `urlsplit(url)`, `none` where it raises `ValueError`. -/
def urlsplit (checks : NetlocChecks) (url : List Char) : Option SplitResult :=
  let url := (url.dropWhile isControlOrSpace).filter fun c => !isRemoved c
  let (scheme, url) := splitScheme url
  let (netloc, url) := splitNetloc url
  if acceptsNetloc checks netloc then
    let (url, fragment) := splitAt '#' url
    let (url, query) := splitAt '?' url
    some ⟨scheme, netloc, url, query, fragment⟩
  else none

/-- `uses_netloc`. -/
def usesNetloc : List (List Char) :=
  ["", "ftp", "http", "gopher", "nntp", "telnet", "imap", "wais", "file", "mms", "https", "shttp",
    "snews", "prospero", "rtsp", "rtsps", "rtspu", "rsync", "svn", "svn+ssh", "sftp", "nfs", "git",
    "git+ssh", "ws", "wss"].map String.toList

/-- `urlunsplit((scheme, netloc, url, query, fragment))`. -/
def urlunsplit (parts : SplitResult) : List Char :=
  let url :=
    if parts.netloc ≠ [] ∨ (parts.scheme ≠ [] ∧ parts.scheme ∈ usesNetloc) ∨
        parts.path.take 2 = ['/', '/'] then
      ['/', '/'] ++ parts.netloc ++
        (if parts.path ≠ [] ∧ parts.path.take 1 ≠ ['/'] then '/' :: parts.path else parts.path)
    else parts.path
  let url := if parts.scheme ≠ [] then parts.scheme ++ ':' :: url else url
  let url := if parts.query ≠ [] then url ++ '?' :: parts.query else url
  if parts.fragment ≠ [] then url ++ '#' :: parts.fragment else url

/-! ### What is quoted -/

theorem safe_isAlwaysSafe {b : UInt8} (h : isAlwaysSafe b) : b.toNat < 128 ∧ b ≠ 37 := by
  simp only [isAlwaysSafe, Bool.or_eq_true, decide_eq_true_eq, List.mem_cons, List.not_mem_nil,
    or_false] at h
  constructor
  · omega
  · rintro rfl
    revert h
    decide

theorem safe_isSafe {safe : List Char} (h : '%' ∉ safe) : Safe (isSafe safe) where
  ascii b hb := by
    rw [isSafe, Bool.or_eq_true] at hb
    rcases hb with hb | hb
    · exact (safe_isAlwaysSafe hb).1
    · obtain ⟨c, _, hc⟩ := List.any_eq_true.mp hb
      exact (of_decide_eq_true hc).2
  percent := by
    rw [isSafe, Bool.or_eq_false_iff]
    refine ⟨by decide, List.any_eq_false.mpr fun c hc hcode => h ?_⟩
    have hnat : c.toNat = '%'.toNat := (of_decide_eq_true hcode).1
    rw [← Char.toNat_inj.mp hnat]
    exact hc

/-- A quoted text is in ASCII. -/
theorem ascii_quote {safe : List Char} (h : '%' ∉ safe) {s : List Char} {c : Char}
    (hc : c ∈ quote safe s) : c.toNat < 128 :=
  ascii_of_mem_encode (safe_isSafe h) hc

/-- The delimiters: ASCII characters that are never kept unless they are asked to be. -/
def isDelimiter (c : Char) : Bool :=
  decide (c.toNat < 128) && !isAlwaysSafe (UInt8.ofNat c.toNat) && c != '%'

/-- **A delimiter in a quoted text is safe and comes from the text.** -/
theorem mem_of_mem_quote {safe : List Char} (h : '%' ∉ safe) {c : Char} (hc : isDelimiter c)
    {s : List Char} (hmem : c ∈ quote safe s) : c ∈ safe ∧ c ∈ s := by
  simp only [isDelimiter, Bool.and_eq_true, Bool.not_eq_true', decide_eq_true_eq, bne_iff_ne] at hc
  obtain ⟨⟨hlt, halways⟩, hpercent⟩ := hc
  rcases mem_encode hmem with ⟨b, hb, hsafe, rfl⟩ | rfl | hdigit
  · have hb128 := (safe_isSafe h).ascii b hsafe
    rw [toNat_ofNat_of_lt hb128, UInt8.ofNat_toNat] at halways
    rw [isSafe, halways, Bool.false_or] at hsafe
    obtain ⟨d, hd, hdcode⟩ := List.any_eq_true.mp hsafe
    obtain ⟨e, he, hecode⟩ := (Utf8.mem_encode_iff hb128).mp hb
    have hdnat : d.toNat = b.toNat := (of_decide_eq_true hdcode).1
    rw [← hdnat, Char.ofNat_toNat]
    exact ⟨hd, Char.toNat_inj.mp (hecode.trans hdnat.symm) ▸ he⟩
  · exact absurd rfl hpercent
  · have hall : "0123456789ABCDEF".toList.all (fun c => isAlwaysSafe (UInt8.ofNat c.toNat)) =
      true := by decide
    rw [List.all_eq_true.mp hall c hdigit] at halways
    cases halways

/-! ### Round trip -/

theorem unquoteRun_of_ascii {s : List Char} (h : ∀ c ∈ s, c.toNat < 128) :
    unquoteRun s = Utf8.decode (decode (Utf8.encode s)) :=
  if_pos (List.all_eq_true.mpr fun c hc => decide_eq_true (h c hc))

/-- In ASCII there is one run. -/
theorem unquote_of_ascii {s : List Char} (h : ∀ c ∈ s, c.toNat < 128) :
    unquote s = Utf8.decode (decode (Utf8.encode s)) := by
  rw [unquote]
  split
  · next hmem =>
    have hone : s.splitBy sameRun = [s] := by
      refine List.splitBy_of_isChain (List.ne_nil_of_mem hmem) ?_
      refine (List.pairwise_of_forall_mem_list fun c hc d hd => ?_).isChain
      simp [sameRun, h c hc, h d hd]
    rw [hone, List.flatMap_singleton, unquoteRun_of_ascii h]
  · next hmem =>
    have hbyte : (37 : UInt8) ∉ Utf8.encode s := by
      rw [Utf8.mem_encode_iff (by decide)]
      rintro ⟨c, hc, hcode⟩
      have hpercent : c = '%' := Char.toNat_inj.mp hcode
      exact hmem (hpercent ▸ hc)
    rw [decode_of_notMem hbyte, Utf8.decode_encode]

/-- **A quoted text reads back, whatever else is safe.** -/
theorem unquote_quote {safe : List Char} (h : '%' ∉ safe) (s : List Char) :
    unquote (quote safe s) = s := by
  rw [unquote_of_ascii fun c => ascii_quote h, quote, decode_encode (safe_isSafe h),
    Utf8.decode_encode]

/-! ### Parts without delimiters -/

theorem splitAt_of_notMem {c : Char} {url : List Char} (h : c ∉ url) :
    splitAt c url = (url, []) := by
  have hall : ∀ d ∈ url, (d != c) = true := fun d hd => bne_iff_ne.mpr fun heq => h (heq ▸ hd)
  rw [splitAt, List.takeWhile_eq_self_iff.mpr hall, List.dropWhile_eq_nil_iff.mpr hall]
  rfl

theorem acceptsNetloc_of_ascii (checks : NetlocChecks) {netloc : List Char} (hopen : '[' ∉ netloc)
    (hclose : ']' ∉ netloc) (hascii : ∀ c ∈ netloc, c.toNat < 128) :
    acceptsNetloc checks netloc := by
  have hall : netloc.all (fun c => decide (c.toNat < 128)) = true :=
    List.all_eq_true.mpr fun c hc => decide_eq_true (hascii c hc)
  simp [acceptsNetloc, hopen, hclose, hall]

theorem toNat_of_isAlpha {c : Char} (h : c.isAlpha) :
    65 ≤ c.toNat ∧ c.toNat ≤ 90 ∨ 97 ≤ c.toNat ∧ c.toNat ≤ 122 := by
  rcases Bool.or_eq_true_iff.mp h with h | h
  · obtain ⟨h1, h2⟩ := of_decide_eq_true h
    exact .inl ⟨UInt32.le_iff_toNat_le.mp h1, UInt32.le_iff_toNat_le.mp h2⟩
  · obtain ⟨h1, h2⟩ := Bool.and_eq_true_iff.mp h
    exact .inr ⟨UInt32.le_iff_toNat_le.mp (of_decide_eq_true h1),
      UInt32.le_iff_toNat_le.mp (of_decide_eq_true h2)⟩

theorem not_isControlOrSpace_of_isAlpha {c : Char} (h : c.isAlpha) : ¬ isControlOrSpace c := by
  have hcode := toNat_of_isAlpha h
  rw [isControlOrSpace, decide_eq_true_eq]
  omega

theorem splitScheme_append {scheme : List Char} (halpha : scheme.head?.any Char.isAlpha)
    (hchars : scheme.all isSchemeChar) (rest : List Char) :
    splitScheme (scheme ++ ':' :: rest) = (scheme.map Char.toLower, rest) := by
  have hne : ∀ c ∈ scheme, (c != ':') = true := by
    intro c hc
    refine bne_iff_ne.mpr ?_
    rintro rfl
    exact absurd (List.all_eq_true.mp hchars _ hc) (by decide)
  have hhead : (scheme ++ ':' :: rest).takeWhile (· != ':') = scheme := by
    rw [List.takeWhile_append_of_pos hne, List.takeWhile_cons_of_neg (by decide), List.append_nil]
  have hfirst : (scheme ++ ':' :: rest).head?.any Char.isAlpha = true := by
    rcases scheme with _ | ⟨c, scheme⟩
    · cases halpha
    · exact halpha
  have hlen : scheme.length < (scheme ++ ':' :: rest).length := by
    rw [List.length_append, List.length_cons]
    omega
  have hdrop : (scheme ++ ':' :: rest).drop (scheme.length + 1) = rest := by
    rw [← List.drop_drop, List.drop_left]
    rfl
  rw [splitScheme]
  simp only [hhead, hfirst, hlen, hchars, hdrop, decide_true, Bool.and_self, if_true]

end Urllib
