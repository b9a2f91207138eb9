import Persista.Uri.PostgresUri

/-!
# How the URI of a Postgres store is read back

`to_uri` writes `postgresql:/` and then another slash and the pieces, if there is a network location
or the database starts with a slash; otherwise the database follows at once, and libpq refuses the
URI. libpq cuts what follows the second slash again, up to the first null byte. The cuts need not be
those between the parts: a part may hold a delimiter, a query may start inside a part, and the URI
may end in one.

What is certain is that the pieces are a beginning of what was written before the query. If all of
it is pieces, the query that is read is the one that was written.

## Main results

* `PostgresUri.encode_paramsUri` — the bytes that are written
* `PostgresUri.parse_eq_some_iff` — what libpq makes of bytes after `postgresql:/`
* `PostgresUri.exists_reading` — how a URI that was written is read
-/

namespace Persista

namespace PostgresUri

open Libpq Urllib

variable {K : Type} [DecidableEq K] {table : OptionTable K} {params : Params K}

/-! ### What is written -/

/-- A part in bytes, if it is written. -/
def written (params : Params K) (key : Keyword K) : Option Bytes :=
  if part params key = [] then none else some (Utf8.encode (part params key))

/-- The query in bytes. -/
def query (table : OptionTable K) (params : Params K) : Bytes :=
  joined ampersand ((further params).map (queryParam table))

/-- The pieces that are written. -/
def pieces (table : OptionTable K) (params : Params K) : Pieces where
  userinfo := (written params .user).map fun user => ⟨user, written params .password⟩
  hosts := [⟨false, Utf8.encode (part params .host), written params .port⟩]
  dbname := some (Utf8.encode (part params .dbname))
  params := if query table params = [] then none else some (query table params)

theorem written_of_eq_nil {key : Keyword K} (h : part params key = []) :
    written params key = none := if_pos h

theorem written_of_ne_nil {key : Keyword K} (h : part params key ≠ []) :
    written params key = some (Utf8.encode (part params key)) := if_neg h

theorem encode_colon (s : List Char) (key : Keyword K) :
    Utf8.encode (if part params key ≠ [] then s ++ ':' :: part params key else s) =
      Utf8.encode s ++ opened colon (written params key) := by
  by_cases hkey : part params key = []
  · rw [if_neg (not_not.mpr hkey), written_of_eq_nil hkey]
    exact (List.append_nil _).symm
  · rw [if_pos hkey, written_of_ne_nil hkey, Utf8.encode_append, Utf8.encode_cons]
    rfl

theorem encode_netloc :
    Utf8.encode (netloc params) =
      ((pieces table params).userinfo.map Userinfo.render).getD [] ++
        joined comma ((pieces table params).hosts.map HostPort.render) := by
  have hhost : joined comma ((pieces table params).hosts.map HostPort.render) =
      Utf8.encode (part params .host) ++ opened colon (written params .port) := rfl
  rw [netloc, hhost]
  simp only [pieces]
  by_cases huser : part params .user = []
  · rw [if_neg (not_not.mpr huser), written_of_eq_nil huser, encode_colon]
    rfl
  · rw [if_pos huser, written_of_ne_nil huser, Utf8.encode_append, Utf8.encode_cons, encode_colon,
      encode_colon, Option.map_some, Option.map_some, Option.getD_some, Userinfo.render]
    simp only [List.append_assoc]
    rfl

/-- A second slash is written: before a network location, or before a path that starts with two
slashes. -/
def HasServer (params : Params K) : Prop :=
  netloc params ≠ [] ∨ (part params .dbname).head? = some '/'

instance (params : Params K) : Decidable (HasServer params) := inferInstanceAs (Decidable (_ ∨ _))

/-- What is written between the prefix and the query. -/
def beforeQuery (table : OptionTable K) (params : Params K) : Bytes :=
  if HasServer params then slash :: (pieces table params).front
  else Utf8.encode (part params .dbname)

theorem front_pieces :
    (pieces table params).front =
      Utf8.encode (netloc params) ++ slash :: Utf8.encode (part params .dbname) := by
  rw [Pieces.front, ← encode_netloc]
  rfl

omit [DecidableEq K] in
theorem queryParam_ne_nil (p : K × List Char) : queryParam table p ≠ [] :=
  (notMem_queryParam p).2.2.2

omit [DecidableEq K] in
theorem query_eq_nil_iff : query table params = [] ↔ further params = [] := by
  rw [query]
  cases further params with
  | nil => simp [joined]
  | cons p l =>
    have hne : queryParam table p ≠ [] := queryParam_ne_nil p
    cases l <;> simp [joined, hne]

/-- For a scheme that is not in `uses_netloc`, `urlunsplit` writes no `//` without a network
location, unless the path starts with two slashes. -/
theorem urlunsplit_eq {scheme : List Char} (hne : scheme ≠ []) (hscheme : scheme ∉ usesNetloc)
    (netloc path query : List Char) :
    urlunsplit ⟨scheme, netloc, '/' :: path, query, []⟩ =
      if query ≠ [] then
        scheme ++ ':' :: '/' ::
          (if netloc ≠ [] ∨ path.head? = some '/' then '/' :: netloc ++ '/' :: path else path) ++
          '?' :: query
      else
        scheme ++ ':' :: '/' ::
          (if netloc ≠ [] ∨ path.head? = some '/' then '/' :: netloc ++ '/' :: path else path) := by
  have hslash : path.take 1 = ['/'] ↔ path.head? = some '/' := by
    cases path with
    | nil => simp
    | cons c path => simp
  by_cases hserver : netloc ≠ [] ∨ path.head? = some '/'
  · simp [urlunsplit, hslash, hne, hscheme, hserver]
  · obtain ⟨hnetloc, hhead⟩ := not_or.mp hserver
    simp [urlunsplit, hslash, hne, hscheme, not_not.mp hnetloc, hhead]

theorem encode_paramsUri :
    Utf8.encode (paramsUri table params) =
      word "postgresql:/" ++
        (beforeQuery table params ++ opened question (pieces table params).params) := by
  have hscheme : "postgresql".toList ≠ [] ∧ "postgresql".toList ∉ usesNetloc := by decide
  have hbefore : Utf8.encode (if netloc params ≠ [] ∨ (part params .dbname).head? = some '/' then
      '/' :: netloc params ++ '/' :: part params .dbname else part params .dbname) =
        beforeQuery table params := by
    rw [beforeQuery, front_pieces]
    show Utf8.encode (if HasServer params then _ else _) = _
    split
    · rw [Utf8.encode_append, Utf8.encode_cons, Utf8.encode_cons]
      rfl
    · rfl
  have hword : ∀ s : List Char, Utf8.encode ("postgresql".toList ++ ':' :: '/' :: s) =
      word "postgresql:/" ++ Utf8.encode s := fun s => Utf8.encode_append "postgresql:/".toList s
  have hquery : Utf8.encode (urlencode ((further params).map fun p => (table.name p.1, p.2))) =
      query table params := encode_urlencode (further params)
  have hnil : urlencode ((further params).map fun p => (table.name p.1, p.2)) = [] ↔
      query table params = [] := by
    rw [← hquery]
    exact ⟨fun h => by rw [h]; rfl, fun h => Utf8.encode_injective h⟩
  rw [paramsUri, urlunsplit_eq hscheme.1 hscheme.2, pieces]
  by_cases h : query table params = []
  · rw [if_neg (not_not.mpr (hnil.mpr h)), if_pos h, hword, hbefore]
    simp [opened]
  · rw [if_pos (mt hnil.mp h), if_neg h, Utf8.encode_append, hword, hbefore, Utf8.encode_cons,
      hquery, List.append_assoc]
    rfl

theorem afterPrefix_eq_some_iff {y s : Bytes} :
    afterPrefix (word "postgresql:/" ++ y) = some s ↔ y = slash :: s := by
  have hshort : (word "postgres://").isPrefixOf (word "postgresql:/" ++ y) = false := rfl
  rw [afterPrefix, hshort]
  rcases y with _ | ⟨b, y⟩
  · rw [if_neg (by decide), if_neg Bool.false_ne_true]
    simp
  · have hfull : (word "postgresql://").isPrefixOf (word "postgresql:/" ++ b :: y) = (slash == b) :=
      (Bool.and_true _)
    rw [hfull]
    by_cases hb : b = slash
    · subst hb
      have hdrop : (word "postgresql:/" ++ slash :: y).drop (word "postgresql://").length = y := rfl
      rw [if_pos (beq_self_eq_true slash), hdrop, Option.some_inj, List.cons.injEq,
        and_iff_right rfl]
    · rw [if_neg (by simpa using Ne.symm hb), if_neg Bool.false_ne_true]
      simp [hb]

theorem parse_eq_some_iff {y : Bytes} {o : Options K} :
    parse table (word "postgresql:/" ++ y) = some o ↔
      ∃ s, y.takeWhile (· != 0) = slash :: s ∧ (split s).bind (store table) = some o := by
  have hprefix : ∀ b ∈ word "postgresql:/", (b != 0) = true := List.all_eq_true.mp (by decide)
  rw [parse, List.takeWhile_append_of_pos hprefix]
  simp only [Option.bind_eq_bind, Option.bind_eq_some_iff, afterPrefix_eq_some_iff]

/-! ### The query that is written -/

theorem mem_joined {sep b : UInt8} {l : List Bytes} (h : b ∈ joined sep l) :
    b = sep ∨ ∃ s ∈ l, b ∈ s := by
  induction l with
  | nil => cases h
  | cons s l ih =>
    cases l with
    | nil => exact .inr ⟨s, List.mem_cons_self, h⟩
    | cons t l =>
      rw [joined_cons_cons, List.mem_append, List.mem_cons] at h
      rcases h with h | h | h
      · exact .inr ⟨s, List.mem_cons_self, h⟩
      · exact .inl h
      · refine (ih h).imp_right ?_
        rintro ⟨u, hu, hb⟩
        exact ⟨u, List.mem_cons_of_mem s hu, hb⟩

omit [DecidableEq K] in
theorem notMem_query : question ∉ query table params ∧ 0 ∉ query table params := by
  have hparam : ∀ b, b ≠ ampersand → (∀ p, b ∉ queryParam table p) → b ∉ query table params := by
    intro b hne hb hmem
    rcases mem_joined hmem with heq | ⟨s, hs, hbs⟩
    · exact hne heq
    · obtain ⟨p, -, rfl⟩ := List.mem_map.mp hs
      exact hb p hbs
  exact ⟨hparam _ (by decide) fun p => (notMem_queryParam p).2.1,
    hparam _ (by decide) fun p => (notMem_queryParam p).2.2.1⟩

omit [DecidableEq K] in
theorem segments_query :
    segments (query table params) = (further params).map (queryParam table) := by
  refine segments_joined fun s hs => ?_
  obtain ⟨p, -, rfl⟩ := List.mem_map.mp hs
  exact ⟨(notMem_queryParam p).1, queryParam_ne_nil p⟩

theorem params_pieces_getD : (pieces table params).params.getD [] = query table params := by
  rw [pieces]
  by_cases h : query table params = [] <;> simp [h]

theorem params_pieces_eq_some {q : Bytes} (h : (pieces table params).params = some q) :
    query table params = q ∧ q ≠ [] := by
  rw [pieces] at h
  split at h
  · cases h
  · next hne =>
    obtain rfl := Option.some.inj h
    exact ⟨rfl, hne⟩

theorem zero_notMem_opened : 0 ∉ opened question (pieces table params).params := by
  rcases h : (pieces table params).params with _ | q
  · exact List.not_mem_nil
  · rw [opened, List.mem_cons, not_or]
    refine ⟨by decide, ?_⟩
    rw [← (params_pieces_eq_some h).1]
    exact notMem_query.2

omit [DecidableEq K] in
theorem query_eq {p : K × List Char} {l : List (K × List Char)} (h : further params = p :: l) :
    ∃ rest, query table params = Utf8.encode (table.name p.1) ++ equals :: rest := by
  rw [query, h]
  cases l with
  | nil => exact ⟨Utf8.encode (quotePlus p.2), rfl⟩
  | cons q l =>
    rw [List.map_cons, List.map_cons, joined_cons_cons, queryParam, List.append_assoc]
    exact ⟨_, rfl⟩

/-- The query that is written is not read inside another. -/
theorem not_nested {q rest : Bytes} (h : (pieces table params).params = some q) (o o' : Options K) :
    (segments (rest ++ question :: q)).foldlM (storeParam table) o ≠ some o' := by
  obtain ⟨rfl, hne⟩ := params_pieces_eq_some h
  obtain ⟨p, l, hfurther⟩ := List.exists_cons_of_ne_nil (mt query_eq_nil_iff.mpr hne)
  obtain ⟨tail, htail⟩ : ∃ tail, query table params =
      Utf8.encode (table.name p.1) ++ equals :: tail := query_eq hfurther
  have hname : ampersand ∉ Utf8.encode (table.name p.1) := fun hmem =>
    absurd (nameByte hmem).2 (by decide)
  intro hread
  have hshape : rest ++ question :: (Utf8.encode (table.name p.1) ++ equals :: tail) =
      rest ++ (question :: Utf8.encode (table.name p.1) ++ [equals]) ++ tail := by simp
  rw [htail, hshape] at hread
  exact no_second_question hname rest tail hread

theorem opened_injective {b : UInt8} {s t : Option Bytes} (h : opened b s = opened b t) :
    s = t := by
  cases s with
  | none =>
    cases t with
    | none => rfl
    | some t => cases h
  | some s =>
    cases t with
    | none => cases h
    | some t => exact congrArg some (List.cons.inj h).2

/-! ### Reading the URI back -/

/-- How libpq read a URI that has `front` before its query: the pieces are a beginning of `front`,
and what is left of it is empty or starts with a `?` or a null byte. -/
structure Reading (table : OptionTable K) (params : Params K) (front : Bytes) (o : Options K)
    (p : Pieces) (rest : Bytes) (o₁ : Options K) : Prop where
  cut : p.Cut
  front_eq : front = p.front ++ rest
  head_rest : ∀ b ∈ rest.head?, b = question ∨ b = 0
  spec : FromPieces p o₁
  stored : (∀ k ∈ places, o k = o₁ k) ∨ weight o < weight o₁ + rest.countP isPlain
  whole : rest = [] → 0 ∉ front ∧ (∀ x ∈ further params, 0 ∉ Utf8.encode x.2) ∧
    o = storeAll (further params) o₁

/-- When all of `front` is pieces, the query that is read is the one that was written. -/
theorem reading_whole {front : Bytes} {p : Pieces} {o o₁ : Options K} (hcut : p.Cut)
    (hspec : FromPieces p o₁) (hzero : 0 ∉ front) (hfront : front = p.front)
    (hparams : p.params = (pieces table params).params)
    (hread : (segments (p.params.getD [])).foldlM (storeParam table) o₁ = some o) :
    Reading table params front o p [] o₁ := by
  rw [hparams, params_pieces_getD, segments_query] at hread
  obtain ⟨hvalues, rfl⟩ := foldlM_queryParam_iff.mp hread
  refine ⟨hcut, by rw [hfront, List.append_nil], nofun, hspec, .inl fun k hk => ?_,
    fun _ => ⟨hzero, hvalues, rfl⟩⟩
  refine storeAll_of_notMem (fun x _ => ?_) o₁
  rintro rfl
  simp [places] at hk

/-- The URI ends at a null byte before its query. -/
theorem reading_zero {front tail : Bytes} {p : Pieces} {o o₁ : Options K} (hcut : p.Cut)
    (hspec : FromPieces p o₁)
    (hstored : (∀ k ∈ places, o k = o₁ k) ∨
      weight o < weight o₁ + (p.params.getD []).countP isPlain)
    (hzero : 0 ∈ front) (hrender : p.render = (front ++ tail).takeWhile (· != 0)) :
    ∃ rest, Reading table params front o p rest o₁ := by
  obtain ⟨a, c, rfl, ha⟩ := List.eq_append_cons_of_mem hzero
  have ha' : ∀ b ∈ a, (b != 0) = true := fun b hb => bne_iff_ne.mpr fun heq => ha (heq ▸ hb)
  rw [List.append_assoc, List.takeWhile_append_of_pos ha', List.cons_append,
    List.takeWhile_cons_of_neg (by decide), List.append_nil, Pieces.render] at hrender
  refine ⟨opened question p.params ++ 0 :: c, hcut, ?_, ?_, hspec, ?_, ?_⟩
  · rw [← List.append_assoc, hrender]
  · cases p.params with
    | none => exact fun b hb => .inr (Option.some.inj hb).symm
    | some q => exact fun b hb => .inl (Option.some.inj hb).symm
  · refine hstored.imp_right fun hlt => ?_
    have hcount := countP_opened isPlain question p.params
    rw [List.countP_append]
    omega
  · simp

/-- A query starts before the one that is written, which is then not written. -/
theorem reading_early {front rest : Bytes} {b : UInt8} {p : Pieces} {o o₁ : Options K}
    (hcut : p.Cut) (hspec : FromPieces p o₁)
    (hstored : (∀ k ∈ places, o k = o₁ k) ∨
      weight o < weight o₁ + (p.params.getD []).countP isPlain)
    (hread : (segments (p.params.getD [])).foldlM (storeParam table) o₁ = some o)
    (hfront : front = p.front ++ b :: rest)
    (hrest : opened question p.params =
      b :: rest ++ opened question (pieces table params).params) :
    Reading table params front o p (b :: rest) o₁ := by
  rcases hp : p.params with _ | q
  · rw [hp] at hrest
    cases hrest
  · rw [hp] at hrest hread hstored
    obtain ⟨rfl, rfl⟩ := List.cons.inj hrest
    rcases hq : (pieces table params).params with _ | q'
    · refine ⟨hcut, hfront, ?_, hspec, ?_, fun hnil => absurd hnil (List.cons_ne_nil _ _)⟩
      · exact fun b hb => .inl (Option.some.inj hb).symm
      · refine hstored.imp_right fun hlt => ?_
        rw [hq] at hlt
        rw [countP_cons]
        simp only [Option.getD_some, opened, List.append_eq, List.append_nil] at hlt
        omega
    · rw [hq] at hread
      exact absurd hread (not_nested hq o₁ o)

/-- The pieces do not take up a part of the query that is written: it would not be read. -/
theorem not_in_pieces {t : Bytes} {b : UInt8} {p : Pieces} {o o₁ : Options K}
    (hnone : ∀ k, o₁ (.other k) = none)
    (hread : (segments (p.params.getD [])).foldlM (storeParam table) o₁ = some o)
    (hfurther : ∀ x ∈ further params, o (.other x.1) ≠ none)
    (ht : opened question (pieces table params).params = b :: t ++ opened question p.params) :
    False := by
  rcases hq : (pieces table params).params with _ | q
  · rw [hq] at ht
    cases ht
  · rw [hq] at ht
    obtain ⟨rfl, rfl⟩ := List.cons.inj ht
    obtain ⟨hquery, hne⟩ := params_pieces_eq_some hq
    have hp : p.params = none := by
      rcases hp : p.params with _ | q'
      · rfl
      · have hno : question ∉ query table params := notMem_query.1
        rw [hquery, hp] at hno
        exact absurd (by simp [opened]) hno
    rw [hp] at hread
    obtain rfl := Option.some.inj hread
    obtain ⟨x, l, hx⟩ := List.exists_cons_of_ne_nil (mt query_eq_nil_iff.mpr (hquery ▸ hne))
    exact hfurther x (by rw [hx]; exact List.mem_cons_self) (hnone x.1)

theorem exists_reading {front s : Bytes} {o : Options K}
    (hs : (front ++ opened question (pieces table params).params).takeWhile (· != 0) = s)
    (hread : (split s).bind (store table) = some o)
    (hfurther : ∀ x ∈ further params, o (.other x.1) ≠ none) :
    ∃ p rest o₁, Reading table params front o p rest o₁ := by
  obtain ⟨p, hsplit, hstore⟩ := Option.bind_eq_some_iff.mp hread
  obtain ⟨hcut, hrender⟩ := split_eq_some_iff.mp hsplit
  obtain ⟨o₁, hspec, hnone, hparams, hstored⟩ := store_spec hstore
  rw [← hs] at hrender
  by_cases hzero : 0 ∈ front
  · obtain ⟨rest, hreading⟩ := reading_zero hcut hspec hstored hzero hrender
    exact ⟨p, rest, o₁, hreading⟩
  · have hclean : ∀ b ∈ front ++ opened question (pieces table params).params,
        (b != 0) = true := by
      intro b hb
      refine bne_iff_ne.mpr ?_
      rintro rfl
      rcases List.mem_append.mp hb with hb | hb
      · exact hzero hb
      · exact zero_notMem_opened hb
    rw [List.takeWhile_eq_self_iff.mpr hclean, Pieces.render] at hrender
    rcases List.append_eq_append_iff.mp hrender with ⟨rest, hfront, hrest⟩ | ⟨t, hfront, ht⟩
    · rcases rest with _ | ⟨b, rest⟩
      · rw [List.append_nil] at hfront
        exact ⟨p, [], o₁,
          reading_whole hcut hspec hzero hfront (opened_injective hrest) hparams⟩
      · exact ⟨p, b :: rest, o₁, reading_early hcut hspec hstored hparams hfront hrest⟩
    · rcases t with _ | ⟨b, t⟩
      · rw [List.append_nil] at hfront
        exact ⟨p, [], o₁,
          reading_whole hcut hspec hzero hfront.symm (opened_injective ht.symm) hparams⟩
      · exact (not_in_pieces hnone hparams hfurther ht).elim

end PostgresUri

end Persista
