import Persista.Uri.PostgresReading
import Mathlib.Data.Bool.AllAny

/-!
# Which connection parameters a URI preserves

libpq reads back the parameters of a keyword/value string exactly when each of them can stand where
`to_uri` puts it: a part is not empty, no delimiter ends it early, there is no `%` in it to be read
as an escape, a password has a user before it, and no option has a space. Without a user, a host and
a port `urlunsplit` writes `//` only in front of a path that starts with two slashes.

That this is enough is a matter of following the cuts. That it is needed is not, since what a
delimiter breaks might be put together again from other pieces, or from a query that starts inside a
part and sets the parts anew. Bytes are counted for this. The plain bytes that are stored are no
more than those of the pieces and of what follows them before the query that was written; if the
parameters read back, they are as many as were written in front of that query. So nothing follows
the pieces, none of them has an escape, and each is the parameter that is stored from it. Then the
delimiters are counted.

## Main results

* `PostgresUri.Reading.rest_eq_nil` — all in front of the query is pieces without escapes
* `PostgresUri.Exactly.delimiters` — the delimiters are those that were written
* `PostgresUri.to_uri_preserves_iff` — when libpq reads back the parameters of a connection string
-/

namespace Persista

namespace PostgresUri

open Libpq Urllib

variable {K : Type} [DecidableEq K] {table : OptionTable K} {params : Params K}

/-! ### What reading the parameters back says about the pieces -/

omit [DecidableEq K] in
theorem plain_le_of_fromPieces {p : Pieces} {o : Options K} (h : FromPieces p o) {k : Keyword K}
    (hk : k ∈ places) :
    ((o k).getD []).countP isPlain ≤ (p.raw k).countP isPlain ∧
      (percent ∈ p.raw k → ((o k).getD []).countP isPlain < (p.raw k).countP isPlain) := by
  rcases h k hk with ⟨hraw, ho⟩ | ⟨-, v, hv, ho⟩
  · rw [hraw, ho]
    exact ⟨le_rfl, nofun⟩
  · rw [ho, Option.getD_some]
    refine ⟨hv.plain_le.1, fun hmem => ?_⟩
    have hlt := hv.plain_le.2 hmem
    omega

omit [DecidableEq K] in
theorem eq_raw_of_fromPieces {p : Pieces} {o : Options K} (h : FromPieces p o) {k : Keyword K}
    (hk : k ∈ places) (hpercent : percent ∉ p.raw k) :
    (o k).getD [] = p.raw k ∧ o k ≠ some [] := by
  rcases h k hk with ⟨hraw, ho⟩ | ⟨hraw, v, hv, ho⟩
  · rw [hraw, ho]
    exact ⟨rfl, nofun⟩
  · rw [ho, hv.eq_of_notMem hpercent]
    exact ⟨rfl, fun heq => hraw (Option.some.inj heq)⟩

omit [DecidableEq K] in
theorem countP_eq_of_total_le {f : UInt8 → Bool} {v w : Keyword K → Bytes}
    (hle : ∀ k ∈ places, (v k).countP f ≤ (w k).countP f) (h : total f w ≤ total f v) :
    ∀ k ∈ places, (v k).countP f = (w k).countP f := by
  simp only [places, List.forall_mem_cons, List.not_mem_nil, false_implies, implies_true,
    and_true, total_eq] at hle h ⊢
  omega

/-- **All of `front` is pieces, and none of them has an escape**, if no more is written than is
stored. -/
theorem Reading.rest_eq_nil {front rest : Bytes} {o o₁ : Options K} {p : Pieces}
    (r : Reading table params front o p rest o₁) (hweight : front.countP isPlain ≤ weight o) :
    rest = [] ∧ ∀ k ∈ places (K := K), percent ∉ p.raw k := by
  have hfront : front.countP isPlain = total isPlain (p.raw (K := K)) + rest.countP isPlain := by
    rw [r.front_eq, List.countP_append, countP_isPlain_front (K := K) p r.cut.hosts_ne]
  have hle : ∀ k ∈ places, ((o₁ k).getD []).countP isPlain ≤ (p.raw k).countP isPlain :=
    fun k hk => (plain_le_of_fromPieces r.spec hk).1
  have htotal : weight o₁ ≤ total isPlain p.raw := total_mono hle
  have hsame : weight o = weight o₁ := by
    rcases r.stored with hsame | hlt
    · exact total_congr fun k hk => by rw [hsame k hk]
    · omega
  have hrest : rest.countP isPlain = 0 := by omega
  refine ⟨?_, fun k hk hmem => ?_⟩
  · rcases rest with _ | ⟨b, rest⟩
    · rfl
    · rw [countP_cons] at hrest
      rcases r.head_rest b rfl with rfl | rfl
      · have hone : [question].countP isPlain = 1 := by decide
        omega
      · have hone : [(0 : UInt8)].countP isPlain = 1 := by decide
        omega
  · have heq := countP_eq_of_total_le hle (show total isPlain p.raw ≤ weight o₁ by omega)
    have hlt := (plain_le_of_fromPieces r.spec hk).2 hmem
    rw [heq k hk] at hlt
    exact lt_irrefl _ hlt

theorem expected_getD (params : Params K) (k : Keyword K) :
    (expected params k).getD [] = Utf8.encode (part params k) := by
  rw [expected, part]
  cases params.get? k <;> rfl

/-- The options by name. -/
def otherOf : Keyword K → Option K
  | .other k => some k
  | _ => none

omit [DecidableEq K] in
theorem otherOf_eq_some {key : Keyword K} {k : K} : otherOf key = some k ↔ key = .other k := by
  cases key <;> simp [otherOf]

omit [DecidableEq K] in
theorem mem_further_iff {x : K × List Char} :
    x ∈ further params ↔ (.other x.1, x.2) ∈ params.entries := by
  rw [further, List.mem_filterMap]
  constructor
  · rintro ⟨⟨key, v⟩, hmem, heq⟩
    cases key with
    | other k =>
      obtain rfl := Option.some.inj heq
      exact hmem
    | _ => cases heq
  · intro hmem
    exact ⟨_, hmem, rfl⟩

omit [DecidableEq K] in
theorem nodup_further (params : Params K) : ((further params).map Prod.fst).Nodup := by
  have hkeys : (further params).map Prod.fst = params.keys.filterMap otherOf := by
    rw [further, Dict.keys, List.map_filterMap, List.filterMap_map]
    refine List.filterMap_congr fun p _ => ?_
    rcases p with ⟨key, v⟩
    cases key <;> rfl
  rw [hkeys]
  refine params.nodup.filterMap fun a b k ha hb => ?_
  rw [otherOf_eq_some.mp ha, otherOf_eq_some.mp hb]

/-- Each piece is the parameter, and each option reads back as it is. -/
structure Exactly (params : Params K) (p : Pieces) : Prop where
  cut : p.Cut
  zero : 0 ∉ p.front
  raw : ∀ k ∈ places, p.raw k = Utf8.encode (part params k)
  plain : ∀ k ∈ places (K := K), percent ∉ p.raw k
  present : ∀ k ∈ places, params.get? k ≠ some []
  options : ∀ k v, params.get? (.other k) = some v → ' ' ∉ v ∧ '\x00' ∉ v

theorem exactly_of_reading {front rest : Bytes} {p : Pieces} {o₁ : Options K}
    (r : Reading table params front (expected params) p rest o₁)
    (hweight : front.countP isPlain ≤ weight (expected params)) :
    p.front = front ∧ Exactly params p := by
  obtain ⟨rfl, hpercent⟩ := r.rest_eq_nil hweight
  obtain ⟨hzero, hvalues, hall⟩ := r.whole rfl
  have hfront : front = p.front := by rw [r.front_eq, List.append_nil]
  have hsame : ∀ k ∈ places, expected params k = o₁ k := by
    intro k hk
    rw [hall]
    refine storeAll_of_notMem (fun x _ => ?_) o₁
    rintro rfl
    simp [places] at hk
  refine ⟨hfront.symm, r.cut, hfront ▸ hzero, fun k hk => ?_, hpercent, fun k hk hnil => ?_,
    fun k v hkv => ?_⟩
  · rw [← expected_getD, hsame k hk, (eq_raw_of_fromPieces r.spec hk (hpercent k hk)).1]
  · refine (eq_raw_of_fromPieces r.spec hk (hpercent k hk)).2 ?_
    rw [← hsame k hk, expected, hnil]
    rfl
  · have hx : (k, v) ∈ further params := mem_further_iff.mpr (Dict.get?_eq_some_iff.mp hkv)
    have hstored := storeAll_of_mem (nodup_further params) hx o₁
    rw [← hall, expected, hkv, Option.map_some, Option.some_inj] at hstored
    exact ⟨fun hmem => map_spaceToPlus_eq_iff.mp hstored.symm
      ((Utf8.ofNat_mem_encode_iff (by decide)).mpr hmem), fun hmem => hvalues _ hx
      ((Utf8.ofNat_mem_encode_iff (by decide)).mpr hmem)⟩

/-! ### The delimiters -/

theorem userinfo_of_eq_nil (table : OptionTable K) (h : part params .user = []) :
    (pieces table params).userinfo = none := by
  rw [pieces, written_of_eq_nil h]
  rfl

theorem userinfo_of_ne_nil (table : OptionTable K) (h : part params .user ≠ []) :
    (pieces table params).userinfo =
      some ⟨Utf8.encode (part params .user), written params .password⟩ := by
  rw [pieces, written_of_ne_nil h]
  rfl

theorem written_eq_some {key : Keyword K} {b : Bytes} (h : written params key = some b) :
    b = Utf8.encode (part params key) := by
  rw [written] at h
  split at h
  · cases h
  · exact (Option.some.inj h).symm

theorem written_getD (params : Params K) (key : Keyword K) :
    (written params key).getD [] = Utf8.encode (part params key) := by
  by_cases h : part params key = []
  · rw [written_of_eq_nil h, h]
    rfl
  · rw [written_of_ne_nil h]
    rfl

theorem hasServer_iff :
    HasServer params ↔ part params .user ≠ [] ∨ part params .host ≠ [] ∨ part params .port ≠ [] ∨
      (part params .dbname).head? = some '/' := by
  by_cases huser : part params .user = []
  · by_cases hport : part params .port = [] <;> simp [HasServer, netloc, huser, hport]
  · simp [HasServer, netloc, huser]

/-- The raw pieces are the parts; a password is written after a user only. -/
theorem raw_pieces (table : OptionTable K) (params : Params K) {k : Keyword K} (hk : k ∈ places) :
    (pieces table params).raw k = Utf8.encode (part params k) ∨
      part params .user = [] ∧ k = .password ∧ (pieces table params).raw k = [] := by
  by_cases huser : part params .user = []
  · have hnone := userinfo_of_eq_nil table huser
    cases k with
    | user => exact .inl (by rw [Pieces.raw, hnone, huser]; rfl)
    | password => exact .inr ⟨huser, rfl, by rw [Pieces.raw, hnone]; rfl⟩
    | host => exact .inl rfl
    | port => exact .inl (written_getD params .port)
    | dbname => exact .inl rfl
    | other k => simp [places] at hk
  · have hsome := userinfo_of_ne_nil table huser
    refine .inl ?_
    cases k with
    | user => rw [Pieces.raw, hsome]; rfl
    | password => rw [Pieces.raw, hsome]; exact written_getD params .password
    | host => rfl
    | port => exact written_getD params .port
    | dbname => rfl
    | other k => simp [places] at hk

theorem total_pieces_le (f : UInt8 → Bool) :
    total f ((pieces table params).raw (K := K)) ≤
      total f fun k : Keyword K => Utf8.encode (part params k) := by
  refine total_mono fun k hk => ?_
  rcases raw_pieces table params hk with h | ⟨-, -, h⟩
  · rw [h]
  · rw [h]
    exact Nat.zero_le _

/-- There is a user to be read exactly when one was written, and without one no password. -/
theorem Exactly.user {p : Pieces} (e : Exactly params p)
    (h : p.front = (pieces table params).front) :
    (p.userinfo = none ↔ part params .user = []) ∧
      (part params .user = [] → part params .password = []) := by
  have htotal : total (· == atSign) (p.raw (K := K)) =
      total (· == atSign) fun k : Keyword K => Utf8.encode (part params k) := total_congr e.raw
  have hat : p.userinfo.isSome.toNat + total (· == atSign) (p.raw (K := K)) =
      (pieces table params).userinfo.isSome.toNat +
        total (· == atSign) ((pieces table params).raw (K := K)) := by
    have hcount : [comma].countP (· == atSign) = 0 ∧ [atSign].countP (· == atSign) = 1 ∧
        [colon].countP (· == atSign) = 0 ∧ [opening].countP (· == atSign) = 0 ∧
          [closing].countP (· == atSign) = 0 ∧ [slash].countP (· == atSign) = 0 := by decide
    have hr := countP_front (K := K) (· == atSign) p e.cut.hosts_ne
    have hw := countP_front (K := K) (· == atSign) (pieces table params) (List.cons_ne_nil _ _)
    rw [h] at hr
    simp only [hcount, Nat.mul_zero, Nat.mul_one, Nat.add_zero] at hr hw
    omega
  by_cases hnil : part params .user = []
  · have hnone := userinfo_of_eq_nil table hnil
    have hle : total (· == atSign) ((pieces table params).raw (K := K)) ≤
        total (· == atSign) (p.raw (K := K)) := (total_pieces_le _).trans_eq htotal.symm
    have hp : p.userinfo = none := by
      rw [hnone, Option.isSome_none, Bool.toNat_false] at hat
      rcases hp : p.userinfo with _ | u
      · rfl
      · rw [hp, Option.isSome_some, Bool.toNat_true] at hat
        omega
    refine ⟨⟨fun _ => hnil, fun _ => hp⟩, fun _ => ?_⟩
    have hraw := e.raw .password (by simp [places])
    rw [Pieces.raw, hp] at hraw
    exact Utf8.encode_injective
      (show Utf8.encode (part params .password) = Utf8.encode [] from hraw.symm)
  · have hsome : (pieces table params).userinfo.isSome.toNat = 1 := by
      rw [userinfo_of_ne_nil table hnil]
      rfl
    have heq : total (· == atSign) ((pieces table params).raw (K := K)) =
        total (· == atSign) (p.raw (K := K)) := by
      refine total_congr fun k hk => ?_
      rcases raw_pieces table params hk with hraw | ⟨hno, -⟩
      · rw [hraw, e.raw k hk]
      · exact absurd hno hnil
    refine ⟨⟨fun hp => ?_, fun hno => absurd hno hnil⟩, fun hno => absurd hno hnil⟩
    rw [hp, hsome, heq, Option.isSome_none, Bool.toNat_false] at hat
    omega

/-- The delimiters that were read are those that were written. -/
theorem Exactly.delimiters {p : Pieces} (e : Exactly params p)
    (h : p.front = (pieces table params).front) : p.hosts.length = 1 ∧ p.brackets = 0 := by
  have hone : (pieces table params).hosts.length - 1 = 0 ∧ (pieces table params).brackets = 0 :=
    ⟨rfl, rfl⟩
  have hsame : ∀ f, total f ((pieces table params).raw (K := K)) = total f (p.raw (K := K)) := by
    intro f
    refine total_congr fun k hk => ?_
    rcases raw_pieces table params hk with hraw | ⟨hnil, rfl, hraw⟩
    · rw [hraw, e.raw k hk]
    · rw [hraw, e.raw _ hk, (e.user h).2 hnil]
      rfl
  have hread := fun f => countP_front (K := K) f p e.cut.hosts_ne
  have hwritten := fun f =>
    countP_front (K := K) f (pieces table params) (List.cons_ne_nil _ _)
  constructor
  · have hcount : [comma].countP (· == comma) = 1 ∧ [atSign].countP (· == comma) = 0 ∧
        [colon].countP (· == comma) = 0 ∧ [opening].countP (· == comma) = 0 ∧
          [closing].countP (· == comma) = 0 ∧ [slash].countP (· == comma) = 0 := by decide
    have hr := hread (· == comma)
    have hw := hwritten (· == comma)
    have hne := List.length_pos_of_ne_nil e.cut.hosts_ne
    rw [h, ← hsame] at hr
    simp only [hcount, hone, Nat.mul_zero, Nat.mul_one, Nat.add_zero] at hr hw
    omega
  · have hcount : [comma].countP (· == opening) = 0 ∧ [atSign].countP (· == opening) = 0 ∧
        [colon].countP (· == opening) = 0 ∧ [opening].countP (· == opening) = 1 ∧
          [closing].countP (· == opening) = 0 ∧ [slash].countP (· == opening) = 0 := by decide
    have hr := hread (· == opening)
    have hw := hwritten (· == opening)
    rw [h, ← hsame] at hr
    simp only [hcount, hone, Nat.mul_zero, Nat.mul_one, Nat.add_zero] at hr hw
    omega

/-! ### Which parameters are preserved -/

/-- The parameters that a URI preserves. A part is not empty, is ended by no delimiter and has no
escape; a password, or an `@`, has a user before it; an option has no space; and there is a user, a
host or a port, or the database starts with a slash. -/
structure Preserved (params : Params K) : Prop where
  present : ∀ k ∈ places, params.get? k ≠ some []
  server : part params .user ≠ [] ∨ part params .host ≠ [] ∨ part params .port ≠ [] ∨
    (part params .dbname).head? = some '/'
  user : ∀ c ∈ ['\x00', '%', '/', ':', '@'], c ∉ part params .user
  password : ∀ c ∈ ['\x00', '%', '/', '@'], c ∉ part params .password
  host : ∀ c ∈ ['\x00', '%', '/', ':', '?', ','], c ∉ part params .host
  port : ∀ c ∈ ['\x00', '%', '/', '?', ','], c ∉ part params .port
  dbname : ∀ c ∈ ['\x00', '%', '?'], c ∉ part params .dbname
  bracket : (part params .host).head? ≠ some '['
  userless : part params .user = [] →
    part params .password = [] ∧ '@' ∉ part params .host ∧ '@' ∉ part params .port
  options : ∀ k v, params.get? (.other k) = some v → ' ' ∉ v ∧ '\x00' ∉ v

/-- A character in ASCII is in a part exactly when its byte is. -/
theorem forall_notMem_part {cs : List Char} (hcs : cs.all fun c => c.toNat < 128)
    {s : List Char} :
    (∀ c ∈ cs, c ∉ s) ↔ ∀ b ∈ cs.map fun c => UInt8.ofNat c.toNat, b ∉ Utf8.encode s := by
  rw [List.forall_mem_map]
  refine forall₂_congr fun c hc => not_congr (Utf8.ofNat_mem_encode_iff ?_).symm
  exact of_decide_eq_true (List.all_eq_true.mp hcs c hc)

theorem mem_opened_iff {b d : UInt8} {s : Option Bytes} :
    b ∈ opened d s ↔ s.isSome ∧ b = d ∨ b ∈ s.getD [] := by
  cases s <;> simp [opened]

/-- An `@` in front of all slashes ends a user part. -/
theorem notMem_of_cutUserinfo {a rest : Bytes} (h : CutUserinfo (a ++ rest) none)
    (ha : slash ∉ a) : atSign ∉ a := by
  intro hmem
  obtain ⟨x, y, rfl, -⟩ := List.eq_append_cons_of_mem hmem
  exact ha (List.mem_append_left _ (h x (y ++ rest) (by simp)))

theorem cutUserinfo_of_notMem {a : Bytes} (h : atSign ∉ a) (rest : Bytes) :
    CutUserinfo (a ++ slash :: rest) none := by
  intro x y heq
  rcases List.append_eq_append_iff.mp heq with ⟨t, rfl, ht⟩ | ⟨t, rfl, ht⟩
  · cases t with
    | nil => cases ht
    | cons b t =>
      obtain ⟨rfl, -⟩ := List.cons.inj ht
      simp
  · cases t with
    | nil => cases ht
    | cons b t =>
      obtain ⟨rfl, -⟩ := List.cons.inj ht
      exact absurd (by simp) h

omit [DecidableEq K] in
theorem user_of_cut {p : Pieces} (h : p.Cut) :
    (∀ b ∈ p.raw (.user : Keyword K), b ≠ colon ∧ b ≠ atSign ∧ b ≠ slash) ∧
      ∀ b ∈ p.raw (.password : Keyword K), b ≠ atSign ∧ b ≠ slash := by
  have huserinfo := h.userinfo
  rw [Pieces.raw, Pieces.raw]
  rcases hu : p.userinfo with _ | ⟨user, password⟩
  · exact ⟨fun _ hb => absurd hb List.not_mem_nil, fun _ hb => absurd hb List.not_mem_nil⟩
  · rw [hu] at huserinfo
    refine ⟨huserinfo.1, ?_⟩
    cases password with
    | none => exact fun _ hb => absurd hb List.not_mem_nil
    | some password => exact huserinfo.2 password rfl

omit [DecidableEq K] in
theorem question_notMem_dbname {p : Pieces} (h : p.Cut) :
    question ∉ p.raw (.dbname : Keyword K) := by
  rw [Pieces.raw]
  rcases hd : p.dbname with _ | dbname
  · exact List.not_mem_nil
  · exact h.dbname dbname hd

theorem port_of_cut {h : HostPort} (hcut : h.Cut) : ∀ b ∈ h.port.getD [], isPortByte b := by
  rcases hp : h.port with _ | port
  · exact nofun
  · exact hcut.port port hp

/-- A host without brackets has no slash, and nor does its port. -/
theorem slash_notMem_render {h : HostPort} (hcut : h.Cut) (hbracketed : h.bracketed = false) :
    slash ∉ h.render := by
  rw [HostPort.render, hbracketed]
  show slash ∉ h.host ++ opened colon h.port
  rw [List.mem_append, not_or]
  refine ⟨fun hmem => absurd ((hcut.plain hbracketed).1 slash hmem) (by decide), fun hmem => ?_⟩
  rcases mem_opened_iff.mp hmem with ⟨-, heq⟩ | hmem
  · exact absurd heq (by decide)
  · exact absurd (port_of_cut hcut slash hmem) (by decide)

/-- A part has neither a null byte nor an escape, and none of the bytes that end its piece. -/
theorem Exactly.notMem_part {p : Pieces} (e : Exactly params p) {k : Keyword K} (hk : k ∈ places)
    {cs : List Char} (hcs : cs.all fun c => c.toNat < 128)
    (hb : ∀ b ∈ p.raw k, b ≠ 0 → b ≠ percent → b ∉ cs.map fun c => UInt8.ofNat c.toNat) :
    ∀ c ∈ cs, c ∉ part params k := by
  refine (forall_notMem_part hcs).mpr fun b hbs hmem => ?_
  rw [← e.raw k hk] at hmem
  refine hb b hmem ?_ ?_ hbs
  · rintro rfl
    exact e.zero ((zero_mem_front_iff e.cut.hosts_ne).mpr ⟨k, hk, hmem⟩)
  · rintro rfl
    exact e.plain k hk hmem

/-- **Parameters that read back are such parameters.** -/
theorem Exactly.preserved {p : Pieces} (e : Exactly params p)
    (h : p.front = (pieces table params).front) (hserver : HasServer params) :
    Preserved params := by
  obtain ⟨huserinfo, hpassword⟩ := e.user h
  obtain ⟨hlen, hbrackets⟩ := e.delimiters h
  obtain ⟨host, hhosts⟩ := List.length_eq_one_iff.mp hlen
  have hcut : host.Cut := e.cut.hosts host (by rw [hhosts]; exact List.mem_singleton_self host)
  have hbracketed : host.bracketed = false := by
    rw [Pieces.brackets, hhosts, List.countP_singleton] at hbrackets
    simpa using hbrackets
  obtain ⟨hplain, hopening⟩ := hcut.plain hbracketed
  have hhost : p.raw (.host : Keyword K) = host.host := by
    rw [Pieces.raw, hhosts]
    rfl
  have hport : p.raw (.port : Keyword K) = host.port.getD [] := by
    rw [Pieces.raw, hhosts]
    rfl
  refine ⟨e.present, hasServer_iff.mp hserver, ?_, ?_, ?_, ?_, ?_, ?_, ?_, e.options⟩
  · refine e.notMem_part (by simp [places]) (by decide) fun b hb hzero hpercent => ?_
    obtain ⟨hcolon, hat, hslash⟩ := (user_of_cut e.cut).1 b hb
    show b ∉ [0, percent, slash, colon, atSign]
    simp [hzero, hpercent, hcolon, hat, hslash]
  · refine e.notMem_part (by simp [places]) (by decide) fun b hb hzero hpercent => ?_
    obtain ⟨hat, hslash⟩ := (user_of_cut (K := K) e.cut).2 b hb
    show b ∉ [0, percent, slash, atSign]
    simp [hzero, hpercent, hat, hslash]
  · refine e.notMem_part (by simp [places]) (by decide) fun b hb hzero hpercent => ?_
    rw [hhost] at hb
    have hbyte := hplain b hb
    simp only [isHostByte, Bool.and_eq_true, bne_iff_ne] at hbyte
    show b ∉ [0, percent, slash, colon, question, comma]
    simp [hzero, hpercent, hbyte]
  · refine e.notMem_part (by simp [places]) (by decide) fun b hb hzero hpercent => ?_
    rw [hport] at hb
    have hbyte := port_of_cut hcut b hb
    simp only [isPortByte, Bool.and_eq_true, bne_iff_ne] at hbyte
    show b ∉ [0, percent, slash, question, comma]
    simp [hzero, hpercent, hbyte]
  · refine e.notMem_part (by simp [places]) (by decide) fun b hb hzero hpercent => ?_
    have hquestion : b ≠ question := by
      rintro rfl
      exact question_notMem_dbname e.cut hb
    show b ∉ [0, percent, question]
    simp [hzero, hpercent, hquestion]
  · intro hbracket
    refine hopening ?_
    rw [← hhost, e.raw .host (by simp [places]), List.eq_cons_of_mem_head? hbracket,
      Utf8.encode_cons]
    rfl
  · intro hno
    have hcutuser := e.cut.userinfo
    rw [huserinfo.mpr hno, hhosts, List.append_assoc] at hcutuser
    have hat : atSign ∉ host.render :=
      notMem_of_cutUserinfo hcutuser (slash_notMem_render hcut hbracketed)
    rw [HostPort.render, hbracketed] at hat
    obtain ⟨hathost, hatport⟩ := not_or.mp (List.mem_append.not.mp hat)
    refine ⟨hpassword hno, fun hmem => hathost ?_, fun hmem => hatport ?_⟩
    · rw [← hhost, e.raw .host (by simp [places])]
      exact (Utf8.ofNat_mem_encode_iff (by decide)).mpr hmem
    · refine mem_opened_iff.mpr (.inr ?_)
      rw [← hport, e.raw .port (by simp [places])]
      exact (Utf8.ofNat_mem_encode_iff (by decide)).mpr hmem

theorem plain_pieces_le :
    (pieces table params).front.countP isPlain ≤ weight (expected params) := by
  rw [countP_isPlain_front (K := K) _ (List.cons_ne_nil _ _)]
  refine (total_pieces_le isPlain).trans_eq (total_congr fun k _ => ?_)
  rw [expected_getD]

theorem exists_cons_of_takeWhile {f : UInt8 → Bool} {bytes s : Bytes} {b : UInt8}
    (h : bytes.takeWhile f = b :: s) : ∃ t, bytes = b :: t := by
  cases bytes with
  | nil => cases h
  | cons c bytes =>
    rw [List.takeWhile_cons] at h
    split at h
    · exact ⟨bytes, congrArg (· :: bytes) (List.cons.inj h).1⟩
    · cases h

/-- What is written before the query starts with a slash only if the database does. -/
theorem head_of_slash_cons {bytes : Bytes}
    (h : Utf8.encode (part params .dbname) ++ opened question (pieces table params).params =
      slash :: bytes) : (part params .dbname).head? = some '/' := by
  rcases hd : Utf8.encode (part params .dbname) with _ | ⟨b, rest⟩
  · rw [hd, List.nil_append] at h
    cases hq : (pieces table params).params with
    | none =>
      rw [hq] at h
      cases h
    | some q =>
      rw [hq] at h
      exact absurd (List.cons.inj h).1 (by decide)
  · rw [hd, List.cons_append] at h
    rw [(List.cons.inj h).1] at hd
    obtain ⟨c, t, hc, hcode, -⟩ := Utf8.eq_cons_of_encode_eq_cons (by decide) hd
    have hslash : c = '/' := Char.toNat_inj.mp hcode
    rw [hc, hslash]
    rfl

theorem preserved_of_parse
    (h : parse table (Utf8.encode (paramsUri table params)) = some (expected params)) :
    Preserved params := by
  rw [encode_paramsUri, parse_eq_some_iff] at h
  obtain ⟨s, hs, hread⟩ := h
  have hfurther : ∀ x ∈ further params, expected params (.other x.1) ≠ none := by
    intro x hx hnone
    rw [expected, Dict.get?_eq_some_iff.mpr (mem_further_iff.mp hx)] at hnone
    cases hnone
  by_cases hserver : HasServer params
  · rw [beforeQuery, if_pos hserver, List.cons_append, List.takeWhile_cons_of_pos (by decide)] at hs
    obtain ⟨p, rest, o₁, hreading⟩ := exists_reading (List.cons.inj hs).2 hread hfurther
    obtain ⟨hfront, hexactly⟩ := exactly_of_reading hreading plain_pieces_le
    exact hexactly.preserved hfront hserver
  · -- `postgresql:/` is followed by the database, which does not start with a slash.
    rw [beforeQuery, if_neg hserver] at hs
    obtain ⟨bytes, hbytes⟩ := exists_cons_of_takeWhile hs
    exact absurd (head_of_slash_cons hbytes) fun hhead => hserver (.inr hhead)

/-! ### Such parameters read back -/

theorem Preserved.raw (h : Preserved params) {k : Keyword K} (hk : k ∈ places) :
    (pieces table params).raw k = Utf8.encode (part params k) := by
  rcases raw_pieces table params hk with hraw | ⟨huser, rfl, hraw⟩
  · exact hraw
  · rw [hraw, (h.userless huser).1]
    rfl

/-- What a part does not have is not in its bytes. -/
theorem notMem_of_part {cs : List Char} {s : List Char} (h : ∀ c ∈ cs, c ∉ s)
    (hcs : cs.all fun c => c.toNat < 128) {b : UInt8} (hb : b ∈ Utf8.encode s) :
    b ∉ cs.map fun c => UInt8.ofNat c.toNat :=
  fun hmem => (forall_notMem_part hcs).mp h b hmem hb

theorem Preserved.user_bytes (h : Preserved params) {b : UInt8}
    (hb : b ∈ Utf8.encode (part params .user)) : b ∉ [0, percent, slash, colon, atSign] :=
  notMem_of_part h.user (by decide) hb

theorem Preserved.password_bytes (h : Preserved params) {b : UInt8}
    (hb : b ∈ Utf8.encode (part params .password)) : b ∉ [0, percent, slash, atSign] :=
  notMem_of_part h.password (by decide) hb

theorem Preserved.host_bytes (h : Preserved params) {b : UInt8}
    (hb : b ∈ Utf8.encode (part params .host)) :
    b ∉ [0, percent, slash, colon, question, comma] :=
  notMem_of_part h.host (by decide) hb

theorem Preserved.port_bytes (h : Preserved params) {b : UInt8}
    (hb : b ∈ Utf8.encode (part params .port)) : b ∉ [0, percent, slash, question, comma] :=
  notMem_of_part h.port (by decide) hb

theorem Preserved.dbname_bytes (h : Preserved params) {b : UInt8}
    (hb : b ∈ Utf8.encode (part params .dbname)) : b ∉ [0, percent, question] :=
  notMem_of_part h.dbname (by decide) hb

theorem Preserved.plain (h : Preserved params) {k : Keyword K} (hk : k ∈ places) {b : UInt8}
    (hb : b ∈ (pieces table params).raw k) : b ≠ 0 ∧ b ≠ percent := by
  rw [h.raw hk] at hb
  cases k with
  | user => have hno := h.user_bytes hb; simp_all
  | password => have hno := h.password_bytes hb; simp_all
  | host => have hno := h.host_bytes hb; simp_all
  | port => have hno := h.port_bytes hb; simp_all
  | dbname => have hno := h.dbname_bytes hb; simp_all
  | other k => simp [places] at hk

theorem Preserved.cut (h : Preserved params) : (pieces table params).Cut := by
  refine ⟨?_, List.cons_ne_nil _ _, fun host hhost => ?_, fun dbname hdbname hmem => ?_⟩
  · by_cases huser : part params .user = []
    · obtain ⟨-, hhost, hport⟩ := h.userless huser
      have hat :
          atSign ∉ Utf8.encode (part params .host) ++ opened colon (written params .port) := by
        rw [List.mem_append, mem_opened_iff, written_getD, not_or, not_or]
        refine ⟨fun hmem => hhost ?_, fun hmem => absurd hmem.2 (by decide), fun hmem => hport ?_⟩
        · exact (Utf8.ofNat_mem_encode_iff (by decide)).mp hmem
        · exact (Utf8.ofNat_mem_encode_iff (by decide)).mp hmem
      rw [userinfo_of_eq_nil table huser, List.append_assoc]
      exact cutUserinfo_of_notMem hat _
    · rw [userinfo_of_ne_nil table huser]
      refine ⟨fun b hb => ?_, fun password hpassword b hb => ?_⟩
      · have hno := h.user_bytes hb
        simp_all
      · have hno := h.password_bytes (written_eq_some hpassword ▸ hb)
        simp_all
  · rw [List.mem_singleton.mp hhost]
    refine ⟨fun hbracketed => absurd hbracketed Bool.false_ne_true,
      fun _ => ⟨fun b hb => ?_, fun hopening => ?_⟩, fun port hport b hb => ?_⟩
    · have hno := h.host_bytes hb
      simp_all [isHostByte]
    · obtain ⟨c, t, hc, hcode, -⟩ :=
        Utf8.eq_cons_of_encode_eq_cons (by decide) (List.eq_cons_of_mem_head? hopening)
      have hbracket : c = '[' := Char.toNat_inj.mp hcode
      exact h.bracket (by rw [hc, hbracket]; rfl)
    · have hno := h.port_bytes (written_eq_some hport ▸ hb)
      simp_all [isPortByte]
  · obtain rfl := Option.some.inj hdbname
    exact h.dbname_bytes hmem (by simp)

/-- A part that is there is stored. -/
theorem Preserved.expected_eq (h : Preserved params) (table : OptionTable K) {k : Keyword K}
    (hk : k ∈ places) :
    expected params k =
      if (pieces table params).raw k ≠ [] then some ((pieces table params).raw k) else none := by
  have hpart := expected_getD params k
  have hpresent := h.present k hk
  rw [h.raw hk, ← hpart, expected]
  rcases hget : params.get? k with _ | v
  · rfl
  · rw [hget] at hpresent
    have hne : Utf8.encode v ≠ [] := fun hnil =>
      hpresent (congrArg some (Utf8.encode_injective (hnil.trans Utf8.encode_nil.symm)))
    rw [Option.map_some, Option.getD_some, if_pos hne]

/-- What is stored for such parameters is the parameters. -/
theorem Preserved.store (h : Preserved params) :
    store table (pieces table params) = some (expected params) := by
  have hpieces := foldlM_storePiece (p := pieces table params) (pieces table params).raw places
    (fun _ => none) fun k hk _ => Decodes.self fun hmem => (h.plain hk hmem).2 rfl
  rw [Libpq.store, hpieces, params_pieces_getD, segments_query]
  refine foldlM_queryParam_iff.mpr ⟨fun x hx hzero => ?_, funext fun key => ?_⟩
  · have hx' := Dict.get?_eq_some_iff.mpr (mem_further_iff.mp hx)
    exact (h.options x.1 x.2 hx').2 ((Utf8.ofNat_mem_encode_iff (by decide)).mp hzero)
  · by_cases hkey : key ∈ places
    · rw [h.expected_eq table hkey, storeAll_of_notMem fun x _ => ?_]
      · simp [hkey]
      · rintro rfl
        simp [places] at hkey
    · obtain ⟨k, rfl⟩ : ∃ k, key = .other k := by
        cases key with
        | other k => exact ⟨k, rfl⟩
        | _ => simp [places] at hkey
      rw [expected]
      rcases hget : params.get? (.other k) with _ | v
      · rw [storeAll_of_notMem fun x hx heq => ?_, if_neg fun hno => hkey hno.1]
        · rfl
        · rw [heq, Dict.get?_eq_some_iff.mpr (mem_further_iff.mp hx)] at hget
          cases hget
      · have hx : (k, v) ∈ further params := mem_further_iff.mpr (Dict.get?_eq_some_iff.mp hget)
        have hspace : 32 ∉ Utf8.encode v := fun hmem =>
          (h.options k v hget).1 ((Utf8.ofNat_mem_encode_iff (by decide)).mp hmem)
        rw [storeAll_of_mem (nodup_further params) hx, map_spaceToPlus_eq_iff.mpr hspace]
        rfl

theorem parse_of_preserved (h : Preserved params) :
    parse table (Utf8.encode (paramsUri table params)) = some (expected params) := by
  have hclean : ∀ b ∈ slash :: (pieces table params).render, (b != 0) = true := by
    intro b hb
    refine bne_iff_ne.mpr ?_
    rintro rfl
    rw [List.mem_cons, Pieces.render, List.mem_append,
      zero_mem_front_iff (List.cons_ne_nil _ _)] at hb
    rcases hb with hb | ⟨k, hk, hb⟩ | hb
    · exact absurd hb (by decide)
    · exact (h.plain (K := K) hk hb).1 rfl
    · exact zero_notMem_opened hb
  rw [encode_paramsUri, parse_eq_some_iff, beforeQuery, if_pos (hasServer_iff.mpr h.server),
    List.cons_append]
  refine ⟨(pieces table params).render, List.takeWhile_eq_self_iff.mpr hclean, ?_⟩
  rw [split_eq_some_iff.mpr ⟨h.cut, rfl⟩, Option.bind_some, h.store]

/-- **When `to_uri` preserves the parameters of a keyword/value string.** -/
theorem to_uri_preserves_iff (checks : NetlocChecks)
    {conninfoToDict : List Char → Option (Params K)} {conninfo : List Char}
    (hconninfo : IsKeywordValue conninfo) (hparams : conninfoToDict conninfo = some params) :
    ((toUri table checks conninfoToDict conninfo).bind fun uri => parse table (Utf8.encode uri)) =
      some (expected params) ↔ Preserved params := by
  rw [toUri_of_isKeywordValue table checks hconninfo hparams, Option.bind_some]
  exact ⟨preserved_of_parse, parse_of_preserved⟩

/-! ### A space in an option -/

/-- Two of the options. -/
inductive SomeOption
  | sslmode
  | applicationName
  deriving DecidableEq

/-- Their table. -/
def someTable : OptionTable SomeOption where
  name
    | .sslmode => "sslmode".toList
    | .applicationName => "application_name".toList
  find b :=
    if b = word "sslmode" then some .sslmode
    else if b = word "application_name" then some .applicationName
    else none
  find_eq_some b k := by
    have hne : word "application_name" ≠ word "sslmode" := by decide
    by_cases hssl : b = word "sslmode"
    · subst hssl
      cases k with
      | sslmode => exact ⟨fun _ => rfl, fun _ => rfl⟩
      | applicationName => exact ⟨nofun, fun h => absurd h.symm hne⟩
    · rw [if_neg hssl]
      by_cases hname : b = word "application_name"
      · subst hname
        cases k with
        | sslmode => exact ⟨nofun, fun h => absurd h hne⟩
        | applicationName => exact ⟨fun _ => rfl, fun _ => rfl⟩
      · rw [if_neg hname]
        cases k with
        | sslmode => exact ⟨nofun, fun h => absurd h hssl⟩
        | applicationName => exact ⟨nofun, fun h => absurd h hname⟩
  word k := by cases k <;> decide
  apart k := by cases k <;> decide
  sslmode := .sslmode

/-- `conninfo_to_dict` on one string. -/
def dictOf (conninfo : String) (params : Params SomeOption) (s : List Char) :
    Option (Params SomeOption) :=
  if s = conninfo.toList then some params else none

/-- `urlsplit` with no host in brackets and nothing outside ASCII. -/
def someChecks : NetlocChecks := ⟨fun _ => false, fun _ => true⟩

/-- `host=bar application_name=app`. -/
def plainParams : Params SomeOption where
  entries := [(.host, "bar".toList), (.other .applicationName, "app".toList)]
  nodup := by decide

/-- `host=bar application_name='my app'`. -/
def spacedParams : Params SomeOption where
  entries := [(.host, "bar".toList), (.other .applicationName, "my app".toList)]
  nodup := by decide

theorem to_uri_preserves_plain :
    ((toUri someTable someChecks (dictOf "host=bar application_name=app" plainParams)
      "host=bar application_name=app".toList).bind fun uri => parse someTable (Utf8.encode uri)) =
        some (expected plainParams) := by
  refine (to_uri_preserves_iff someChecks ?_ (if_pos rfl)).mpr ?_
  · exact ⟨[], "host".toList, "=bar application_name=app".toList, by decide, by decide, by decide,
      .inr (by decide)⟩
  · refine ⟨by decide, by decide, ?_, ?_, ?_, ?_, ?_, by decide, by decide, fun k v hkv => ?_⟩
    iterate 5 exact List.all_iff_forall_prop.mp (by decide)
    cases k with
    | sslmode => cases hkv
    | applicationName =>
      obtain rfl := Option.some.inj hkv
      decide

/-- The name that is read is `my+app`. -/
theorem to_uri_makes_space_plus :
    ((toUri someTable someChecks (dictOf "host=bar application_name='my app'" spacedParams)
      "host=bar application_name='my app'".toList).bind fun uri =>
        parse someTable (Utf8.encode uri)) ≠ some (expected spacedParams) := by
  intro h
  have hread : (((toUri someTable someChecks
      (dictOf "host=bar application_name='my app'" spacedParams)
        "host=bar application_name='my app'".toList).bind fun uri =>
          parse someTable (Utf8.encode uri)).bind fun o => o (.other .applicationName)) =
      some (word "my+app") := by decide +kernel
  rw [h] at hread
  exact absurd hread (by decide)

end PostgresUri

end Persista
