import Persista.Uri.Libpq

/-!
# What libpq stores

Lemmas about the second half of reading a connection URI: the escapes of a piece, the parameters of
the query, and what ends up under each keyword. They count bytes. What is stored was written, apart
from the commas of a list of hosts, which stand for commas of the hosts and of the ports. A byte is
plain when it is no delimiter of what stands before the query: these are stored once or not at all,
and an escape takes up three of them for one byte.

## Main results

* `Libpq.countP_front` — how often a byte is written, by what is written
* `Libpq.uriDecode_eq_some_iff`, `Libpq.Decodes.plain_le` — what an escaped piece reads as
* `Libpq.mem_segments_of_infix` — what stands between two `&` is in one parameter
* `Libpq.store_spec` — what is stored, and that a query that stores something else pays for it
-/

namespace Libpq

variable {K : Type} [DecidableEq K] {table : OptionTable K}

/-! ### Counting bytes -/

/-- A byte that does not delimit what stands before the query. -/
def isPlain (b : UInt8) : Bool :=
  b != comma && b != slash && b != colon && b != atSign && b != opening && b != closing

/-- The bytes of a kind under the keywords that have a place. -/
def total (f : UInt8 → Bool) (w : Keyword K → Bytes) : ℕ := (places.flatMap w).countP f

omit [DecidableEq K] in
theorem total_eq (f : UInt8 → Bool) (w : Keyword K → Bytes) :
    total f w = (w .user).countP f + (w .password).countP f + (w .host).countP f +
      (w .port).countP f + (w .dbname).countP f := by
  simp only [total, places, List.flatMap_cons, List.flatMap_nil, List.countP_append,
    List.countP_nil]
  omega

omit [DecidableEq K] in
theorem countP_le_total (f : UInt8 → Bool) (w : Keyword K → Bytes) {k : Keyword K}
    (hk : k ∈ places) : (w k).countP f ≤ total f w := by
  rw [total_eq]
  cases k with
  | other k => simp [places] at hk
  | _ => omega

omit [DecidableEq K] in
theorem total_mono {f : UInt8 → Bool} {v w : Keyword K → Bytes}
    (h : ∀ k ∈ places, (v k).countP f ≤ (w k).countP f) : total f v ≤ total f w := by
  simp only [places, List.forall_mem_cons] at h
  rw [total_eq, total_eq]
  omega

omit [DecidableEq K] in
theorem total_congr {f : UInt8 → Bool} {v w : Keyword K → Bytes} (h : ∀ k ∈ places, v k = w k) :
    total f v = total f w := by
  rw [total, total, List.flatMap_congr h]

/-- The colons that are written as delimiters. -/
def Pieces.colons (p : Pieces) : ℕ :=
  (p.userinfo.bind Userinfo.password).isSome.toNat + p.hosts.countP fun h => h.port.isSome

/-- The hosts in brackets. -/
def Pieces.brackets (p : Pieces) : ℕ := p.hosts.countP HostPort.bracketed

theorem countP_cons (f : UInt8 → Bool) (b : UInt8) (s : Bytes) :
    (b :: s).countP f = [b].countP f + s.countP f := by
  rw [← List.singleton_append, List.countP_append]

theorem countP_opened (f : UInt8 → Bool) (b : UInt8) (s : Option Bytes) :
    (opened b s).countP f = (s.getD []).countP f + s.isSome.toNat * [b].countP f := by
  cases s with
  | none => simp [opened]
  | some s =>
    rw [opened, countP_cons, Option.getD_some, Option.isSome_some, Bool.toNat_true]
    omega

theorem countP_render (f : UInt8 → Bool) (h : HostPort) :
    h.render.countP f = h.host.countP f + (h.port.getD []).countP f +
      h.port.isSome.toNat * [colon].countP f +
        h.bracketed.toNat * ([opening].countP f + [closing].countP f) := by
  obtain ⟨bracketed, host, port⟩ := h
  rw [HostPort.render, List.countP_append, countP_opened]
  cases bracketed with
  | true =>
    rw [if_pos rfl, List.countP_append, countP_cons, Bool.toNat_true]
    omega
  | false =>
    rw [if_neg Bool.false_ne_true, Bool.toNat_false]
    omega

theorem countP_cons_host (p : HostPort → Bool) (h : HostPort) (l : List HostPort) :
    (h :: l).countP p = l.countP p + (p h).toNat := by
  rw [List.countP_cons]
  cases p h <;> rfl

/-- Each comma of a list stands for one in the hosts and one in the ports. -/
theorem countP_hosts (f : UInt8 → Bool) {hs : List HostPort} (hne : hs ≠ []) :
    (joined comma (hs.map HostPort.render)).countP f + (hs.length - 1) * [comma].countP f =
      (joined comma (hs.map HostPort.host)).countP f +
        (joined comma (hs.map fun h => h.port.getD [])).countP f +
          (hs.countP fun h => h.port.isSome) * [colon].countP f +
            hs.countP HostPort.bracketed * ([opening].countP f + [closing].countP f) := by
  induction hs with
  | nil => exact absurd rfl hne
  | cons h l ih =>
    have hrender := countP_render f h
    rw [countP_cons_host, countP_cons_host, Nat.add_mul, Nat.add_mul]
    cases l with
    | nil =>
      simp only [List.map_cons, List.map_nil, joined, List.countP_nil, List.length_singleton]
      omega
    | cons h' l =>
      have ih := ih (List.cons_ne_nil h' l)
      have hlen : ((h :: h' :: l).length - 1) * [comma].countP f =
          ((h' :: l).length - 1) * [comma].countP f + [comma].countP f := by
        rw [← Nat.succ_mul]
        rfl
      have hjoined : ∀ s t : Bytes, ∀ l' : List Bytes,
          (joined comma (s :: t :: l')).countP f =
            s.countP f + ([comma].countP f + (joined comma (t :: l')).countP f) := by
        intro s t l'
        rw [joined, List.countP_append, countP_cons]
      rw [hlen]
      simp only [List.map_cons, hjoined] at ih ⊢
      omega

omit [DecidableEq K] in
/-- **What is written of the pieces before the query.** -/
theorem countP_front (f : UInt8 → Bool) (p : Pieces) (hne : p.hosts ≠ []) :
    p.front.countP f + (p.hosts.length - 1) * [comma].countP f =
      total f (p.raw (K := K)) + p.userinfo.isSome.toNat * [atSign].countP f +
        p.colons * [colon].countP f + p.brackets * ([opening].countP f + [closing].countP f) +
          p.dbname.isSome.toNat * [slash].countP f := by
  obtain ⟨userinfo, hosts, dbname, params⟩ := p
  have hhosts := countP_hosts f hne
  have hdbname := countP_opened f slash dbname
  have huserinfo : ((userinfo.map Userinfo.render).getD []).countP f =
      ((userinfo.map Userinfo.user).getD []).countP f +
        ((userinfo.bind Userinfo.password).getD []).countP f +
          userinfo.isSome.toNat * [atSign].countP f +
            (userinfo.bind Userinfo.password).isSome.toNat * [colon].countP f := by
    cases userinfo with
    | none => simp
    | some u =>
      have hpassword := countP_opened f colon u.password
      simp only [Option.map_some, Option.getD_some, Option.bind_some, Option.isSome_some,
        Bool.toNat_true, Userinfo.render, List.countP_append]
      omega
  simp only [total_eq, Pieces.front, Pieces.raw, Pieces.colons, Pieces.brackets,
    List.countP_append, Nat.add_mul] at hhosts ⊢
  omega

omit [DecidableEq K] in
theorem countP_isPlain_front (p : Pieces) (hne : p.hosts ≠ []) :
    p.front.countP isPlain = total isPlain (p.raw (K := K)) := by
  have hfront := countP_front (K := K) isPlain p hne
  have hdelimiter : [comma].countP isPlain = 0 ∧ [atSign].countP isPlain = 0 ∧
      [colon].countP isPlain = 0 ∧ [opening].countP isPlain = 0 ∧ [closing].countP isPlain = 0 ∧
        [slash].countP isPlain = 0 := by decide
  simpa [hdelimiter] using hfront

omit [DecidableEq K] in
/-- A null byte in front of the query is one of a piece. -/
theorem zero_mem_front_iff {p : Pieces} (hne : p.hosts ≠ []) :
    0 ∈ p.front ↔ ∃ k ∈ places (K := K), 0 ∈ p.raw k := by
  have hfront := countP_front (K := K) (· == 0) p hne
  have hdelimiter : [comma].countP (· == (0 : UInt8)) = 0 ∧ [atSign].countP (· == 0) = 0 ∧
      [colon].countP (· == 0) = 0 ∧ [opening].countP (· == 0) = 0 ∧ [closing].countP (· == 0) = 0 ∧
        [slash].countP (· == 0) = 0 := by decide
  have hmem : ∀ s : Bytes, 0 ∈ s ↔ 0 < s.countP (· == 0) := fun s => by
    simp [List.countP_pos_iff]
  simp only [hdelimiter, Nat.mul_zero, Nat.add_zero] at hfront
  rw [hmem, hfront]
  constructor
  · intro hpos
    by_contra hno
    simp only [not_exists, not_and, hmem, Nat.not_lt, Nat.le_zero] at hno
    have hle : total (· == 0) (p.raw (K := K)) ≤ total (· == 0) fun _ : Keyword K => [] :=
      total_mono fun k hk => by rw [hno k hk]; exact Nat.zero_le _
    rw [total_eq _ fun _ => []] at hle
    exact absurd (hpos.trans_le hle) (by simp)
  · rintro ⟨k, hk, hpos⟩
    rw [hmem] at hpos
    exact hpos.trans_le (countP_le_total _ _ hk)

/-! ### Reading escapes -/

/-- What a raw piece reads as: a byte stands for itself, and an escape for a byte that is not
null. -/
inductive Decodes : Bytes → Bytes → Prop
  | nil : Decodes [] []
  | byte {b raw v} : b ≠ percent → Decodes raw v → Decodes (b :: raw) (b :: v)
  | escape {h l x y raw v} : Percent.hexValue h = some x → Percent.hexValue l = some y →
      16 * x + y ≠ 0 → Decodes raw v →
        Decodes (percent :: h :: l :: raw) (UInt8.ofNat (16 * x + y) :: v)

theorem uriDecode_byte {b : UInt8} (hb : b ≠ percent) (bs : Bytes) :
    uriDecode (b :: bs) = (uriDecode bs).map (b :: ·) := by
  rcases bs with _ | ⟨h, _ | ⟨l, rest⟩⟩
  all_goals exact if_neg hb

theorem uriDecode_escape {h l : UInt8} {x y : ℕ} (hx : Percent.hexValue h = some x)
    (hy : Percent.hexValue l = some y) (rest : Bytes) :
    uriDecode (percent :: h :: l :: rest) =
      if 16 * x + y = 0 then none else (uriDecode rest).map (UInt8.ofNat (16 * x + y) :: ·) := by
  rw [uriDecode, if_pos rfl]
  simp only [hx, hy]

theorem uriDecode_of_decodes {raw v : Bytes} (h : Decodes raw v) : uriDecode raw = some v := by
  induction h with
  | nil => rfl
  | byte hb _ ih =>
    rw [uriDecode_byte hb, ih]
    rfl
  | escape hx hy hne _ ih =>
    rw [uriDecode_escape hx hy, if_neg hne, ih]
    rfl

theorem decodes_of_uriDecode {raw v : Bytes} (h : uriDecode raw = some v) : Decodes raw v := by
  induction raw using uriDecode.induct generalizing v with
  | case1 =>
    obtain rfl := Option.some.inj h
    exact .nil
  | case2 h' l rest x y hl hh hzero =>
    rw [uriDecode_escape hh hl, if_pos hzero] at h
    cases h
  | case3 h' l rest x y hl hh hne ih =>
    rw [uriDecode_escape hh hl, if_neg hne] at h
    obtain ⟨v, hv, rfl⟩ := Option.map_eq_some_iff.mp h
    exact .escape hh hl hne (ih hv)
  | case4 h' l rest hno =>
    rw [uriDecode, if_pos rfl] at h
    cases hh : Percent.hexValue h' with
    | none => simp [hh] at h
    | some x =>
      cases hl : Percent.hexValue l with
      | none => simp [hh, hl] at h
      | some y => exact absurd hl (hno x y hh)
  | case5 s hno =>
    rcases s with _ | ⟨h', _ | ⟨l, rest⟩⟩
    · cases h
    · cases h
    · exact absurd rfl (hno h' l rest)
  | case6 b s hb ih =>
    rw [uriDecode_byte hb] at h
    obtain ⟨v, hv, rfl⟩ := Option.map_eq_some_iff.mp h
    exact .byte hb (ih hv)

/-- **What an escaped piece reads as.** -/
theorem uriDecode_eq_some_iff {raw v : Bytes} : uriDecode raw = some v ↔ Decodes raw v :=
  ⟨decodes_of_uriDecode, uriDecode_of_decodes⟩

/-- A piece without escapes reads as itself. -/
theorem Decodes.self {raw : Bytes} (h : percent ∉ raw) : Decodes raw raw := by
  induction raw with
  | nil => exact .nil
  | cons b raw ih =>
    rw [List.mem_cons, not_or] at h
    exact .byte (Ne.symm h.1) (ih h.2)

/-- A piece has more plain bytes than what it reads as, by two for each escape. -/
theorem Decodes.plain_le {raw v : Bytes} (h : Decodes raw v) :
    v.countP isPlain ≤ raw.countP isPlain ∧
      (percent ∈ raw → v.countP isPlain + 2 ≤ raw.countP isPlain) := by
  induction h with
  | nil => simp
  | @byte b raw v hb _ ih =>
    rw [countP_cons _ b raw, countP_cons _ b v]
    refine ⟨by omega, fun hmem => ?_⟩
    have h := ih.2 ((List.mem_cons.mp hmem).resolve_left (Ne.symm hb))
    omega
  | @escape h l x y raw v hx hy _ _ ih =>
    have hdigit : ∀ d z, Percent.hexValue d = some z → [d].countP isPlain = 1 := by
      intro d z hd
      have hne : ∀ b, Percent.hexValue b = none → d ≠ b := by
        rintro b hb rfl
        rw [hb] at hd
        cases hd
      simp [isPlain, hne comma (by decide), hne slash (by decide), hne colon (by decide),
        hne atSign (by decide), hne opening (by decide), hne closing (by decide)]
    have hone : [UInt8.ofNat (16 * x + y)].countP isPlain ≤ 1 := List.countP_le_length
    have hpercent : [percent].countP isPlain = 1 := by decide
    rw [countP_cons _ percent, countP_cons _ h, countP_cons _ l, hdigit h x hx, hdigit l y hy,
      countP_cons _ (UInt8.ofNat _)]
    exact ⟨by omega, fun _ => by omega⟩

/-- A piece with no escape in it reads as itself. -/
theorem Decodes.eq_of_notMem {raw v : Bytes} (h : Decodes raw v) (hno : percent ∉ raw) :
    v = raw := by
  have hself := uriDecode_of_decodes (Decodes.self hno)
  rw [uriDecode_of_decodes h] at hself
  exact Option.some.inj hself

/-- A byte that begins no escape and is no digit is kept. -/
theorem Decodes.mem {raw v : Bytes} (h : Decodes raw v) {b : UInt8} (hb : b ∈ raw)
    (hpercent : b ≠ percent) (hdigit : Percent.hexValue b = none) : b ∈ v := by
  induction h with
  | nil => cases hb
  | byte _ _ ih =>
    rcases List.mem_cons.mp hb with rfl | hb
    · exact List.mem_cons_self
    · exact List.mem_cons_of_mem _ (ih hb)
  | escape hx hy _ _ ih =>
    rcases List.mem_cons.mp hb with rfl | hb
    · exact absurd rfl hpercent
    · rcases List.mem_cons.mp hb with rfl | hb
      · rw [hdigit] at hx
        cases hx
      · rcases List.mem_cons.mp hb with rfl | hb
        · rw [hdigit] at hy
          cases hy
        · exact List.mem_cons_of_mem _ (ih hb)

/-! ### Parameters of the query -/

theorem segments_append {s : Bytes} (hs : ampersand ∉ s) (rest : Bytes) :
    segments (s ++ ampersand :: rest) = s :: segments rest := by
  induction s with
  | nil => exact if_pos rfl
  | cons b s ih =>
    rw [List.mem_cons, not_or] at hs
    rw [List.cons_append, segments, if_neg (Ne.symm hs.1), ih hs.2]

theorem segments_start {w : Bytes} (hw : ampersand ∉ w) (hne : w ≠ []) (c : Bytes) :
    ∃ t l, segments (w ++ c) = (w ++ t) :: l := by
  induction w with
  | nil => exact absurd rfl hne
  | cons b w ih =>
    rw [List.mem_cons, not_or] at hw
    rw [List.cons_append, segments, if_neg (Ne.symm hw.1)]
    by_cases hnil : w = []
    · subst hnil
      split
      · exact ⟨[], [], rfl⟩
      · next t l _ => exact ⟨t, l, rfl⟩
    · obtain ⟨t, l, hseg⟩ := ih hw.2 hnil
      rw [hseg]
      exact ⟨t, l, rfl⟩

theorem segments_self {s : Bytes} (hs : ampersand ∉ s) (hne : s ≠ []) : segments s = [s] := by
  induction s with
  | nil => exact absurd rfl hne
  | cons b s ih =>
    rw [List.mem_cons, not_or] at hs
    rw [segments, if_neg (Ne.symm hs.1)]
    by_cases hnil : s = []
    · subst hnil
      rfl
    · rw [ih hs.2 hnil]

/-- Parameters that are written between `&` are read one by one. -/
theorem segments_joined {l : List Bytes} (h : ∀ s ∈ l, ampersand ∉ s ∧ s ≠ []) :
    segments (joined ampersand l) = l := by
  induction l with
  | nil => rfl
  | cons s l ih =>
    rw [List.forall_mem_cons] at h
    cases l with
    | nil => exact segments_self h.1.1 h.1.2
    | cons t l => rw [joined, segments_append h.1.1, ih h.2]

/-- **What stands between two `&` is in one parameter.** -/
theorem mem_segments_of_infix {w : Bytes} (hw : ampersand ∉ w) (hne : w ≠ []) (a c : Bytes) :
    ∃ s ∈ segments (a ++ w ++ c), ∃ a' c', s = a' ++ w ++ c' := by
  induction a with
  | nil =>
    obtain ⟨t, l, hseg⟩ := segments_start hw hne c
    exact ⟨w ++ t, by rw [List.nil_append, hseg]; exact List.mem_cons_self, [], t, rfl⟩
  | cons b a ih =>
    obtain ⟨s, hs, a', c', rfl⟩ := ih
    rw [List.cons_append, List.cons_append, segments]
    split
    · exact ⟨_, List.mem_cons_of_mem _ hs, a', c', rfl⟩
    · split
      · next hnil =>
        rw [hnil] at hs
        cases hs
      · next t l hseg =>
        rw [hseg] at hs
        rcases List.mem_cons.mp hs with rfl | hs
        · exact ⟨_, List.mem_cons_self, b :: a', c', by simp⟩
        · exact ⟨_, List.mem_cons_of_mem _ hs, a', c', rfl⟩

/-- The parameters take no more than the query. -/
theorem countP_segments_le (f : UInt8 → Bool) (s : Bytes) :
    (segments s).flatten.countP f ≤ s.countP f := by
  induction s with
  | nil => simp [segments]
  | cons b s ih =>
    rw [segments, countP_cons]
    split
    · rw [List.flatten_cons, List.nil_append]
      omega
    · split
      · simp
      · next t l hseg =>
        rw [hseg, List.flatten_cons, List.countP_append] at ih
        rw [List.flatten_cons, List.cons_append, countP_cons, List.countP_append]
        omega

/-- A parameter that was stored: a name and a value that are read, and what is stored for them. -/
structure Param (table : OptionTable K) (segment : Bytes) (k : Keyword K) (v : Bytes) where
  rawName : Bytes
  rawValue : Bytes
  name : Bytes
  value : Bytes
  eq : segment = rawName ++ equals :: rawValue
  rawName_plain : equals ∉ rawName
  rawValue_plain : equals ∉ rawValue
  name_decodes : Decodes rawName name
  value_decodes : Decodes rawValue value
  stored : (name ∈ [word "ssl", word "requiressl"] ∧ k = .other table.sslmode) ∨
    (keywordOf table name = some k ∧ v = value)

theorem exists_param {o o' : Options K} {segment : Bytes}
    (h : storeParam table o segment = some o') :
    ∃ k v, Nonempty (Param table segment k v) ∧ o' = Function.update o k (some v) := by
  rw [storeParam] at h
  split at h
  · cases h
  · next rawName c rawValue hcut =>
    obtain ⟨heq, hname, hbreak⟩ := cut_eq_iff.mp hcut
    have hc : c = equals := by simpa using hbreak c rfl
    have hplain : equals ∉ rawName := fun hmem => by simpa using hname equals hmem
    subst hc
    split at h
    · cases h
    · next hvalue =>
      obtain ⟨name, hn, h⟩ := Option.bind_eq_some_iff.mp h
      obtain ⟨value, hv, h⟩ := Option.bind_eq_some_iff.mp h
      have hdn := decodes_of_uriDecode hn
      have hdv := decodes_of_uriDecode hv
      split at h
      · next hssl =>
        obtain rfl := Option.some.inj h
        exact ⟨_, _, ⟨rawName, rawValue, name, value, heq, hplain, hvalue, hdn, hdv,
          .inl ⟨by simp [hssl.1], rfl⟩⟩, rfl⟩
      split at h
      · next hrequire =>
        obtain rfl := Option.some.inj h
        exact ⟨_, _, ⟨rawName, rawValue, name, value, heq, hplain, hvalue, hdn, hdv,
          .inl ⟨by simp [hrequire], rfl⟩⟩, rfl⟩
      · obtain ⟨k, hk, h⟩ := Option.bind_eq_some_iff.mp h
        obtain rfl := Option.some.inj h
        exact ⟨_, _, ⟨rawName, rawValue, name, value, heq, hplain, hvalue, hdn, hdv,
          .inr ⟨hk, rfl⟩⟩, rfl⟩

omit [DecidableEq K] in
/-- The names of keywords are words. -/
theorem question_notMem_of_keywordOf {name : Bytes} {k : Keyword K}
    (h : keywordOf table name = some k) : question ∉ name := by
  rw [keywordOf] at h
  split at h
  · next hname => exact hname ▸ by decide
  split at h
  · next hname => exact hname ▸ by decide
  split at h
  · next hname => exact hname ▸ by decide
  split at h
  · next hname => exact hname ▸ by decide
  split at h
  · next hname => exact hname ▸ by decide
  · intro hmem
    obtain ⟨k', hk', rfl⟩ := Option.map_eq_some_iff.mp h
    rw [(table.find_eq_some name k').mp hk', Utf8.mem_encode_iff (by decide)] at hmem
    obtain ⟨c, hc, hcode⟩ := hmem
    have hword := List.all_eq_true.mp (table.word k').2 c hc
    have hquestion : c = '?' := Char.toNat_inj.mp hcode
    rw [hquestion] at hword
    exact absurd hword (by decide)

omit [DecidableEq K] in
theorem Param.question_notMem {segment v : Bytes} {k : Keyword K} (p : Param table segment k v) :
    question ∉ p.rawName := by
  intro hmem
  have hname := p.name_decodes.mem hmem (by decide) (by decide)
  rcases p.stored with ⟨hssl, -⟩ | ⟨hk, -⟩
  · rw [List.mem_pair] at hssl
    rcases hssl with hssl | hssl
    · rw [hssl] at hname
      exact absurd hname (by decide)
    · rw [hssl] at hname
      exact absurd hname (by decide)
  · exact question_notMem_of_keywordOf hk hname

omit [DecidableEq K] in
/-- A `?` may stand in the value of a parameter and nowhere else. -/
theorem Param.question_equals {segment v : Bytes} {k : Keyword K} (p : Param table segment k v)
    (a w c : Bytes) : segment ≠ a ++ (question :: w ++ [equals]) ++ c := by
  intro hsegment
  have heq : p.rawName ++ equals :: p.rawValue = (a ++ question :: w) ++ equals :: c := by
    rw [← p.eq, hsegment]
    simp
  rcases List.append_eq_append_iff.mp heq with ⟨t, ht, htail⟩ | ⟨t, ht, -⟩
  · cases t with
    | nil =>
      refine p.question_notMem ?_
      rw [List.append_nil] at ht
      rw [← ht]
      simp
    | cons b t =>
      obtain ⟨rfl, hvalue⟩ := List.cons.inj htail
      refine p.rawValue_plain ?_
      rw [hvalue]
      simp
  · refine p.question_notMem ?_
    rw [ht]
    simp

theorem exists_param_of_mem {o o' : Options K} {segments : List Bytes}
    (h : segments.foldlM (storeParam table) o = some o') {s : Bytes} (hs : s ∈ segments) :
    ∃ k v, Nonempty (Param table s k v) := by
  induction segments generalizing o with
  | nil => cases hs
  | cons t l ih =>
    obtain ⟨o₁, ht, hl⟩ := Option.bind_eq_some_iff.mp h
    rcases List.mem_cons.mp hs with rfl | hs
    · obtain ⟨k, v, hparam, -⟩ := exists_param ht
      exact ⟨k, v, hparam⟩
    · exact ih hl hs

/-- **A name that follows a `?` in a query is not read.** -/
theorem no_second_question {o o' : Options K} {w : Bytes} (hw : ampersand ∉ w) (a c : Bytes) :
    (segments (a ++ (question :: w ++ [equals]) ++ c)).foldlM (storeParam table) o ≠ some o' := by
  intro h
  have hplain : ampersand ∉ question :: w ++ [equals] := by
    simp [hw, show ampersand ≠ question by decide, show ampersand ≠ equals by decide]
  obtain ⟨s, hs, a', c', heq⟩ := mem_segments_of_infix hplain (by simp) a c
  obtain ⟨k, v, ⟨p⟩⟩ := exists_param_of_mem h hs
  exact p.question_equals a' w c' heq

/-- The plain bytes that are stored under the keywords that have a place. -/
def weight (o : Options K) : ℕ := total isPlain fun k => (o k).getD []

theorem weight_update_le (o : Options K) (k : Keyword K) (v : Bytes) :
    weight (Function.update o k (some v)) ≤ weight o + v.countP isPlain := by
  cases k <;> simp [weight, total_eq, Function.update] <;> omega

/-- A parameter either stores nothing under the keywords that have a place, or takes up more than
what it stores. -/
theorem storeParam_weight {o o' : Options K} {segment : Bytes}
    (h : storeParam table o segment = some o') :
    (∀ k ∈ places, o' k = o k) ∨ weight o' < weight o + segment.countP isPlain := by
  obtain ⟨k, v, ⟨p⟩, rfl⟩ := exists_param h
  by_cases hk : k ∈ places
  · refine .inr ?_
    have hle := weight_update_le o k v
    rcases p.stored with ⟨-, rfl⟩ | ⟨hname, hv⟩
    · simp [places] at hk
    · have hval := p.value_decodes.plain_le.1
      have hequals : [equals].countP isPlain = 1 := by decide
      have hcount := congrArg (List.countP isPlain) hv
      rw [p.eq, List.countP_append, countP_cons, hequals]
      omega
  · refine .inl fun k' hk' => Function.update_of_ne ?_ _ _
    rintro rfl
    exact hk hk'

theorem foldlM_storeParam_weight {o o' : Options K} {segments : List Bytes}
    (h : segments.foldlM (storeParam table) o = some o') :
    (∀ k ∈ places, o' k = o k) ∨
      weight o' < weight o + segments.flatten.countP isPlain := by
  induction segments generalizing o with
  | nil =>
    obtain rfl := Option.some.inj h
    exact .inl fun _ _ => rfl
  | cons s l ih =>
    obtain ⟨o₁, hs, hl⟩ := Option.bind_eq_some_iff.mp h
    have hsame : ∀ {x y : Options K}, (∀ k ∈ places, x k = y k) → weight x = weight y :=
      fun hxy => total_congr fun k hk => by rw [hxy k hk]
    rw [List.flatten_cons, List.countP_append]
    rcases storeParam_weight hs with hs | hs
    · rcases ih hl with hl | hl
      · exact .inl fun k hk => (hl k hk).trans (hs k hk)
      · rw [hsame hs] at hl
        exact .inr (by omega)
    · rcases ih hl with hl | hl
      · rw [← hsame hl] at hs
        exact .inr (by omega)
      · exact .inr (by omega)

/-! ### What is stored -/

/-- Pieces that are read are stored where they are not empty. -/
theorem foldlM_storePiece {p : Pieces} (v : Keyword K → Bytes) (keys : List (Keyword K))
    (o : Options K) (h : ∀ k ∈ keys, p.raw k ≠ [] → Decodes (p.raw k) (v k)) :
    keys.foldlM (storePiece p) o =
      some fun j => if j ∈ keys ∧ p.raw j ≠ [] then some (v j) else o j := by
  induction keys generalizing o with
  | nil => simp
  | cons k keys ih =>
    rw [List.forall_mem_cons] at h
    have hk : storePiece p o k =
        some fun j => if j = k ∧ p.raw j ≠ [] then some (v j) else o j := by
      rw [storePiece]
      split
      · next hnil =>
        refine congrArg some (funext fun j => (if_neg ?_).symm)
        rintro ⟨rfl, hne⟩
        exact hne hnil
      · next hne =>
        rw [uriDecode_of_decodes (h.1 hne), Option.map_some]
        refine congrArg some (funext fun j => ?_)
        by_cases hj : j = k
        · subst hj
          rw [Function.update_self, if_pos ⟨rfl, hne⟩]
        · rw [Function.update_of_ne hj, if_neg fun hj' => hj hj'.1]
    rw [List.foldlM_cons, hk]
    refine (ih _ h.2).trans (congrArg some (funext fun j => ?_))
    by_cases hj : j = k
    · subst hj
      by_cases hraw : p.raw j = [] <;> simp [hraw]
    · simp [hj]

theorem decodes_of_foldlM {p : Pieces} {keys : List (Keyword K)} {o o' : Options K}
    (h : keys.foldlM (storePiece p) o = some o') :
    ∀ k ∈ keys, p.raw k ≠ [] → ∃ v, Decodes (p.raw k) v := by
  induction keys generalizing o with
  | nil => simp
  | cons k keys ih =>
    obtain ⟨o₁, hk, hkeys⟩ := Option.bind_eq_some_iff.mp h
    refine List.forall_mem_cons.mpr ⟨fun hne => ?_, ih hkeys⟩
    rw [storePiece, if_neg hne] at hk
    obtain ⟨v, hv, -⟩ := Option.map_eq_some_iff.mp hk
    exact ⟨v, decodes_of_uriDecode hv⟩

/-- What is stored under the keywords that have a place, from the pieces alone. -/
def FromPieces (p : Pieces) (o : Options K) : Prop :=
  ∀ k ∈ places, (p.raw k = [] ∧ o k = none) ∨
    p.raw k ≠ [] ∧ ∃ v, Decodes (p.raw k) v ∧ o k = some v

/-- **What is stored.** The pieces, and then the query; a query that stores something under the
keywords that have a place takes up more than that. -/
theorem store_spec {p : Pieces} {o : Options K} (h : store table p = some o) :
    ∃ o₁, FromPieces p o₁ ∧ (∀ k, o₁ (.other k) = none) ∧
      (segments (p.params.getD [])).foldlM (storeParam table) o₁ = some o ∧
        ((∀ k ∈ places, o k = o₁ k) ∨
          weight o < weight o₁ + (p.params.getD []).countP isPlain) := by
  obtain ⟨o₁, hpieces, hparams⟩ := Option.bind_eq_some_iff.mp h
  have hdec := decodes_of_foldlM hpieces
  choose! v hv using hdec
  rw [foldlM_storePiece v places _ hv] at hpieces
  obtain rfl := Option.some.inj hpieces
  refine ⟨_, fun k hk => ?_, fun k => by simp [places], hparams, ?_⟩
  · by_cases hraw : p.raw k = []
    · exact .inl ⟨hraw, by simp [hraw]⟩
    · exact .inr ⟨hraw, v k, hv k hk hraw, if_pos ⟨hk, hraw⟩⟩
  · have hle := countP_segments_le isPlain (p.params.getD [])
    rcases foldlM_storeParam_weight hparams with hsame | hcost
    · exact .inl hsame
    · exact .inr (by omega)

end Libpq
